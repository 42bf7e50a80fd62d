import SepLab.Raft.Simulation

/-!
# Safety of a cluster of Raft servers

The four safety properties of the protocol, for every cluster size, every order
of the sections of all servers, every delay and loss of messages, and any number
of crashes and restarts, as long as a killed instance takes no further step.

## Main results

* `election_safety` — a term has one leader, and only votes of that term count.
* `log_matching` — logs that agree on the term of an entry agree up to it.
* `leader_completeness` — later leaders have what was committed.
* `state_machine_safety` — no two servers apply different commands at one index.
-/

namespace SepLab
namespace Raft

open TermLog

variable {n : ℕ} {Cmd : Type} [Inhabited Cmd] {G : Gob n Cmd}

/-- Server `0` is elected in term `1` and replicates, commits and applies a
command, which server `1` applies as well; server `1` restarts and is elected in
term `2`. -/
def twoTerms : List (Action 3 ℕ) :=
  [.startElection 0 0, .requestVote 0, .voteReply 0, .start 0 0 7, .replicateTo 0 0 1 1,
    .appendEntries 0, .appendReply 0, .replicateTo 0 0 1 1, .appendEntries 0, .applier 0 0,
    .send 0 0, .applier 1 0, .send 1 0, .crash 1, .restart 1, .startElection 1 1, .requestVote 2,
    .voteReply 2]

/-- What an observer sees of it. -/
def twoTermsTrace : List (Event 3 ℕ) :=
  [.voteGranted 0 1 0, .voteGranted 1 1 0, .becameLeader 0 1 [⟨0, 0⟩],
    .committed 0 1 1 [⟨0, 0⟩, ⟨1, 7⟩], .applied 0 0 ⟨true, 7, 1⟩, .applied 1 0 ⟨true, 7, 1⟩,
    .voteGranted 1 2 1, .voteGranted 2 2 1, .becameLeader 1 2 [⟨0, 0⟩, ⟨1, 7⟩]]

theorem reach_twoTerms : ∃ s : Cluster (Gob.letter 3 ℕ),
    Reach Cluster.failStop (Cluster.init _) s ∧ s.trace = twoTermsTrace ∧
    (s.node 0).rf.log = [⟨0, 0⟩, ⟨1, 7⟩] ∧ (s.node 1).rf.log = [⟨0, 0⟩, ⟨1, 7⟩] := by
  have hrun : ((exec Cluster.failStop (Cluster.init (Gob.letter 3 ℕ)) twoTerms).map fun s =>
      (s.trace, (s.node 0).rf.log, (s.node 1).rf.log)) =
      some (twoTermsTrace, [⟨0, 0⟩, ⟨1, 7⟩], [⟨0, 0⟩, ⟨1, 7⟩]) := by decide
  obtain ⟨s, hs, hobs⟩ := Option.map_eq_some_iff.mp hrun
  simp only [Prod.mk.injEq] at hobs
  exact ⟨s, .of_exec twoTerms hs, hobs⟩

/-! ### Elections -/

/-- **Election safety.**  At most one server becomes the leader of a term.  No
server votes for two candidates in one term, the counter of a candidate counts
servers that voted for it in its own term, and a leader has the votes of a
majority in its term. -/
theorem election_safety {s : Cluster G} (h : Reach Cluster.failStop (Cluster.init G) s) :
    (∀ i j t l l', .becameLeader i t l ∈ s.trace → .becameLeader j t l' ∈ s.trace → i = j) ∧
    (∀ v t c c', .voteGranted v t c ∈ s.trace → .voteGranted v t c' ∈ s.trace → c = c') ∧
    (∀ i, (s.node i).rf.role = .candidate →
      ∃ S : Finset (Fin n), (s.node i).votes (s.node i).rf.currentTerm = S.card ∧
        ∀ v ∈ S, .voteGranted v (s.node i).rf.currentTerm i ∈ s.trace) ∧
    (∀ i t l, .becameLeader i t l ∈ s.trace → ∃ S : Finset (Fin n), majority n ≤ S.card ∧
      ∀ v ∈ S, .voteGranted v t i ∈ s.trace) := by
  obtain ⟨b, -, hb, href⟩ := Cluster.refines_of_reach h
  refine ⟨?_, ?_, ?_, ?_⟩
  · intro i j t l l' hi hj
    have hi := (href.trace _ hi).1
    have hj := (href.trace _ hj).1
    rw [hi, Option.some_inj] at hj
    exact hj
  · intro v t c c' hc hc'
    obtain ⟨l, hl⟩ := href.trace _ hc
    obtain ⟨l', hl'⟩ := href.trace _ hc'
    rw [hl, Option.some_inj, Prod.mk.injEq] at hl'
    exact hl'.1
  · intro i hr
    obtain ⟨S, hcard, hS, -⟩ := href.tally i hr
    refine ⟨S, hcard, fun v hv => ?_⟩
    obtain ⟨l, hl⟩ := hS v hv
    exact href.traced hl
  · intro i t l hl
    obtain ⟨S, hq, hS⟩ := hb.elections.leader_votes (href.trace _ hl).1
    have hcard : Fintype.card (Fin n) / 2 + 1 ≤ S.card := hq
    rw [Fintype.card_fin] at hcard
    refine ⟨S, hcard, fun v hv => ?_⟩
    obtain ⟨l', hl'⟩ := hS v hv
    exact href.traced hl'

theorem election_safety_twoTerms : ∃ s : Cluster (Gob.letter 3 ℕ),
    .becameLeader 0 1 [⟨0, 0⟩] ∈ s.trace ∧ .becameLeader 1 2 [⟨0, 0⟩, ⟨1, 7⟩] ∈ s.trace ∧
    (∀ j l, .becameLeader j 1 l ∈ s.trace → 0 = j) ∧
    ∃ S : Finset (Fin 3), 2 ≤ S.card ∧ ∀ v ∈ S, .voteGranted v 2 1 ∈ s.trace := by
  obtain ⟨s, hs, htrace, -⟩ := reach_twoTerms
  have h₁ : .becameLeader 0 1 [⟨0, 0⟩] ∈ s.trace := by rw [htrace]; decide
  have h₂ : .becameLeader 1 2 [⟨0, 0⟩, ⟨1, 7⟩] ∈ s.trace := by rw [htrace]; decide
  obtain ⟨hone, -, -, hmaj⟩ := election_safety hs
  exact ⟨s, h₁, h₂, fun j l hl => hone 0 j 1 _ l h₁ hl, hmaj 1 2 _ h₂⟩

/-! ### Logs -/

/-- **Log matching.**  If the logs of two servers have entries of the same term
at an index, they are identical up to it; and the terms of a log never go down. -/
theorem log_matching {s : Cluster G} (h : Reach Cluster.failStop (Cluster.init G) s) :
    (∀ i j idx e e', (s.node i).rf.log[idx]? = some e → (s.node j).rf.log[idx]? = some e' →
      e.term = e'.term →
      (s.node i).rf.log.take (idx + 1) = (s.node j).rf.log.take (idx + 1)) ∧
    ∀ i, (s.node i).rf.log.Pairwise fun e e' => e.term ≤ e'.term := by
  obtain ⟨b, -, hb, href⟩ := Cluster.refines_of_reach h
  have hlog : ∀ i, b.log i = (s.node i).rf.log := fun i => (href.peers i).log
  refine ⟨?_, fun i => hlog i ▸ hb.chains.log_ascending i⟩
  intro i j idx e e' he he' hterm
  obtain ⟨hi, rfl⟩ := List.getElem?_eq_some_iff.mp he
  obtain ⟨hj, rfl⟩ := List.getElem?_eq_some_iff.mp he'
  have hci : Coherent LogEntry.term b.chain (s.node i).rf.log := hlog i ▸ hb.chains.log_coherent i
  have hcj : Coherent LogEntry.term b.chain (s.node j).rf.log := hlog j ▸ hb.chains.log_coherent j
  exact hci.take_eq hcj hi hj hterm

theorem log_matching_twoTerms : ∃ s : Cluster (Gob.letter 3 ℕ),
    (s.node 0).rf.log[1]? = some ⟨1, 7⟩ ∧
    (s.node 0).rf.log.take 2 = (s.node 1).rf.log.take 2 := by
  obtain ⟨s, hs, -, h₀, h₁⟩ := reach_twoTerms
  have h₀' : (s.node 0).rf.log[1]? = some ⟨1, 7⟩ := by simp [h₀]
  have h₁' : (s.node 1).rf.log[1]? = some ⟨1, 7⟩ := by simp [h₁]
  exact ⟨s, h₀', (log_matching hs).1 0 1 1 _ _ h₀' h₁' rfl⟩

/-! ### Commitment -/

/-- **Leader completeness.**  When the leader of a term sets its commit index to
`k`, the log with which a server becomes the leader of any later term has the
same entries at the indices from `1` to `k`. -/
theorem leader_completeness {s : Cluster G} (h : Reach Cluster.failStop (Cluster.init G) s)
    {i j : Fin n} {t t' k : ℕ} {l l' : List (LogEntry Cmd)}
    (hc : .committed i t k l ∈ s.trace) (hl : .becameLeader j t' l' ∈ s.trace) (ht : t < t') :
    ∀ idx, 1 ≤ idx → idx ≤ k → ∃ e, l[idx]? = some e ∧ l'[idx]? = some e := by
  obtain ⟨b, -, hb, href⟩ := Cluster.refines_of_reach h
  obtain ⟨-, hcommitted, hpre, hk⟩ := href.trace _ hc
  obtain ⟨hleader, hstood⟩ := href.trace _ hl
  have hne : b.leader t' ≠ none := by
    rw [hleader]
    exact Option.some_ne_none j
  -- the leader's chain is the log it stood with and entries of its own term
  obtain ⟨es, hes, hterm⟩ := hb.chains.chain_stood hleader hstood
  have hchain : (b.chain t).take (k + 1) <+: l' := by
    have := hb.acks.committed_isPrefix hcommitted hne ht
    rw [hes] at this
    refine prefix_of_prefix_append LogEntry.term this (t := t') ?_ ?_
    · intro e he
      have := hb.chains.chain_le (List.mem_of_mem_take he)
      omega
    · intro e he
      exact (hterm e he).ge
  intro idx _ hidx
  have hidx' : idx < l.length := by omega
  have hin : idx < ((b.chain t).take (k + 1)).length := by
    have := hcommitted.2.1
    rw [List.length_take]
    omega
  refine ⟨l[idx], List.getElem?_eq_getElem hidx', ?_⟩
  rw [List.getElem?_eq_getElem (hin.trans_le hchain.length_le), ← hchain.getElem hin,
    List.getElem_take, Option.some_inj]
  exact (hpre.getElem hidx').symm

theorem leader_completeness_twoTerms : ∃ s : Cluster (Gob.letter 3 ℕ),
    .committed 0 1 1 [⟨0, 0⟩, ⟨1, 7⟩] ∈ s.trace ∧ ∃ l, .becameLeader 1 2 l ∈ s.trace ∧
    ∃ e, ([⟨0, 0⟩, ⟨1, 7⟩] : List (LogEntry ℕ))[1]? = some e ∧ l[1]? = some e := by
  obtain ⟨s, hs, htrace, -⟩ := reach_twoTerms
  have hc : .committed 0 1 1 [⟨0, 0⟩, ⟨1, 7⟩] ∈ s.trace := by rw [htrace]; decide
  have hl : .becameLeader 1 2 [⟨0, 0⟩, ⟨1, 7⟩] ∈ s.trace := by rw [htrace]; decide
  exact ⟨s, hc, _, hl, leader_completeness hs hc hl (by decide) 1 le_rfl le_rfl⟩

/-- **State-machine safety.**  No two messages that any instances of any servers
deliver have the same index and different commands. -/
theorem state_machine_safety {s : Cluster G} (h : Reach Cluster.failStop (Cluster.init G) s)
    {i j : Fin n} {k l : ℕ} {msg msg' : ApplyMsg Cmd} (hm : .applied i k msg ∈ s.trace)
    (hm' : .applied j l msg' ∈ s.trace) (hidx : msg.commandIndex = msg'.commandIndex) :
    msg.command = msg'.command := by
  obtain ⟨b, -, hb, href⟩ := Cluster.refines_of_reach h
  obtain ⟨t, m, hc, hlt, hcmd⟩ := href.trace _ hm
  obtain ⟨t', m', hc', hlt', hcmd'⟩ := href.trace _ hm'
  -- both commands are at the same place of two committed logs
  have htake : ((b.chain t).take m)[msg.commandIndex]? =
      ((b.chain t').take m')[msg.commandIndex]? := by
    have hin : msg.commandIndex < ((b.chain t).take m).length := by
      have := hc.2.1
      rw [List.length_take]
      omega
    have hin' : msg.commandIndex < ((b.chain t').take m').length := by
      have := hc'.2.1
      rw [List.length_take]
      omega
    rw [List.getElem?_eq_getElem hin, List.getElem?_eq_getElem hin', Option.some_inj]
    rcases hb.acks.committed_comparable hb.chains hc hc' with hle | hle
    · exact hle.getElem hin
    · exact (hle.getElem hin').symm
  rw [List.getElem?_take_of_lt hlt, List.getElem?_take_of_lt (by rwa [hidx])] at htake
  rw [htake, hidx, hcmd', Option.some_inj] at hcmd
  exact hcmd.symm

theorem state_machine_safety_twoTerms : ∃ (s : Cluster (Gob.letter 3 ℕ)) (msg msg' : ApplyMsg ℕ),
    .applied 0 0 msg ∈ s.trace ∧ .applied 1 0 msg' ∈ s.trace ∧
    msg.commandIndex = msg'.commandIndex ∧ msg.command = msg'.command := by
  obtain ⟨s, hs, htrace, -⟩ := reach_twoTerms
  have h₀ : .applied 0 0 ⟨true, 7, 1⟩ ∈ s.trace := by rw [htrace]; decide
  have h₁ : .applied 1 0 ⟨true, 7, 1⟩ ∈ s.trace := by rw [htrace]; decide
  exact ⟨s, _, _, h₀, h₁, rfl, state_machine_safety hs h₀ h₁ rfl⟩

end Raft
end SepLab
