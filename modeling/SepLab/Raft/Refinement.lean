import SepLab.Lib.LeaderCompleteness
import SepLab.Raft.Persistence

/-!
# A server refines the abstract replicated log

The knowledge of `SepLab.Ballots`, over the servers and log entries of a cluster
and with majorities as quorums, explains what a single server's state means:
its term and log are the voter's, a leader leads its term, a `matchIndex` counts
entries that were acknowledged, and the entries up to `commitIndex` are
committed.  Each section of `raft.go` is then a few steps of the abstract
protocol, taken by the server that runs it.

## Main definitions

* `Settled b u l k` — the first `k + 1` entries of `l` are committed in a term up to `u`.
* `Refines b i p` — peer `p` of server `i` is as the knowledge `b` has it.
* `Event.Known b e` — the event `e` is part of the knowledge `b`.
* `Simulates b b' i p' es` — server `i` gets from `b` to `b'`, ends in `p'` and shows `es`.

## Main results

* `appendLoop_eq` — the loop of `AppendEntries` adopts the leader's log unless
  it already has it.
* `Refines.requestVote`, `Refines.startElection`, `Refines.voteReply`,
  `Refines.start`, `Refines.appendEntries`, `Refines.appendReply` — each section
  simulates steps of the abstract protocol.
-/

namespace SepLab
namespace Raft

open TermLog

variable {n : ℕ} {Cmd : Type} [Inhabited Cmd] {G : Gob n Cmd}

/-- Knowledge about the servers of a cluster. -/
abbrev Knowledge (n : ℕ) (Cmd : Type) := Ballots (Fin n) (LogEntry Cmd)

/-- The invariants, with majorities for quorums and the sentinel for genesis log. -/
abbrev Knowledge.Sound (b : Knowledge n Cmd) : Prop :=
  Ballots.Sound (.majority (Fin n)) LogEntry.term [sentinel] b

/-- Server `i` alone has acted between `b` and `b'`. -/
abbrev Knowledge.Moves (i : Fin n) (b b' : Knowledge n Cmd) : Prop :=
  Ballots.Moves (.majority (Fin n)) LogEntry.term i b b'

/-- A majority has the first `k` entries of the leader of `t`, the last of them of term `t`. -/
abbrev Knowledge.Committed (b : Knowledge n Cmd) (t k : ℕ) : Prop :=
  Ballots.Committed (.majority (Fin n)) LogEntry.term b t k

/-- A run of the abstract protocol. -/
abbrev Knowledge.Steps (b b' : Knowledge n Cmd) : Prop :=
  Ballots.Steps (.majority (Fin n)) LogEntry.term b b'

/-- One abstract step of server `i`. -/
abbrev Knowledge.Step (i : Fin n) (b b' : Knowledge n Cmd) : Prop :=
  Ballots.Step (.majority (Fin n)) LogEntry.term i b b'

/-! ### Logs -/

omit [Inhabited Cmd] in
theorem lastLogTerm_eq (log : List (LogEntry Cmd)) :
    lastLogTerm log = lastTerm LogEntry.term log := by
  unfold lastLogTerm termAt lastTerm
  rw [List.getLast?_eq_getElem?]

omit [Inhabited Cmd] in
theorem termAt_of_lt {log : List (LogEntry Cmd)} {i : ℕ} (h : i < log.length) :
    termAt log i = log[i].term := by
  unfold termAt
  rw [List.getElem?_eq_getElem h]
  rfl

theorem length_pos_of_sentinel {log : List (LogEntry Cmd)} (h : [sentinel] <+: log) :
    0 < log.length := by
  have := h.length_le
  rw [List.length_singleton] at this
  omega

/-- The vote handler compares logs as the abstract protocol does. -/
theorem upToDate_eq_true {log l : List (LogEntry Cmd)} {args : RequestVoteArgs n}
    (hl : [sentinel] <+: l) (hlog : [sentinel] <+: log)
    (hi : args.lastLogIndex = lastLogIndex l) (ht : args.lastLogTerm = lastLogTerm l)
    (h : upToDate log args = true) : UpToDate LogEntry.term l log := by
  have h₁ := length_pos_of_sentinel hl
  have h₂ := length_pos_of_sentinel hlog
  unfold upToDate at h
  rw [hi, ht, lastLogTerm_eq, lastLogTerm_eq] at h
  simp only [Bool.or_eq_true, Bool.and_eq_true, decide_eq_true_eq, beq_iff_eq, lastLogIndex] at h
  rcases h with h | ⟨h, hlen⟩
  · exact Or.inl h
  · have hlen := of_decide_eq_true hlen
    exact Or.inr ⟨h.symm, by omega⟩

omit [Inhabited Cmd] in
/-- **The loop of `AppendEntries`.**  If the follower's log and the leader's log
`m` are coherent and agree below `idx`, the loop over the entries of `m` from
`idx` on leaves the follower's log as it is when it holds `m`, and makes it `m`
otherwise. -/
theorem appendLoop_eq {chain : ℕ → List (LogEntry Cmd)} {log m : List (LogEntry Cmd)}
    (hlog : Coherent LogEntry.term chain log) (hm : Coherent LogEntry.term chain m)
    (entries : List (LogEntry Cmd)) (idx : ℕ) (hpos : 0 < idx) (hidx : idx ≤ log.length)
    (hidx' : idx ≤ m.length) (htake : log.take idx = m.take idx)
    (hent : entries = m.drop idx) :
    m <+: log ∧ appendLoop log idx entries = log ∨
      ¬ m <+: log ∧ appendLoop log idx entries = m := by
  induction entries generalizing idx with
  | nil =>
    -- the leader's log ends here
    have hlen : m.length ≤ idx := List.drop_eq_nil_iff.mp hent.symm
    refine Or.inl ⟨?_, rfl⟩
    rw [← List.take_of_length_le hlen, ← htake]
    exact List.take_prefix _ _
  | cons entry rest ih =>
    have hlt : idx < m.length := by
      by_contra hge
      rw [List.drop_of_length_le (by omega)] at hent
      cases hent
    rw [List.drop_eq_getElem_cons hlt, List.cons.injEq] at hent
    obtain ⟨rfl, rfl⟩ := hent
    have hm' : m.take idx ++ m[idx] :: m.drop (idx + 1) = m := by
      rw [← List.drop_eq_getElem_cons hlt, List.take_append_drop]
    unfold appendLoop lastLogIndex
    by_cases hin : idx ≤ log.length - 1
    · have hlog' : idx < log.length := by omega
      rw [if_pos hin, termAt_of_lt hlog']
      by_cases hterm : log[idx].term = m[idx].term
      · -- the follower has the entry
        rw [if_pos hterm]
        exact ih (idx + 1) (by omega) (by omega) (by omega) (hlog.take_eq hm hlog' hlt hterm) rfl
      · -- the logs disagree: the rest of the follower's goes
        rw [if_neg hterm]
        refine Or.inr ⟨?_, by rw [htake, hm']⟩
        intro hpre
        exact hterm (by rw [prefix_getElem hpre hlt hlog'])
    · -- the follower's log ends here
      have hend : log.length = idx := by omega
      rw [if_neg hin]
      refine Or.inr ⟨?_, ?_⟩
      · intro hpre
        have := hpre.length_le
        omega
      · rw [← List.take_of_length_le hend.le, htake, hm']

/-! ### Commitment -/

/-- The first `k + 1` entries of `l` are committed in a term up to `u`; the
sentinel needs no commitment. -/
def Settled (b : Knowledge n Cmd) (u : ℕ) (l : List (LogEntry Cmd)) (k : ℕ) : Prop :=
  k = 0 ∨ ∃ t m, t ≤ u ∧ b.Committed t m ∧ k < m ∧ (b.chain t).take (k + 1) <+: l

omit [Inhabited Cmd] in
theorem Settled.grows {b b' : Knowledge n Cmd} {u u' k : ℕ} {l l' : List (LogEntry Cmd)}
    (h : Settled b u l k) (hb : Ballots.Grows b b') (hu : u ≤ u') (hl : l <+: l') :
    Settled b' u' l' k := by
  rcases h with h | ⟨t, m, htu, hc, hk, hpre⟩
  · exact Or.inl h
  · refine Or.inr ⟨t, m, htu.trans hu, hc.grows hb, hk, ?_⟩
    have hlen := hc.2.1
    rw [Ballots.prefix_take_eq (hb.chain t) (by omega)]
    exact hpre.trans hl

omit [Inhabited Cmd] in
/-- A settled log reaches past the settled index. -/
theorem Settled.lt_length {b : Knowledge n Cmd} {u k : ℕ} {l : List (LogEntry Cmd)}
    (h : Settled b u l k) (hl : 0 < l.length) : k < l.length := by
  rcases h with rfl | ⟨t, m, -, ⟨-, hlen, -⟩, hk, hpre⟩
  · exact hl
  · have := hpre.length_le
    rw [List.length_take] at this
    omega

omit [Inhabited Cmd] in
theorem Settled.of_le {b : Knowledge n Cmd} {u j k : ℕ} {l : List (LogEntry Cmd)}
    (h : Settled b u l k) (hj : j ≤ k) : Settled b u l j := by
  rcases h with rfl | ⟨t, m, htu, hc, hk, hpre⟩
  · exact Or.inl (Nat.le_zero.mp hj)
  · exact Or.inr ⟨t, m, htu, hc, by omega, (List.take_prefix_take_left (by omega)).trans hpre⟩

/-- **Two logs that are settled up to the same index are the same up to it.** -/
theorem Settled.take_eq {b : Knowledge n Cmd} (hb : b.Sound) {u u' k : ℕ}
    {l l' : List (LogEntry Cmd)} (hl : [sentinel] <+: l) (hl' : [sentinel] <+: l')
    (h : Settled b u l k) (h' : Settled b u' l' k) : l.take (k + 1) = l'.take (k + 1) := by
  have hzero : l.take 1 = l'.take 1 := by
    rw [Ballots.prefix_take_eq hl (List.length_singleton.ge),
      Ballots.prefix_take_eq hl' (List.length_singleton.ge)]
  rcases h with rfl | ⟨t, m, -, hc, hk, hpre⟩
  · exact hzero
  rcases h' with rfl | ⟨t', m', -, hc', hk', hpre'⟩
  · exact hzero
  -- both are the committed entries, and committed chains agree
  have htake : ∀ {t m : ℕ} {l : List (LogEntry Cmd)}, b.Committed t m → k < m →
      (b.chain t).take (k + 1) <+: l → k + 1 ≤ ((b.chain t).take m).length ∧
        l.take (k + 1) = ((b.chain t).take m).take (k + 1) := by
    intro t m l hc hk hpre
    have hlen := hc.2.1
    refine ⟨by rw [List.length_take]; omega, ?_⟩
    rw [Ballots.prefix_take_eq hpre (by rw [List.length_take]; omega), List.take_take,
      List.take_take, min_self, Nat.min_eq_left hk]
  obtain ⟨hlen, htl⟩ := htake hc hk hpre
  obtain ⟨hlen', htl'⟩ := htake hc' hk' hpre'
  rw [htl, htl']
  rcases hb.acks.committed_comparable hb.chains hc hc' with hle | hle
  · exact (Ballots.prefix_take_eq hle hlen).symm
  · exact Ballots.prefix_take_eq hle hlen'

/-- A leader's log does not overwrite what is settled. -/
theorem Settled.overwrite {b : Knowledge n Cmd} (hb : b.Sound) {u k : ℕ}
    {l m l' : List (LogEntry Cmd)} (h : Settled b u l k) (hu : b.leader u ≠ none)
    (hm : m <+: b.chain u) (hl : m <+: l ∧ l' = l ∨ ¬ m <+: l ∧ l' = m) :
    Settled b u l' k := by
  rcases h with h | ⟨t, j, htu, hc, hk, hpre⟩
  · exact Or.inl h
  · refine Or.inr ⟨t, j, htu, hc, hk, ?_⟩
    rcases hl with ⟨-, rfl⟩ | ⟨hnot, rfl⟩
    · exact hpre
    · refine prefix_of_overwrite (x := b.chain u) ?_ hm hpre hnot
      rcases htu.eq_or_lt with rfl | hlt
      · exact List.take_prefix _ _
      · have hle : (b.chain t).take (k + 1) <+: (b.chain t).take j :=
          List.take_prefix_take_left (by omega)
        exact hle.trans (hb.acks.committed_isPrefix hc hu hlt)

/-- A message of the state machine is a committed entry. -/
def ApplyMsg.Known (b : Knowledge n Cmd) (msg : ApplyMsg Cmd) : Prop :=
  ∃ t m, b.Committed t m ∧ msg.commandIndex < m ∧
    (b.chain t)[msg.commandIndex]?.map LogEntry.command = some msg.command

omit [Inhabited Cmd] in
theorem ApplyMsg.Known.grows {b b' : Knowledge n Cmd} {msg : ApplyMsg Cmd} (h : msg.Known b)
    (hb : Ballots.Grows b b') : msg.Known b' := by
  obtain ⟨t, m, hc, hlt, hcmd⟩ := h
  refine ⟨t, m, hc.grows hb, hlt, ?_⟩
  have hlen : msg.commandIndex < (b.chain t).length := hlt.trans_le hc.2.1
  obtain ⟨es, hes⟩ := hb.chain t
  rw [← hes, List.getElem?_append_left hlen]
  exact hcmd

/-- An event of a run is part of the knowledge. -/
def Event.Known (b : Knowledge n Cmd) : Event n Cmd → Prop
  | .voteGranted voter t candidate => ∃ l, b.vote voter t = some (candidate, l)
  | .becameLeader i t l => b.leader t = some i ∧ b.stood i t = some l
  | .committed i t k l => b.leader t = some i ∧ b.Committed t (k + 1) ∧ l <+: b.chain t ∧
      k < l.length
  | .applied _ _ msg => msg.Known b

omit [Inhabited Cmd] in
theorem Event.Known.grows {b b' : Knowledge n Cmd} {e : Event n Cmd} (h : e.Known b)
    (hb : Ballots.Grows b b') : e.Known b' := by
  cases e with
  | voteGranted v t c =>
    obtain ⟨l, hl⟩ := h
    exact ⟨l, hb.vote hl⟩
  | becameLeader i t l => exact ⟨hb.leader h.1, hb.stood h.2⟩
  | committed i t k l =>
    exact ⟨hb.leader h.1, h.2.1.grows hb, h.2.2.1.trans (hb.chain t), h.2.2.2⟩
  | applied i k msg => exact ApplyMsg.Known.grows h hb

/-! ### One server -/

/-- Peer `p` of server `i` is as the knowledge `b` has it. -/
structure Refines (b : Knowledge n Cmd) (i : Fin n) (p : Peer G) : Prop where
  saved : p.Saved
  current : b.current i = p.rf.currentTerm
  log : b.log i = p.rf.log
  vote : (b.vote i p.rf.currentTerm).map Prod.fst = p.rf.votedFor
  leader : p.rf.role = .leader → b.leader p.rf.currentTerm = some i
  candidate : p.rf.role = .candidate →
    b.stood i p.rf.currentTerm = some p.rf.log ∧ b.leader p.rf.currentTerm ≠ some i
  matched : p.rf.role = .leader → ∀ j, j ≠ i →
    p.rf.matchIndex j = 0 ∨ p.rf.matchIndex j < b.acked j p.rf.currentTerm
  settled : Settled b p.rf.currentTerm p.rf.log p.rf.commitIndex
  applied : p.rf.lastApplied ≤ p.rf.commitIndex

/-- What another server does leaves a server as it is. -/
theorem Refines.of_moves {b b' : Knowledge n Cmd} {i j : Fin n} {p : Peer G} (h : Refines b i p)
    (hm : Knowledge.Moves j b b') (hij : i ≠ j) : Refines b' i p where
  saved := h.saved
  current := (hm.current_eq hij).trans h.current
  log := (hm.log_eq hij).trans h.log
  vote := by rw [hm.vote_eq hij]; exact h.vote
  leader hr := hm.grows.leader (h.leader hr)
  candidate hr := ⟨hm.grows.stood (h.candidate hr).1,
    fun hl => (h.candidate hr).2 (hm.leader_eq hij hl)⟩
  matched hr k hk := (h.matched hr k hk).imp_right fun hlt => hlt.trans_le (hm.grows.acked k _)
  settled := h.settled.grows hm.grows le_rfl List.prefix_rfl
  applied := h.applied

/-- Server `i` takes the knowledge from `b` to `b'` and ends in `p'`, and an
observer sees `es`. -/
structure Simulates (b b' : Knowledge n Cmd) (i : Fin n) (p' : Peer G) (es : List (Event n Cmd)) :
    Prop where
  moves : Knowledge.Moves i b b'
  refines : Refines b' i p'
  events : ∀ e ∈ es, e.Known b'
  votes : ∀ {t c l}, b'.vote i t = some (c, l) → b.vote i t = some (c, l) ∨
    Event.voteGranted i t c ∈ es

theorem Refines.simulates {b : Knowledge n Cmd} {i : Fin n} {p' : Peer G} (h : Refines b i p') :
    Simulates b b i p' [] :=
  ⟨.refl i b, h, by simp, Or.inl⟩

end Raft
end SepLab
