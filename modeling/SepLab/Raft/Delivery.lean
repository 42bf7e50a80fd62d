import SepLab.Raft.Safety
import SepLab.Raft.Steps

/-!
# Append requests that arrive twice or out of order

The network may deliver the requests of a leader in any order and more than
once.  All requests of one term are cut out of one growing log, the chain of the
term, and a follower that accepts a request takes over what it was cut out of.
Taking over two prefixes of one list is the same in either order, and a commit
index is only ever raised to the leader's.

## Main definitions

* `Peer.Handled` — what `AppendEntries` does with a request of a current or later term.
* `Peer.after`, `Peer.accepts` — the follower after a request, and whether it reports success.
* `Cluster.SentIn as args` — some server sends `args` in the run `as`.

## Main results

* `Peer.appendEntries_handled` — the handler, case by case.
* `AppendEntriesArgs.Cut.accepted` — what an accepted request does to log and commit index.
* `appendEntries_reordered` — **two requests of one term that are accepted in either order
  leave the same log and the same commit index in either order**, and neither changes
  anything when it comes again.
-/

namespace SepLab
namespace Raft

open TermLog

variable {n : ℕ} {Cmd : Type} {G : Gob n Cmd}

/-! ### The handler -/

namespace Peer

theorem observe_log (p : Peer G) (t : ℕ) : (p.observe t).rf.log = p.rf.log := by
  unfold observe
  split
  · rfl
  · rfl

/-- What `AppendEntries` makes of a log and a commit index, and its reply, unless
the request is of an earlier term. -/
inductive Handled (log : List (LogEntry Cmd)) (commitIndex : ℕ) (args : AppendEntriesArgs n Cmd) :
    List (LogEntry Cmd) → ℕ → AppendEntriesReply → Prop
  /-- The log ends before the batch begins. -/
  | short (hprev : lastLogIndex log < args.prevLogIndex) :
      Handled log commitIndex args log commitIndex
        ⟨args.term, false, -1, lastLogIndex log + 1⟩
  /-- The entry before the batch is another one. -/
  | conflict (hprev : args.prevLogIndex ≤ lastLogIndex log)
      (hterm : termAt log args.prevLogIndex ≠ args.prevLogTerm) :
      Handled log commitIndex args log commitIndex
        ⟨args.term, false, termAt log args.prevLogIndex,
          conflictStart log (termAt log args.prevLogIndex) args.prevLogIndex⟩
  /-- The batch follows. -/
  | appended (hprev : args.prevLogIndex ≤ lastLogIndex log)
      (hterm : termAt log args.prevLogIndex = args.prevLogTerm) :
      Handled log commitIndex args (appendLoop log (args.prevLogIndex + 1) args.entries)
        (if args.leaderCommit > commitIndex then
          min args.leaderCommit (args.prevLogIndex + args.entries.length) else commitIndex)
        ⟨args.term, true, -1, -1⟩

theorem Handled.reply_term {log log' : List (LogEntry Cmd)} {c c' : ℕ}
    {args : AppendEntriesArgs n Cmd} {reply : AppendEntriesReply}
    (h : Handled log c args log' c' reply) : reply.term = args.term := by
  cases h with
  | short _ => rfl
  | conflict _ _ => rfl
  | appended _ _ => rfl

/-- **The handler, case by case.** -/
theorem appendEntries_handled {p : Peer G} {args : AppendEntriesArgs n Cmd}
    (h : p.rf.currentTerm ≤ args.term) :
    (p.appendEntries args).1.rf.currentTerm = args.term ∧
      Handled p.rf.log p.rf.commitIndex args (p.appendEntries args).1.rf.log
        (p.appendEntries args).1.rf.commitIndex (p.appendEntries args).2 := by
  have hterm : (p.observe args.term).rf.currentTerm = args.term := by
    rw [observe_currentTerm]
    exact max_eq_right h
  have hlog := p.observe_log args.term
  obtain ⟨-, hcommit, -⟩ := p.observe_kept args.term
  unfold appendEntries
  rw [if_neg (not_lt.mpr h)]
  generalize p.observe args.term = q at hterm hlog hcommit ⊢
  dsimp only
  rw [← hlog, ← hcommit, hterm]
  split
  · next hprev => exact ⟨rfl, .short hprev⟩
  next hprev =>
  split
  · next hne => exact ⟨rfl, .conflict (not_lt.mp hprev) hne⟩
  · next heq => exact ⟨rfl, .appended (not_lt.mp hprev) (not_not.mp heq)⟩

/-- The follower once it has handled a request. -/
def after (p : Peer G) (args : AppendEntriesArgs n Cmd) : Peer G := (p.appendEntries args).1

/-- The follower reports success. -/
def accepts (p : Peer G) (args : AppendEntriesArgs n Cmd) : Prop :=
  (p.appendEntries args).2.success = true

/-- Two states of a follower with the same log and the same commit index. -/
def SameLog (p q : Peer G) : Prop := p.rf.log = q.rf.log ∧ p.rf.commitIndex = q.rf.commitIndex

/-- A request that the follower rejects leaves its log and its commit index as they are. -/
theorem sameLog_of_not_accepts {p : Peer G} {args : AppendEntriesArgs n Cmd}
    (h : ¬ p.accepts args) : (p.after args).SameLog p := by
  unfold accepts at h
  unfold after
  by_cases hle : p.rf.currentTerm ≤ args.term
  · obtain ⟨-, hhandled⟩ := p.appendEntries_handled hle
    generalize p.appendEntries args = r at h hhandled ⊢
    obtain ⟨q, reply⟩ := r
    show q.rf.log = p.rf.log ∧ q.rf.commitIndex = p.rf.commitIndex
    generalize q.rf.log = log' at hhandled ⊢
    generalize q.rf.commitIndex = c' at hhandled ⊢
    cases hhandled with
    | short _ => exact ⟨rfl, rfl⟩
    | conflict _ _ => exact ⟨rfl, rfl⟩
    | appended _ _ => exact absurd rfl h
  · unfold appendEntries
    rw [if_pos (not_le.mp hle)]
    exact ⟨rfl, rfl⟩

end Peer

/-! ### One delivery -/

variable [Inhabited Cmd] {b : Knowledge n Cmd}

/-- A server that is in no later term than `t` and whose log is coherent with the chains. -/
structure Peer.Follows (b : Knowledge n Cmd) (t : ℕ) (p : Peer G) : Prop where
  term : p.rf.currentTerm ≤ t
  log : Coherent LogEntry.term b.chain p.rf.log
  length : 0 < p.rf.log.length

theorem Peer.Follows.of_refines {i : Fin n} {p : Peer G} {t : ℕ} (hb : b.Sound)
    (h : Refines b i p) (ht : p.rf.currentTerm ≤ t) : p.Follows b t where
  term := ht
  log := h.log ▸ hb.chains.log_coherent i
  length := by
    rw [← h.log]
    exact length_pos_of_sentinel (hb.chains.log_genesis i)

/-- **An accepted request.**  The follower takes over what the request was cut
out of, and raises its commit index to the leader's. -/
theorem AppendEntriesArgs.Cut.accepted (hb : b.Sound) {args : AppendEntriesArgs n Cmd}
    {m : List (LogEntry Cmd)} (hm : args.Cut b m) {p : Peer G} (hp : p.Follows b args.term)
    (hs : p.accepts args) :
    (p.after args).Follows b args.term ∧ Adopts p.rf.log m (p.after args).rf.log ∧
      (p.after args).rf.commitIndex = max p.rf.commitIndex args.leaderCommit := by
  obtain ⟨hterm, hhandled⟩ := p.appendEntries_handled hp.term
  have hlen := hp.length
  have hlenm := hm.length
  unfold Peer.accepts at hs
  unfold Peer.after
  generalize p.appendEntries args = r at hs hterm hhandled ⊢
  obtain ⟨q, reply⟩ := r
  dsimp only at hs hterm hhandled ⊢
  generalize hlog : q.rf.log = log' at hhandled ⊢
  generalize hc : q.rf.commitIndex = c' at hhandled ⊢
  cases hhandled with
  | short _ => cases hs
  | conflict _ _ => cases hs
  | appended hprev hprevTerm =>
    have hin : args.prevLogIndex < p.rf.log.length := by
      unfold lastLogIndex at hprev
      omega
    have hadopts := hm.adopts hb hp.log hin hprevTerm
    refine ⟨⟨hterm.le, ?_, ?_⟩, hadopts, ?_⟩
    · rw [hlog]
      exact hadopts.coherent hp.log ((hb.chains.chain_coherent _).of_isPrefix hm.chain)
    · rw [hlog]
      have := hadopts.holds.length_le
      omega
    · -- the batch reaches the leader's commit index
      rw [min_eq_left hm.leaderCommit_le]
      split
      · next hgt => exact (max_eq_right hgt.le).symm
      · next hle => exact (max_eq_left (not_lt.mp hle)).symm

/-- A request whose prefix the log holds and whose commit index is reached changes nothing. -/
theorem AppendEntriesArgs.Cut.again (hb : b.Sound) {args : AppendEntriesArgs n Cmd}
    {m : List (LogEntry Cmd)} (hm : args.Cut b m) {p : Peer G} (hp : p.Follows b args.term)
    (hlog : m <+: p.rf.log) (hcommit : args.leaderCommit ≤ p.rf.commitIndex) :
    (p.after args).SameLog p := by
  by_cases hs : p.accepts args
  · obtain ⟨-, hadopts, hc⟩ := hm.accepted hb hp hs
    exact ⟨hadopts.eq_of_holds hlog, hc.trans (max_eq_left hcommit)⟩
  · exact Peer.sameLog_of_not_accepts hs

/-- **Two requests of one term**, accepted in either order. -/
theorem AppendEntriesArgs.Cut.reordered (hb : b.Sound) {args₁ args₂ : AppendEntriesArgs n Cmd}
    {m₁ m₂ : List (LogEntry Cmd)} (hm₁ : args₁.Cut b m₁) (hm₂ : args₂.Cut b m₂) {p : Peer G}
    (hp₁ : p.Follows b args₁.term) (ht : args₂.term = args₁.term)
    (hs₁ : p.accepts args₁) (hs₁₂ : (p.after args₁).accepts args₂)
    (hs₂ : p.accepts args₂) (hs₂₁ : (p.after args₂).accepts args₁) :
    ((p.after args₁).after args₂).SameLog ((p.after args₂).after args₁) ∧
      (((p.after args₁).after args₂).after args₁).SameLog ((p.after args₁).after args₂) ∧
      (((p.after args₁).after args₂).after args₂).SameLog ((p.after args₁).after args₂) := by
  have hp₂ : p.Follows b args₂.term := ht ▸ hp₁
  obtain ⟨hf₁, ha, hca⟩ := hm₁.accepted hb hp₁ hs₁
  obtain ⟨hf₁₂, hc, hcc⟩ := hm₂.accepted hb (ht ▸ hf₁) hs₁₂
  obtain ⟨hf₂, hb', hcb⟩ := hm₂.accepted hb hp₂ hs₂
  obtain ⟨-, hd, hcd⟩ := hm₁.accepted hb (ht ▸ hf₂) hs₂₁
  -- both are cut out of the chain of the term
  obtain ⟨hlog, hholds₁, hholds₂⟩ := Adopts.comm hm₁.chain (ht ▸ hm₂.chain) ha hc hb' hd
  refine ⟨⟨hlog, ?_⟩, ?_, ?_⟩
  · rw [hcc, hca, hcd, hcb]
    exact max_right_comm _ _ _
  · refine hm₁.again hb (ht ▸ hf₁₂) hholds₁ ?_
    rw [hcc, hca]
    exact (le_max_right _ _).trans (le_max_left _ _)
  · refine hm₂.again hb hf₁₂ hholds₂ ?_
    rw [hcc]
    exact le_max_right _ _

/-! ### Runs -/

namespace Cluster

/-- Some server sends `args` in the run `as`: the request is in flight at some time. -/
def SentIn (G : Gob n Cmd) (as : List (Action n Cmd))
    (args : AppendEntriesArgs n Cmd) : Prop :=
  ∃ bs s, bs <+: as ∧ exec failStop (init G) bs = some s ∧
    ∃ call ∈ s.appendCalls, call.args = args

/-- One knowledge explains the end of a run and every request sent in it. -/
theorem refines_of_exec {as : List (Action n Cmd)} {s : Cluster G}
    (h : exec failStop (init G) as = some s) :
    ∃ b : Knowledge n Cmd, b.Sound ∧ s.Refines b ∧
      ∀ args, SentIn G as args → ∃ m, args.Cut b m := by
  induction as using List.reverseRecOn generalizing s with
  | nil =>
    obtain ⟨b, -, hb, href⟩ := refines_of_reach (.of_exec [] h)
    refine ⟨b, hb, href, ?_⟩
    rintro args ⟨bs, s₁, hpre, hs₁, call, hcall, -⟩
    obtain rfl := List.prefix_nil.mp hpre
    obtain rfl := Option.some_inj.mp hs₁
    cases hcall
  | append_singleton as a ih =>
    have hrun := h
    rw [exec_concat, Option.bind_eq_some_iff] at h
    obtain ⟨s₀, hs₀, hstep⟩ := h
    obtain ⟨b₀, hb₀, href₀, hsent⟩ := ih hs₀
    obtain ⟨b, hsteps, hb, href⟩ := href₀.step hb₀ hstep
    refine ⟨b, hb, href, ?_⟩
    rintro args ⟨bs, s₁, hpre, hs₁, call, hcall, rfl⟩
    rcases List.prefix_concat_iff.mp hpre with rfl | hpre
    · -- in flight at the end
      obtain rfl := Option.some_inj.mp (hs₁.symm.trans hrun)
      exact (href.appendCalls call hcall).1.args.cut
    · obtain ⟨m, hm⟩ := hsent call.args ⟨bs, s₁, hpre, hs₁, call, hcall, rfl⟩
      exact ⟨m, hm.grows (Ballots.Steps.grows hb₀ hsteps)⟩

end Cluster

/-- **Duplicated and reordered requests.**  Take a follower at the end of a run
and two requests of its current term sent in that run; one server leads the term,
so both are its own.  If both are accepted in either order, the two orders leave
the same log and the same commit index, and either of them changes neither when it
comes again. -/
theorem appendEntries_reordered {as : List (Action n Cmd)} {s : Cluster G}
    (h : exec Cluster.failStop (Cluster.init G) as = some s) {j : Fin n} {p : Peer G}
    (hp : p = s.peer j (s.nodes j)) {args₁ args₂ : AppendEntriesArgs n Cmd}
    (h₁ : Cluster.SentIn G as args₁) (h₂ : Cluster.SentIn G as args₂)
    (ht₁ : args₁.term = p.rf.currentTerm) (ht₂ : args₂.term = p.rf.currentTerm)
    (hs₁ : p.accepts args₁) (hs₁₂ : (p.after args₁).accepts args₂)
    (hs₂ : p.accepts args₂) (hs₂₁ : (p.after args₂).accepts args₁) :
    ((p.after args₁).after args₂).SameLog ((p.after args₂).after args₁) ∧
      ∀ args, args = args₁ ∨ args = args₂ →
        (((p.after args₁).after args₂).after args).SameLog ((p.after args₁).after args₂) ∧
        (((p.after args₂).after args₁).after args).SameLog ((p.after args₂).after args₁) := by
  obtain ⟨b, hb, href, hsent⟩ := Cluster.refines_of_exec h
  obtain ⟨m₁, hm₁⟩ := hsent args₁ h₁
  obtain ⟨m₂, hm₂⟩ := hsent args₂ h₂
  have hf : p.Follows b p.rf.currentTerm := by
    rw [hp]
    exact .of_refines hb (href.peers j) le_rfl
  obtain ⟨hsame, h₁₂₁, h₁₂₂⟩ :=
    hm₁.reordered hb hm₂ (ht₁ ▸ hf) (ht₂.trans ht₁.symm) hs₁ hs₁₂ hs₂ hs₂₁
  obtain ⟨-, h₂₁₂, h₂₁₁⟩ :=
    hm₂.reordered hb hm₁ (ht₂ ▸ hf) (ht₁.trans ht₂.symm) hs₂ hs₂₁ hs₁ hs₁₂
  refine ⟨hsame, ?_⟩
  rintro args (rfl | rfl)
  · exact ⟨h₁₂₁, h₂₁₁⟩
  · exact ⟨h₁₂₂, h₂₁₂⟩

/-- Leader `i` sends `j` its log with one entry, gets a second command and sends both. -/
def twoBatches (i j : Fin n) : List (Action n ℕ) :=
  [.startElection i 0, .requestVote 0, .voteReply 0, .start i 0 7, .replicateTo i 0 j 1,
    .start i 0 8, .replicateTo i 0 j 1]

/-- A request with one entry. -/
def shortBatch (i : Fin n) : AppendEntriesArgs n ℕ := ⟨1, i, 0, 0, [⟨1, 7⟩], 0⟩

/-- A request with one entry more. -/
def longBatch (i : Fin n) : AppendEntriesArgs n ℕ := ⟨1, i, 0, 0, [⟨1, 7⟩, ⟨1, 8⟩], 0⟩

/-- The longer batch arrives first: the shorter one does not cut it. -/
theorem appendEntries_reordered_twoBatches : ∃ s : Cluster (Gob.letter 3 ℕ),
    exec Cluster.failStop (Cluster.init _) (twoBatches 0 1) = some s ∧
    (((s.peer 1 0).after (longBatch 0)).after (shortBatch 0)).rf.log = [⟨0, 0⟩, ⟨1, 7⟩, ⟨1, 8⟩] ∧
    (((s.peer 1 0).after (shortBatch 0)).after (longBatch 0)).SameLog
      (((s.peer 1 0).after (longBatch 0)).after (shortBatch 0)) := by
  have hrun : ((exec Cluster.failStop (Cluster.init (Gob.letter 3 ℕ)) (twoBatches 0 1)).map fun s =>
      (s.nodes 1, s.appendCalls.map AppendCall.args, (s.peer 1 0).rf.currentTerm,
        (((s.peer 1 0).after (longBatch 0)).after (shortBatch 0)).rf.log)) =
      some (0, [shortBatch 0, longBatch 0], 1, [⟨0, 0⟩, ⟨1, 7⟩, ⟨1, 8⟩]) := by decide
  have hacc : ((exec Cluster.failStop (Cluster.init (Gob.letter 3 ℕ)) (twoBatches 0 1)).map fun s =>
      (((s.peer 1 0).appendEntries (shortBatch 0)).2.success,
        (((s.peer 1 0).after (shortBatch 0)).appendEntries (longBatch 0)).2.success,
        ((s.peer 1 0).appendEntries (longBatch 0)).2.success,
        (((s.peer 1 0).after (longBatch 0)).appendEntries (shortBatch 0)).2.success)) =
      some (true, true, true, true) := by decide
  obtain ⟨s, hs, hobs⟩ := Option.map_eq_some_iff.mp hrun
  rw [hs, Option.map_some, Option.some_inj] at hacc
  simp only [Prod.mk.injEq] at hobs hacc
  obtain ⟨hnodes, hcalls, hterm, hlog⟩ := hobs
  obtain ⟨h₁, h₁₂, h₂, h₂₁⟩ := hacc
  have hsent : ∀ args ∈ [shortBatch 0, longBatch 0],
      Cluster.SentIn (Gob.letter 3 ℕ) (twoBatches 0 1) args := by
    intro args hargs
    rw [← hcalls] at hargs
    obtain ⟨call, hcall, heq⟩ := List.mem_map.mp hargs
    exact ⟨twoBatches 0 1, s, List.prefix_rfl, hs, call, hcall, heq⟩
  refine ⟨s, hs, hlog, ?_⟩
  exact (appendEntries_reordered hs (j := 1) (by rw [hnodes]) (hsent (shortBatch 0) (by simp))
    (hsent (longBatch 0) (by simp)) hterm.symm hterm.symm h₁ h₁₂ h₂ h₂₁).1

end Raft
end SepLab
