import SepLab.Raft.Cluster

/-!
# What a persister holds

A persister that has never been written to stands for the initial state.  A peer
is *saved* when its persister decodes to its current term, vote and log; every
section of `raft.go` leaves a saved peer saved, because it persists whenever it
changes one of the three.

## Main definitions

* `stateOf G disk` — the state a persister holds.
* `Peer.Saved` — the persister holds the peer's state.

## Main results

* `make_saved` — `Make` loads what the persister holds.
* `Peer.persist_saved` and one `Saved` lemma for each section.
* `Peer.appendReply_eq` — the callback of an append reply changes counters only.
-/

namespace SepLab
namespace Raft

variable {n : ℕ} {Cmd : Type} [Inhabited Cmd] {G : Gob n Cmd}

/-- The state a persister holds, the initial one if nothing was saved. -/
def stateOf (G : Gob n Cmd) (disk : List G.Byte) : PersistentState n Cmd :=
  (decodeState G disk).getD ⟨0, none, [sentinel]⟩

omit [Inhabited Cmd] in
@[simp] theorem decodeState_encodeState (s : PersistentState n Cmd) :
    decodeState G (encodeState G s) = some s := by
  unfold decodeState encodeState
  rw [if_neg, G.decode_encode]
  intro hnil
  have h := G.decode_encode s
  rw [List.isEmpty_iff.mp hnil, G.decode_nil] at h
  cases h

@[simp] theorem stateOf_encodeState (s : PersistentState n Cmd) :
    stateOf G (encodeState G s) = s := by simp [stateOf]

omit [Inhabited Cmd] in
/-- The fields of a server that survive a crash. -/
def Server.persistentState (rf : Server n Cmd) : PersistentState n Cmd :=
  ⟨rf.currentTerm, rf.votedFor, rf.log⟩

theorem make_eq (disk : List G.Byte) :
    make G disk =
      { currentTerm := (stateOf G disk).currentTerm, votedFor := (stateOf G disk).votedFor
        log := (stateOf G disk).log, commitIndex := 0, lastApplied := 0
        nextIndex := fun _ => 0, matchIndex := fun _ => 0, role := .follower, dead := false } := by
  unfold make stateOf
  cases decodeState G disk <;> rfl

namespace Peer

/-- The persister holds the server's term, vote and log. -/
def Saved (p : Peer G) : Prop := stateOf G p.disk = p.rf.persistentState

theorem persist_saved (p : Peer G) : p.persist.Saved := stateOf_encodeState _

theorem make_saved (disk : List G.Byte) : Saved (⟨make G disk, disk⟩ : Peer G) := by
  unfold Saved
  rw [make_eq]
  rfl

/-- A section that leaves the three fields and the persister alone leaves the peer saved. -/
theorem Saved.of_eq {p : Peer G} {rf : Server n Cmd} (h : p.Saved)
    (hrf : rf.persistentState = p.rf.persistentState) : Saved (⟨rf, p.disk⟩ : Peer G) := by
  unfold Saved
  rw [hrf]
  exact h

theorem becomeFollower_saved (p : Peer G) (term : ℕ) : (p.becomeFollower term).Saved :=
  persist_saved _

theorem Saved.observe {p : Peer G} (h : p.Saved) (term : ℕ) : (p.observe term).Saved := by
  unfold Peer.observe
  split
  · exact p.becomeFollower_saved term
  · exact h

theorem Saved.start {p : Peer G} (h : p.Saved) (command : Cmd) : (p.start command).1.Saved := by
  unfold Peer.start
  split
  · exact h
  · exact persist_saved _

theorem startElection_saved {p p' : Peer G} {me : Fin n} {args : RequestVoteArgs n}
    (h : p.startElection me = some (p', args)) : p'.Saved := by
  unfold startElection at h
  split at h
  · cases h
  · rw [Option.some_inj, Prod.mk.injEq] at h
    exact h.1 ▸ persist_saved _

theorem Saved.requestVote {p : Peer G} (h : p.Saved) (args : RequestVoteArgs n) :
    (p.requestVote args).1.Saved := by
  unfold Peer.requestVote
  split
  · exact h
  · dsimp only
    split
    · exact persist_saved _
    · exact h.observe _

theorem Saved.voteReply {p : Peer G} (h : p.Saved) (me : Fin n) (term votes : ℕ)
    (reply : RequestVoteReply) : (p.voteReply me term votes reply).1.Saved := by
  unfold Peer.voteReply
  split
  · exact p.becomeFollower_saved _
  split
  · exact h
  split
  · split
    · refine h.of_eq ?_
      unfold Server.becomeLeaderLocked
      split <;> rfl
    · exact h
  · exact h

theorem Saved.appendEntries {p : Peer G} (h : p.Saved) (args : AppendEntriesArgs n Cmd) :
    (p.appendEntries args).1.Saved := by
  unfold Peer.appendEntries
  split
  · exact h
  have hp : Saved (⟨{ (p.observe args.term).rf with role := .follower },
      (p.observe args.term).disk⟩ : Peer G) := (h.observe _).of_eq rfl
  dsimp only
  split
  · exact hp
  split
  · exact hp
  · exact (persist_saved _).of_eq rfl

omit [Inhabited Cmd] in
/-- Advancing the commit index changes nothing else. -/
theorem advanceLoop_eq (rf : Server n Cmd) (me : Fin n) (k : ℕ) :
    ∃ c, rf.advanceLoop me k = { rf with commitIndex := c } := by
  induction k with
  | zero => exact ⟨rf.commitIndex, rfl⟩
  | succ k ih =>
    unfold Server.advanceLoop
    split
    · exact ⟨rf.commitIndex, rfl⟩
    split
    · exact ih
    split
    · exact ⟨k + 1, rfl⟩
    · exact ih

omit [Inhabited Cmd] in
/-- The callback of an append reply of no later term changes counters only. -/
theorem appendReply_counters (p : Peer G) (me peer : Fin n) (args : AppendEntriesArgs n Cmd)
    {reply : AppendEntriesReply} (h : ¬ reply.term > p.rf.currentTerm) :
    ∃ next matched c, p.appendReply me peer args reply =
      { p with rf := { p.rf with
        nextIndex := next
        matchIndex := matched
        commitIndex := c } } := by
  unfold Peer.appendReply
  rw [if_neg h]
  split
  · exact ⟨_, _, _, rfl⟩
  split
  · dsimp only
    unfold Server.advanceCommitIndex
    split
    · obtain ⟨c, hc⟩ := advanceLoop_eq
        { p.rf with
          matchIndex := Function.update p.rf.matchIndex peer _
          nextIndex := Function.update p.rf.nextIndex peer _ } me (lastLogIndex p.rf.log)
      exact ⟨_, _, c, by rw [hc]⟩
    · obtain ⟨c, hc⟩ := advanceLoop_eq p.rf me (lastLogIndex p.rf.log)
      exact ⟨_, _, c, by rw [hc]⟩
  · exact ⟨_, _, _, rfl⟩

omit [Inhabited Cmd] in
/-- The callback of an append reply demotes the server, or changes its counters only. -/
theorem appendReply_eq (p : Peer G) (me peer : Fin n) (args : AppendEntriesArgs n Cmd)
    (reply : AppendEntriesReply) : p.appendReply me peer args reply = p.becomeFollower reply.term ∨
      ∃ next matched c, p.appendReply me peer args reply =
        { p with rf := { p.rf with
          nextIndex := next
          matchIndex := matched
          commitIndex := c } } := by
  by_cases h : reply.term > p.rf.currentTerm
  · refine Or.inl ?_
    unfold Peer.appendReply
    rw [if_pos h]
  · exact Or.inr (p.appendReply_counters me peer args h)

theorem Saved.appendReply {p : Peer G} (h : p.Saved) (me peer : Fin n)
    (args : AppendEntriesArgs n Cmd) (reply : AppendEntriesReply) :
    (p.appendReply me peer args reply).Saved := by
  rcases p.appendReply_eq me peer args reply with heq | ⟨next, matched, c, heq⟩
  · rw [heq]
    exact p.becomeFollower_saved _
  · rw [heq]
    exact h.of_eq rfl

end Peer
end Raft
end SepLab
