import SepLab.Raft.FastBackup

/-!
# The next index and what is known to be replicated

A leader resumes after what it knows to be replicated, as long as replies arrive in order.  An
acknowledgement that is late does not move `matchIndex` back; a rejection that is late does move
`nextIndex` back, to wherever it points, whatever has been acknowledged since.

## Main definitions

* `Server.Ahead me rf` — if the server leads, `nextIndex` is past `matchIndex` for every other
  server.
* `PointsPast log m reply` — a rejection points past index `m` of a leader with this log.
* `Peer.SameCounters p p'` — a section makes no leader and leaves the counters of one alone.
* `Cluster.NextAhead s` — every instance that leads is ahead.
* `Cluster.Timely s a` — the action does not let a living leader read a rejection that points back
  behind what is known to be replicated.

## Main results

* `pointsPast_iff` — what a rejection points at is where the leader resumes.
* `Peer.ahead_rejected_iff` — a rejection that a leader reads leaves it ahead just when it points
  past what is known to be replicated.
* `Cluster.NextAhead.step` — a step that is timely keeps every leader ahead.
* `next_index_ahead_iff` — **the exact condition on a run**: the next index stays ahead just when
  every step is timely.
-/

namespace SepLab
namespace Raft

variable {n : ℕ} {Cmd : Type} {G : Gob n Cmd}

/-- A leader resumes after what it knows to be replicated. -/
def Server.Ahead (me : Fin n) (rf : Server n Cmd) : Prop :=
  rf.role = .leader → ∀ peer, peer ≠ me → rf.matchIndex peer < rf.nextIndex peer

/-- A rejection points past index `m`: the leader's log has an entry of the conflicting term there
or after it, or none at all and the conflict starts after it. -/
def PointsPast (log : List (LogEntry Cmd)) (m : ℕ) (reply : AppendEntriesReply) : Prop :=
  (∃ i, m ≤ i ∧ 1 ≤ i ∧ i ≤ lastLogIndex log ∧ (termAt log i : ℤ) = reply.conflictTerm) ∨
    (∀ i, 1 ≤ i → i ≤ lastLogIndex log → (termAt log i : ℤ) ≠ reply.conflictTerm) ∧
      (m : ℤ) < max 1 reply.conflictIndex

/-! ### Where a rejection points -/

theorem lastIndexOfTerm_eq_none {log : List (LogEntry Cmd)} {t : ℤ} {k : ℕ} :
    lastIndexOfTerm log t k = none ↔ ∀ i, 1 ≤ i → i ≤ k → (termAt log i : ℤ) ≠ t := by
  induction k with
  | zero =>
    constructor
    · intro _ i h₁ h₂
      omega
    · intro _
      rfl
  | succ k ih =>
    unfold lastIndexOfTerm
    split
    · next hterm =>
      constructor
      · intro h
        cases h
      · intro h
        exact absurd hterm (h (k + 1) (by omega) le_rfl)
    · next hterm =>
      rw [ih]
      constructor
      · intro h i h₁ h₂
        rcases h₂.eq_or_lt with rfl | hlt
        · exact hterm
        · exact h i h₁ (by omega)
      · intro h i h₁ h₂
        exact h i h₁ (by omega)

/-- The search finds the last entry of the term. -/
theorem le_lastIndexOfTerm {log : List (LogEntry Cmd)} {t : ℤ} {k last : ℕ}
    (h : lastIndexOfTerm log t k = some last) {i : ℕ} (h₁ : 1 ≤ i) (hi : i ≤ k)
    (hterm : (termAt log i : ℤ) = t) : i ≤ last := by
  induction k with
  | zero => cases h
  | succ k ih =>
    unfold lastIndexOfTerm at h
    split at h
    · obtain rfl := Option.some_inj.mp h
      exact hi
    · next hne =>
      rcases hi.eq_or_lt with rfl | hlt
      · exact absurd hterm hne
      · exact ih h (by omega)

/-- **What a rejection points at** is where the leader resumes. -/
theorem pointsPast_iff {log : List (LogEntry Cmd)} {m : ℕ} {reply : AppendEntriesReply} :
    PointsPast log m reply ↔ m < backup log reply := by
  have hmax : (m : ℤ) < max 1 reply.conflictIndex ↔ m < (max 1 reply.conflictIndex).toNat := by
    omega
  unfold PointsPast backup
  by_cases hnone : reply.conflictTerm = -1
  · -- no entry has the term that stands for none
    have hall : ∀ i, (termAt log i : ℤ) ≠ reply.conflictTerm := fun i => by omega
    rw [if_pos hnone, ← hmax]
    constructor
    · rintro (⟨i, -, -, -, hterm⟩ | ⟨-, h⟩)
      · exact absurd hterm (hall i)
      · exact h
    · intro h
      exact Or.inr ⟨fun i _ _ => hall i, h⟩
  · rw [if_neg hnone]
    cases hfind : lastIndexOfTerm log reply.conflictTerm (lastLogIndex log) with
    | none =>
      have hall := lastIndexOfTerm_eq_none.mp hfind
      dsimp only
      constructor
      · rintro (⟨i, -, h₁, hi, hterm⟩ | ⟨-, h⟩)
        · exact absurd hterm (hall i h₁ hi)
        · exact hmax.mp h
      · intro h
        exact Or.inr ⟨hall, hmax.mpr h⟩
    | some last =>
      obtain ⟨hlast₁, hlast, hterm⟩ := lastIndexOfTerm_eq_some hfind
      dsimp only
      constructor
      · rintro (⟨i, hm, h₁, hi, hiterm⟩ | ⟨hall, -⟩)
        · have hle := le_lastIndexOfTerm hfind h₁ hi hiterm
          omega
        · exact absurd hterm (hall last hlast₁ hlast)
      · intro h
        exact Or.inl ⟨last, by omega, hlast₁, hlast, hterm⟩

/-! ### What the sections do -/

theorem Server.Ahead.advanceCommitIndex {rf : Server n Cmd} {me : Fin n} (h : rf.Ahead me)
    (j : Fin n) : (rf.advanceCommitIndex j).Ahead me := by
  obtain ⟨c, hc⟩ := Peer.advanceLoop_eq rf j (lastLogIndex rf.log)
  unfold Server.advanceCommitIndex
  rw [hc]
  exact h

namespace Peer

variable {p p' : Peer G} {me peer : Fin n}

/-- A section that makes no leader, and leaves the counters of one alone. -/
def SameCounters (p p' : Peer G) : Prop :=
  p'.rf.role = .leader → p.rf.role = .leader ∧ p'.rf.nextIndex = p.rf.nextIndex ∧
    p'.rf.matchIndex = p.rf.matchIndex

theorem SameCounters.ahead (h : SameCounters p p') (ha : p.rf.Ahead me) : p'.rf.Ahead me := by
  intro hr peer hpeer
  obtain ⟨hr', hnext, hmatch⟩ := h hr
  rw [hnext, hmatch]
  exact ha hr' peer hpeer

theorem sameCounters_observe (p : Peer G) (t : ℕ) : SameCounters p (p.observe t) := by
  unfold observe
  split
  · intro hr
    cases hr
  · exact fun hr => ⟨hr, rfl, rfl⟩

theorem sameCounters_startElection {args : RequestVoteArgs n}
    (h : p.startElection me = some (p', args)) : SameCounters p p' := by
  unfold startElection at h
  split at h
  · cases h
  · rw [Option.some_inj, Prod.mk.injEq] at h
    rw [← h.1]
    intro hr
    cases hr

theorem sameCounters_requestVote (p : Peer G) (args : RequestVoteArgs n) :
    SameCounters p (p.requestVote args).1 := by
  unfold requestVote
  split
  · exact fun hr => ⟨hr, rfl, rfl⟩
  dsimp only
  split
  · exact p.sameCounters_observe args.term
  · exact p.sameCounters_observe args.term

theorem sameCounters_start (p : Peer G) (command : Cmd) :
    SameCounters p (p.start command).1 := by
  unfold start
  split
  · exact fun hr => ⟨hr, rfl, rfl⟩
  · exact fun hr => ⟨hr, rfl, rfl⟩

theorem sameCounters_appendEntries (p : Peer G) (args : AppendEntriesArgs n Cmd) :
    SameCounters p (p.appendEntries args).1 := by
  unfold appendEntries
  split
  · exact fun hr => ⟨hr, rfl, rfl⟩
  dsimp only
  -- whoever takes the request is a follower
  split
  · intro hr
    cases hr
  split
  · intro hr
    cases hr
  · intro hr
    cases hr

/-- A new leader resumes after its log and knows nothing to be replicated. -/
theorem ahead_voteReply (ha : p.rf.Ahead me) (term votes : ℕ) (reply : RequestVoteReply) :
    (p.voteReply me term votes reply).1.rf.Ahead me := by
  unfold voteReply
  split
  · intro hr
    cases hr
  split
  · exact ha
  next hcand =>
  -- a reply counts only while the peer is still a candidate
  have hrole : p.rf.role = .candidate := by
    by_contra hne
    exact hcand (Or.inl hne)
  split
  · split
    · intro _ peer hpeer
      unfold Server.becomeLeaderLocked
      rw [if_neg (by simp [hrole])]
      dsimp only
      rw [Function.update_of_ne hpeer]
      omega
    · exact ha
  · exact ha

/-- An acknowledgement moves both counters, or neither. -/
theorem ahead_acknowledged (ha : p.rf.Ahead me) (args : AppendEntriesArgs n Cmd)
    {reply : AppendEntriesReply} (hs : reply.success = true) :
    (p.appendReply me peer args reply).rf.Ahead me := by
  unfold appendReply
  split
  · intro hr
    cases hr
  split
  · exact ha
  dsimp only
  apply Server.Ahead.advanceCommitIndex
  split
  · intro hr q hq
    have hlt := ha hr q hq
    -- the peer that answers, or another one, whose next index stays
    by_cases hqp : q = peer
    · subst hqp
      simp only [Function.update_self]
      omega
    · simp only [Function.update_of_ne hqp]
      exact hlt
  · exact ha

/-- **A rejection that a leader reads** leaves it ahead just when it points past what is known to
be replicated. -/
theorem ahead_rejected_iff (ha : p.rf.Ahead me) {args : AppendEntriesArgs n Cmd}
    {reply : AppendEntriesReply} (hterm : reply.term ≤ p.rf.currentTerm)
    (hr : p.rf.role = .leader) (ht : p.rf.currentTerm = args.term) (hs : reply.success = false) :
    (p.appendReply me peer args reply).rf.Ahead me ↔
      (peer ≠ me → PointsPast p.rf.log (p.rf.matchIndex peer) reply) := by
  have heq : (p.appendReply me peer args reply).rf = { p.rf with
      nextIndex := Function.update p.rf.nextIndex peer (backup p.rf.log reply) } := by
    unfold appendReply
    rw [if_neg hterm.not_gt, if_neg (by simp [hr, ht]), if_neg (by simp [hs])]
    rfl
  rw [heq, pointsPast_iff]
  constructor
  · intro h hpeer
    have hlt := h hr peer hpeer
    dsimp only at hlt
    rwa [Function.update_self] at hlt
  · intro h _ q hq
    dsimp only
    by_cases hqp : q = peer
    · rw [hqp, Function.update_self]
      exact h (hqp ▸ hq)
    · rw [Function.update_of_ne hqp]
      exact ha hr q hq

/-- A reply that nobody reads as a rejection leaves a leader ahead. -/
theorem ahead_appendReply (ha : p.rf.Ahead me) {args : AppendEntriesArgs n Cmd}
    {reply : AppendEntriesReply} (h : ¬ (reply.term ≤ p.rf.currentTerm ∧ p.rf.role = .leader ∧
      p.rf.currentTerm = args.term ∧ reply.success = false)) :
    (p.appendReply me peer args reply).rf.Ahead me := by
  by_cases hs : reply.success = true
  · exact ahead_acknowledged ha args hs
  have hs : reply.success = false := by simpa using hs
  unfold appendReply
  split
  · intro hr
    cases hr
  next hterm =>
  split
  · exact ha
  next hcur =>
  -- what is left is a rejection that a leader reads
  have hr : p.rf.role = .leader := by
    by_contra hne
    exact hcur (Or.inl hne)
  have ht : p.rf.currentTerm = args.term := by
    by_contra hne
    exact hcur (Or.inr hne)
  exact absurd ⟨not_lt.mp hterm, hr, ht, hs⟩ h

end Peer

/-! ### Runs -/

namespace Cluster

/-- Every instance resumes after what it knows to be replicated, if it leads. -/
def NextAhead (s : Cluster G) : Prop := ∀ i k, (s.inst i k).rf.Ahead i

/-- The action does not let a living leader read a rejection that points back behind what it knows
to be replicated. -/
def Timely (s : Cluster G) (a : Action n Cmd) : Prop :=
  ∀ c call reply, a = .appendReply c → s.appendCalls[c]? = some call → call.reply = some reply →
    call.dst ≠ call.src → (s.inst call.src call.inc).rf.dead = false →
    reply.term ≤ (s.inst call.src call.inc).rf.currentTerm →
    (s.inst call.src call.inc).rf.role = .leader →
    (s.inst call.src call.inc).rf.currentTerm = call.args.term → reply.success = false →
    PointsPast (s.inst call.src call.inc).rf.log
      ((s.inst call.src call.inc).rf.matchIndex call.dst) reply

variable [Inhabited Cmd] {s s' : Cluster G} {a : Action n Cmd}

omit [Inhabited Cmd] in
/-- A section leaves a leader ahead, unless it reads a rejection that points back behind what is
known to be replicated. -/
theorem Section.ahead {i : Fin n} {k : ℕ} {p : Peer G} (h : s.Section a i k p)
    (hs : s.NextAhead) (hlive : s.alive a = true) (ha : s.Timely a) : p.rf.Ahead i := by
  cases h with
  | startElection hk h => exact (Peer.sameCounters_startElection h).ahead (hs _ _)
  | requestVote hc hlive => exact (Peer.sameCounters_requestVote _ _).ahead (hs _ _)
  | voteReply hc hr => exact Peer.ahead_voteReply (hs _ _) _ _ _
  | start hk command => exact (Peer.sameCounters_start _ _).ahead (hs _ _)
  | appendEntries hc hlive => exact (Peer.sameCounters_appendEntries _ _).ahead (hs _ _)
  | @appendReply c call reply hc hr =>
    have hlive : (s.inst call.src call.inc).rf.dead = false := by
      simpa [alive, actor, hc] using hlive
    by_cases hread : reply.term ≤ (s.inst call.src call.inc).rf.currentTerm ∧
      (s.inst call.src call.inc).rf.role = .leader ∧
      (s.inst call.src call.inc).rf.currentTerm = call.args.term ∧ reply.success = false
    · obtain ⟨hterm, hlead, ht, hrej⟩ := hread
      exact (Peer.ahead_rejected_iff (hs _ _) hterm hlead ht hrej).mpr fun hne =>
        ha c call reply rfl hc hr hne hlive hterm hlead ht hrej
    · exact Peer.ahead_appendReply (hs _ _) hread

/-- **A step that is timely keeps every leader ahead.** -/
theorem NextAhead.step (hs : s.NextAhead) (hlive : s.alive a = true) (ha : s.Timely a)
    (h : Cluster.step s a = some s') : s'.NextAhead := by
  have hset : ∀ {i : Fin n} {k : ℕ} {x : Instance n Cmd}, s'.inst = set₂ s.inst i k x →
      x.rf.Ahead i → s'.NextAhead := by
    intro i k x hinst hx j l
    rw [hinst, set₂_apply]
    split
    · next hjl => exact hjl.1 ▸ hx
    · exact hs j l
  cases step_effect h with
  | acted hsec votes inst nodes => exact hset inst (hsec.ahead hs hlive ha)
  | quiet inst nodes =>
    intro j l
    rw [inst]
    exact hs j l
  | @applier j l rf batch _ hl hnil happ inst nodes =>
    refine hset inst ?_
    -- the applier moves `lastApplied` only
    unfold Server.applier at happ
    split at happ
    · cases happ
    · rw [Option.some_inj, Prod.mk.injEq] at happ
      rw [← happ.1]
      exact hs j l
  | send _ hl hbatch inst nodes => exact hset inst (hs _ _)
  | crash _ hlive inst nodes => exact hset inst (hs _ _)
  | restart _ hdead inst nodes =>
    refine hset inst ?_
    unfold fresh
    rw [make_eq]
    intro hr
    cases hr

/-- The callback of a reply can always run. -/
theorem step_appendReply {c : ℕ} {call : AppendCall n Cmd} {reply : AppendEntriesReply}
    (hc : s.appendCalls[c]? = some call) (hr : call.reply = some reply) :
    ∃ s', Cluster.step s (.appendReply c) = some s' ∧ (s'.inst call.src call.inc).rf =
      ((s.peer call.src call.inc).appendReply call.src call.dst call.args reply).rf := by
  simp only [step, appendReply, hc, hr, Option.bind_some, Option.map_some, Option.some_inj]
  refine ⟨_, rfl, ?_⟩
  simp [put, emit]

/-- **A step is timely just when it keeps every leader ahead.** -/
theorem timely_iff (hs : s.NextAhead) :
    s.Timely a ↔ ∀ s', failStop s a = some s' → s'.NextAhead := by
  constructor
  · intro ha s' h
    obtain ⟨hlive, h⟩ := step_of_guarded h
    exact hs.step hlive ha h
  · rintro h c call reply rfl hc hr hne hlive hterm hlead ht hrej
    obtain ⟨s', hstep, hrf⟩ := step_appendReply hc hr
    have hlive' : s.alive (.appendReply c) = true := by simp [alive, actor, hc, hlive]
    have hahead : (s'.inst call.src call.inc).rf.Ahead call.src :=
      h s' (by rwa [failStop, guarded, if_pos hlive']) _ _
    rw [hrf] at hahead
    exact (Peer.ahead_rejected_iff (hs _ _) hterm hlead ht hrej).mp hahead hne

theorem NextAhead.init : (init G : Cluster G).NextAhead := by
  intro i k
  show ((fresh G []).rf).Ahead i
  unfold fresh
  rw [make_eq]
  intro hr
  cases hr

end Cluster

/-- **The exact condition on a run.**  In every state that a run passes through every leader
resumes after what it knows to be replicated, for every other server, if and only if every step
of the run is timely. -/
theorem next_index_ahead_iff [Inhabited Cmd] (as : List (Action n Cmd)) :
    (∀ bs s, bs <+: as → exec Cluster.failStop (Cluster.init G) bs = some s → s.NextAhead) ↔
      ∀ bs a s, bs ++ [a] <+: as → exec Cluster.failStop (Cluster.init G) bs = some s →
        s.Timely a := by
  apply exec_forall_iff (I := fun _ => True) trivial (fun _ _ _ _ _ => trivial) .init
  intro s a _ hs
  exact Cluster.timely_iff hs

/-- Two requests find server `1` one entry behind.  The second rejection is read after the first
has been made good, and points back to the entry that has been acknowledged since. -/
theorem not_next_index_ahead : ¬ ∀ s : Cluster (Gob.letter 3 ℕ),
    Reach Cluster.failStop (Cluster.init _) s → s.NextAhead := by
  intro h
  have hrun : ((exec Cluster.failStop (Cluster.init (Gob.letter 3 ℕ))
      [.startElection 0 0, .requestVote 0, .voteReply 0, .start 0 0 7, .crash 0, .restart 0,
        .startElection 0 1, .requestVote 1, .voteReply 1, .replicateTo 0 1 1 2,
        .replicateTo 0 1 1 2, .appendEntries 0, .appendEntries 1, .appendReply 1,
        .replicateTo 0 1 1 2, .appendEntries 1, .appendReply 1, .appendReply 0]).map fun s =>
      ((s.node 0).rf.role, (s.node 0).rf.matchIndex 1, (s.node 0).rf.nextIndex 1)) =
      some (.leader, 1, 1) := by decide
  obtain ⟨s, hs, hobs⟩ := Option.map_eq_some_iff.mp hrun
  simp only [Prod.mk.injEq] at hobs
  obtain ⟨hr, hm, hn⟩ := hobs
  have hlt := h s (.of_exec _ hs) 0 (s.nodes 0) hr 1 (by decide)
  have hlt : (s.node 0).rf.matchIndex 1 < (s.node 0).rf.nextIndex 1 := hlt
  rw [hm, hn] at hlt
  exact lt_irrefl _ hlt

end Raft
end SepLab
