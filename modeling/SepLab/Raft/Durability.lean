import SepLab.Raft.Steps

/-!
# Durability across restarts

Whether the persister of a live server holds its term, vote and log, when
goroutines of a killed instance may still run.  `Network.Call` asks `killed()`
before the handler takes `rf.mu`, and neither the handlers nor the callbacks of
vote and append replies ask again: each of them saves on the persister that the
killed instance shares with its successor.  `Start` and `startElection` ask with
`rf.mu` held, and `crash` returns only when `wake` has had `rf.mu`, so that they
are over before a restart.

## Main definitions

* `Network`, `Network.step` — the cluster with the handlers that have been chosen
  and have yet to take `rf.mu`, and its steps.
* `Cluster.Durable s` — every live server is saved.
* `Server.savesVote`, `Server.savesEntries`, `Server.savesReply` — what the
  handlers and the callbacks save.
* `Network.Harmless s m` — `m` does not save the state of a killed instance, unless
  it is that of the live one.

## Main results

* `Peer.requestVote_disk`, `Peer.appendEntries_disk` — the handlers save just this.
* `Network.disk_of_dead` — all that a killed instance can write.
* `Network.durable_step`, `Network.harmless_of_durable` — harmless steps, and only
  these, leave a durable cluster durable.
* `durable_iff` — the same for whole runs.
-/

namespace SepLab
namespace Raft

variable {n : ℕ} {Cmd : Type} {G : Gob n Cmd}

/-! ### Handlers that have been chosen -/

/-- A handler that is past the `killed()` check of its instance `inc`, and has yet to take
`rf.mu`. -/
inductive Handler (n : ℕ) (Cmd : Type)
  | requestVote (call : VoteCall n) (inc : ℕ)
  | appendEntries (call : AppendCall n Cmd) (inc : ℕ)

/-- A cluster and the handlers on their way. -/
structure Network (G : Gob n Cmd) where
  cluster : Cluster G
  handlers : List (Handler n Cmd)

/-- The steps of the network. -/
inductive Move (n : ℕ) (Cmd : Type)
  /-- A step of the cluster; a handler with nothing between its check and its section. -/
  | cluster (a : Action n Cmd)
  /-- `Network.Call` finds the callee of a vote request alive. -/
  | chooseVote (c : ℕ)
  /-- `Network.Call` finds the callee of an append request alive. -/
  | chooseAppend (c : ℕ)
  /-- A handler that was chosen takes `rf.mu` and runs, whatever has become of its instance. -/
  | handle (h : ℕ)

namespace Network

/-- A vote call leaves the calls in flight for the handler of the attached instance. -/
def chooseVote (s : Network G) (c : ℕ) : Option (Network G) :=
  s.cluster.voteCalls[c]?.bind fun call =>
    if call.reply = none ∧ (s.cluster.node call.dst).rf.dead = false then
      some
        { cluster := { s.cluster with voteCalls := s.cluster.voteCalls.eraseIdx c }
          handlers := s.handlers ++ [.requestVote call (s.cluster.nodes call.dst)] }
    else none

/-- An append call leaves the calls in flight for the handler of the attached instance. -/
def chooseAppend (s : Network G) (c : ℕ) : Option (Network G) :=
  s.cluster.appendCalls[c]?.bind fun call =>
    if call.reply = none ∧ (s.cluster.node call.dst).rf.dead = false then
      some
        { cluster := { s.cluster with appendCalls := s.cluster.appendCalls.eraseIdx c }
          handlers := s.handlers ++ [.appendEntries call (s.cluster.nodes call.dst)] }
    else none

/-- The section of a handler; its call is in flight again, with the reply. -/
def runHandler (s : Cluster G) : Handler n Cmd → Cluster G
  | .requestVote call k =>
    let (p, reply) := (s.peer call.dst k).requestVote call.args
    let s := s.put call.dst k p
    { s with voteCalls := s.voteCalls ++ [{ call with reply := some reply }] }.emit
      (if reply.voteGranted then [.voteGranted call.dst reply.term call.args.candidateId] else [])
  | .appendEntries call k =>
    let (p, reply) := (s.peer call.dst k).appendEntries call.args
    let s := s.put call.dst k p
    { s with appendCalls := s.appendCalls ++ [{ call with reply := some reply }] }

/-- The `h`-th handler runs. -/
def handle (s : Network G) (h : ℕ) : Option (Network G) :=
  s.handlers[h]?.map fun handler =>
    ⟨runHandler s.cluster handler, s.handlers.eraseIdx h⟩

variable [Inhabited Cmd]

/-- Servers that have just been made, and no handler on its way. -/
def init (G : Gob n Cmd) : Network G := ⟨.init G, []⟩

/-- One atomic step. -/
def step (s : Network G) : Move n Cmd → Option (Network G)
  | .cluster a => (Cluster.step s.cluster a).map fun cluster => { s with cluster := cluster }
  | .chooseVote c => s.chooseVote c
  | .chooseAppend c => s.chooseAppend c
  | .handle h => s.handle h

end Network

/-! ### What the goroutines of an instance save -/

/-- What the handler of a vote request saves. -/
def Server.savesVote (rf : Server n Cmd) (args : RequestVoteArgs n) :
    Option (PersistentState n Cmd) :=
  if args.term < rf.currentTerm then none
  else
    let votedFor := if args.term > rf.currentTerm then none else rf.votedFor
    if (votedFor = none ∨ votedFor = some args.candidateId) ∧ upToDate rf.log args then
      some ⟨args.term, some args.candidateId, rf.log⟩
    else if args.term > rf.currentTerm then some ⟨args.term, none, rf.log⟩
    else none

/-- What the handler of an append request saves. -/
def Server.savesEntries (rf : Server n Cmd) (args : AppendEntriesArgs n Cmd) :
    Option (PersistentState n Cmd) :=
  if args.term < rf.currentTerm then none
  else if args.prevLogIndex > lastLogIndex rf.log ∨
      termAt rf.log args.prevLogIndex ≠ args.prevLogTerm then
    if args.term > rf.currentTerm then some ⟨args.term, none, rf.log⟩ else none
  else
    some ⟨args.term, if args.term > rf.currentTerm then none else rf.votedFor,
      appendLoop rf.log (args.prevLogIndex + 1) args.entries⟩

/-- What the callback of a reply saves. -/
def Server.savesReply (rf : Server n Cmd) (term : ℕ) : Option (PersistentState n Cmd) :=
  if term > rf.currentTerm then some ⟨term, none, rf.log⟩ else none

/-- The persister after a section that saves this. -/
def diskAfter (G : Gob n Cmd) (disk : List G.Byte) (saved : Option (PersistentState n Cmd)) :
    List G.Byte :=
  saved.elim disk (encodeState G)

namespace Peer

variable (p : Peer G)

/-- What a request that is not of an earlier term makes of its receiver. -/
theorem observe_eq {term : ℕ} (h : ¬ term < p.rf.currentTerm) :
    (p.observe term).rf.currentTerm = term ∧ (p.observe term).rf.log = p.rf.log ∧
      (p.observe term).rf.votedFor =
        (if term > p.rf.currentTerm then none else p.rf.votedFor) ∧
      (p.observe term).disk = diskAfter G p.disk (p.rf.savesReply term) := by
  unfold observe Server.savesReply
  by_cases hnew : term > p.rf.currentTerm
  · rw [if_pos hnew, if_pos hnew, if_pos hnew]
    exact ⟨rfl, rfl, rfl, rfl⟩
  · rw [if_neg hnew, if_neg hnew, if_neg hnew]
    exact ⟨by omega, rfl, rfl, rfl⟩

/-- **What the handler of a vote request saves.** -/
theorem requestVote_disk (args : RequestVoteArgs n) :
    (p.requestVote args).1.disk = diskAfter G p.disk (p.rf.savesVote args) := by
  unfold requestVote Server.savesVote
  by_cases hold : args.term < p.rf.currentTerm
  · rw [if_pos hold, if_pos hold]
    rfl
  obtain ⟨hterm, hlog, hvoted, hdisk⟩ := p.observe_eq hold
  rw [if_neg hold, if_neg hold]
  simp only [hlog, hvoted, persist]
  generalize (if args.term > p.rf.currentTerm then (none : Option (Fin n))
    else p.rf.votedFor) = votedFor
  by_cases hgrant : (votedFor = none ∨ votedFor = some args.candidateId) ∧
      upToDate p.rf.log args = true
  · rw [if_pos hgrant, if_pos hgrant, hterm]
    rfl
  · rw [if_neg hgrant, if_neg hgrant]
    exact hdisk

/-- **What the handler of an append request saves.** -/
theorem appendEntries_disk (args : AppendEntriesArgs n Cmd) :
    (p.appendEntries args).1.disk = diskAfter G p.disk (p.rf.savesEntries args) := by
  unfold appendEntries Server.savesEntries
  by_cases hold : args.term < p.rf.currentTerm
  · rw [if_pos hold, if_pos hold]
    rfl
  obtain ⟨hterm, hlog, hvoted, hdisk⟩ := p.observe_eq hold
  rw [if_neg hold, if_neg hold]
  simp only [hlog, persist]
  by_cases hshort : args.prevLogIndex > lastLogIndex p.rf.log
  · rw [if_pos hshort, if_pos (Or.inl hshort)]
    exact hdisk
  by_cases hprev : termAt p.rf.log args.prevLogIndex ≠ args.prevLogTerm
  · rw [if_neg hshort, if_pos hprev, if_pos (Or.inr hprev)]
    exact hdisk
  · rw [if_neg hshort, if_neg hprev, if_neg (not_or.mpr ⟨hshort, hprev⟩), hterm, hvoted]
    rfl

theorem voteReply_disk (me : Fin n) (term votes : ℕ) (reply : RequestVoteReply) :
    (p.voteReply me term votes reply).1.disk =
      diskAfter G p.disk (p.rf.savesReply reply.term) := by
  unfold voteReply Server.savesReply
  split
  · rfl
  split
  · rfl
  split
  · split <;> rfl
  · rfl

theorem appendReply_disk (me peer : Fin n) (args : AppendEntriesArgs n Cmd)
    (reply : AppendEntriesReply) :
    (p.appendReply me peer args reply).disk =
      diskAfter G p.disk (p.rf.savesReply reply.term) := by
  unfold appendReply Server.savesReply
  split
  · rfl
  split
  · rfl
  split
  · rfl
  · rfl

end Peer

namespace Network

/-- What a goroutine that asks no more whether its instance was killed saves in this step, and
the instance. -/
def saves (s : Network G) : Move n Cmd → Option (Fin n × ℕ × PersistentState n Cmd)
  | .cluster (.voteReply c) => s.cluster.voteCalls[c]?.bind fun call =>
      call.reply.bind fun reply =>
        ((s.cluster.inst call.src call.inc).rf.savesReply reply.term).map
          fun state => (call.src, call.inc, state)
  | .cluster (.appendReply c) => s.cluster.appendCalls[c]?.bind fun call =>
      call.reply.bind fun reply =>
        ((s.cluster.inst call.src call.inc).rf.savesReply reply.term).map
          fun state => (call.src, call.inc, state)
  | .handle h => s.handlers[h]?.bind fun
      | .requestVote call k =>
        ((s.cluster.inst call.dst k).rf.savesVote call.args).map fun state => (call.dst, k, state)
      | .appendEntries call k =>
        ((s.cluster.inst call.dst k).rf.savesEntries call.args).map
          fun state => (call.dst, k, state)
  | _ => none

/-- No goroutine of a killed instance whose successor is live saves another state than that of the
successor. -/
def Harmless (s : Network G) (m : Move n Cmd) : Prop :=
  ∀ i k state, s.saves m = some (i, k, state) → (s.cluster.inst i k).rf.dead = true →
    (s.cluster.node i).rf.dead = false → (s.cluster.node i).rf.persistentState = state

end Network

/-! ### The bounds -/

section
variable [Inhabited Cmd]

/-- Instances are never taken back. -/
theorem Cluster.nodes_le_step {s s' : Cluster G} {a : Action n Cmd}
    (h : Cluster.step s a = some s') (i : Fin n) : s.nodes i ≤ s'.nodes i := by
  cases step_effect h with
  | restart ha hdead inst nodes =>
    rw [nodes, Function.update_apply]
    split
    · next hi => rw [hi]; exact Nat.le_succ _
    · exact le_rfl
  | _ => simp [*]

/-- The caller and the callee of a handler have been made. -/
def Handler.Bounded (s : Cluster G) : Handler n Cmd → Prop
  | .requestVote call k => call.inc ≤ s.nodes call.src ∧ k ≤ s.nodes call.dst
  | .appendEntries call k => call.inc ≤ s.nodes call.src ∧ k ≤ s.nodes call.dst

omit [Inhabited Cmd] in
theorem Handler.Bounded.mono {s s' : Cluster G} {h : Handler n Cmd} (hb : h.Bounded s)
    (hnodes : ∀ i, s.nodes i ≤ s'.nodes i) : h.Bounded s' := by
  cases h with
  | requestVote call k => exact ⟨hb.1.trans (hnodes _), hb.2.trans (hnodes _)⟩
  | appendEntries call k => exact ⟨hb.1.trans (hnodes _), hb.2.trans (hnodes _)⟩

namespace Network

variable {s s' : Network G} {m : Move n Cmd}

/-- Only instances that have been made take part, and all but the attached ones are dead. -/
structure Bounded (s : Network G) : Prop where
  cluster : s.cluster.Bounded
  handlers : ∀ h ∈ s.handlers, h.Bounded s.cluster

theorem Bounded.init : (Network.init G).Bounded where
  cluster := .init
  handlers h hh := by cases hh

omit [Inhabited Cmd] in
/-- The section of a handler keeps the bounds. -/
theorem Bounded.runHandler (hs : s.Bounded) {h : Handler n Cmd} (hh : h ∈ s.handlers) :
    (runHandler s.cluster h).Bounded := by
  have hb := hs.handlers h hh
  cases h with
  | requestVote call k =>
    refine ⟨fun {i l} hsent => ?_, fun {i l} hl => ?_⟩
    · rcases hsent with ⟨call', hc, rfl, rfl⟩ | hsent
      · rcases List.mem_append.mp hc with hc | hc
        · exact hs.cluster.sent (Or.inl ⟨call', hc, rfl, rfl⟩)
        · rw [List.mem_singleton.mp hc]
          exact hb.1
      · exact hs.cluster.sent (Or.inr hsent)
    · show (set₂ s.cluster.inst call.dst k _ i l).rf.dead = true
      rw [set₂_apply]
      split
      · next hil =>
        obtain ⟨rfl, rfl⟩ := hil
        exact (Peer.kept_requestVote _ call.args).2.trans (hs.cluster.old hl)
      · exact hs.cluster.old hl
  | appendEntries call k =>
    refine ⟨fun {i l} hsent => ?_, fun {i l} hl => ?_⟩
    · rcases hsent with hsent | ⟨call', hc, rfl, rfl⟩
      · exact hs.cluster.sent (Or.inl hsent)
      · rcases List.mem_append.mp hc with hc | hc
        · exact hs.cluster.sent (Or.inr ⟨call', hc, rfl, rfl⟩)
        · rw [List.mem_singleton.mp hc]
          exact hb.1
    · show (set₂ s.cluster.inst call.dst k _ i l).rf.dead = true
      rw [set₂_apply]
      split
      · next hil =>
        obtain ⟨rfl, rfl⟩ := hil
        exact (Peer.kept_appendEntries _ call.args).2.trans (hs.cluster.old hl)
      · exact hs.cluster.old hl

/-- **The bounds hold after every step.** -/
theorem Bounded.step (hs : s.Bounded) (h : Network.step s m = some s') : s'.Bounded := by
  cases m with
  | cluster a =>
    obtain ⟨cluster, hstep, rfl⟩ := Option.map_eq_some_iff.mp h
    exact ⟨hs.cluster.step hstep, fun h hh =>
      (hs.handlers h hh).mono (Cluster.nodes_le_step hstep)⟩
  | chooseVote c =>
    obtain ⟨call, hc, h⟩ := Option.bind_eq_some_iff.mp h
    split at h
    case isFalse => cases h
    obtain rfl := Option.some_inj.mp h
    refine ⟨⟨fun hsent => ?_, hs.cluster.old⟩, fun h hh => ?_⟩
    · exact hs.cluster.sent (hsent.of_subset
        (fun call hc => ⟨call, List.mem_of_mem_eraseIdx hc, rfl, rfl⟩)
        fun call hc => ⟨call, hc, rfl, rfl⟩)
    · rcases List.mem_append.mp hh with hh | hh
      · exact hs.handlers h hh
      · rw [List.mem_singleton.mp hh]
        exact ⟨hs.cluster.sent (Or.inl ⟨call, List.mem_of_getElem? hc, rfl, rfl⟩), le_rfl⟩
  | chooseAppend c =>
    obtain ⟨call, hc, h⟩ := Option.bind_eq_some_iff.mp h
    split at h
    case isFalse => cases h
    obtain rfl := Option.some_inj.mp h
    refine ⟨⟨fun hsent => ?_, hs.cluster.old⟩, fun h hh => ?_⟩
    · exact hs.cluster.sent (hsent.of_subset (fun call hc => ⟨call, hc, rfl, rfl⟩)
        fun call hc => ⟨call, List.mem_of_mem_eraseIdx hc, rfl, rfl⟩)
    · rcases List.mem_append.mp hh with hh | hh
      · exact hs.handlers h hh
      · rw [List.mem_singleton.mp hh]
        exact ⟨hs.cluster.sent (Or.inr ⟨call, List.mem_of_getElem? hc, rfl, rfl⟩), le_rfl⟩
  | handle h =>
    obtain ⟨handler, hh, rfl⟩ := Option.map_eq_some_iff.mp h
    refine ⟨hs.runHandler (List.mem_of_getElem? hh), fun h' hh' => ?_⟩
    refine (hs.handlers h' (List.mem_of_mem_eraseIdx hh')).mono fun i => ?_
    cases handler <;> exact le_rfl

end Network
end

/-! ### What a killed instance writes -/

variable [Inhabited Cmd]

namespace Cluster

/-- The persister of every live server holds its term, vote and log. -/
def Durable (s : Cluster G) : Prop :=
  ∀ i, (s.node i).rf.dead = false → (s.peer i (s.nodes i)).Saved

theorem Durable.init : (Cluster.init G).Durable := fun _ _ => Peer.make_saved []

variable {s s' : Cluster G} {i : Fin n} {k : ℕ} {p : Peer G}

/-- A server of which neither the live instance nor the persister changes. -/
theorem Durable.same (hs : s.Durable) {j : Fin n} (hlive : (s'.node j).rf.dead = false)
    (hrf : (s'.node j).rf.dead = (s.node j).rf.dead ∧
      (s'.node j).rf.persistentState = (s.node j).rf.persistentState)
    (hdisk : s'.persisters j = s.persisters j) : (s'.peer j (s'.nodes j)).Saved := by
  have hsaved := hs j (hrf.1 ▸ hlive)
  unfold Peer.Saved at hsaved ⊢
  exact (congrArg (stateOf G) hdisk).trans (hsaved.trans hrf.2.symm)

/-- **A section leaves a durable cluster durable** if it leaves a saved instance saved, and saves
nothing for a killed one but the state of the live one. -/
theorem Durable.put (hs : s.Durable) (hinst : ∀ j l, (s'.inst j l).rf =
      if j = i ∧ l = k then p.rf else (s.inst j l).rf)
    (hnodes : s'.nodes = s.nodes)
    (hpersisters : s'.persisters = Function.update s.persisters i p.disk)
    (hdead : p.rf.dead = (s.inst i k).rf.dead) (hsaved : (s.peer i k).Saved → p.Saved)
    (hold : k ≠ s.nodes i → (s.node i).rf.dead = false → p.disk = s.persisters i ∨
      p.disk = encodeState G (s.node i).rf.persistentState) : s'.Durable := by
  intro j hlive
  by_cases hji : j = i
  case neg =>
    have hnode : (s'.node j).rf = (s.node j).rf := by
      rw [node, node, hinst, hnodes, if_neg fun hc => hji hc.1]
    refine hs.same hlive (by rw [hnode]; exact ⟨rfl, rfl⟩) ?_
    rw [hpersisters, Function.update_of_ne hji]
  subst hji
  by_cases hk : k = s.nodes j
  · -- the attached instance
    subst hk
    have hnode : (s'.node j).rf = p.rf := by
      rw [node, hinst, hnodes, if_pos ⟨rfl, rfl⟩]
    have hdisk : s'.persisters j = p.disk := by rw [hpersisters, Function.update_self]
    have hp : p.Saved := hsaved (hs j (by rw [node, ← hdead, ← hnode]; exact hlive))
    show stateOf G (s'.persisters j) = (s'.node j).rf.persistentState
    rw [hdisk, hnode]
    exact hp
  · -- an instance that was killed
    have hnode : (s'.node j).rf = (s.node j).rf := by
      rw [node, node, hinst, hnodes, if_neg fun hc => hk hc.2.symm]
    have hdisk : s'.persisters j = p.disk := by rw [hpersisters, Function.update_self]
    rcases hold hk (by rw [← hnode]; exact hlive) with hsame | hstate
    · exact hs.same hlive (by rw [hnode]; exact ⟨rfl, rfl⟩) (hdisk.trans hsame)
    · show stateOf G (s'.persisters j) = (s'.node j).rf.persistentState
      rw [hdisk, hstate, stateOf_encodeState, hnode]

end Cluster

namespace Network

variable {s s' : Network G} {m : Move n Cmd} {a : Action n Cmd} {i : Fin n} {k : ℕ} {p : Peer G}

omit [Inhabited Cmd] in
/-- **All that a killed instance can write** in a section of the cluster. -/
theorem disk_of_dead (h : s.cluster.Section a i k p) (hd : (s.cluster.inst i k).rf.dead = true) :
    p.disk = s.cluster.persisters i ∨
      ∃ state, s.saves (.cluster a) = some (i, k, state) ∧ p.disk = encodeState G state := by
  have hd' : (s.cluster.peer i k).rf.dead = true := hd
  cases h with
  | startElection hk h =>
    -- killed instances do not stand for election
    rw [Peer.startElection, if_pos (Or.inr hd')] at h
    cases h
  | requestVote hc hlive =>
    rw [Cluster.node, hd] at hlive
    cases hlive
  | @voteReply c call reply hc hr =>
    rw [Peer.voteReply_disk]
    cases hsaves : (s.cluster.inst call.src call.inc).rf.savesReply reply.term with
    | none => exact Or.inl (congrArg (diskAfter G _) hsaves)
    | some state =>
      exact Or.inr ⟨state, by simp [saves, hc, hr, hsaves], congrArg (diskAfter G _) hsaves⟩
  | start hk command =>
    rw [Peer.start, if_pos (Or.inr hd')]
    exact Or.inl rfl
  | appendEntries hc hlive =>
    rw [Cluster.node, hd] at hlive
    cases hlive
  | @appendReply c call reply hc hr =>
    rw [Peer.appendReply_disk]
    cases hsaves : (s.cluster.inst call.src call.inc).rf.savesReply reply.term with
    | none => exact Or.inl (congrArg (diskAfter G _) hsaves)
    | some state =>
      exact Or.inr ⟨state, by simp [saves, hc, hr, hsaves], congrArg (diskAfter G _) hsaves⟩

/-- A harmless step of the cluster leaves a durable cluster durable. -/
theorem durable_cluster (hs : s.cluster.Durable) (hb : s.Bounded) (hok : s.Harmless (.cluster a))
    {t : Cluster G} (h : Cluster.step s.cluster a = some t) : t.Durable := by
  cases Cluster.step_effect h with
  | @acted i k p hsec votes inst nodes persisters =>
    refine hs.put (i := i) (k := k) (p := p) (fun j l => ?_) nodes persisters hsec.kept.2
      hsec.saved fun hk hlive => ?_
    · rw [inst, set₂_apply]
      split <;> rfl
    · have hdead := hb.cluster.old (lt_of_le_of_ne (hb.cluster.section_le hsec) hk)
      refine (disk_of_dead hsec hdead).imp_right fun ⟨state, hsaves, hdisk⟩ => ?_
      rw [hdisk, hok i k state hsaves hdead hlive]
  | quiet inst nodes persisters =>
    intro j hlive
    have hnode : t.node j = s.cluster.node j := by rw [Cluster.node, Cluster.node, inst, nodes]
    exact hs.same hlive (by rw [hnode]; exact ⟨rfl, rfl⟩) (by rw [persisters])
  | @applier i k rf batch ha hk hnil happ inst nodes persisters =>
    intro j hlive
    unfold Server.applier at happ
    split at happ
    · cases happ
    rw [Option.some_inj, Prod.mk.injEq] at happ
    refine hs.same hlive ?_ (by rw [persisters])
    rw [Cluster.node, Cluster.node, inst, nodes, set₂_apply]
    split
    · next hjk =>
      obtain ⟨rfl, rfl⟩ := hjk
      rw [← happ.1]
      exact ⟨rfl, rfl⟩
    · exact ⟨rfl, rfl⟩
  | @send i k msg rest ha hk hbatch inst nodes persisters =>
    intro j hlive
    refine hs.same hlive ?_ (by rw [persisters])
    rw [Cluster.node, Cluster.node, inst, nodes, set₂_apply]
    split
    · next hjk =>
      obtain ⟨rfl, rfl⟩ := hjk
      exact ⟨rfl, rfl⟩
    · exact ⟨rfl, rfl⟩
  | @crash i ha hdead inst nodes persisters =>
    intro j hlive
    by_cases hji : j = i
    · subst hji
      simp [Cluster.node, inst, nodes] at hlive
    · have hnode : t.node j = s.cluster.node j := by
        rw [Cluster.node, Cluster.node, inst, nodes, set₂_apply, if_neg fun hc => hji hc.1]
      exact hs.same hlive (by rw [hnode]; exact ⟨rfl, rfl⟩) (by rw [persisters])
  | @restart i ha hdead inst nodes persisters =>
    intro j hlive
    by_cases hji : j = i
    · subst hji
      have hpeer : t.peer j (t.nodes j) =
          ⟨make G (s.cluster.persisters j), s.cluster.persisters j⟩ := by
        simp [Cluster.peer, inst, nodes, persisters, Cluster.fresh]
      rw [hpeer]
      exact Peer.make_saved _
    · have hnode : t.node j = s.cluster.node j := by
        rw [Cluster.node, Cluster.node, inst, nodes, Function.update_of_ne hji, set₂_apply,
          if_neg fun hc => hji hc.1]
      exact hs.same hlive (by rw [hnode]; exact ⟨rfl, rfl⟩) (by rw [persisters])

/-- **Every harmless step leaves a durable cluster durable.** -/
theorem durable_step (hs : s.cluster.Durable) (hb : s.Bounded) (hok : s.Harmless m)
    (h : Network.step s m = some s') : s'.cluster.Durable := by
  cases m with
  | cluster a =>
    obtain ⟨cluster, hstep, rfl⟩ := Option.map_eq_some_iff.mp h
    exact durable_cluster hs hb hok hstep
  | chooseVote c =>
    obtain ⟨call, hc, h⟩ := Option.bind_eq_some_iff.mp h
    split at h
    · obtain rfl := Option.some_inj.mp h
      exact hs
    · cases h
  | chooseAppend c =>
    obtain ⟨call, hc, h⟩ := Option.bind_eq_some_iff.mp h
    split at h
    · obtain rfl := Option.some_inj.mp h
      exact hs
    · cases h
  | handle h' =>
    obtain ⟨handler, hh, rfl⟩ := Option.map_eq_some_iff.mp h
    have hbound := hb.handlers handler (List.mem_of_getElem? hh)
    cases handler with
    | requestVote call k =>
      have hkept := Peer.kept_requestVote (s.cluster.peer call.dst k) call.args
      refine hs.put (i := call.dst) (k := k)
        (p := ((s.cluster.peer call.dst k).requestVote call.args).1) (fun j l => ?_) rfl rfl hkept.2
        (fun hp => hp.requestVote call.args) fun hk hlive => ?_
      · show (set₂ s.cluster.inst call.dst k _ j l).rf = _
        rw [set₂_apply]
        split <;> rfl
      · have hdead := hb.cluster.old (lt_of_le_of_ne hbound.2 hk)
        rw [Peer.requestVote_disk]
        cases hsaves : (s.cluster.inst call.dst k).rf.savesVote call.args with
        | none => exact Or.inl (congrArg (diskAfter G _) hsaves)
        | some state =>
          refine Or.inr ((congrArg (diskAfter G _) hsaves).trans ?_)
          rw [hok call.dst k state (by simp [saves, hh, hsaves]) hdead hlive]
          rfl
    | appendEntries call k =>
      have hkept := Peer.kept_appendEntries (s.cluster.peer call.dst k) call.args
      refine hs.put (i := call.dst) (k := k)
        (p := ((s.cluster.peer call.dst k).appendEntries call.args).1) (fun j l => ?_) rfl rfl
        hkept.2 (fun hp => hp.appendEntries call.args) fun hk hlive => ?_
      · show (set₂ s.cluster.inst call.dst k _ j l).rf = _
        rw [set₂_apply]
        split <;> rfl
      · have hdead := hb.cluster.old (lt_of_le_of_ne hbound.2 hk)
        rw [Peer.appendEntries_disk]
        cases hsaves : (s.cluster.inst call.dst k).rf.savesEntries call.args with
        | none => exact Or.inl (congrArg (diskAfter G _) hsaves)
        | some state =>
          refine Or.inr ((congrArg (diskAfter G _) hsaves).trans ?_)
          rw [hok call.dst k state (by simp [saves, hh, hsaves]) hdead hlive]
          rfl

/-- What a killed instance saves is what its persister holds after the step. -/
theorem step_of_saves {state : PersistentState n Cmd} (h : s.saves m = some (i, k, state))
    (hk : k ≠ s.cluster.nodes i) :
    ∃ s', Network.step s m = some s' ∧ s'.cluster.node i = s.cluster.node i ∧
      s'.cluster.persisters i = encodeState G state := by
  cases m with
  | cluster a =>
    cases a with
    | voteReply c =>
      obtain ⟨call, hc, h⟩ := Option.bind_eq_some_iff.mp h
      obtain ⟨reply, hr, h⟩ := Option.bind_eq_some_iff.mp h
      obtain ⟨state, hsaves, h⟩ := Option.map_eq_some_iff.mp h
      simp only [Prod.mk.injEq] at h
      obtain ⟨rfl, rfl, rfl⟩ := h
      refine ⟨_, by
        simp only [Network.step, Cluster.step, Cluster.voteReply, hc, hr, Option.bind_some,
          Option.map_some]
        rfl, ?_, ?_⟩
      · simp [Cluster.node, Cluster.put, Cluster.setVotes, Cluster.emit, set₂_apply, hk.symm]
      · simp only [Cluster.emit, Cluster.setVotes, Cluster.put, Function.update_self,
          Peer.voteReply_disk]
        exact congrArg (diskAfter G _) hsaves
    | appendReply c =>
      obtain ⟨call, hc, h⟩ := Option.bind_eq_some_iff.mp h
      obtain ⟨reply, hr, h⟩ := Option.bind_eq_some_iff.mp h
      obtain ⟨state, hsaves, h⟩ := Option.map_eq_some_iff.mp h
      simp only [Prod.mk.injEq] at h
      obtain ⟨rfl, rfl, rfl⟩ := h
      refine ⟨_, by
        simp only [Network.step, Cluster.step, Cluster.appendReply, hc, hr, Option.bind_some,
          Option.map_some]
        rfl, ?_, ?_⟩
      · simp [Cluster.node, Cluster.put, Cluster.emit, set₂_apply, hk.symm]
      · simp only [Cluster.emit, Cluster.put, Function.update_self, Peer.appendReply_disk]
        exact congrArg (diskAfter G _) hsaves
    | _ => cases h
  | handle h' =>
    obtain ⟨handler, hh, h⟩ := Option.bind_eq_some_iff.mp h
    cases handler with
    | requestVote call l =>
      obtain ⟨state, hsaves, h⟩ := Option.map_eq_some_iff.mp h
      simp only [Prod.mk.injEq] at h
      obtain ⟨rfl, rfl, rfl⟩ := h
      refine ⟨_, by
        simp only [Network.step, handle, hh, Option.map_some]
        rfl, ?_, ?_⟩
      · simp [runHandler, Cluster.node, Cluster.put, Cluster.emit, set₂_apply, hk.symm]
      · simp only [runHandler, Cluster.emit, Cluster.put, Function.update_self,
          Peer.requestVote_disk]
        exact congrArg (diskAfter G _) hsaves
    | appendEntries call l =>
      obtain ⟨state, hsaves, h⟩ := Option.map_eq_some_iff.mp h
      simp only [Prod.mk.injEq] at h
      obtain ⟨rfl, rfl, rfl⟩ := h
      refine ⟨_, by
        simp only [Network.step, handle, hh, Option.map_some]
        rfl, ?_, ?_⟩
      · simp [runHandler, Cluster.node, Cluster.put, set₂_apply, hk.symm]
      · simp only [runHandler, Cluster.put, Function.update_self, Peer.appendEntries_disk]
        exact congrArg (diskAfter G _) hsaves
  | _ => cases h

/-- **Only harmless steps leave a cluster durable.** -/
theorem harmless_of_durable (h : ∀ s', Network.step s m = some s' → s'.cluster.Durable) :
    s.Harmless m := by
  intro i k state hsaves hdead hlive
  have hk : k ≠ s.cluster.nodes i := by
    rintro rfl
    rw [Cluster.node, hdead] at hlive
    cases hlive
  obtain ⟨s', hs', hnode, hdisk⟩ := step_of_saves hsaves hk
  have hsaved : stateOf G (s'.cluster.persisters i) = (s'.cluster.node i).rf.persistentState :=
    h s' hs' i (by rw [hnode]; exact hlive)
  rw [hdisk, hnode, stateOf_encodeState] at hsaved
  exact hsaved.symm

end Network

/-- **Durability, exactly.**  In every state that a run passes through the
persisters hold what the live servers have, if and only if every step of the run
is harmless. -/
theorem durable_iff (ms : List (Move n Cmd)) :
    (∀ bs s, bs <+: ms → exec Network.step (Network.init G) bs = some s → s.cluster.Durable) ↔
      ∀ bs m s, bs ++ [m] <+: ms → exec Network.step (Network.init G) bs = some s →
        s.Harmless m := by
  apply exec_forall_iff (P := fun s => s.cluster.Durable) (I := Network.Bounded) .init
    (fun _ _ _ hb hstep => hb.step hstep) .init
  intro s m hb hs
  constructor
  · intro hok s' hstep
    exact Network.durable_step hs hb hok hstep
  · exact Network.harmless_of_durable

/-- A vote reply of term `2` reaches the killed instance of server `0` after the
restart: the persister forgets the vote that the live instance gave in term `1`. -/
theorem not_durable : ¬ ∀ s : Network (Gob.letter 2 ℕ),
    Reach Network.step (Network.init _) s → s.cluster.Durable := by
  intro h
  have hrun : ((exec Network.step (Network.init (Gob.letter 2 ℕ))
      [.cluster (.startElection 0 0), .cluster (.startElection 1 0), .cluster (.startElection 1 0),
        .chooseVote 0, .handle 0, .cluster (.crash 0), .cluster (.restart 0),
        .cluster (.voteReply 2)]).map fun s =>
      ((s.cluster.node 0).rf.dead, stateOf _ (s.cluster.persisters 0),
        (s.cluster.node 0).rf.persistentState)) =
      some (false, ⟨2, none, [⟨0, 0⟩]⟩, ⟨1, some 0, [⟨0, 0⟩]⟩) := by decide
  obtain ⟨s, hs, hobs⟩ := Option.map_eq_some_iff.mp hrun
  simp only [Prod.mk.injEq] at hobs
  obtain ⟨hlive, hdisk, hstate⟩ := hobs
  have hsaved : stateOf _ (s.cluster.persisters 0) = (s.cluster.node 0).rf.persistentState :=
    h s (.of_exec _ hs) 0 hlive
  rw [hdisk, hstate] at hsaved
  exact absurd hsaved (by decide)

/-- A handler that was chosen before the restart overwrites a vote in the same way. -/
example : ((exec Network.step (Network.init (Gob.letter 2 ℕ))
    [.cluster (.startElection 1 0), .chooseVote 0, .cluster (.crash 0), .cluster (.restart 0),
      .cluster (.startElection 0 1), .handle 0]).map fun s =>
    (stateOf _ (s.cluster.persisters 0), (s.cluster.node 0).rf.persistentState)) =
    some (⟨1, some 1, [⟨0, 0⟩]⟩, ⟨1, some 0, [⟨0, 0⟩]⟩) := by
  decide

end Raft
end SepLab
