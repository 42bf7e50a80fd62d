import SepLab.Raft.Persistence

/-!
# What a step of the cluster does

The one case analysis of `Cluster.step` on which the invariants of its runs rest:
a step is a section of one instance, leaves all instances alone, takes or sends a
message of an applier, or is an action of the harness.

## Main definitions

* `Cluster.Section s a i k p` — the action `a` is a section of instance `k` of server `i`,
  which leaves it at `p`.
* `Cluster.Effect s a s'` — what the action `a` makes of the cluster.
* `Cluster.delivered s i k` — the indices that an instance has delivered, in order.
* `Cluster.Bounded` — calls come from instances that have been made, and only the
  attached instance of a server can be alive.

## Main results

* `Cluster.step_effect` — every step has such an effect.
* `Cluster.Section.kept`, `Cluster.Section.saved` — what every section keeps.
* `Cluster.Bounded.step` — the bounds hold after every step, those of killed
  instances included.
-/

namespace SepLab
namespace Raft

variable {n : ℕ} {Cmd : Type} {G : Gob n Cmd}

namespace Peer

variable {p p' : Peer G}

/-! ### What the sections keep -/

theorem observe_kept (p : Peer G) (t : ℕ) : (p.observe t).rf.lastApplied = p.rf.lastApplied ∧
    (p.observe t).rf.commitIndex = p.rf.commitIndex ∧ (p.observe t).rf.dead = p.rf.dead := by
  unfold observe
  split
  · exact ⟨rfl, rfl, rfl⟩
  · exact ⟨rfl, rfl, rfl⟩

/-- A section that does not apply anything keeps `lastApplied` and `dead`. -/
def Kept (p p' : Peer G) : Prop :=
  p'.rf.lastApplied = p.rf.lastApplied ∧ p'.rf.dead = p.rf.dead

theorem kept_startElection {me : Fin n} {args : RequestVoteArgs n}
    (h : p.startElection me = some (p', args)) : Kept p p' := by
  unfold startElection at h
  split at h
  · cases h
  · rw [Option.some_inj, Prod.mk.injEq] at h
    rw [← h.1]
    exact ⟨rfl, rfl⟩

theorem kept_requestVote (p : Peer G) (args : RequestVoteArgs n) :
    Kept p (p.requestVote args).1 := by
  obtain ⟨happ, -, hdead⟩ := p.observe_kept args.term
  unfold requestVote
  split
  · exact ⟨rfl, rfl⟩
  dsimp only
  split
  · exact ⟨happ, hdead⟩
  · exact ⟨happ, hdead⟩

theorem kept_voteReply (p : Peer G) (me : Fin n) (term votes : ℕ) (reply : RequestVoteReply) :
    Kept p (p.voteReply me term votes reply).1 := by
  unfold voteReply
  split
  · exact ⟨rfl, rfl⟩
  split
  · exact ⟨rfl, rfl⟩
  split
  · split
    · unfold Server.becomeLeaderLocked
      split
      · exact ⟨rfl, rfl⟩
      · exact ⟨rfl, rfl⟩
    · exact ⟨rfl, rfl⟩
  · exact ⟨rfl, rfl⟩

theorem kept_start (p : Peer G) (command : Cmd) : Kept p (p.start command).1 := by
  unfold start
  split
  · exact ⟨rfl, rfl⟩
  · exact ⟨rfl, rfl⟩

theorem kept_appendEntries (p : Peer G) (args : AppendEntriesArgs n Cmd) :
    Kept p (p.appendEntries args).1 := by
  obtain ⟨happ, -, hdead⟩ := p.observe_kept args.term
  unfold appendEntries
  split
  · exact ⟨rfl, rfl⟩
  dsimp only
  split
  · exact ⟨happ, hdead⟩
  split
  · exact ⟨happ, hdead⟩
  · exact ⟨happ, hdead⟩

theorem kept_appendReply (p : Peer G) (me peer : Fin n) (args : AppendEntriesArgs n Cmd)
    (reply : AppendEntriesReply) : Kept p (p.appendReply me peer args reply) := by
  rcases p.appendReply_eq me peer args reply with heq | ⟨next, matched, c, heq⟩
  · rw [heq]
    exact ⟨rfl, rfl⟩
  · rw [heq]
    exact ⟨rfl, rfl⟩

end Peer

/-- The index that an event delivers for instance `k` of server `i`. -/
def Event.delivers (i : Fin n) (k : ℕ) : Event n Cmd → Option ℕ
  | .applied j l msg => if j = i ∧ l = k then some msg.commandIndex else none
  | _ => none

namespace Cluster

/-- The action `a` is a section of instance `k` of server `i` that leaves it at the given peer. -/
inductive Section (s : Cluster G) : Action n Cmd → Fin n → ℕ → Peer G → Prop
  | startElection {i : Fin n} {k : ℕ} {p : Peer G} {args : RequestVoteArgs n}
      (hk : k ≤ s.nodes i) (h : (s.peer i k).startElection i = some (p, args)) :
      Section s (.startElection i k) i k p
  | requestVote {c : ℕ} {call : VoteCall n} (hc : s.voteCalls[c]? = some call)
      (hlive : (s.node call.dst).rf.dead = false) :
      Section s (.requestVote c) call.dst (s.nodes call.dst)
        ((s.peer call.dst (s.nodes call.dst)).requestVote call.args).1
  | voteReply {c : ℕ} {call : VoteCall n} {reply : RequestVoteReply}
      (hc : s.voteCalls[c]? = some call) (hr : call.reply = some reply) :
      Section s (.voteReply c) call.src call.inc
        ((s.peer call.src call.inc).voteReply call.src call.args.term
          ((s.inst call.src call.inc).votes call.args.term) reply).1
  | start {i : Fin n} {k : ℕ} (hk : k ≤ s.nodes i) (command : Cmd) :
      Section s (.start i k command) i k ((s.peer i k).start command).1
  | appendEntries {c : ℕ} {call : AppendCall n Cmd} (hc : s.appendCalls[c]? = some call)
      (hlive : (s.node call.dst).rf.dead = false) :
      Section s (.appendEntries c) call.dst (s.nodes call.dst)
        ((s.peer call.dst (s.nodes call.dst)).appendEntries call.args).1
  | appendReply {c : ℕ} {call : AppendCall n Cmd} {reply : AppendEntriesReply}
      (hc : s.appendCalls[c]? = some call) (hr : call.reply = some reply) :
      Section s (.appendReply c) call.src call.inc
        ((s.peer call.src call.inc).appendReply call.src call.dst call.args reply)

/-- The indices that instance `k` of server `i` has delivered, oldest first. -/
def delivered (s : Cluster G) (i : Fin n) (k : ℕ) : List ℕ :=
  s.trace.filterMap (Event.delivers i k)

/-- What the action `a` makes of the cluster `s`, up to the calls in flight. -/
inductive Effect [Inhabited Cmd] (s : Cluster G) (a : Action n Cmd) (s' : Cluster G) : Prop
  /-- A section of an instance. -/
  | acted {i : Fin n} {k : ℕ} {p : Peer G} (h : s.Section a i k p) (votes : ℕ → ℕ)
      (inst : s'.inst = set₂ s.inst i k ⟨p.rf, votes, (s.inst i k).batch⟩)
      (nodes : s'.nodes = s.nodes)
      (persisters : s'.persisters = Function.update s.persisters i p.disk)
      (delivered : s'.delivered = s.delivered)
  /-- Nothing but calls in flight. -/
  | quiet (inst : s'.inst = s.inst) (nodes : s'.nodes = s.nodes)
      (persisters : s'.persisters = s.persisters) (delivered : s'.delivered = s.delivered)
  /-- An applier that has sent everything takes the next batch. -/
  | applier {i : Fin n} {k : ℕ} {rf : Server n Cmd} {batch : List (ApplyMsg Cmd)}
      (ha : a = .applier i k) (hk : k ≤ s.nodes i) (hnil : (s.inst i k).batch = [])
      (h : (s.inst i k).rf.applier = some (rf, batch))
      (inst : s'.inst = set₂ s.inst i k ⟨rf, (s.inst i k).votes, batch⟩)
      (nodes : s'.nodes = s.nodes) (persisters : s'.persisters = s.persisters)
      (delivered : s'.delivered = s.delivered)
  /-- An applier sends a message. -/
  | send {i : Fin n} {k : ℕ} {msg : ApplyMsg Cmd} {rest : List (ApplyMsg Cmd)}
      (ha : a = .send i k) (hk : k ≤ s.nodes i) (hbatch : (s.inst i k).batch = msg :: rest)
      (inst : s'.inst = set₂ s.inst i k ⟨(s.inst i k).rf, (s.inst i k).votes, rest⟩)
      (nodes : s'.nodes = s.nodes) (persisters : s'.persisters = s.persisters)
      (delivered : s'.delivered =
        set₂ s.delivered i k (s.delivered i k ++ [msg.commandIndex]))
  /-- The harness kills an instance. -/
  | crash {i : Fin n} (ha : a = .crash i) (hlive : (s.node i).rf.dead = false)
      (inst : s'.inst = set₂ s.inst i (s.nodes i)
        ⟨{ (s.node i).rf with dead := true }, (s.node i).votes, (s.node i).batch⟩)
      (nodes : s'.nodes = s.nodes) (persisters : s'.persisters = s.persisters)
      (delivered : s'.delivered = s.delivered)
  /-- The harness makes a new instance. -/
  | restart {i : Fin n} (ha : a = .restart i) (hdead : (s.node i).rf.dead = true)
      (inst : s'.inst = set₂ s.inst i (s.nodes i + 1) (fresh G (s.persisters i)))
      (nodes : s'.nodes = Function.update s.nodes i (s.nodes i + 1))
      (persisters : s'.persisters = s.persisters) (delivered : s'.delivered = s.delivered)

/-- An observer sees no delivery when a server becomes the leader, -/
theorem delivers_leaderEvents (i j : Fin n) (k t : ℕ) (rf rf' : Server n Cmd) :
    (leaderEvents i t rf rf').filterMap (Event.delivers j k) = [] := by
  unfold leaderEvents
  split <;> rfl

/-- nor when it commits. -/
theorem delivers_commitEvents (i j : Fin n) (k : ℕ) (rf rf' : Server n Cmd) :
    (commitEvents i rf rf').filterMap (Event.delivers j k) = [] := by
  unfold commitEvents
  split <;> rfl

variable [Inhabited Cmd] {s s' : Cluster G} {a : Action n Cmd}

/-- **Every step has one of these effects.** -/
theorem step_effect (h : step s a = some s') : Effect s a s' := by
  cases a with
  | startElection i k =>
    simp only [step, startElection] at h
    split at h
    case isFalse => cases h
    next hk =>
    obtain ⟨⟨p, args⟩, hp, rfl⟩ := Option.map_eq_some_iff.mp h
    refine .acted (.startElection hk hp) (Function.update (s.inst i k).votes args.term 1) ?_ rfl
      rfl ?_
    · simp [put, setVotes, emit]
    · funext j l
      simp [put, setVotes, emit, delivered, Event.delivers]
  | requestVote c =>
    simp only [step, requestVote] at h
    obtain ⟨call, hc, h⟩ := Option.bind_eq_some_iff.mp h
    split at h
    case isFalse => cases h
    next hcond =>
    rw [Option.some_inj] at h
    subst h
    refine .acted (.requestVote hc hcond.2) (s.node call.dst).votes ?_ rfl rfl ?_
    · simp [put, emit, node]
    · funext i k
      simp only [put, emit, delivered, List.filterMap_append]
      split <;> simp [Event.delivers]
  | voteReply c =>
    simp only [step, voteReply] at h
    obtain ⟨call, hc, h⟩ := Option.bind_eq_some_iff.mp h
    obtain ⟨reply, hr, rfl⟩ := Option.map_eq_some_iff.mp h
    refine .acted (.voteReply hc hr) (Function.update (s.inst call.src call.inc).votes
      call.args.term ((s.peer call.src call.inc).voteReply call.src call.args.term
        ((s.inst call.src call.inc).votes call.args.term) reply).2) ?_ rfl rfl ?_
    · simp [put, setVotes, emit]
    · funext i k
      simp [put, setVotes, emit, delivered, delivers_leaderEvents]
  | loseVote c =>
    simp only [step, loseVote] at h
    split at h
    case isFalse => cases h
    rw [Option.some_inj] at h
    subst h
    exact .quiet rfl rfl rfl rfl
  | start i k command =>
    simp only [step, start] at h
    split at h
    case isFalse => cases h
    next hk =>
    rw [Option.some_inj] at h
    subst h
    exact .acted (.start hk command) (s.inst i k).votes rfl rfl rfl rfl
  | replicateTo i k peer term =>
    simp only [step, replicateTo] at h
    split at h
    case isFalse => cases h
    obtain ⟨args, -, rfl⟩ := Option.map_eq_some_iff.mp h
    exact .quiet rfl rfl rfl rfl
  | appendEntries c =>
    simp only [step, appendEntries] at h
    obtain ⟨call, hc, h⟩ := Option.bind_eq_some_iff.mp h
    split at h
    case isFalse => cases h
    next hcond =>
    rw [Option.some_inj] at h
    subst h
    exact .acted (.appendEntries hc hcond.2) (s.node call.dst).votes rfl rfl rfl rfl
  | appendReply c =>
    simp only [step, appendReply] at h
    obtain ⟨call, hc, h⟩ := Option.bind_eq_some_iff.mp h
    obtain ⟨reply, hr, rfl⟩ := Option.map_eq_some_iff.mp h
    refine .acted (.appendReply hc hr) (s.inst call.src call.inc).votes rfl rfl rfl ?_
    funext i k
    simp [put, emit, delivered, delivers_commitEvents]
  | loseAppend c =>
    simp only [step, loseAppend] at h
    split at h
    case isFalse => cases h
    rw [Option.some_inj] at h
    subst h
    exact .quiet rfl rfl rfl rfl
  | applier i k =>
    simp only [step, applier] at h
    split at h
    case isFalse => cases h
    next hcond =>
    obtain ⟨⟨rf, batch⟩, happ, rfl⟩ := Option.map_eq_some_iff.mp h
    refine .applier rfl hcond.1 hcond.2 happ ?_ rfl ?_ rfl
    · simp [put, setBatch]
    · simp [put, setBatch]
  | send i k =>
    simp only [step, send] at h
    split at h
    · cases h
    next msg rest hbatch =>
    split at h
    case isFalse => cases h
    next hk =>
    rw [Option.some_inj] at h
    subst h
    refine .send rfl hk hbatch rfl rfl rfl ?_
    funext j l
    simp only [setBatch, emit, delivered, List.filterMap_append, set₂_apply]
    -- the instance that delivers, or another one
    by_cases hjl : j = i ∧ l = k
    · obtain ⟨rfl, rfl⟩ := hjl
      simp [Event.delivers]
    · have hji : ¬ (i = j ∧ k = l) := fun hc => hjl ⟨hc.1.symm, hc.2.symm⟩
      simp [Event.delivers, hjl, hji]
  | crash i =>
    simp only [step, crash] at h
    split at h
    · cases h
    next hlive =>
    rw [Option.some_inj] at h
    subst h
    exact .crash rfl (by simpa using hlive) rfl rfl rfl rfl
  | restart i =>
    simp only [step, restart] at h
    split at h
    case isFalse => cases h
    next hdead =>
    rw [Option.some_inj] at h
    subst h
    exact .restart rfl hdead rfl rfl rfl rfl

/-! ### Sections -/

section
variable {i : Fin n} {k : ℕ} {p : Peer G}

omit [Inhabited Cmd] in
theorem Section.kept (h : s.Section a i k p) : Peer.Kept (s.peer i k) p := by
  cases h with
  | startElection hk h => exact Peer.kept_startElection h
  | requestVote hc hlive => exact Peer.kept_requestVote _ _
  | voteReply hc hr => exact Peer.kept_voteReply _ _ _ _ _
  | start hk command => exact Peer.kept_start _ _
  | appendEntries hc hlive => exact Peer.kept_appendEntries _ _
  | appendReply hc hr => exact Peer.kept_appendReply _ _ _ _ _

/-- **A section leaves a saved peer saved.** -/
theorem Section.saved (h : s.Section a i k p) (hs : (s.peer i k).Saved) : p.Saved := by
  cases h with
  | startElection hk h => exact Peer.startElection_saved h
  | requestVote hc hlive => exact hs.requestVote _
  | voteReply hc hr => exact hs.voteReply _ _ _ _
  | start hk command => exact hs.start _
  | appendEntries hc hlive => exact hs.appendEntries _
  | appendReply hc hr => exact hs.appendReply _ _ _ _

end

/-! ### Instances -/

/-- Instance `k` of server `i` waits for the reply to a call. -/
def Sent (s : Cluster G) (i : Fin n) (k : ℕ) : Prop :=
  (∃ call ∈ s.voteCalls, call.src = i ∧ call.inc = k) ∨
    ∃ call ∈ s.appendCalls, call.src = i ∧ call.inc = k

omit [Inhabited Cmd] in
theorem Sent.of_subset {i : Fin n} {k : ℕ} (h : s'.Sent i k)
    (hv : ∀ call ∈ s'.voteCalls, ∃ call₀ ∈ s.voteCalls,
      call₀.src = call.src ∧ call₀.inc = call.inc)
    (ha : ∀ call ∈ s'.appendCalls, ∃ call₀ ∈ s.appendCalls,
      call₀.src = call.src ∧ call₀.inc = call.inc) : s.Sent i k := by
  rcases h with ⟨call, hc, rfl, rfl⟩ | ⟨call, hc, rfl, rfl⟩
  · exact Or.inl (hv call hc)
  · exact Or.inr (ha call hc)

/-- Only an instance that has been made sends a call. -/
theorem step_sent (h : step s a = some s') {i : Fin n} {k : ℕ} (hsent : s'.Sent i k) :
    s.Sent i k ∨ k ≤ s.nodes i := by
  have hsame : ∀ {call : VoteCall n}, call ∈ s.voteCalls → ∃ call₀ ∈ s.voteCalls,
      call₀.src = call.src ∧ call₀.inc = call.inc := fun hc => ⟨_, hc, rfl, rfl⟩
  have hsame' : ∀ {call : AppendCall n Cmd}, call ∈ s.appendCalls → ∃ call₀ ∈ s.appendCalls,
      call₀.src = call.src ∧ call₀.inc = call.inc := fun hc => ⟨_, hc, rfl, rfl⟩
  cases a with
  | startElection j l =>
    simp only [step, startElection] at h
    split at h
    case isFalse => cases h
    next hl =>
    obtain ⟨⟨p, args⟩, hp, rfl⟩ := Option.map_eq_some_iff.mp h
    rcases hsent with ⟨call, hc, rfl, rfl⟩ | hsent
    · rcases List.mem_append.mp hc with hc | hc
      · exact Or.inl (Or.inl ⟨call, hc, rfl, rfl⟩)
      · obtain ⟨v, -, rfl⟩ := List.mem_map.mp hc
        exact Or.inr hl
    · exact Or.inl (Or.inr hsent)
  | requestVote c =>
    simp only [step, requestVote] at h
    obtain ⟨call, hc, h⟩ := Option.bind_eq_some_iff.mp h
    split at h
    case isFalse => cases h
    rw [Option.some_inj] at h
    subst h
    refine Or.inl (hsent.of_subset (fun call' hc' => ?_) fun _ => hsame')
    rcases List.mem_or_eq_of_mem_set hc' with hc' | rfl
    · exact hsame hc'
    · exact ⟨call, List.mem_of_getElem? hc, rfl, rfl⟩
  | voteReply c =>
    simp only [step, voteReply] at h
    obtain ⟨call, -, h⟩ := Option.bind_eq_some_iff.mp h
    obtain ⟨reply, -, rfl⟩ := Option.map_eq_some_iff.mp h
    exact Or.inl (hsent.of_subset (fun _ hc => hsame (List.mem_of_mem_eraseIdx hc)) fun _ => hsame')
  | loseVote c =>
    simp only [step, loseVote] at h
    split at h
    case isFalse => cases h
    rw [Option.some_inj] at h
    subst h
    exact Or.inl (hsent.of_subset (fun _ hc => hsame (List.mem_of_mem_eraseIdx hc)) fun _ => hsame')
  | replicateTo j l peer term =>
    simp only [step, replicateTo] at h
    split at h
    case isFalse => cases h
    next hcond =>
    obtain ⟨args, -, rfl⟩ := Option.map_eq_some_iff.mp h
    rcases hsent with hsent | ⟨call, hc, rfl, rfl⟩
    · exact Or.inl (Or.inl hsent)
    · rcases List.mem_append.mp hc with hc | hc
      · exact Or.inl (Or.inr ⟨call, hc, rfl, rfl⟩)
      · rw [List.mem_singleton.mp hc]
        exact Or.inr hcond.1
  | appendEntries c =>
    simp only [step, appendEntries] at h
    obtain ⟨call, hc, h⟩ := Option.bind_eq_some_iff.mp h
    split at h
    case isFalse => cases h
    rw [Option.some_inj] at h
    subst h
    refine Or.inl (hsent.of_subset (fun _ => hsame) fun call' hc' => ?_)
    rcases List.mem_or_eq_of_mem_set hc' with hc' | rfl
    · exact hsame' hc'
    · exact ⟨call, List.mem_of_getElem? hc, rfl, rfl⟩
  | appendReply c =>
    simp only [step, appendReply] at h
    obtain ⟨call, -, h⟩ := Option.bind_eq_some_iff.mp h
    obtain ⟨reply, -, rfl⟩ := Option.map_eq_some_iff.mp h
    exact Or.inl (hsent.of_subset (fun _ => hsame) fun _ hc => hsame' (List.mem_of_mem_eraseIdx hc))
  | loseAppend c =>
    simp only [step, loseAppend] at h
    split at h
    case isFalse => cases h
    rw [Option.some_inj] at h
    subst h
    exact Or.inl (hsent.of_subset (fun _ => hsame) fun _ hc => hsame' (List.mem_of_mem_eraseIdx hc))
  | start j l command =>
    simp only [step, start] at h
    split at h
    case isFalse => cases h
    rw [Option.some_inj] at h
    subst h
    exact Or.inl (hsent.of_subset (fun _ => hsame) fun _ => hsame')
  | applier j l =>
    simp only [step, applier] at h
    split at h
    case isFalse => cases h
    obtain ⟨_, -, rfl⟩ := Option.map_eq_some_iff.mp h
    exact Or.inl (hsent.of_subset (fun _ => hsame) fun _ => hsame')
  | send j l =>
    simp only [step, send] at h
    split at h
    · cases h
    split at h
    case isFalse => cases h
    rw [Option.some_inj] at h
    subst h
    exact Or.inl (hsent.of_subset (fun _ => hsame) fun _ => hsame')
  | crash j =>
    simp only [step, crash] at h
    split at h
    · cases h
    rw [Option.some_inj] at h
    subst h
    exact Or.inl (hsent.of_subset (fun _ => hsame) fun _ => hsame')
  | restart j =>
    simp only [step, restart] at h
    split at h
    case isFalse => cases h
    rw [Option.some_inj] at h
    subst h
    exact Or.inl (hsent.of_subset (fun _ => hsame) fun _ => hsame')

/-- Only instances that have been made take part, and all but the attached one are dead. -/
structure Bounded (s : Cluster G) : Prop where
  sent : ∀ {i k}, s.Sent i k → k ≤ s.nodes i
  old : ∀ {i k}, k < s.nodes i → (s.inst i k).rf.dead = true

theorem Bounded.init : (init G : Cluster G).Bounded where
  sent h := by rcases h with ⟨call, hc, -⟩ | ⟨call, hc, -⟩ <;> cases hc
  old h := by cases h

omit [Inhabited Cmd] in
/-- A section is run by an instance that has been made. -/
theorem Bounded.section_le (hs : s.Bounded) {i : Fin n} {k : ℕ} {p : Peer G}
    (h : s.Section a i k p) : k ≤ s.nodes i := by
  cases h with
  | startElection hk h => exact hk
  | requestVote hc hlive => exact le_rfl
  | voteReply hc hr => exact hs.sent (Or.inl ⟨_, List.mem_of_getElem? hc, rfl, rfl⟩)
  | start hk command => exact hk
  | appendEntries hc hlive => exact le_rfl
  | appendReply hc hr => exact hs.sent (Or.inr ⟨_, List.mem_of_getElem? hc, rfl, rfl⟩)

/-- **The bounds hold after every step.** -/
theorem Bounded.step (hs : s.Bounded) (h : Cluster.step s a = some s') : s'.Bounded := by
  have hnodes : ∀ i, s.nodes i ≤ s'.nodes i := by
    intro i
    cases step_effect h with
    | restart ha hdead inst nodes =>
      rw [nodes, Function.update_apply]
      split
      · next hi => rw [hi]; exact Nat.le_succ _
      · exact le_rfl
    | _ => simp [*]
  refine ⟨fun hsent => ?_, fun {i k} hk => ?_⟩
  · rcases step_sent h hsent with hsent | hk
    · exact (hs.sent hsent).trans (hnodes _)
    · exact hk.trans (hnodes _)
  cases step_effect h with
  | @acted j l p hsec votes inst nodes =>
    rw [nodes] at hk
    rw [inst, set₂_apply]
    split
    · next hjl =>
      obtain ⟨rfl, rfl⟩ := hjl
      exact hsec.kept.2.trans (hs.old hk)
    · exact hs.old hk
  | quiet inst nodes =>
    rw [nodes] at hk
    rw [inst]
    exact hs.old hk
  | @applier j l rf batch ha hl hnil happ inst nodes =>
    rw [nodes] at hk
    rw [inst, set₂_apply]
    split
    · next hjl =>
      obtain ⟨rfl, rfl⟩ := hjl
      -- a killed instance applies nothing
      rw [Server.applier, if_pos (Or.inl (hs.old hk))] at happ
      cases happ
    · exact hs.old hk
  | @send j l msg rest ha hl hbatch inst nodes =>
    rw [nodes] at hk
    rw [inst, set₂_apply]
    split
    · next hjl =>
      obtain ⟨rfl, rfl⟩ := hjl
      exact hs.old hk
    · exact hs.old hk
  | @crash j ha hlive inst nodes =>
    rw [nodes] at hk
    rw [inst, set₂_apply]
    split
    · rfl
    · exact hs.old hk
  | @restart j ha hdead inst nodes =>
    rw [nodes, Function.update_apply] at hk
    rw [inst, set₂_apply]
    split at hk
    · next hi =>
      subst hi
      rw [if_neg (by omega)]
      rcases (Nat.lt_succ_iff.mp hk).eq_or_lt with rfl | hlt
      · exact hdead
      · exact hs.old hlt
    · next hi =>
      rw [if_neg fun hc => hi hc.1]
      exact hs.old hk

end Cluster
end Raft
end SepLab
