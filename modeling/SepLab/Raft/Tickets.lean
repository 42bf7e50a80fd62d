import SepLab.Raft.Applying
import SepLab.Raft.Delivery

/-!
# What `Start` promises

A call of `Start` that a leader accepts returns the index and the term of the
entry it has appended: a ticket.  No other call gets the same ticket, every entry
of every log after the sentinel has one, and once a leader commits an index whose
entry has the ticket's term, the command is what every server applies there.

## Main definitions

* `Cluster.ticket s a`, `Cluster.tickets s as` — the tickets of a step and of a run.
* `Ticketed ts k es` — the entries `es`, the first of which has index `k`, have tickets.
* `Cluster.Entered b ts s` — whatever is in a log, in flight or about to be applied has one.

## Main results

* `Cluster.Section.log_cases` — what a section does to the log.
* `Cluster.entered_of_exec` — every entry of a run has a ticket.
* `start_tickets` — **tickets are unique, and the committed ones are honoured.**
-/

namespace SepLab
namespace Raft

open TermLog

variable {n : ℕ} {Cmd : Type} {G : Gob n Cmd}

/-! ### Tickets -/

theorem Peer.start_eq_false {p : Peer G} {command : Cmd}
    (h : p.rf.role ≠ .leader ∨ p.rf.dead = true) :
    p.start command = (p, -1, p.rf.currentTerm, false) := if_pos h

theorem Peer.start_eq_true {p : Peer G} {command : Cmd}
    (h : ¬ (p.rf.role ≠ .leader ∨ p.rf.dead = true)) :
    p.start command =
      (persist { p with rf := { p.rf with log := p.rf.log ++ [⟨p.rf.currentTerm, command⟩] } },
        (lastLogIndex (p.rf.log ++ [⟨p.rf.currentTerm, command⟩]) : ℤ), p.rf.currentTerm, true) :=
  if_neg h

namespace Cluster

/-- The index and the entry for which a call of `Start` returns `true`. -/
def ticket (s : Cluster G) : Action n Cmd → Option (ℕ × LogEntry Cmd)
  | .start i k command =>
    match ((s.peer i k).start command).2 with
    | (index, term, isLeader) => if isLeader then some (index.toNat, ⟨term, command⟩) else none
  | _ => none

/-- The tickets of the run `as` from `s`, oldest first. -/
def tickets [Inhabited Cmd] : Cluster G → List (Action n Cmd) → List (ℕ × LogEntry Cmd)
  | _, [] => []
  | s, a :: as => (s.ticket a).toList ++ (failStop s a).elim [] fun s' => s'.tickets as

theorem tickets_concat [Inhabited Cmd] {s s' : Cluster G} {as : List (Action n Cmd)}
    {a : Action n Cmd} (h : exec failStop s as = some s') :
    s.tickets (as ++ [a]) = s.tickets as ++ (s'.ticket a).toList := by
  induction as generalizing s with
  | nil =>
    obtain rfl := Option.some_inj.mp h
    show _ ++ (failStop s a).elim [] (fun s' => s'.tickets []) = [] ++ _
    cases failStop s a with
    | none => exact List.append_nil _
    | some s' => exact List.append_nil _
  | cons a' as ih =>
    obtain ⟨s₁, hs₁, h⟩ := Option.bind_eq_some_iff.mp h
    show _ ++ (failStop s a').elim [] (fun s' => s'.tickets (as ++ [a])) =
      (_ ++ (failStop s a').elim [] fun s' => s'.tickets as) ++ _
    rw [hs₁, List.append_assoc]
    exact congrArg _ (ih h)

/-- A ticket is for the entry that the leader appends. -/
theorem ticket_eq_some {s : Cluster G} {a : Action n Cmd} {idx : ℕ} {e : LogEntry Cmd}
    (h : s.ticket a = some (idx, e)) : ∃ i k, a = .start i k e.command ∧
      (s.inst i k).rf.role = .leader ∧
      e.term = (s.inst i k).rf.currentTerm ∧ idx = (s.inst i k).rf.log.length ∧
      ((s.peer i k).start e.command).1.rf =
        { (s.inst i k).rf with log := (s.inst i k).rf.log ++ [e] } := by
  cases a with
  | start i k command =>
    simp only [ticket] at h
    by_cases hlead : (s.peer i k).rf.role ≠ .leader ∨ (s.peer i k).rf.dead = true
    · rw [Peer.start_eq_false hlead] at h
      cases h
    · rw [Peer.start_eq_true hlead, if_pos rfl, Option.some_inj, Prod.mk.injEq] at h
      obtain ⟨rfl, rfl⟩ := h
      refine ⟨i, k, rfl, ?_, rfl, by simp [lastLogIndex], ?_⟩
      · push Not at hlead
        exact hlead.1
      · rw [Peer.start_eq_true hlead]
        rfl
  | _ => cases h

end Cluster

/-! ### Entries with tickets -/

/-- The entries `es`, the first of which has index `k`, have tickets; the
sentinel, at index `0`, needs none. -/
def Ticketed (ts : List (ℕ × LogEntry Cmd)) (k : ℕ) (es : List (LogEntry Cmd)) : Prop :=
  ∀ j e, es[j]? = some e → 0 < k + j → (k + j, e) ∈ ts

namespace Ticketed

variable {ts ts' : List (ℕ × LogEntry Cmd)} {k : ℕ} {es es' log : List (LogEntry Cmd)}

theorem mono (h : Ticketed ts k es) (hts : ts ⊆ ts') : Ticketed ts' k es :=
  fun j e he hpos => hts (h j e he hpos)

theorem take (h : Ticketed ts k es) (m : ℕ) : Ticketed ts k (es.take m) := by
  intro j e he hpos
  rw [List.getElem?_take] at he
  split at he
  · exact h j e he hpos
  · cases he

theorem drop (h : Ticketed ts 0 es) (m : ℕ) : Ticketed ts m (es.drop m) := by
  intro j e he hpos
  rw [List.getElem?_drop] at he
  have := h (m + j) e he (by omega)
  rwa [Nat.zero_add] at this

theorem append (h : Ticketed ts k es) (h' : Ticketed ts (k + es.length) es') :
    Ticketed ts k (es ++ es') := by
  intro j e he hpos
  rcases Nat.lt_or_ge j es.length with hj | hj
  · rw [List.getElem?_append_left hj] at he
    exact h j e he hpos
  · rw [List.getElem?_append_right hj] at he
    have := h' (j - es.length) e he (by omega)
    rwa [show k + es.length + (j - es.length) = k + j by omega] at this

/-- The loop of `AppendEntries` takes entries with tickets into a log with tickets. -/
theorem appendLoop (h : Ticketed ts 0 log) {idx : ℕ} (hpos : 0 < log.length)
    (hidx : idx ≤ log.length) {entries : List (LogEntry Cmd)} (hent : Ticketed ts idx entries) :
    Ticketed ts 0 (appendLoop log idx entries) := by
  induction entries generalizing idx with
  | nil => exact h
  | cons entry rest ih =>
    unfold Raft.appendLoop lastLogIndex
    split
    · next hin =>
      split
      · -- the entry is there
        refine ih (by omega) fun j e he hj => ?_
        have := hent (j + 1) e he (by omega)
        rwa [show idx + (j + 1) = idx + 1 + j by omega] at this
      · refine (h.take idx).append ?_
        rwa [List.length_take, Nat.min_eq_left (by omega), Nat.zero_add]
    · refine h.append ?_
      rwa [Nat.zero_add, show log.length = idx by omega]

end Ticketed

/-! ### What a section does to the log -/

namespace Cluster

/-- What a section of the action `a` makes of a log. -/
inductive LogCases (s : Cluster G) (a : Action n Cmd) (log : List (LogEntry Cmd)) :
    List (LogEntry Cmd) → Prop
  | same : LogCases s a log log
  /-- `Start` appends the entry of its ticket. -/
  | ticket {e : LogEntry Cmd} (h : s.ticket a = some (log.length, e)) :
    LogCases s a log (log ++ [e])
  /-- `AppendEntries` takes over the entries of a request. -/
  | loop {call : AppendCall n Cmd} (hc : call ∈ s.appendCalls)
      (hlog : log = (s.node call.dst).rf.log)
      (hprev : call.args.prevLogIndex ≤ lastLogIndex log) :
      LogCases s a log (appendLoop log (call.args.prevLogIndex + 1) call.args.entries)

/-- **What a section does to the log.** -/
theorem Section.log_cases {s : Cluster G} {a : Action n Cmd} {i : Fin n} {k : ℕ} {p : Peer G}
    (h : s.Section a i k p) : LogCases s a (s.inst i k).rf.log p.rf.log := by
  have hsame : ∀ {q : Peer G}, q.rf.log = (s.inst i k).rf.log →
      LogCases s a (s.inst i k).rf.log q.rf.log := by
    intro q hq
    rw [hq]
    exact .same
  cases h with
  | startElection hk h =>
    unfold Peer.startElection at h
    split at h
    · cases h
    · rw [Option.some_inj, Prod.mk.injEq] at h
      rw [← h.1]
      exact .same
  | @requestVote c call hc hlive =>
    apply hsame
    have hlog := (s.peer call.dst (s.nodes call.dst)).observe_log call.args.term
    unfold Peer.requestVote
    split
    · rfl
    dsimp only
    split
    · exact hlog
    · exact hlog
  | @voteReply c call reply hc hr =>
    apply hsame
    unfold Peer.voteReply
    split
    · rfl
    split
    · rfl
    split
    · split
      · unfold Server.becomeLeaderLocked
        split
        · rfl
        · rfl
      · rfl
    · rfl
  | start hk command =>
    by_cases hlead : (s.peer i k).rf.role ≠ .leader ∨ (s.peer i k).rf.dead = true
    · rw [Peer.start_eq_false hlead]
      exact .same
    · rw [Peer.start_eq_true hlead]
      refine .ticket ?_
      simp only [Cluster.ticket, Peer.start_eq_true hlead]
      simp [lastLogIndex]
  | @appendEntries c call hc hlive =>
    have hlog := (s.peer call.dst (s.nodes call.dst)).observe_log call.args.term
    unfold Peer.appendEntries
    split
    · exact .same
    dsimp only
    rw [hlog]
    split
    · exact .same
    next hprev =>
    split
    · exact .same
    · exact .loop (List.mem_of_getElem? hc) rfl (not_lt.mp hprev)
  | @appendReply c call reply hc hr =>
    apply hsame
    rcases (s.peer call.src call.inc).appendReply_eq call.src call.dst call.args reply with
      heq | ⟨next, matched, c, heq⟩
    · rw [heq]
      rfl
    · rw [heq]
      rfl

end Cluster

/-! ### Every entry has a ticket -/

variable [Inhabited Cmd]

/-- The tickets that have been given are those of the chains of their terms, and
those of one term have ascending indices. -/
structure TicketsKnown (b : Knowledge n Cmd) (ts : List (ℕ × LogEntry Cmd)) : Prop where
  pos : ∀ x ∈ ts, 0 < x.1
  chain : ∀ x ∈ ts, (b.chain x.2.term)[x.1]? = some x.2
  ascending : ts.Pairwise fun x y => x.2.term = y.2.term → x.1 < y.1

omit [Inhabited Cmd] in
theorem TicketsKnown.nil (b : Knowledge n Cmd) : TicketsKnown b [] where
  pos x hx := by cases hx
  chain x hx := by cases hx
  ascending := .nil

/-- A message is a committed entry with a ticket. -/
def ApplyMsg.Entered (b : Knowledge n Cmd) (ts : List (ℕ × LogEntry Cmd)) (msg : ApplyMsg Cmd) :
    Prop :=
  ∃ t m e, b.Committed t m ∧ msg.commandIndex < m ∧
    (b.chain t)[msg.commandIndex]? = some e ∧ e.command = msg.command ∧ (msg.commandIndex, e) ∈ ts

omit [Inhabited Cmd] in
theorem ApplyMsg.Entered.grows {b b' : Knowledge n Cmd} {ts ts' : List (ℕ × LogEntry Cmd)}
    {msg : ApplyMsg Cmd} (h : msg.Entered b ts) (hb : Ballots.Grows b b') (hts : ts ⊆ ts') :
    msg.Entered b' ts' := by
  obtain ⟨t, m, e, hc, hlt, hget, hcmd, hmem⟩ := h
  refine ⟨t, m, e, hc.grows hb, hlt, ?_, hcmd, hts hmem⟩
  obtain ⟨es, hes⟩ := hb.chain t
  rw [← hes, List.getElem?_append_left (hlt.trans_le hc.2.1)]
  exact hget

/-- The chain of a leader's term is its log. -/
theorem Refines.chain_eq {b : Knowledge n Cmd} {i : Fin n} {p : Peer G} (hb : b.Sound)
    (h : Refines b i p) (hr : p.rf.role = .leader) : b.chain p.rf.currentTerm = p.rf.log := by
  rw [← hb.chains.leader_log (h.leader hr) h.current, h.log]

/-- The batch an applier takes has tickets, if the log has. -/
theorem Refines.applier_entered {b : Knowledge n Cmd} {i : Fin n} {p : Peer G}
    {ts : List (ℕ × LogEntry Cmd)} (h : Refines b i p) (hlog : Ticketed ts 0 p.rf.log)
    {rf : Server n Cmd} {batch : List (ApplyMsg Cmd)} (hs : p.rf.applier = some (rf, batch)) :
    ∀ msg ∈ batch, msg.Entered b ts := by
  unfold Server.applier at hs
  split at hs
  · cases hs
  next hcond =>
  push Not at hcond
  rw [Option.some_inj, Prod.mk.injEq] at hs
  obtain ⟨rfl, rfl⟩ := hs
  intro msg hmsg
  unfold applyMsgs at hmsg
  obtain ⟨j, hj, rfl⟩ := List.mem_mapIdx.mp hmsg
  rw [List.length_drop, List.length_take] at hj
  rcases h.settled with hzero | ⟨t, m, -, hc, hlt, hpre⟩
  · omega
  -- the entry is at the same place in the committed chain
  have hlen := hc.2.1
  have hin : p.rf.lastApplied + 1 + j < ((b.chain t).take (p.rf.commitIndex + 1)).length := by
    rw [List.length_take]
    omega
  have hget := hpre.getElem hin
  rw [List.getElem_take] at hget
  have hlt' : p.rf.lastApplied + 1 + j < p.rf.log.length := hin.trans_le hpre.length_le
  refine ⟨t, m, p.rf.log[p.rf.lastApplied + 1 + j], hc, by dsimp only; omega, ?_, ?_, ?_⟩
  · dsimp only
    rw [List.getElem?_eq_getElem (by omega), hget]
  · dsimp only
    rw [List.getElem_drop, List.getElem_take]
  · have := hlog _ _ (List.getElem?_eq_getElem hlt') (by omega)
    rwa [Nat.zero_add] at this

namespace Cluster

variable {b b' : Knowledge n Cmd} {s s' : Cluster G} {a : Action n Cmd}

/-- Every entry in a log, of a request in flight and about to be applied has a ticket. -/
structure Entered (b : Knowledge n Cmd) (ts : List (ℕ × LogEntry Cmd)) (s : Cluster G) :
    Prop where
  logs : ∀ i k, Ticketed ts 0 (s.inst i k).rf.log
  calls : ∀ call ∈ s.appendCalls, Ticketed ts (call.args.prevLogIndex + 1) call.args.entries
  batches : ∀ i, ∀ msg ∈ (s.node i).batch, msg.Entered b ts

theorem Entered.init (b : Knowledge n Cmd) (ts : List (ℕ × LogEntry Cmd)) :
    (Cluster.init G).Entered b ts where
  logs i k := by
    intro j e he hpos
    have hj : j ≠ 0 := by omega
    simp [Cluster.init, fresh, make_eq, stateOf, decodeState, hj] at he
  calls call hc := by cases hc
  batches i msg hm := by cases hm

/-- The requests in flight after a step. -/
theorem step_appendCalls (h : step s a = some s') {call : AppendCall n Cmd}
    (hc : call ∈ s'.appendCalls) : (∃ call₀ ∈ s.appendCalls, call₀.args = call.args) ∨
      (s.inst call.src call.inc).rf.replicateTo call.src call.dst call.args.term =
        some call.args := by
  cases a with
  | replicateTo i k peer term =>
    simp only [step, replicateTo] at h
    split at h
    case isFalse => cases h
    obtain ⟨args, hargs, rfl⟩ := Option.map_eq_some_iff.mp h
    rcases List.mem_append.mp hc with hc | hc
    · exact Or.inl ⟨call, hc, rfl⟩
    · rw [List.mem_singleton.mp hc]
      have hterm : args.term = term := by
        unfold Server.replicateTo at hargs
        split at hargs
        · cases hargs
        · rw [Option.some_inj] at hargs
          rw [← hargs]
      exact Or.inr (by rw [hterm]; exact hargs)
  | appendEntries c =>
    simp only [step, appendEntries] at h
    obtain ⟨call₀, hc₀, h⟩ := Option.bind_eq_some_iff.mp h
    split at h
    case isFalse => cases h
    rw [Option.some_inj] at h
    subst h
    rcases List.mem_or_eq_of_mem_set hc with hc | rfl
    · exact Or.inl ⟨call, hc, rfl⟩
    · exact Or.inl ⟨call₀, List.mem_of_getElem? hc₀, rfl⟩
  | appendReply c =>
    simp only [step, appendReply] at h
    obtain ⟨call₀, -, h⟩ := Option.bind_eq_some_iff.mp h
    obtain ⟨reply, -, rfl⟩ := Option.map_eq_some_iff.mp h
    exact Or.inl ⟨call, List.mem_of_mem_eraseIdx hc, rfl⟩
  | loseAppend c =>
    simp only [step, loseAppend] at h
    split at h
    case isFalse => cases h
    rw [Option.some_inj] at h
    subst h
    exact Or.inl ⟨call, List.mem_of_mem_eraseIdx hc, rfl⟩
  | startElection i k =>
    simp only [step, startElection] at h
    split at h
    case isFalse => cases h
    obtain ⟨_, -, rfl⟩ := Option.map_eq_some_iff.mp h
    exact Or.inl ⟨call, hc, rfl⟩
  | requestVote c =>
    simp only [step, requestVote] at h
    obtain ⟨_, -, h⟩ := Option.bind_eq_some_iff.mp h
    split at h
    case isFalse => cases h
    rw [Option.some_inj] at h
    subst h
    exact Or.inl ⟨call, hc, rfl⟩
  | voteReply c =>
    simp only [step, voteReply] at h
    obtain ⟨_, -, h⟩ := Option.bind_eq_some_iff.mp h
    obtain ⟨_, -, rfl⟩ := Option.map_eq_some_iff.mp h
    exact Or.inl ⟨call, hc, rfl⟩
  | loseVote c =>
    simp only [step, loseVote] at h
    split at h
    case isFalse => cases h
    rw [Option.some_inj] at h
    subst h
    exact Or.inl ⟨call, hc, rfl⟩
  | start i k command =>
    simp only [step, start] at h
    split at h
    case isFalse => cases h
    rw [Option.some_inj] at h
    subst h
    exact Or.inl ⟨call, hc, rfl⟩
  | applier i k =>
    simp only [step, applier] at h
    split at h
    case isFalse => cases h
    obtain ⟨_, -, rfl⟩ := Option.map_eq_some_iff.mp h
    exact Or.inl ⟨call, hc, rfl⟩
  | send i k =>
    simp only [step, send] at h
    split at h
    · cases h
    split at h
    case isFalse => cases h
    rw [Option.some_inj] at h
    subst h
    exact Or.inl ⟨call, hc, rfl⟩
  | crash i =>
    simp only [step, crash] at h
    split at h
    · cases h
    rw [Option.some_inj] at h
    subst h
    exact Or.inl ⟨call, hc, rfl⟩
  | restart i =>
    simp only [step, restart] at h
    split at h
    case isFalse => cases h
    rw [Option.some_inj] at h
    subst h
    exact Or.inl ⟨call, hc, rfl⟩

/-- The log of an attached instance has the sentinel. -/
theorem Refines.length_pos (hb : b.Sound) (h : s.Refines b) (i : Fin n) :
    0 < (s.node i).rf.log.length := by
  have hgen : [sentinel] <+: (s.node i).rf.log := (h.peers i).log ▸ hb.chains.log_genesis i
  exact length_pos_of_sentinel hgen

/-- **Every entry keeps its ticket**, and the entry that `Start` appends gets one. -/
theorem Entered.step {ts ts' : List (ℕ × LogEntry Cmd)} (hE : s.Entered b ts) (hb : b.Sound)
    (href : s.Refines b) (hgrows : Ballots.Grows b b') (hts : ts ++ (s.ticket a).toList ⊆ ts')
    (h : failStop s a = some s') : s'.Entered b' ts' := by
  have hold : ts ⊆ ts' := fun x hx => hts (List.mem_append_left _ hx)
  have hlogs := fun i k => (hE.logs i k).mono hold
  have hbatches := fun i msg hm => (hE.batches i msg hm).grows hgrows hold
  obtain ⟨-, h⟩ := step_of_guarded h
  refine ⟨?_, fun call hc => ?_, ?_⟩
  · cases step_effect h with
    | @acted j l p hsec votes inst =>
      intro i k
      rw [inst, set₂_apply]
      split
      · next hjl =>
        obtain ⟨rfl, rfl⟩ := hjl
        have hlog := hlogs i k
        have hcases := hsec.log_cases
        dsimp only
        generalize p.rf.log = log' at hcases ⊢
        cases hcases with
        | same => exact hlog
        | @ticket e hticket =>
          refine hlog.append fun j e' he' _ => hts (List.mem_append_right _ ?_)
          obtain ⟨rfl, rfl⟩ : j = 0 ∧ e' = e := by
            cases j with
            | zero => exact ⟨rfl, (Option.some_inj.mp he').symm⟩
            | succ j => simp at he'
          rw [hticket]
          simp
        | @loop call hc hnode hprev =>
          have hpos := href.length_pos hb call.dst
          rw [← hnode] at hpos
          unfold lastLogIndex at hprev
          exact hlog.appendLoop hpos (by omega) ((hE.calls call hc).mono hold)
      · exact hlogs i k
    | quiet inst =>
      rw [inst]
      exact hlogs
    | @applier j l rf batch ha hl hnil happ inst =>
      intro i k
      rw [inst, set₂_apply]
      split
      · next hjl =>
        obtain ⟨rfl, rfl⟩ := hjl
        unfold Server.applier at happ
        split at happ
        · cases happ
        · rw [Option.some_inj, Prod.mk.injEq] at happ
          rw [← happ.1]
          exact hlogs i k
      · exact hlogs i k
    | @send j l msg rest ha hl hbatch inst =>
      intro i k
      rw [inst, set₂_apply]
      split
      · next hjl =>
        obtain ⟨rfl, rfl⟩ := hjl
        exact hlogs i k
      · exact hlogs i k
    | @crash j ha hlive inst =>
      intro i k
      rw [inst, set₂_apply]
      split
      · next hjl =>
        obtain ⟨rfl, rfl⟩ := hjl
        exact hlogs i (s.nodes i)
      · exact hlogs i k
    | @restart j ha hdead inst =>
      intro i k
      rw [inst, set₂_apply]
      split
      · next hjl =>
        obtain ⟨rfl, rfl⟩ := hjl
        -- the new instance reads what the old one saved
        have hsaved : stateOf G (s.persisters i) = (s.node i).rf.persistentState :=
          (href.peers i).saved
        have hlog : (make G (s.persisters i)).log = (s.node i).rf.log := by
          rw [make_eq, hsaved]
          rfl
        show Ticketed ts' 0 (make G (s.persisters i)).log
        rw [hlog]
        exact hlogs i (s.nodes i)
      · exact hlogs i k
  · rcases step_appendCalls h hc with ⟨call₀, hc₀, heq⟩ | hargs
    · rw [← heq]
      exact (hE.calls call₀ hc₀).mono hold
    · -- the sender cuts the request out of its log
      have hlog := hlogs call.src call.inc
      unfold Server.replicateTo at hargs
      split at hargs
      · cases hargs
      dsimp only at hargs
      generalize hnext : (if (if (s.inst call.src call.inc).rf.nextIndex call.dst < 1 then 1
        else (s.inst call.src call.inc).rf.nextIndex call.dst) >
          lastLogIndex (s.inst call.src call.inc).rf.log + 1
        then lastLogIndex (s.inst call.src call.inc).rf.log + 1
        else if (s.inst call.src call.inc).rf.nextIndex call.dst < 1 then 1
        else (s.inst call.src call.inc).rf.nextIndex call.dst) = next at hargs
      have hpos : 0 < next := by
        split at hnext <;> split at hnext <;> omega
      rw [Option.some_inj] at hargs
      rw [← hargs]
      dsimp only
      rw [Nat.sub_add_cancel hpos]
      exact hlog.drop next
  · cases step_effect h with
    | @acted j l p hsec votes inst nodes =>
      intro i
      rw [node, inst, nodes, set₂_apply]
      split
      · next hjl =>
        obtain ⟨rfl, rfl⟩ := hjl
        exact hbatches i
      · exact hbatches i
    | quiet inst nodes =>
      intro i
      rw [node, inst, nodes]
      exact hbatches i
    | @applier j l rf batch ha hl hnil happ inst nodes =>
      intro i
      rw [node, inst, nodes, set₂_apply]
      split
      · next hjl =>
        obtain ⟨rfl, rfl⟩ := hjl
        intro msg hm
        exact ((href.peers i).applier_entered (hE.logs i _) happ msg hm).grows hgrows hold
      · exact hbatches i
    | @send j l msg rest ha hl hbatch inst nodes =>
      intro i
      rw [node, inst, nodes, set₂_apply]
      split
      · next hjl =>
        obtain ⟨rfl, rfl⟩ := hjl
        intro msg' hm
        apply hbatches i
        rw [node, hbatch]
        exact List.mem_cons_of_mem _ hm
      · exact hbatches i
    | @crash j ha hlive inst nodes =>
      intro i
      rw [node, inst, nodes, set₂_apply]
      split
      · next hjl =>
        obtain ⟨rfl, -⟩ := hjl
        exact hbatches i
      · exact hbatches i
    | @restart j ha hdead inst nodes =>
      intro i
      rw [node, inst, nodes, set₂_apply]
      split
      · intro msg hm
        cases hm
      · next hij =>
        have hi : i ≠ j := by
          rintro rfl
          exact hij ⟨rfl, Function.update_self _ _ _⟩
        rw [Function.update_of_ne hi]
        exact hbatches i

/-! ### Runs -/

/-- **A ticket is for the end of the chain of its term**, which grows by its entry. -/
theorem ticketsKnown_step {ts : List (ℕ × LogEntry Cmd)} (hT : TicketsKnown b ts) (hb : b.Sound)
    (href : s.Refines b) (hb' : b'.Sound) (href' : s'.Refines b') (hgrows : Ballots.Grows b b')
    (h : failStop s a = some s') : TicketsKnown b' (ts ++ (s.ticket a).toList) := by
  have hold : ∀ x ∈ ts, (b'.chain x.2.term)[x.1]? = some x.2 := by
    intro x hx
    obtain ⟨hlt, hget⟩ := List.getElem?_eq_some_iff.mp (hT.chain x hx)
    obtain ⟨es, hes⟩ := hgrows.chain x.2.term
    rw [← hes, List.getElem?_append_left hlt]
    exact hT.chain x hx
  cases hticket : s.ticket a with
  | none =>
    rw [Option.toList_none, List.append_nil]
    exact ⟨hT.pos, hold, hT.ascending⟩
  | some x =>
    obtain ⟨idx, e⟩ := x
    obtain ⟨i, k, rfl, hr, hterm, rfl, hrf⟩ := ticket_eq_some hticket
    obtain ⟨halive, h⟩ := step_of_guarded h
    simp only [Cluster.step, start] at h
    split at h
    case isFalse => cases h
    next hk =>
    have hd : (s.inst i k).rf.dead = false := by simpa [alive, actor] using halive
    obtain rfl := href.eq_node hk hd
    rw [Option.some_inj] at h
    subst h
    -- the leader's log is the chain of its term, before and after the call
    have hchain : b.chain e.term = (s.node i).rf.log := by
      rw [hterm]
      exact (href.peers i).chain_eq hb hr
    have hchain' : b'.chain e.term = (s.node i).rf.log ++ [e] := by
      generalize hs' : s.put i (s.nodes i) ((s.peer i (s.nodes i)).start e.command).1 = s' at href'
      have hrf' : (s'.peer i (s.nodes i)).rf =
          { (s.node i).rf with log := (s.node i).rf.log ++ [e] } := by
        simp [← hs', put, hrf, node]
      have hpeer : Raft.Refines b' i (s'.peer i (s.nodes i)) := by
        have hnodes : s'.nodes i = s.nodes i := by rw [← hs']; rfl
        exact hnodes ▸ href'.peers i
      have hchain' := hpeer.chain_eq hb' (by rw [hrf']; exact hr)
      rw [hrf'] at hchain'
      rw [hterm]
      exact hchain'
    rw [Option.toList_some]
    refine ⟨?_, ?_, ?_⟩
    · intro x hx
      rcases List.mem_append.mp hx with hx | hx
      · exact hT.pos x hx
      · rw [List.mem_singleton.mp hx]
        exact href.length_pos hb i
    · intro x hx
      rcases List.mem_append.mp hx with hx | hx
      · exact hold x hx
      · rw [List.mem_singleton.mp hx]
        dsimp only
        rw [hchain']
        exact List.getElem?_concat_length
    · rw [List.pairwise_append]
      refine ⟨hT.ascending, List.pairwise_singleton _ _, ?_⟩
      intro x hx y hy hxy
      rw [List.mem_singleton.mp hy] at hxy ⊢
      obtain ⟨hlt, -⟩ := List.getElem?_eq_some_iff.mp (hT.chain x hx)
      rwa [hxy, hchain] at hlt

/-- **Every entry of a run has a ticket.** -/
theorem entered_of_exec {as : List (Action n Cmd)} (h : exec failStop (init G) as = some s) :
    ∃ b : Knowledge n Cmd, b.Sound ∧ s.Refines b ∧ TicketsKnown b ((init G).tickets as) ∧
      s.Entered b ((init G).tickets as) := by
  induction as using List.reverseRecOn generalizing s with
  | nil =>
    obtain ⟨b, -, hb, href⟩ := refines_of_reach (.of_exec [] h)
    obtain rfl := Option.some_inj.mp h
    exact ⟨b, hb, href, .nil b, .init b _⟩
  | append_singleton as a ih =>
    rw [exec_concat, Option.bind_eq_some_iff] at h
    obtain ⟨s₀, hs₀, hstep⟩ := h
    obtain ⟨b₀, hb₀, href₀, hT, hE⟩ := ih hs₀
    obtain ⟨b, hsteps, hb, href⟩ := href₀.step hb₀ hstep
    have hgrows := Ballots.Steps.grows hb₀ hsteps
    rw [tickets_concat hs₀]
    exact ⟨b, hb, href, ticketsKnown_step hT hb₀ href₀ hb href hgrows hstep,
      hE.step hb₀ href₀ hgrows (List.Subset.refl _) hstep⟩

end Cluster

/-- **Committed entries are on a majority of the persisters.** -/
theorem Knowledge.Committed.saved {b : Knowledge n Cmd} {s : Cluster G} (hb : b.Sound)
    (href : s.Refines b) {t m : ℕ} (hc : b.Committed t m) :
    ∃ S : Finset (Fin n), majority n ≤ S.card ∧
      ∀ v ∈ S, (b.chain t).take m <+: (s.node v).rf.log ∧
        (stateOf G (s.persisters v)).log = (s.node v).rf.log := by
  obtain ⟨S, hS, hheld⟩ := hb.acks.committed_held hc
  have hcard : Fintype.card (Fin n) / 2 + 1 ≤ S.card := hS
  rw [Fintype.card_fin] at hcard
  refine ⟨S, hcard, fun v hv => ⟨?_, ?_⟩⟩
  · have hlog : b.log v = (s.node v).rf.log := (href.peers v).log
    rw [← hlog]
    exact hheld v hv
  · have hsaved : stateOf G (s.persisters v) = (s.node v).rf.persistentState := (href.peers v).saved
    rw [hsaved]
    rfl

/-- What is applied at an index is what was committed there. -/
theorem ApplyMsg.Known.command_eq {b : Knowledge n Cmd} (hb : b.Sound) {msg : ApplyMsg Cmd}
    (h : msg.Known b) {t m : ℕ} (hc : b.Committed t m) (hlt : msg.commandIndex < m)
    {e : LogEntry Cmd} (he : (b.chain t)[msg.commandIndex]? = some e) :
    msg.command = e.command := by
  obtain ⟨t', m', hc', hlt', hcmd⟩ := h
  have hin : msg.commandIndex < ((b.chain t).take m).length := by
    have := hc.2.1
    rw [List.length_take]
    omega
  have hin' : msg.commandIndex < ((b.chain t').take m').length := by
    have := hc'.2.1
    rw [List.length_take]
    omega
  have htake : ((b.chain t').take m')[msg.commandIndex]? =
      ((b.chain t).take m)[msg.commandIndex]? := by
    rw [List.getElem?_eq_getElem hin, List.getElem?_eq_getElem hin', Option.some_inj]
    rcases hb.acks.committed_comparable hb.chains hc hc' with hle | hle
    · exact (hle.getElem hin).symm
    · exact hle.getElem hin'
  rw [List.getElem?_take_of_lt hlt, List.getElem?_take_of_lt hlt', he] at htake
  rw [htake, Option.map_some, Option.some_inj] at hcmd
  exact hcmd.symm

/-- **The promise of `Start`.**  The tickets of one term have ascending indices,
so no two calls get the same one; every entry that a leader commits has a ticket,
and its command is what every server applies at its index; and a ticket of the
term in which the leader commits an index at or past it is for the entry that is
committed. -/
theorem start_tickets {as : List (Action n Cmd)} {s : Cluster G}
    (h : exec Cluster.failStop (Cluster.init G) as = some s) :
    ((Cluster.init G).tickets as).Pairwise (fun x y => x.2.term = y.2.term → x.1 < y.1) ∧
    (∀ i t k l, .committed i t k l ∈ s.trace → ∀ idx, 1 ≤ idx → idx ≤ k →
      ∃ e, l[idx]? = some e ∧ (idx, e) ∈ (Cluster.init G).tickets as ∧
        ∀ j m msg, .applied j m msg ∈ s.trace → msg.commandIndex = idx →
          msg.command = e.command) ∧
    ∀ x ∈ (Cluster.init G).tickets as, ∀ i k l, .committed i x.2.term k l ∈ s.trace →
      x.1 ≤ k → l[x.1]? = some x.2 := by
  obtain ⟨b, hb, href, hT, hE⟩ := Cluster.entered_of_exec h
  refine ⟨hT.ascending, ?_, ?_⟩
  · intro i t k l hl idx hpos hidx
    obtain ⟨-, hc, hpre, hk⟩ := href.trace _ hl
    have hlt : idx < l.length := by omega
    have hchain : (b.chain t)[idx]? = some l[idx] := by
      rw [List.getElem?_eq_getElem (hlt.trans_le hpre.length_le), Option.some_inj]
      exact (hpre.getElem hlt).symm
    refine ⟨l[idx], List.getElem?_eq_getElem hlt, ?_, ?_⟩
    · -- a member of the majority has the entry in its log
      obtain ⟨S, hcard, hS⟩ := hc.saved hb href
      have hne : 0 < S.card := lt_of_lt_of_le (Nat.succ_pos _) hcard
      obtain ⟨v, hv⟩ := Finset.card_pos.mp hne
      have hget : (s.node v).rf.log[idx]? = some l[idx] := by
        obtain ⟨es, hes⟩ := (hS v hv).1
        have hin : idx < ((b.chain t).take (k + 1)).length := by
          have := hc.2.1
          rw [List.length_take]
          omega
        rw [← hes, List.getElem?_append_left hin, List.getElem?_take_of_lt (by omega)]
        exact hchain
      have := hE.logs v (s.nodes v) idx _ hget (by omega)
      rwa [Nat.zero_add] at this
    · rintro j m msg hmsg rfl
      have hknown : msg.Known b := href.trace _ hmsg
      exact hknown.command_eq hb hc (by omega) hchain
  · intro x hx i k l hl hle
    obtain ⟨-, -, hpre, hk⟩ := href.trace _ hl
    have hlt : x.1 < l.length := by omega
    have hchain := hT.chain x hx
    rw [List.getElem?_eq_getElem (hlt.trans_le hpre.length_le), Option.some_inj] at hchain
    rw [List.getElem?_eq_getElem hlt, hpre.getElem hlt, hchain]

theorem start_tickets_twoTerms : ∃ s : Cluster (Gob.letter 3 ℕ),
    exec Cluster.failStop (Cluster.init _) twoTerms = some s ∧
    (Cluster.init (Gob.letter 3 ℕ)).tickets twoTerms = [(1, ⟨1, 7⟩)] ∧
    ∀ msg, .applied 1 0 msg ∈ s.trace → msg.commandIndex = 1 → msg.command = 7 := by
  have hrun : (exec Cluster.failStop (Cluster.init (Gob.letter 3 ℕ)) twoTerms).map Cluster.trace =
      some twoTermsTrace := by decide
  obtain ⟨s, hs, htrace⟩ := Option.map_eq_some_iff.mp hrun
  obtain ⟨-, hcommitted, -⟩ := start_tickets hs
  have hc : .committed 0 1 1 [⟨0, 0⟩, ⟨1, 7⟩] ∈ s.trace := by
    rw [htrace]
    decide
  obtain ⟨e, he, -, happ⟩ := hcommitted 0 1 1 _ hc 1 le_rfl le_rfl
  obtain rfl : ⟨1, 7⟩ = e := Option.some_inj.mp he
  exact ⟨s, hs, by decide, fun msg => happ 1 0 msg⟩

/-- **Commits survive.**  In every state after a commit a majority of the
persisters hold the log up to the committed index, whoever has crashed since; and
a majority holds what any server has in its log up to its commit index. -/
theorem committed_saved {s : Cluster G} (h : Reach Cluster.failStop (Cluster.init G) s) :
    (∀ i t k l, .committed i t k l ∈ s.trace → ∃ S : Finset (Fin n), majority n ≤ S.card ∧
      ∀ v ∈ S, l.take (k + 1) <+: (stateOf G (s.persisters v)).log) ∧
    ∀ j, ∃ S : Finset (Fin n), majority n ≤ S.card ∧ ∀ v ∈ S,
      (s.node j).rf.log.take ((s.node j).rf.commitIndex + 1) <+:
        (stateOf G (s.persisters v)).log := by
  obtain ⟨b, -, hb, href⟩ := Cluster.refines_of_reach h
  constructor
  · intro i t k l hl
    obtain ⟨-, hc, hpre, hk⟩ := href.trace _ hl
    obtain ⟨S, hcard, hS⟩ := hc.saved hb href
    refine ⟨S, hcard, fun v hv => ?_⟩
    rw [(hS v hv).2, ← Ballots.prefix_take_eq hpre hk]
    exact (hS v hv).1
  · intro j
    have hgen : ∀ v, [sentinel] <+: (s.node v).rf.log :=
      fun v => (href.peers v).log ▸ hb.chains.log_genesis v
    rcases (href.peers j).settled with hzero | ⟨t, m, -, hc, hlt, hpre⟩
    · -- nothing but the sentinel, which every log starts with
      have hcommit : (s.node j).rf.commitIndex = 0 := hzero
      have hcard : majority n ≤ (Finset.univ : Finset (Fin n)).card := by
        rw [Finset.card_univ, Fintype.card_fin]
        have := j.pos
        unfold majority
        omega
      refine ⟨Finset.univ, hcard, fun v _ => ?_⟩
      have hsaved : stateOf G (s.persisters v) = (s.node v).rf.persistentState :=
        (href.peers v).saved
      rw [hsaved, hcommit, Ballots.prefix_take_eq (hgen j) (List.length_singleton.ge)]
      exact hgen v
    · obtain ⟨S, hcard, hS⟩ := hc.saved hb href
      refine ⟨S, hcard, fun v hv => ?_⟩
      have hlen := hc.2.1
      have hpre' : (b.chain t).take ((s.node j).rf.commitIndex + 1) <+: (s.node j).rf.log := hpre
      have hlt' : (s.node j).rf.commitIndex < m := hlt
      rw [(hS v hv).2, Ballots.prefix_take_eq hpre' (by rw [List.length_take]; omega),
        List.take_of_length_le (by rw [List.length_take]; omega)]
      exact (List.take_prefix_take_left (by omega)).trans (hS v hv).1

theorem committed_saved_twoTerms : ∃ s : Cluster (Gob.letter 3 ℕ),
    .committed 0 1 1 [⟨0, 0⟩, ⟨1, 7⟩] ∈ s.trace ∧ ∃ S : Finset (Fin 3), 2 ≤ S.card ∧
      ∀ v ∈ S, [⟨0, 0⟩, ⟨1, 7⟩] <+: (stateOf _ (s.persisters v)).log := by
  obtain ⟨s, hs, htrace, -⟩ := reach_twoTerms
  have hc : .committed 0 1 1 [⟨0, 0⟩, ⟨1, 7⟩] ∈ s.trace := by
    rw [htrace]
    decide
  exact ⟨s, hc, (committed_saved hs).1 0 1 1 _ hc⟩

/-- **A leader only appends.**  If a server leads one term in two states of a run,
its log has only grown in between. -/
theorem leader_append_only {s s' : Cluster G} (h : Reach Cluster.failStop (Cluster.init G) s)
    (h' : Reach Cluster.failStop s s') {i : Fin n} (hr : (s.node i).rf.role = .leader)
    (hr' : (s'.node i).rf.role = .leader)
    (ht : (s'.node i).rf.currentTerm = (s.node i).rf.currentTerm) :
    (s.node i).rf.log <+: (s'.node i).rf.log := by
  obtain ⟨b, -, hb, href⟩ := Cluster.refines_of_reach h
  obtain ⟨b', hsteps, hb', href'⟩ := href.run hb h'
  have hchain : b.chain (s.node i).rf.currentTerm = (s.node i).rf.log :=
    (href.peers i).chain_eq hb hr
  have hchain' : b'.chain (s'.node i).rf.currentTerm = (s'.node i).rf.log :=
    (href'.peers i).chain_eq hb' hr'
  rw [← hchain, ← hchain', ht]
  exact (Ballots.Steps.grows hb hsteps).chain _

theorem leader_append_only_election : ∃ s s' : Cluster (Gob.letter 3 ℕ),
    (s.node 0).rf.log = [⟨0, 0⟩] ∧ (s'.node 0).rf.log = [⟨0, 0⟩, ⟨1, 7⟩] ∧
    (s.node 0).rf.log <+: (s'.node 0).rf.log := by
  have hrun : ((exec Cluster.failStop (Cluster.init (Gob.letter 3 ℕ))
      [.startElection 0 0, .requestVote 0, .voteReply 0]).bind fun s =>
        (exec Cluster.failStop s [.start 0 0 7]).map fun s' =>
          (((s.node 0).rf.role, (s.node 0).rf.currentTerm, (s.node 0).rf.log),
            ((s'.node 0).rf.role, (s'.node 0).rf.currentTerm, (s'.node 0).rf.log))) =
      some ((.leader, 1, [⟨0, 0⟩]), (.leader, 1, [⟨0, 0⟩, ⟨1, 7⟩])) := by decide
  obtain ⟨s, hs, hrun⟩ := Option.bind_eq_some_iff.mp hrun
  obtain ⟨s', hs', hobs⟩ := Option.map_eq_some_iff.mp hrun
  simp only [Prod.mk.injEq] at hobs
  obtain ⟨⟨hr, ht, hlog⟩, hr', ht', hlog'⟩ := hobs
  exact ⟨s, s', hlog, hlog',
    leader_append_only (.of_exec _ hs) (.of_exec _ hs') hr hr' (ht'.trans ht.symm)⟩

end Raft
end SepLab
