import Mathlib.Data.List.Count
import Mathlib.Data.List.Perm.Basic
import Mathlib.Data.Rat.Defs
import SepLab.Lib.Transition

/-!
# Phase D: the timeout is put on the handle

`one_request` and phase D of `run_phase`: the work of a request is spawned first, and its
caller waits for the handle with a timeout.  The inner task looks at the flag `abandoned`
before it records, and the caller sets the flag before it records; nothing makes the look
and the record of the inner task one step.  The runtime has several threads, and the
timeout may fire until the handle is seen to be finished.

How the pool hands out its connections plays no part: an `acquire` ends with a connection
or with none.

## Main definitions

* `Counters.record` — what is counted for a request.
* `Inner`, `Caller`, `State`, `Action`, `step` — the two tasks of each request.
* `State.Complete` — all tasks have finished.
* `State.CountedOnce` — what the counters are to say then.
* `StoresInTime` — the condition on a caller's store of the flag.

## Main results

* `Move.of_step` — what each step finds and does.
* `State.Inv.step` — how often a request is recorded, in terms of its two tasks.
* `phase_d_counts_once_iff` — the counters of a complete run are right exactly when every
  store of a flag meets the condition.
-/

namespace SepLab
namespace SlowNotAbsent.PhaseD

/-- `Outcome` -/
inductive Outcome
  | ok
  | poolTimeout
  | deadlineExceeded
  | connError
deriving DecidableEq, Repr

/-- `Counters`, with the requests that `record` was called for; times are in milliseconds. -/
structure Counters where
  latMs : List ℚ
  waitMs : List ℚ
  svcMs : List ℚ
  ok : ℕ
  poolTimeout : ℕ
  deadline : ℕ
  connErr : ℕ
  abandonedButCompleted : ℕ
deriving DecidableEq, Repr

/-- `Counters::default` -/
def Counters.init : Counters := ⟨[], [], [], 0, 0, 0, 0, 0⟩

/-- `Counters::record` -/
def Counters.record (c : Counters) (outcome : Outcome) (totalMs waitMs svcMs : ℚ) : Counters :=
  let c := { c with latMs := c.latMs ++ [totalMs], waitMs := c.waitMs ++ [waitMs] }
  match outcome with
  | .ok => { c with ok := c.ok + 1, svcMs := c.svcMs ++ [svcMs] }
  | .poolTimeout => { c with poolTimeout := c.poolTimeout + 1 }
  | .deadlineExceeded => { c with deadline := c.deadline + 1 }
  | .connError => { c with connErr := c.connErr + 1 }

/-- Where the inner task of a request is. -/
inductive Inner
  | unborn
  /-- In `pool.acquire`. -/
  | acquiring
  /-- In `conn.round_trip`. -/
  | roundTrip
  /-- About to load the flag, with this outcome to record. -/
  | checking (outcome : Outcome)
  /-- It has read the flag as unset, and is about to record. -/
  | recording (outcome : Outcome)
  /-- Its last statement is done; it has given up or has recorded. -/
  | returned (gaveUp : Bool)
  /-- The runtime has marked the task as finished. -/
  | finished (gaveUp : Bool)
deriving DecidableEq, Repr

/-- Where the caller of a request is. -/
inductive Caller
  | unborn
  /-- In `timeout(d, inner)`. -/
  | waiting
  /-- The timeout has fired. -/
  | timedOut
  /-- It has set the flag, and is about to record. -/
  | stored
  /-- It has seen the inner task finish. -/
  | joined
  /-- It has recorded the deadline breach. -/
  | left
deriving DecidableEq, Repr

/-- The tasks and the flags of all requests, and the counters.  `records` lists the calls of
`record` with their requests, and `gaveUps` the requests that were counted as abandoned and
completed. -/
structure State where
  inner : ℕ → Inner
  caller : ℕ → Caller
  abandoned : ℕ → Bool
  counters : Counters
  records : List (ℕ × Outcome)
  gaveUps : List ℕ

/-- What a task of request `i` does next. -/
inductive Action
  | launch (i : ℕ)
  /-- `pool.acquire` returns a connection or `None`. -/
  | acquire (i : ℕ) (conn : Bool)
  /-- `conn.round_trip` returns `Ok` or `Err`. -/
  | reply (i : ℕ) (ok : Bool)
  /-- `give_up` loads the flag. -/
  | check (i : ℕ)
  /-- The inner task records. -/
  | record (i : ℕ) (totalMs waitMs svcMs : ℚ)
  | finish (i : ℕ)
  /-- The caller sees the handle finished. -/
  | join (i : ℕ)
  | timeout (i : ℕ)
  /-- The caller sets the flag. -/
  | store (i : ℕ)
  /-- The caller records. -/
  | leave (i : ℕ) (totalMs : ℚ)
deriving DecidableEq, Repr

namespace State

/-- Nothing is offered yet. -/
def init : State := ⟨fun _ => .unborn, fun _ => .unborn, fun _ => false, .init, [], []⟩

/-- The inner task of request `i` moves on. -/
def setInner (s : State) (i : ℕ) (p : Inner) : State :=
  { s with inner := Function.update s.inner i p }

/-- The caller of request `i` moves on. -/
def setCaller (s : State) (i : ℕ) (p : Caller) : State :=
  { s with caller := Function.update s.caller i p }

/-- `record` is called for request `i`. -/
def recordFor (s : State) (i : ℕ) (outcome : Outcome) (totalMs waitMs svcMs : ℚ) : State :=
  { s with
    counters := s.counters.record outcome totalMs waitMs svcMs
    records := s.records ++ [(i, outcome)] }

/-- `give_up` -/
def check (s : State) (i : ℕ) (outcome : Outcome) : State :=
  if s.abandoned i then
    { s with
      counters := { s.counters with
        abandonedButCompleted := s.counters.abandonedButCompleted + 1 }
      gaveUps := s.gaveUps ++ [i] }.setInner i (.returned true)
  else s.setInner i (.recording outcome)

end State

/-- One step of one task; `offered` requests are launched. -/
def step (offered : ℕ) (s : State) : Action → Option State
  | .launch i =>
    if i < offered ∧ s.inner i = .unborn then
      some ((s.setInner i .acquiring).setCaller i .waiting)
    else none
  | .acquire i conn =>
    match s.inner i with
    | .acquiring => some (s.setInner i (if conn then .roundTrip else .checking .poolTimeout))
    | _ => none
  | .reply i ok =>
    match s.inner i with
    | .roundTrip => some (s.setInner i (.checking (if ok then .ok else .connError)))
    | _ => none
  | .check i =>
    match s.inner i with
    | .checking outcome => some (s.check i outcome)
    | _ => none
  | .record i totalMs waitMs svcMs =>
    match s.inner i with
    | .recording outcome =>
      some ((s.recordFor i outcome totalMs waitMs svcMs).setInner i (.returned false))
    | _ => none
  | .finish i =>
    match s.inner i with
    | .returned gaveUp => some (s.setInner i (.finished gaveUp))
    | _ => none
  | .join i =>
    match s.caller i, s.inner i with
    | .waiting, .finished _ => some (s.setCaller i .joined)
    | _, _ => none
  | .timeout i =>
    match s.caller i, s.inner i with
    | .waiting, .finished _ => none
    | .waiting, _ => some (s.setCaller i .timedOut)
    | _, _ => none
  | .store i =>
    match s.caller i with
    | .timedOut =>
      some ({ s with abandoned := Function.update s.abandoned i true }.setCaller i .stored)
    | _ => none
  | .leave i totalMs =>
    match s.caller i with
    | .stored => some ((s.recordFor i .deadlineExceeded totalMs 0 0).setCaller i .left)
    | _ => none

/-! ### What the counters are to say -/

/-- Both tasks of a request have finished. -/
def State.Over (s : State) (i : ℕ) : Prop :=
  (∃ gaveUp, s.inner i = .finished gaveUp) ∧ (s.caller i = .joined ∨ s.caller i = .left)

/-- All tasks of the offered requests have finished. -/
def State.Complete (offered : ℕ) (s : State) : Prop := ∀ i < offered, s.Over i

/-- Each offered request was recorded once, and the counters add up; the requests counted as
abandoned and completed are those recorded as deadline breaches. -/
structure State.CountedOnce (offered : ℕ) (s : State) : Prop where
  once : ∀ i < offered, s.records.countP (fun r => r.1 = i) = 1
  total : s.counters.ok + s.counters.poolTimeout + s.counters.deadline + s.counters.connErr
    = offered
  abandoned : s.counters.abandonedButCompleted = s.counters.deadline
  breaches : ∀ i, i ∈ s.gaveUps ↔ (i, .deadlineExceeded) ∈ s.records

/-- The inner task has not yet read the flag as unset. -/
def Inner.unread : Inner → Bool
  | .recording _ | .returned false | .finished false => false
  | _ => true

/-- A caller stores the flag before the inner task of its request has read it as unset. -/
def StoresInTime (s : State) : Action → Prop
  | .store i => s.caller i = .timedOut → (s.inner i).unread = true
  | _ => True

/-! ### The invariant -/

/-- The inner task has recorded. -/
def Inner.recorded : Inner → Bool
  | .returned false | .finished false => true
  | _ => false

/-- The inner task has given up. -/
def Inner.gaveUp : Inner → Bool
  | .returned true | .finished true => true
  | _ => false

/-- The caller has set the flag. -/
def Caller.hasStored : Caller → Bool
  | .stored | .left => true
  | _ => false

/-- The caller has recorded. -/
def Caller.hasLeft : Caller → Bool
  | .left => true
  | _ => false

/-- What the two tasks of a request have to do with its flag, with how often it was recorded and
counted as given up, and with how often it was recorded as a deadline breach. -/
structure Fits (inner : Inner) (caller : Caller) (flag : Bool) (records gaveUps breaches : ℕ) :
    Prop where
  born : inner = .unborn ↔ caller = .unborn
  outcome : inner ≠ .checking .deadlineExceeded ∧ inner ≠ .recording .deadlineExceeded
  stored : flag = caller.hasStored
  seen : inner.gaveUp = true → flag = true
  joined : caller = .joined → inner = .finished false
  records : records = inner.recorded.toNat + caller.hasLeft.toNat
  gaveUps : gaveUps = inner.gaveUp.toNat
  breaches : breaches = caller.hasLeft.toNat

/-- The inner task moves on without a record. -/
theorem Fits.move {q p : Inner} {caller : Caller} {flag : Bool} {n g b : ℕ}
    (h : Fits q caller flag n g b) (hq : q ≠ .unborn) (hp : p ≠ .unborn)
    (houtcome : p ≠ .checking .deadlineExceeded ∧ p ≠ .recording .deadlineExceeded)
    (hgaveUp : p.gaveUp = q.gaveUp) (hrecorded : p.recorded = q.recorded)
    (hjoined : q ≠ .finished false) : Fits p caller flag n g b where
  born := iff_of_false hp fun hc => hq (h.born.mpr hc)
  outcome := houtcome
  stored := h.stored
  seen hp' := h.seen (hgaveUp ▸ hp')
  joined hc := absurd (h.joined hc) hjoined
  records := by rw [hrecorded]; exact h.records
  gaveUps := by rw [hgaveUp]; exact h.gaveUps
  breaches := h.breaches

/-- The caller moves on without a record. -/
theorem Fits.callerMove {inner : Inner} {c p : Caller} {f flag : Bool} {n g b : ℕ}
    (h : Fits inner c f n g b) (hc : c ≠ .unborn) (hp : p ≠ .unborn)
    (hflag : flag = p.hasStored) (hmono : f = true → flag = true)
    (hjoined : p = .joined → inner = .finished false) (hleft : p.hasLeft = c.hasLeft) :
    Fits inner p flag n g b where
  born := iff_of_false (fun hi => hc (h.born.mp hi)) hp
  outcome := h.outcome
  stored := hflag
  seen hg := hmono (h.seen hg)
  joined := hjoined
  records := by rw [hleft]; exact h.records
  gaveUps := h.gaveUps
  breaches := by rw [hleft]; exact h.breaches

namespace State

/-- How often `record` was called for the request. -/
def recordsOf (s : State) (i : ℕ) : ℕ := s.records.countP fun r => r.1 = i

/-- How often the request was recorded as a deadline breach. -/
def breachesOf (s : State) (i : ℕ) : ℕ := s.records.count (i, .deadlineExceeded)

/-- The counters say what was recorded. -/
structure Tally (s : State) : Prop where
  total : s.counters.ok + s.counters.poolTimeout + s.counters.deadline + s.counters.connErr
    = s.records.length
  deadline : s.counters.deadline = s.records.countP fun r => r.2 = .deadlineExceeded
  abandoned : s.counters.abandonedButCompleted = s.gaveUps.length

/-- The invariant. -/
structure Inv (offered : ℕ) (s : State) : Prop where
  fits : ∀ i, Fits (s.inner i) (s.caller i) (s.abandoned i) (s.recordsOf i) (s.gaveUps.count i)
    (s.breachesOf i)
  beyond : ∀ i, offered ≤ i → s.inner i = .unborn
  tally : s.Tally

variable {offered : ℕ} {s s' : State} {i : ℕ}

theorem Inv.init : Inv offered init where
  fits _ := by
    constructor <;> simp [State.init, Caller.hasStored, Caller.hasLeft, Inner.gaveUp,
      Inner.recorded, recordsOf, breachesOf]
  beyond _ _ := rfl
  tally := ⟨rfl, rfl, rfl⟩

/-- The counters after one more record. -/
theorem Tally.record (h : s.Tally) (i : ℕ) (outcome : Outcome) (totalMs waitMs svcMs : ℚ) :
    (s.recordFor i outcome totalMs waitMs svcMs).Tally := by
  obtain ⟨htotal, hdeadline, habandoned⟩ := h
  cases outcome with
  | ok =>
    refine ⟨?_, ?_, habandoned⟩
    · simp [recordFor, Counters.record]
      omega
    · simpa [recordFor, Counters.record] using hdeadline
  | poolTimeout =>
    refine ⟨?_, ?_, habandoned⟩
    · simp [recordFor, Counters.record]
      omega
    · simpa [recordFor, Counters.record] using hdeadline
  | deadlineExceeded =>
    refine ⟨?_, ?_, habandoned⟩
    · simp [recordFor, Counters.record]
      omega
    · simpa [recordFor, Counters.record] using hdeadline
  | connError =>
    refine ⟨?_, ?_, habandoned⟩
    · simp [recordFor, Counters.record]
      omega
    · simpa [recordFor, Counters.record] using hdeadline

/-- **One request acts**, with the records `new` and the give-ups `gone` of its own, and the
others are as they were. -/
theorem Inv.act (h : s.Inv offered) (i : ℕ) (new : List Outcome) (gone : ℕ)
    (hrecords : s'.records = s.records ++ new.map (Prod.mk i))
    (hgaveUps : s'.gaveUps = s.gaveUps ++ List.replicate gone i)
    (hinner : ∀ j, j ≠ i → s'.inner j = s.inner j)
    (hcaller : ∀ j, j ≠ i → s'.caller j = s.caller j)
    (hflag : ∀ j, j ≠ i → s'.abandoned j = s.abandoned j)
    (hi : Fits (s'.inner i) (s'.caller i) (s'.abandoned i) (s.recordsOf i + new.length)
      (s.gaveUps.count i + gone) (s.breachesOf i + new.count .deadlineExceeded))
    (hbeyond : offered ≤ i → s'.inner i = .unborn) (htally : s'.Tally) : s'.Inv offered where
  fits j := by
    -- the invocation that acts, or another one, of which nothing is recorded
    by_cases hj : j = i
    · subst hj
      have hcount : s'.recordsOf j = s.recordsOf j + new.length := by
        simp [recordsOf, hrecords, List.countP_map, Function.comp_def]
      have hgone : s'.gaveUps.count j = s.gaveUps.count j + gone := by
        simp [hgaveUps]
      have hbreach : s'.breachesOf j = s.breachesOf j + new.count .deadlineExceeded := by
        rw [breachesOf, hrecords, List.count_append, List.count_map_of_injective]
        · rfl
        · exact fun _ _ heq => (Prod.mk.inj heq).2
      rw [hcount, hgone, hbreach]
      exact hi
    · have hij : ¬ i = j := fun h => hj h.symm
      have hcount : s'.recordsOf j = s.recordsOf j := by
        simp [recordsOf, hrecords, List.countP_map, Function.comp_def, hij]
      have hgone : s'.gaveUps.count j = s.gaveUps.count j := by
        simp [hgaveUps, List.count_replicate, hij]
      have hbreach : s'.breachesOf j = s.breachesOf j := by
        have hnone : (new.map (Prod.mk i)).count (j, .deadlineExceeded) = 0 :=
          List.count_eq_zero.mpr (by simp [hij])
        rw [breachesOf, hrecords, List.count_append, hnone]
        rfl
      rw [hcount, hgone, hbreach, hinner j hj, hcaller j hj, hflag j hj]
      exact h.fits j
  beyond j hj := by
    by_cases hji : j = i
    · exact hji ▸ hbeyond (hji ▸ hj)
    · rw [hinner j hji]
      exact h.beyond j hj
  tally := htally

/-- The inner task of a request moves on without a record. -/
theorem Inv.setInner (h : s.Inv offered) {p : Inner} (hi : s.inner i ≠ .unborn)
    (hfits : Fits p (s.caller i) (s.abandoned i) (s.recordsOf i) (s.gaveUps.count i)
      (s.breachesOf i)) : (s.setInner i p).Inv offered := by
  have hself : Function.update s.inner i p i = p := Function.update_self ..
  refine h.act i [] 0 (List.append_nil _).symm (List.append_nil _).symm
    (fun j hj => Function.update_of_ne hj _ _) (fun _ _ => rfl) (fun _ _ => rfl) ?_
    (fun hle => absurd (h.beyond i hle) hi) ⟨h.tally.total, h.tally.deadline, h.tally.abandoned⟩
  dsimp only [State.setInner]
  rw [hself]
  exact hfits

/-- The inner task has seen the flag. -/
theorem Inv.giveUp (h : s.Inv offered) {o : Outcome} (hi : s.inner i = .checking o)
    (hflag : s.abandoned i = true) : (s.check i o).Inv offered := by
  have hold := h.fits i
  rw [hi] at hold
  have hself : Function.update s.inner i (.returned true) i = .returned true :=
    Function.update_self ..
  have hlen : (s.gaveUps ++ [i]).length = s.gaveUps.length + 1 := by simp
  unfold State.check
  rw [if_pos hflag]
  refine h.act i [] 1 (List.append_nil _).symm rfl (fun j hj => Function.update_of_ne hj _ _)
    (fun _ _ => rfl) (fun _ _ => rfl) ?_ (fun hle => ?_)
    ⟨h.tally.total, h.tally.deadline, ?_⟩
  · dsimp only [State.setInner]
    rw [hself]
    have hgone := hold.gaveUps
    have hrec := hold.records
    exact {
      born := iff_of_false (by simp) fun hc => by simpa using hold.born.mpr hc
      outcome := by simp
      stored := hold.stored
      seen := fun _ => hflag
      joined := fun hj => by simpa using hold.joined hj
      records := hrec
      gaveUps := by simpa [Inner.gaveUp] using hgone
      breaches := hold.breaches }
  · rw [h.beyond i hle] at hi
    cases hi
  · dsimp only [State.setInner]
    rw [hlen, h.tally.abandoned]

/-- The inner task records. -/
theorem Inv.recordInner (h : s.Inv offered) {o : Outcome} (hi : s.inner i = .recording o)
    (totalMs waitMs svcMs : ℚ) :
    ((s.recordFor i o totalMs waitMs svcMs).setInner i (.returned false)).Inv offered := by
  have hold := h.fits i
  rw [hi] at hold
  have hself : Function.update s.inner i (.returned false) i = .returned false :=
    Function.update_self ..
  have htally := h.tally.record i o totalMs waitMs svcMs
  refine h.act i [o] 0 rfl (List.append_nil _).symm (fun j hj => Function.update_of_ne hj _ _)
    (fun _ _ => rfl) (fun _ _ => rfl) ?_ (fun hle => ?_)
    ⟨htally.total, htally.deadline, htally.abandoned⟩
  · dsimp only [State.setInner, State.recordFor]
    rw [hself]
    -- a breach of the deadline is left to the caller
    have hne : o ≠ .deadlineExceeded := fun ho => hold.outcome.2 (by rw [ho])
    have hrec := hold.records
    exact {
      born := iff_of_false (by simp) fun hc => by simpa using hold.born.mpr hc
      outcome := by simp
      stored := hold.stored
      seen := by simp [Inner.gaveUp]
      joined := fun hj => by simpa using hold.joined hj
      records := by
        rw [hrec]
        simp [Inner.recorded]
        omega
      gaveUps := hold.gaveUps
      breaches := by simpa [hne] using hold.breaches }
  · rw [h.beyond i hle] at hi
    cases hi

/-- The caller of a request moves on without a record, and with the flag as it is then. -/
theorem Inv.setCaller (h : s.Inv offered) {p : Caller} (hi : s.inner i ≠ .unborn) (flag : Bool)
    (hfits : Fits (s.inner i) p flag (s.recordsOf i) (s.gaveUps.count i) (s.breachesOf i)) :
    Inv offered
      ({ s with abandoned := Function.update s.abandoned i flag }.setCaller i p) := by
  have hself : Function.update s.caller i p i = p := Function.update_self ..
  have hflag : Function.update s.abandoned i flag i = flag := Function.update_self ..
  refine h.act i [] 0 (List.append_nil _).symm (List.append_nil _).symm (fun _ _ => rfl)
    (fun j hj => Function.update_of_ne hj _ _) (fun j hj => Function.update_of_ne hj _ _) ?_
    (fun hle => absurd (h.beyond i hle) hi) ⟨h.tally.total, h.tally.deadline, h.tally.abandoned⟩
  dsimp only [State.setCaller]
  rw [hself, hflag]
  exact hfits

/-- The caller records the deadline breach. -/
theorem Inv.leave (h : s.Inv offered) (hc : s.caller i = .stored) (totalMs : ℚ) :
    Inv offered ((s.recordFor i .deadlineExceeded totalMs 0 0).setCaller i .left) := by
  have hold := h.fits i
  rw [hc] at hold
  -- a caller that has stored its deadline waited for an invocation
  have hborn : s.inner i ≠ .unborn := fun hi => by simpa using hold.born.mp hi
  have hself : Function.update s.caller i .left i = .left := Function.update_self ..
  have htally := h.tally.record i .deadlineExceeded totalMs 0 0
  refine h.act i [.deadlineExceeded] 0 rfl (List.append_nil _).symm (fun _ _ => rfl)
    (fun j hj => Function.update_of_ne hj _ _) (fun _ _ => rfl) ?_
    (fun hle => absurd (h.beyond i hle) hborn) ⟨htally.total, htally.deadline, htally.abandoned⟩
  dsimp only [State.setCaller, State.recordFor]
  rw [hself]
  have hrec := hold.records
  exact {
    born := iff_of_false hborn (by simp)
    outcome := hold.outcome
    stored := hold.stored
    seen := hold.seen
    joined := by simp
    records := by
      rw [hrec]
      simp [Caller.hasLeft]
    gaveUps := hold.gaveUps
    breaches := by
      rw [hold.breaches]
      simp [Caller.hasLeft] }

/-- Both tasks of a request start. -/
theorem Inv.launch (h : s.Inv offered) (hlt : i < offered) (hi : s.inner i = .unborn) :
    Inv offered ((s.setInner i .acquiring).setCaller i .waiting) := by
  have hold := h.fits i
  have hc := hold.born.mp hi
  rw [hi, hc] at hold
  have hinner : Function.update s.inner i .acquiring i = .acquiring := Function.update_self ..
  have hcaller : Function.update s.caller i .waiting i = .waiting := Function.update_self ..
  refine h.act i [] 0 (List.append_nil _).symm (List.append_nil _).symm
    (fun j hj => Function.update_of_ne hj _ _) (fun j hj => Function.update_of_ne hj _ _)
    (fun _ _ => rfl) ?_ (fun hle => absurd hlt (Nat.not_lt.mpr hle))
    ⟨h.tally.total, h.tally.deadline, h.tally.abandoned⟩
  dsimp only [State.setCaller, State.setInner]
  rw [hinner, hcaller]
  exact {
    born := by simp
    outcome := by simp
    stored := hold.stored
    seen := by simp [Inner.gaveUp]
    joined := by simp
    records := hold.records
    gaveUps := hold.gaveUps
    breaches := hold.breaches }

/-- What a step finds, and what it makes of the state. -/
inductive Move (offered : ℕ) (s : State) : Action → State → Prop
  | launch {i : ℕ} (hlt : i < offered) (hi : s.inner i = .unborn) :
      Move offered s (.launch i) ((s.setInner i .acquiring).setCaller i .waiting)
  | acquire {i : ℕ} (conn : Bool) (hi : s.inner i = .acquiring) :
      Move offered s (.acquire i conn)
        (s.setInner i (if conn then .roundTrip else .checking .poolTimeout))
  | reply {i : ℕ} (ok : Bool) (hi : s.inner i = .roundTrip) :
      Move offered s (.reply i ok) (s.setInner i (.checking (if ok then .ok else .connError)))
  | check {i : ℕ} {outcome : Outcome} (hi : s.inner i = .checking outcome) :
      Move offered s (.check i) (s.check i outcome)
  | record {i : ℕ} {outcome : Outcome} (totalMs waitMs svcMs : ℚ)
      (hi : s.inner i = .recording outcome) :
      Move offered s (.record i totalMs waitMs svcMs)
        ((s.recordFor i outcome totalMs waitMs svcMs).setInner i (.returned false))
  | finish {i : ℕ} {gaveUp : Bool} (hi : s.inner i = .returned gaveUp) :
      Move offered s (.finish i) (s.setInner i (.finished gaveUp))
  | join {i : ℕ} {gaveUp : Bool} (hc : s.caller i = .waiting)
      (hi : s.inner i = .finished gaveUp) : Move offered s (.join i) (s.setCaller i .joined)
  | timeout {i : ℕ} (hc : s.caller i = .waiting) (hi : ∀ gaveUp, s.inner i ≠ .finished gaveUp) :
      Move offered s (.timeout i) (s.setCaller i .timedOut)
  | store {i : ℕ} (hc : s.caller i = .timedOut) :
      Move offered s (.store i)
        ({ s with abandoned := Function.update s.abandoned i true }.setCaller i .stored)
  | leave {i : ℕ} (totalMs : ℚ) (hc : s.caller i = .stored) :
      Move offered s (.leave i totalMs)
        ((s.recordFor i .deadlineExceeded totalMs 0 0).setCaller i .left)

theorem Move.of_step {a : Action} (hstep : PhaseD.step offered s a = some s') :
    Move offered s a s' := by
  cases a with
  | launch i =>
    simp only [PhaseD.step] at hstep
    split at hstep
    · next hi => exact Option.some_inj.mp hstep ▸ .launch hi.1 hi.2
    · cases hstep
  | acquire i conn =>
    simp only [PhaseD.step] at hstep
    split at hstep
    · next hi => exact Option.some_inj.mp hstep ▸ .acquire conn hi
    · cases hstep
  | reply i ok =>
    simp only [PhaseD.step] at hstep
    split at hstep
    · next hi => exact Option.some_inj.mp hstep ▸ .reply ok hi
    · cases hstep
  | check i =>
    simp only [PhaseD.step] at hstep
    split at hstep
    · next outcome hi => exact Option.some_inj.mp hstep ▸ .check hi
    · cases hstep
  | record i totalMs waitMs svcMs =>
    simp only [PhaseD.step] at hstep
    split at hstep
    · next outcome hi => exact Option.some_inj.mp hstep ▸ .record totalMs waitMs svcMs hi
    · cases hstep
  | finish i =>
    simp only [PhaseD.step] at hstep
    split at hstep
    · next gaveUp hi => exact Option.some_inj.mp hstep ▸ .finish hi
    · cases hstep
  | join i =>
    simp only [PhaseD.step] at hstep
    split at hstep
    · next gaveUp hc hi => exact Option.some_inj.mp hstep ▸ .join hc hi
    · cases hstep
  | timeout i =>
    simp only [PhaseD.step] at hstep
    split at hstep
    · cases hstep
    · next hc hi => exact Option.some_inj.mp hstep ▸ .timeout hc hi
    · cases hstep
  | store i =>
    simp only [PhaseD.step] at hstep
    split at hstep
    · next hc => exact Option.some_inj.mp hstep ▸ .store hc
    · cases hstep
  | leave i totalMs =>
    simp only [PhaseD.step] at hstep
    split at hstep
    · next hc => exact Option.some_inj.mp hstep ▸ .leave totalMs hc
    · cases hstep

/-- **Every step keeps the invariant.** -/
theorem Inv.step (h : s.Inv offered) {a : Action} (hstep : PhaseD.step offered s a = some s') :
    s'.Inv offered := by
  cases Move.of_step hstep with
  | launch hlt hi => exact h.launch hlt hi
  | @acquire i conn hi =>
    have hold := h.fits i
    rw [hi] at hold
    refine h.setInner (by simp [hi]) ?_
    cases conn <;> exact hold.move (by simp) (by simp) (by simp) rfl rfl (by simp)
  | @reply i ok hi =>
    have hold := h.fits i
    rw [hi] at hold
    refine h.setInner (by simp [hi]) ?_
    cases ok <;> exact hold.move (by simp) (by simp) (by simp) rfl rfl (by simp)
  | @check i outcome hi =>
    -- the one look at the flag: who sees it unset is going to record, whatever comes then
    cases hflag : s.abandoned i with
    | true => exact h.giveUp hi hflag
    | false =>
      have hold := h.fits i
      rw [hi] at hold
      have hne : outcome ≠ .deadlineExceeded := fun ho => hold.outcome.1 (by rw [ho])
      rw [State.check, hflag, if_neg Bool.false_ne_true]
      exact h.setInner (by simp [hi])
        (hold.move (by simp) (by simp) (by simpa using hne) rfl rfl (by simp))
  | record totalMs waitMs svcMs hi => exact h.recordInner hi totalMs waitMs svcMs
  | @finish i gaveUp hi =>
    have hold := h.fits i
    rw [hi] at hold
    refine h.setInner (by simp [hi]) ?_
    cases gaveUp <;> exact hold.move (by simp) (by simp) (by simp) rfl rfl (by simp)
  | @join i gaveUp hc hi =>
    have hold := h.fits i
    rw [hc, hi] at hold
    have hflag : s.abandoned i = false := hold.stored
    -- a task that has given up has seen the flag, which this caller has not set
    have hgaveUp : gaveUp = false := by
      cases gaveUp with
      | false => rfl
      | true => exact absurd (hold.seen rfl) (by simp [hflag])
    have hborn : s.inner i ≠ .unborn := by simp [hi]
    have hmove := hold.callerMove (p := .joined) (by simp) (by simp) hold.stored id
      (by simp [hgaveUp]) rfl
    rw [← hi] at hmove
    have hnew := h.setCaller hborn (s.abandoned i) hmove
    rwa [Function.update_eq_self] at hnew
  | @timeout i hc _ =>
    have hold := h.fits i
    rw [hc] at hold
    have hborn : s.inner i ≠ .unborn := fun hi => by simpa using hold.born.mp hi
    have hnew := h.setCaller (p := .timedOut) hborn (s.abandoned i)
      (hold.callerMove (by simp) (by simp) hold.stored id (by simp) rfl)
    rwa [Function.update_eq_self] at hnew
  | @store i hc =>
    have hold := h.fits i
    rw [hc] at hold
    have hborn : s.inner i ≠ .unborn := fun hi => by simpa using hold.born.mp hi
    exact h.setCaller hborn true
      (hold.callerMove (by simp) (by simp) rfl (fun _ => rfl) (by simp) rfl)
  | leave totalMs hc => exact h.leave hc totalMs

/-! ### Which runs are counted right -/

/-- No flag is set whose inner task has read it as unset. -/
def NoOverlap (s : State) : Prop := ∀ i, s.abandoned i = true → (s.inner i).unread = true

/-- What a step does to a flag, and to what an inner task has read. -/
structure Effect (s : State) (a : Action) (s' : State) (i : ℕ) : Prop where
  flag : s'.abandoned i = s.abandoned i ∨
    a = .store i ∧ s.caller i = .timedOut ∧ s'.abandoned i = true ∧ s'.inner i = s.inner i
  read : (s'.inner i).unread = (s.inner i).unread ∨
    (s.inner i).unread = true ∧ s.abandoned i = false ∧ s'.abandoned i = false

/-- The inner task of one request moves on, and has not read the flag before, or not after. -/
theorem Effect.setInner {a : Action} {p : Inner} (hp : p.unread = (s.inner i).unread ∨
    (s.inner i).unread = true ∧ s.abandoned i = false) (j : ℕ) : Effect s a (s.setInner i p) j where
  flag := .inl rfl
  read := by
    by_cases hj : j = i
    · subst hj
      have hself : (s.setInner j p).inner j = p := Function.update_self ..
      rw [hself]
      exact hp.imp_right fun h => ⟨h.1, h.2, h.2⟩
    · exact .inl (congrArg Inner.unread (Function.update_of_ne hj _ _))

/-- **The effect of every step.** -/
theorem Effect.of_step {a : Action} (hstep : PhaseD.step offered s a = some s') (j : ℕ) :
    Effect s a s' j := by
  cases Move.of_step hstep with
  | @launch i hlt hi =>
    have hmove := Effect.setInner (s := s) (a := .launch i) (p := .acquiring) (i := i)
      (.inl (by rw [hi]; rfl)) j
    exact ⟨hmove.flag, hmove.read⟩
  | acquire conn hi => exact Effect.setInner (.inl (by rw [hi]; cases conn <;> rfl)) j
  | reply ok hi => exact Effect.setInner (.inl (by rw [hi]; rfl)) j
  | @check i outcome hi =>
    unfold State.check
    split
    · have hmove := Effect.setInner (s := s) (a := .check i) (p := .returned true) (i := i)
        (.inl (by rw [hi]; rfl)) j
      exact ⟨hmove.flag, hmove.read⟩
    · next hflag =>
      exact Effect.setInner (.inr ⟨by rw [hi]; rfl, Bool.eq_false_iff.mpr hflag⟩) j
  | @record i outcome totalMs waitMs svcMs hi =>
    have hmove := Effect.setInner (s := s) (a := .record i totalMs waitMs svcMs)
      (p := .returned false) (i := i) (.inl (by rw [hi]; rfl)) j
    exact ⟨hmove.flag, hmove.read⟩
  | @finish i gaveUp hi => exact Effect.setInner (.inl (by rw [hi]; cases gaveUp <;> rfl)) j
  | join hc hi => exact ⟨.inl rfl, .inl rfl⟩
  | timeout hc hi => exact ⟨.inl rfl, .inl rfl⟩
  | @store i hc =>
    refine ⟨?_, .inl rfl⟩
    by_cases hj : j = i
    · subst hj
      exact .inr ⟨rfl, hc, Function.update_self .., rfl⟩
    · exact .inl (Function.update_of_ne hj _ _)
  | leave totalMs hc => exact ⟨.inl rfl, .inl rfl⟩

/-- An overlap stays. -/
theorem NoOverlap.of_step {a : Action} (hs' : s'.NoOverlap)
    (hstep : PhaseD.step offered s a = some s') : s.NoOverlap := by
  intro i hi
  -- flags are never cleared, and what was read is not read again
  have heff := Effect.of_step hstep i
  rcases heff.read with hread | ⟨hunread, -, -⟩
  · rw [← hread]
    apply hs'
    rcases heff.flag with hflag | ⟨-, -, hflag, -⟩
    · rw [hflag, hi]
    · exact hflag
  · exact hunread

/-- From a state without an overlap, a step meets the condition exactly when there is none
after it. -/
theorem storesInTime_iff (offered : ℕ) (hs : s.NoOverlap) (a : Action) :
    StoresInTime s a ↔ ∀ s', PhaseD.step offered s a = some s' → s'.NoOverlap := by
  constructor
  · intro hok s' hstep i hi
    have heff := Effect.of_step hstep i
    rcases heff.flag with hflag | ⟨rfl, hc, -, hsame⟩
    · rcases heff.read with hread | ⟨-, -, hfalse⟩
      · rw [hread]
        exact hs i (hflag ▸ hi)
      · rw [hfalse] at hi
        cases hi
    · rw [hsame]
      exact hok hc
  · intro hnext
    cases a with
    | store i =>
      intro hc
      have hstep : PhaseD.step offered s (.store i) = some
          ({ s with abandoned := Function.update s.abandoned i true }.setCaller i .stored) := by
        simp only [PhaseD.step, hc]
      exact hnext _ hstep i (Function.update_self ..)
    | _ => trivial

/-- An overlap that is in a run is still there at its end. -/
theorem NoOverlap.of_exec {as : List Action} (hs' : s'.NoOverlap)
    (hrun : exec (PhaseD.step offered) s as = some s') : s.NoOverlap := by
  induction as generalizing s with
  | nil => exact Option.some_inj.mp hrun ▸ hs'
  | cons a as ih =>
    obtain ⟨s₁, hstep, hrest⟩ := Option.bind_eq_some_iff.mp hrun
    exact (ih hrest).of_step hstep

/-! ### The counters of a complete run -/

/-- How a request can be over. -/
theorem Inv.over (h : s.Inv offered) (hover : s.Over i) :
    s.caller i = .joined ∧ s.inner i = .finished false ∧ s.abandoned i = false ∨
      s.caller i = .left ∧ (∃ gaveUp, s.inner i = .finished gaveUp) ∧ s.abandoned i = true := by
  have hold := h.fits i
  obtain ⟨hinner, hc | hc⟩ := hover
  · have hflag := hold.stored
    rw [hc] at hflag
    exact .inl ⟨hc, hold.joined hc, hflag⟩
  · have hflag := hold.stored
    rw [hc] at hflag
    exact .inr ⟨hc, hinner, hflag⟩

/-- A request beyond the offered ones has done nothing. -/
theorem Inv.beyond_zero (h : s.Inv offered) (hi : offered ≤ i) :
    s.abandoned i = false ∧ s.recordsOf i = 0 ∧ s.gaveUps.count i = 0 ∧ s.breachesOf i = 0 := by
  have hold := h.fits i
  have hinner := h.beyond i hi
  have hcaller := hold.born.mp hinner
  rw [hinner, hcaller] at hold
  exact ⟨hold.stored, hold.records, hold.gaveUps, hold.breaches⟩

/-- Without an overlap, who has given up is who was recorded as a breach, and each request was
recorded once. -/
theorem Inv.balance (h : s.Inv offered) (hcomplete : s.Complete offered) (hs : s.NoOverlap)
    (i : ℕ) : s.recordsOf i = (if i < offered then 1 else 0) ∧
      s.gaveUps.count i = s.breachesOf i := by
  by_cases hi : i < offered
  · rw [if_pos hi]
    have hold := h.fits i
    rcases h.over (hcomplete i hi) with ⟨hc, hin, -⟩ | ⟨hc, ⟨gaveUp, hin⟩, hflag⟩
    · rw [hold.records, hold.gaveUps, hold.breaches, hc, hin]
      exact ⟨rfl, rfl⟩
    · -- the flag was set before the task looked at it
      have hgaveUp : gaveUp = true := by
        have hunread := hs i hflag
        rw [hin] at hunread
        cases gaveUp with
        | true => rfl
        | false => cases hunread
      rw [hold.records, hold.gaveUps, hold.breaches, hc, hin, hgaveUp]
      exact ⟨rfl, rfl⟩
  · obtain ⟨-, hrec, hgone, hbreach⟩ := h.beyond_zero (Nat.not_lt.mp hi)
    rw [if_neg hi, hrec, hgone, hbreach]
    exact ⟨rfl, rfl⟩

/-- The requests of the records. -/
theorem count_fst (l : List (ℕ × Outcome)) (i : ℕ) :
    (l.map Prod.fst).count i = l.countP fun r => r.1 = i := by
  rw [List.count, List.countP_map]
  congr 1

/-- The requests recorded as breaches. -/
theorem count_breaches (l : List (ℕ × Outcome)) (i : ℕ) :
    ((l.filter fun r => r.2 = .deadlineExceeded).map Prod.fst).count i
      = l.count (i, .deadlineExceeded) := by
  rw [count_fst, List.countP_filter, List.count]
  refine List.countP_congr fun r _ => ?_
  simp [Prod.ext_iff]

/-- **A complete run is counted right exactly when no flag overlaps.** -/
theorem Inv.countedOnce_iff (h : s.Inv offered) (hcomplete : s.Complete offered) :
    s.CountedOnce offered ↔ s.NoOverlap := by
  constructor
  · intro hcounted i hflag
    by_contra hread
    have hlt : i < offered := by
      by_contra hle
      rw [(h.beyond_zero (Nat.not_lt.mp hle)).1] at hflag
      cases hflag
    have hold := h.fits i
    rcases h.over (hcomplete i hlt) with ⟨-, -, hno⟩ | ⟨hc, ⟨gaveUp, hin⟩, -⟩
    · rw [hno] at hflag
      cases hflag
    · -- both of its tasks have recorded
      rw [hin] at hread
      obtain rfl : gaveUp = false := by
        cases gaveUp with
        | false => rfl
        | true => exact absurd rfl hread
      have htwo := hold.records
      rw [hin, hc] at htwo
      have hone := hcounted.once i hlt
      rw [← recordsOf, htwo] at hone
      cases hone
  · intro hs
    -- the records are a permutation of the requests, and the give-ups one of the breaches
    have hlength : s.records.length = offered := by
      have hperm : (s.records.map Prod.fst).Perm (List.range offered) := by
        rw [List.perm_iff_count]
        intro i
        rw [count_fst, ← recordsOf, (h.balance hcomplete hs i).1, List.count_range]
      simpa using hperm.length_eq
    have hbreaches : s.gaveUps.length
        = s.records.countP fun r => r.2 = .deadlineExceeded := by
      have hperm : s.gaveUps.Perm
          ((s.records.filter fun r => r.2 = .deadlineExceeded).map Prod.fst) := by
        rw [List.perm_iff_count]
        intro i
        rw [count_breaches, (h.balance hcomplete hs i).2, breachesOf]
      rw [hperm.length_eq, List.length_map, List.countP_eq_length_filter]
    refine ⟨fun i hi => ?_, h.tally.total.trans hlength, ?_, fun i => ?_⟩
    · have hrec := (h.balance hcomplete hs i).1
      rwa [if_pos hi] at hrec
    · rw [h.tally.abandoned, h.tally.deadline, hbreaches]
    · rw [← List.count_pos_iff, ← List.count_pos_iff, (h.balance hcomplete hs i).2, breachesOf]

end State

/-- **Phase D counts each request once exactly in the runs whose callers store in time.** -/
theorem phase_d_counts_once_iff (offered : ℕ) (as : List Action) (s : State)
    (hrun : exec (step offered) State.init as = some s) (hcomplete : s.Complete offered) :
    s.CountedOnce offered ↔
      ∀ bs a s', bs ++ [a] <+: as → exec (step offered) State.init bs = some s' →
        StoresInTime s' a := by
  have hinv : s.Inv offered :=
    (Reach.of_exec as hrun).invariant State.Inv.init fun _ _ _ hs hstep => hs.step hstep
  rw [hinv.countedOnce_iff hcomplete, ← exec_forall_iff (I := fun _ => True) (P := State.NoOverlap)
    trivial (fun _ _ _ _ _ => trivial) (fun i hi => by cases hi)
    (fun s a _ hs => State.storesInTime_iff offered hs a) as]
  constructor
  · rintro hs bs s' ⟨cs, rfl⟩ hbs
    rw [exec_append, hbs] at hrun
    exact hs.of_exec hrun
  · intro hall
    exact hall as s List.prefix_rfl hrun

/-- The timeout fires while the inner task is between its look at the flag and its record. -/
def overlappingRun : List Action :=
  [.launch 0, .acquire 0 true, .reply 0 true, .check 0, .timeout 0, .store 0, .leave 0 300,
    .record 0 301 1 300, .finish 0]

/-- The request is recorded twice, and nothing is counted as abandoned. -/
theorem phase_d_counts_twice :
    ¬ ∀ s, exec (step 1) State.init overlappingRun = some s → s.Complete 1 →
      s.CountedOnce 1 := by
  intro h
  have hcounted := h _ rfl fun i hi => by
    obtain rfl := Nat.lt_one_iff.mp hi
    exact ⟨⟨false, rfl⟩, .inr rfl⟩
  exact absurd (hcounted.once 0 Nat.one_pos) (by decide)

/-- The timeout fires while the inner task waits for the dependency. -/
def abandonedRun : List Action :=
  [.launch 0, .acquire 0 true, .timeout 0, .store 0, .leave 0 300, .reply 0 true, .check 0,
    .finish 0]

theorem phase_d_counts_once_abandoned :
    ∃ s, exec (step 1) State.init abandonedRun = some s ∧ (s.CountedOnce 1 ↔
      ∀ bs a s', bs ++ [a] <+: abandonedRun → exec (step 1) State.init bs = some s' →
        StoresInTime s' a) := by
  refine ⟨_, rfl, phase_d_counts_once_iff 1 abandonedRun _ rfl ?_⟩
  intro i hi
  obtain rfl := Nat.lt_one_iff.mp hi
  exact ⟨⟨true, rfl⟩, .inr rfl⟩

end SlowNotAbsent.PhaseD
end SepLab
