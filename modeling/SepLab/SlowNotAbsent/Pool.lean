import Mathlib.Data.Int.Notation
import SepLab.Lib.Listed
import SepLab.Lib.Transition

/-!
# The connection pool in front of the slow dependency

`Pool` of `slow_not_absent.cpp`: a vector of idle descriptors, a count of those created,
and a condition variable on which a thread waits until there is an idle one or room for one
more.  `release` and `discard` change the pool under the lock and call `notify_one` after
it.  A thread whose `connect_one` has failed takes its count back under the lock, and
notifies nobody.

A wait ends with a notification, or with a spurious wake-up or a deadline; either way the
thread takes the lock and tests the condition again.

## Main definitions

* `Pool`, `Action`, `step` — the sections of `acquire`, `release` and `discard`.
* `Pool.Stranded` — a thread waits un-notified for what is there, and nobody will notify it.
* `FailsSafely` — the condition on a failed connect.

## Main results

* `Pool.Inv.step`, `Pool.Served.step` — what every step keeps, and what a step that meets
  the condition keeps.
* `pool_strands_nobody_iff` — a run strands nobody, whatever follows it short of another
  failed connect, exactly when its failed connects meet the condition.
-/

namespace SepLab
namespace SlowNotAbsent

/-- Where a thread is. -/
inductive Phase
  | idle
  /-- In `cv_.wait`, and not notified. -/
  | waiting
  /-- Notified, and yet to take the lock. -/
  | notified
  /-- Awake without a notification, and yet to take the lock. -/
  | awake
  /-- In `connect_one`. -/
  | connecting
  /-- It has a connection. -/
  | holding (fd : ℕ)
  /-- Past the lock of `release` or `discard`, and yet to notify. -/
  | owing
deriving DecidableEq, Repr

/-- The pool and its threads; `cv`, `notified` and `owing` list the threads in those phases. -/
structure Pool (T : Type) where
  idle : List ℕ
  created : ℤ
  discarded : ℕ
  phase : T → Phase
  /-- The thread waits with a timeout. -/
  bounded : T → Bool
  cv : List T
  notified : List T
  owing : List T

/-- The sections of the functions, and what comes between them. -/
inductive Action (T : Type)
  /-- `acquire(timeout_ms)` takes the lock. -/
  | acquire (i : T) (timeoutMs : ℤ)
  /-- A wait ends without a notification. -/
  | wake (i : T)
  /-- A thread that is awake takes the lock; `late` says that its deadline has passed. -/
  | retest (i : T) (late : Bool)
  /-- `connect_one` returns a descriptor. -/
  | connected (i : T) (fd : ℕ)
  /-- `connect_one` returns -1, and the thread takes its count back. -/
  | connectFailed (i : T)
  /-- The locked part of `release`. -/
  | release (i : T)
  /-- `discard`, up to the end of its locked part. -/
  | discard (i : T)
  /-- `notify_one`, which wakes the thread `w`, if any waits. -/
  | notifyOne (i : T) (w : Option T)
deriving DecidableEq, Repr

variable {T : Type} [DecidableEq T]

namespace Pool

/-- A new pool, and all threads outside of it. -/
def init : Pool T := ⟨[], 0, 0, fun _ => .idle, fun _ => false, [], [], []⟩

/-- Thread `i` moves on to `p`. -/
def enter (s : Pool T) (i : T) (p : Phase) : Pool T :=
  { s with
    phase := Function.update s.phase i p
    cv := relist s.cv i (p = .waiting)
    notified := relist s.notified i (p = .notified)
    owing := relist s.owing i (p = .owing) }

/-- The predicate of the wait. -/
def pred (size : ℤ) (s : Pool T) : Bool := s.idle ≠ [] || s.created < size

/-- `acquire` past its wait: an idle connection, or a new one. -/
def take (s : Pool T) (i : T) : Pool T :=
  match s.idle.getLast? with
  | some fd => { s with idle := s.idle.dropLast }.enter i (.holding fd)
  | none => { s with created := s.created + 1 }.enter i .connecting

/-- `acquire`, up to its first wait or its return. -/
def acquire (size : ℤ) (s : Pool T) (i : T) (timeoutMs : ℤ) : Option (Pool T) :=
  match s.phase i with
  | .idle =>
    let s' := { s with bounded := Function.update s.bounded i (decide (0 ≤ timeoutMs)) }
    some (if s.pred size then s'.take i else s'.enter i .waiting)
  | _ => none

/-- A bounded wait past its deadline returns the predicate, and any other goes on. -/
def retest (size : ℤ) (s : Pool T) (i : T) (late : Bool) : Option (Pool T) :=
  if s.phase i = .notified ∨ s.phase i = .awake then
    if s.pred size then some (s.take i)
    else if late then
      if s.bounded i then some (s.enter i .idle) else none
    else some (s.enter i .waiting)
  else none

/-- `connect_one` fails, and the slot is given back. -/
def connectFailed (s : Pool T) (i : T) : Option (Pool T) :=
  match s.phase i with
  | .connecting => some ({ s with created := s.created - 1 }.enter i .idle)
  | _ => none

/-- The locked part of `release`. -/
def release (s : Pool T) (i : T) : Option (Pool T) :=
  match s.phase i with
  | .holding fd => some ({ s with idle := s.idle ++ [fd] }.enter i .owing)
  | _ => none

/-- The locked part of `discard`. -/
def discard (s : Pool T) (i : T) : Option (Pool T) :=
  match s.phase i with
  | .holding _ =>
    some ({ s with discarded := s.discarded + 1, created := s.created - 1 }.enter i .owing)
  | _ => none

/-- Without a thread that waits it does nothing. -/
def notifyOne (s : Pool T) (i : T) (w : Option T) : Option (Pool T) :=
  match s.phase i, w with
  | .owing, none => if s.cv = [] then some (s.enter i .idle) else none
  | .owing, some w =>
    if s.phase w = .waiting then some ((s.enter i .idle).enter w .notified) else none
  | _, _ => none

end Pool

/-- One section; the pool is for `size` connections. -/
def step (size : ℤ) (s : Pool T) : Action T → Option (Pool T)
  | .acquire i timeoutMs => s.acquire size i timeoutMs
  | .wake i =>
    match s.phase i with
    | .waiting => some (s.enter i .awake)
    | _ => none
  | .retest i late => s.retest size i late
  | .connected i fd =>
    match s.phase i with
    | .connecting => some (s.enter i (.holding fd))
    | _ => none
  | .connectFailed i => s.connectFailed i
  | .release i => s.release i
  | .discard i => s.discard i
  | .notifyOne i w => s.notifyOne i w

namespace Pool

/-- A thread waits un-notified while there is a connection or room for one, and no thread is
about to notify or has been notified. -/
def Stranded (size : ℤ) (s : Pool T) : Prop :=
  (∃ i, s.phase i = .waiting) ∧ s.pred size = true ∧
    ∀ j, s.phase j ≠ .owing ∧ s.phase j ≠ .notified

/-- The connections that could be taken now. -/
def available (size : ℤ) (s : Pool T) : ℤ := s.idle.length + (size - s.created)

/-- No more threads wait than are about to be notified, or a wake-up is on its way for all that
can be taken. -/
def Served (size : ℤ) (s : Pool T) : Prop :=
  s.cv.length ≤ s.owing.length ∨ s.available size ≤ s.owing.length + s.notified.length

end Pool

/-- A connect fails while no more threads wait than are about to be notified, or while more
wake-ups are on their way than there is to take. -/
def FailsSafely (size : ℤ) (s : Pool T) : Action T → Prop
  | .connectFailed i => s.phase i = .connecting →
    s.cv.length ≤ s.owing.length ∨ s.available size < s.owing.length + s.notified.length
  | _ => True

/-! ### What a step does -/

namespace Pool

/-- The lists are those of the phases, and no more connections are created than there may be. -/
structure Inv (size : ℤ) (s : Pool T) : Prop where
  cv : Listed s.cv s.phase .waiting
  notified : Listed s.notified s.phase .notified
  owing : Listed s.owing s.phase .owing
  created : s.created ≤ size

/-- Thread `i` has moved on to `p`, and there is `gain` more to take than before. -/
structure Moves (size : ℤ) (s s' : Pool T) (i : T) (p : Phase) (gain : ℤ) : Prop where
  phase : s'.phase = Function.update s.phase i p
  cv : s'.cv = relist s.cv i (p = .waiting)
  notified : s'.notified = relist s.notified i (p = .notified)
  owing : s'.owing = relist s.owing i (p = .owing)
  available : s'.available size = s.available size + gain
  created : s'.created ≤ size

variable {size : ℤ} {s s' : Pool T} {i : T} {p : Phase} {gain : ℤ}

omit [DecidableEq T] in
theorem Inv.init (hsize : 1 ≤ size) : (init : Pool T).Inv size where
  cv := .nil (by simp [Pool.init])
  notified := .nil (by simp [Pool.init])
  owing := .nil (by simp [Pool.init])
  created := by
    show (0 : ℤ) ≤ size
    omega

/-- A step of one thread keeps the invariant. -/
theorem Moves.inv (h : s.Inv size) (hm : Moves size s s' i p gain) : s'.Inv size where
  cv := by
    rw [hm.phase, hm.cv]
    exact h.cv.relist
  notified := by
    rw [hm.phase, hm.notified]
    exact h.notified.relist
  owing := by
    rw [hm.phase, hm.owing]
    exact h.owing.relist
  created := hm.created

/-- How many threads wait, are notified and owe a notification after a step of one thread. -/
theorem Moves.lengths (h : s.Inv size) (hm : Moves size s s' i p gain) :
    s'.cv.length + (if s.phase i = .waiting then 1 else 0)
        = s.cv.length + (if p = .waiting then 1 else 0) ∧
      s'.notified.length + (if s.phase i = .notified then 1 else 0)
        = s.notified.length + (if p = .notified then 1 else 0) ∧
      s'.owing.length + (if s.phase i = .owing then 1 else 0)
        = s.owing.length + (if p = .owing then 1 else 0) := by
  rw [hm.cv, hm.notified, hm.owing]
  have hcv := h.cv.length_relist i (p = .waiting)
  have hnotified := h.notified.length_relist i (p = .notified)
  have howing := h.owing.length_relist i (p = .owing)
  simp only [decide_eq_true_eq] at hcv hnotified howing
  exact ⟨hcv, hnotified, howing⟩

theorem Moves.enter (h : s.Inv size) (i : T) (p : Phase) : Moves size s (s.enter i p) i p 0 where
  phase := rfl
  cv := rfl
  notified := rfl
  owing := rfl
  available := (Int.add_zero _).symm
  created := h.created

/-- A failed connect leaves room for one more. -/
theorem Moves.failed (h : s.Inv size) (i : T) :
    Moves size s ({ s with created := s.created - 1 }.enter i .idle) i .idle 1 := by
  have hcreated := h.created
  refine ⟨rfl, rfl, rfl, rfl, ?_, ?_⟩
  · simp only [Pool.available, Pool.enter]
    omega
  · show s.created - 1 ≤ size
    omega

omit [DecidableEq T] in
theorem pred_iff (hcreated : s.created ≤ size) : s.pred size = true ↔ 0 < s.available size := by
  unfold pred Pool.available
  have hlen : s.idle ≠ [] ↔ 0 < s.idle.length := List.length_pos_iff.symm
  simp only [Bool.or_eq_true, decide_eq_true_eq, hlen]
  omega

/-- Who takes has a connection, or goes to make one. -/
theorem Moves.take (h : s.Inv size) (hpred : s.pred size = true) (i : T) :
    ∃ p, (p = .connecting ∨ ∃ fd, p = .holding fd) ∧ Moves size s (s.take i) i p (-1) := by
  unfold Pool.take
  split
  · next fd hfd =>
    have hne : s.idle ≠ [] := by
      rintro hnil
      simp [hnil] at hfd
    have hlen := List.length_pos_iff.mpr hne
    refine ⟨_, .inr ⟨fd, rfl⟩, rfl, rfl, rfl, rfl, ?_, h.created⟩
    simp only [Pool.available, Pool.enter, List.length_dropLast]
    omega
  · next hnone =>
    have hroom : s.created < size := by
      simpa [pred, List.getLast?_eq_none_iff.mp hnone] using hpred
    refine ⟨_, .inl rfl, rfl, rfl, rfl, rfl, ?_, ?_⟩
    · simp only [Pool.available, Pool.enter]
      omega
    · show s.created + 1 ≤ size
      omega

/-- What a section of the program does to the threads and to what there is to take. -/
inductive Effect (size : ℤ) (s : Pool T) : Action T → Pool T → Prop
  | take {a : Action T} {t : Pool T} (j : T) (q : Phase)
      (hj : s.phase j = .idle ∨ s.phase j = .notified ∨ s.phase j = .awake)
      (hq : q = .connecting ∨ ∃ fd, q = .holding fd) (hm : Moves size s t j q (-1)) :
      Effect size s a t
  | wait {a : Action T} {t : Pool T} (j : T) (q : Phase)
      (hj : s.phase j = .idle ∨ s.phase j = .notified ∨ s.phase j = .awake)
      (hnone : s.available size ≤ 0) (hq : q = .waiting ∨ q = .idle)
      (hm : Moves size s t j q 0) : Effect size s a t
  | wake {t : Pool T} (j : T) (hj : s.phase j = .waiting) (hm : Moves size s t j .awake 0) :
      Effect size s (.wake j) t
  | connected {t : Pool T} (j : T) (fd : ℕ) (hj : s.phase j = .connecting)
      (hm : Moves size s t j (.holding fd) 0) : Effect size s (.connected j fd) t
  | connectFailed {t : Pool T} (j : T) (hj : s.phase j = .connecting)
      (hm : Moves size s t j .idle 1) : Effect size s (.connectFailed j) t
  | giveBack {a : Action T} {t : Pool T} (j : T) (fd : ℕ) (hj : s.phase j = .holding fd)
      (hm : Moves size s t j .owing 1) : Effect size s a t
  | notifyNone {t : Pool T} (j : T) (hj : s.phase j = .owing) (hcv : s.cv = [])
      (hm : Moves size s t j .idle 0) : Effect size s (.notifyOne j none) t
  | notifySome {u t : Pool T} (j w : T) (hj : s.phase j = .owing) (hw : u.phase w = .waiting)
      (hm : Moves size s u j .idle 0) (hm' : Moves size u t w .notified 0) :
      Effect size s (.notifyOne j (some w)) t

/-- The locked part of a wait, or of an `acquire`. -/
theorem Inv.test (h : s.Inv size) {a : Action T}
    (hi : s.phase i = .idle ∨ s.phase i = .notified ∨ s.phase i = .awake) {b : T → Bool}
    (hp : p = .waiting ∨ p = .idle)
    (hs : s' = if s.pred size then ({ s with bounded := b } : Pool T).take i
      else ({ s with bounded := b } : Pool T).enter i p) : Effect size s a s' := by
  have hb : Inv size { s with bounded := b } := ⟨h.cv, h.notified, h.owing, h.created⟩
  subst hs
  split
  · next hpred =>
    obtain ⟨q, hq, hm⟩ := Moves.take hb hpred i
    exact .take i q hi hq ⟨hm.phase, hm.cv, hm.notified, hm.owing, hm.available, hm.created⟩
  · next hpred =>
    rw [pred_iff h.created] at hpred
    refine .wait i p hi (by omega) hp ⟨rfl, rfl, rfl, rfl, ?_, h.created⟩
    exact (Int.add_zero _).symm

/-- The descriptions cover every step. -/
theorem Effect.of_step (h : s.Inv size) {a : Action T}
    (hstep : SlowNotAbsent.step size s a = some s') : Effect size s a s' := by
  cases a with
  | acquire i timeoutMs =>
    simp only [SlowNotAbsent.step, Pool.acquire] at hstep
    split at hstep
    · next hi => exact h.test (.inl hi) (.inl rfl) (Option.some_inj.mp hstep).symm
    · cases hstep
  | wake i =>
    simp only [SlowNotAbsent.step] at hstep
    split at hstep
    · next hi => exact Option.some_inj.mp hstep ▸ .wake i hi (.enter h i _)
    · cases hstep
  | retest i late =>
    simp only [SlowNotAbsent.step, Pool.retest] at hstep
    split at hstep
    · next hi =>
      have hi' := Or.inr (a := s.phase i = .idle) hi
      cases late with
      | false =>
        refine h.test (b := s.bounded) hi' (.inl rfl) ?_
        split at hstep
        · next hpred => simpa [hpred] using (Option.some_inj.mp hstep).symm
        · next hpred => simpa [hpred] using (Option.some_inj.mp hstep).symm
      | true =>
        refine h.test (b := s.bounded) hi' (.inr rfl) ?_
        split at hstep
        · next hpred => simpa [hpred] using (Option.some_inj.mp hstep).symm
        · next hpred =>
          rw [if_pos rfl] at hstep
          split at hstep
          · simpa [hpred] using (Option.some_inj.mp hstep).symm
          · cases hstep
    · cases hstep
  | connected i fd =>
    simp only [SlowNotAbsent.step] at hstep
    split at hstep
    · next hi => exact Option.some_inj.mp hstep ▸ .connected i fd hi (.enter h i _)
    · cases hstep
  | connectFailed i =>
    simp only [SlowNotAbsent.step, Pool.connectFailed] at hstep
    split at hstep
    · next hi => exact Option.some_inj.mp hstep ▸ .connectFailed i hi (.failed h i)
    · cases hstep
  | release i =>
    simp only [SlowNotAbsent.step, Pool.release] at hstep
    split at hstep
    · next fd hi =>
      obtain rfl := Option.some_inj.mp hstep
      refine .giveBack i fd hi ⟨rfl, rfl, rfl, rfl, ?_, h.created⟩
      simp only [Pool.available, Pool.enter, List.length_append, List.length_singleton]
      omega
    · cases hstep
  | discard i =>
    simp only [SlowNotAbsent.step, Pool.discard] at hstep
    split at hstep
    · next fd hi =>
      obtain rfl := Option.some_inj.mp hstep
      have hcreated := h.created
      refine .giveBack i fd hi ⟨rfl, rfl, rfl, rfl, ?_, ?_⟩
      · simp only [Pool.available, Pool.enter]
        omega
      · show s.created - 1 ≤ size
        omega
    · cases hstep
  | notifyOne i w =>
    simp only [SlowNotAbsent.step, Pool.notifyOne] at hstep
    split at hstep
    · next hi =>
      split at hstep
      · next hcv => exact Option.some_inj.mp hstep ▸ .notifyNone i hi hcv (.enter h i _)
      · cases hstep
    · next w hi =>
      split at hstep
      · next hw =>
        obtain rfl := Option.some_inj.mp hstep
        have hm : Moves size s (s.enter i .idle) i .idle 0 := .enter h i _
        have hne : w ≠ i := by
          rintro rfl
          rw [hi] at hw
          cases hw
        refine .notifySome i w hi ?_ hm (.enter (hm.inv h) w _)
        exact (Function.update_of_ne hne _ _).trans hw
      · cases hstep
    · cases hstep

/-- **Every step keeps the invariant.** -/
theorem Inv.step (h : s.Inv size) {a : Action T} (hstep : SlowNotAbsent.step size s a = some s') :
    s'.Inv size := by
  cases Effect.of_step h hstep with
  | take _ _ _ _ hm => exact hm.inv h
  | wait _ _ _ _ _ hm => exact hm.inv h
  | wake _ _ hm => exact hm.inv h
  | connected _ _ _ hm => exact hm.inv h
  | connectFailed _ _ hm => exact hm.inv h
  | giveBack _ _ _ hm => exact hm.inv h
  | notifyNone _ _ _ hm => exact hm.inv h
  | notifySome _ _ _ _ hm hm' => exact hm'.inv (hm.inv h)

/-! ### Who is served -/

/-- **A step that meets the condition leaves nobody without a wake-up on its way.** -/
theorem Served.step (h : s.Inv size) (hs : s.Served size) {a : Action T}
    (hok : FailsSafely size s a) (hstep : SlowNotAbsent.step size s a = some s') :
    s'.Served size := by
  unfold Served at hs ⊢
  cases Effect.of_step h hstep with
  | take j q hj hq hm =>
    obtain ⟨hcv, hnotified, howing⟩ := hm.lengths h
    have havail := hm.available
    rcases hj with hj | hj | hj <;> rcases hq with rfl | ⟨fd, rfl⟩ <;>
      simp [hj] at hcv hnotified howing <;> omega
  | wait j q hj hnone hq hm =>
    -- who goes to wait has found nothing to take
    have havail := hm.available
    right
    omega
  | wake j hj hm =>
    obtain ⟨hcv, hnotified, howing⟩ := hm.lengths h
    have havail := hm.available
    simp [hj] at hcv hnotified howing
    omega
  | connected j fd hj hm =>
    obtain ⟨hcv, hnotified, howing⟩ := hm.lengths h
    have havail := hm.available
    simp [hj] at hcv hnotified howing
    omega
  | connectFailed j hj hm =>
    -- the one step that makes room without owing a notification
    have hsafe := hok hj
    obtain ⟨hcv, hnotified, howing⟩ := hm.lengths h
    have havail := hm.available
    simp [hj] at hcv hnotified howing
    omega
  | giveBack j fd hj hm =>
    obtain ⟨hcv, hnotified, howing⟩ := hm.lengths h
    have havail := hm.available
    simp [hj] at hcv hnotified howing
    omega
  | notifyNone j hj hnone hm =>
    -- a notification is lost only where nobody waits
    obtain ⟨hcv, -, -⟩ := hm.lengths h
    have hlen : s.cv.length = 0 := List.length_eq_zero_iff.mpr hnone
    simp only [hj, reduceCtorEq, if_false, Nat.add_zero] at hcv
    left
    omega
  | notifySome j w hj hw hm hm' =>
    obtain ⟨hcv, hnotified, howing⟩ := hm.lengths h
    obtain ⟨hcv', hnotified', howing'⟩ := hm'.lengths (hm.inv h)
    have havail := hm.available
    have havail' := hm'.available
    simp [hj] at hcv hnotified howing
    simp [hw] at hcv' hnotified' howing'
    omega

omit [DecidableEq T] in
/-- Where everybody is served, nobody is stranded. -/
theorem Inv.not_stranded (h : s.Inv size) (hs : s.Served size) : ¬ s.Stranded size := by
  rintro ⟨⟨i, hi⟩, hpred, hnone⟩
  have hcv : 0 < s.cv.length := List.length_pos_of_mem ((h.cv.mem i).mpr hi)
  have howing : s.owing = [] :=
    List.eq_nil_iff_forall_not_mem.mpr fun j hj => (hnone j).1 ((h.owing.mem j).mp hj)
  have hnotified : s.notified = [] :=
    List.eq_nil_iff_forall_not_mem.mpr fun j hj => (hnone j).2 ((h.notified.mem j).mp hj)
  have hmore := (pred_iff h.created).mp hpred
  -- no wake-up is on its way, so that neither bound holds
  rcases hs with hs | hs
  · rw [howing, List.length_nil] at hs
    omega
  · rw [howing, hnotified] at hs
    exact absurd hs (Int.not_le.mpr hmore)

omit [DecidableEq T] in
theorem not_served : ¬ s.Served size ↔
    s.owing.length < s.cv.length ∧ s.owing.length + s.notified.length < s.available size := by
  unfold Served
  omega

/-- Where somebody is not served, a notification that is owed is given to somebody else. -/
theorem Inv.exists_notify (h : s.Inv size) (hs : ¬ s.Served size) (howes : 0 < s.owing.length) :
    ∃ j w s', SlowNotAbsent.step size s (.notifyOne j (some w)) = some s' ∧ ¬ s'.Served size ∧
      2 * s'.owing.length + s'.notified.length < 2 * s.owing.length + s.notified.length := by
  obtain ⟨hwaiting, hmore⟩ := not_served.mp hs
  obtain ⟨j, hj⟩ := List.exists_mem_of_length_pos howes
  obtain ⟨w, hw⟩ := List.exists_mem_of_length_pos (Nat.zero_lt_of_lt hwaiting)
  have hj := (h.owing.mem j).mp hj
  have hw := (h.cv.mem w).mp hw
  have hne : w ≠ j := by
    rintro rfl
    rw [hj] at hw
    cases hw
  have hm : Moves size s (s.enter j .idle) j .idle 0 := .enter h j _
  have hm' := Moves.enter (hm.inv h) w .notified
  have hw' : (s.enter j .idle).phase w = .waiting := (Function.update_of_ne hne _ _).trans hw
  refine ⟨j, w, (s.enter j .idle).enter w .notified, ?_, ?_⟩
  · simp only [SlowNotAbsent.step, Pool.notifyOne, hj, if_pos hw]
  · obtain ⟨hcv, hnotified, howing⟩ := hm.lengths h
    obtain ⟨hcv', hnotified', howing'⟩ := hm'.lengths (hm.inv h)
    have havail := hm.available
    have havail' := hm'.available
    simp only [hj, hw', reduceCtorEq, if_true, if_false, Nat.add_zero] at *
    rw [not_served]
    omega

/-- Where somebody is not served, a thread that was notified takes what it was woken for. -/
theorem Inv.exists_take (h : s.Inv size) (hs : ¬ s.Served size) (hwoken : 0 < s.notified.length) :
    ∃ j s', SlowNotAbsent.step size s (.retest j false) = some s' ∧ ¬ s'.Served size ∧
      2 * s'.owing.length + s'.notified.length < 2 * s.owing.length + s.notified.length := by
  obtain ⟨hwaiting, hmore⟩ := not_served.mp hs
  obtain ⟨j, hj⟩ := List.exists_mem_of_length_pos hwoken
  have hj := (h.notified.mem j).mp hj
  have hpred : s.pred size = true := (pred_iff h.created).mpr (by omega)
  obtain ⟨q, hq, hm⟩ := Moves.take h hpred j
  refine ⟨j, s.take j, ?_, ?_⟩
  · simp only [SlowNotAbsent.step, Pool.retest, hj, hpred, true_or, if_true]
  · obtain ⟨hcv, hnotified, howing⟩ := hm.lengths h
    have havail := hm.available
    rw [not_served]
    rcases hq with rfl | ⟨fd, rfl⟩ <;>
      simp only [hj, reduceCtorEq, if_true, if_false, Nat.add_zero] at hcv hnotified howing <;>
      omega

/-- **Where somebody is not served, the wake-ups run out before what there is to take.** -/
theorem Inv.exists_stranded (n : ℕ) (h : s.Inv size)
    (hn : 2 * s.owing.length + s.notified.length = n) (hs : ¬ s.Served size) :
    ∃ cs s', (∀ a ∈ cs, ∀ i, a ≠ .connectFailed i) ∧
      exec (SlowNotAbsent.step size) s cs = some s' ∧ s'.Stranded size := by
  induction n using Nat.strongRecOn generalizing s with
  | ind n ih =>
    -- what follows a step that leaves fewer wake-ups and somebody unserved
    have hgo : ∀ (a : Action T) (s₁ : Pool T), (∀ i, a ≠ .connectFailed i) →
        SlowNotAbsent.step size s a = some s₁ → ¬ s₁.Served size →
        2 * s₁.owing.length + s₁.notified.length < 2 * s.owing.length + s.notified.length →
        ∃ cs s', (∀ a ∈ cs, ∀ i, a ≠ .connectFailed i) ∧
          exec (SlowNotAbsent.step size) s cs = some s' ∧ s'.Stranded size := by
      intro a s₁ ha hstep hserved hlt
      obtain ⟨cs, s', hcs, hrun, hstr⟩ := ih _ (hn ▸ hlt) (h.step hstep) rfl hserved
      refine ⟨a :: cs, s', ?_, ?_, hstr⟩
      · intro b hb
        rcases List.mem_cons.mp hb with rfl | hb
        · exact ha
        · exact hcs b hb
      · rw [exec_cons, hstep]
        exact hrun
    by_cases howing : 0 < s.owing.length
    · obtain ⟨j, w, s₁, hstep, hserved, hlt⟩ := h.exists_notify hs howing
      exact hgo _ s₁ (by simp) hstep hserved hlt
    · by_cases hnotified : 0 < s.notified.length
      · obtain ⟨j, s₁, hstep, hserved, hlt⟩ := h.exists_take hs hnotified
        exact hgo _ s₁ (by simp) hstep hserved hlt
      · -- nobody is left to notify or to take
        obtain ⟨hwaiting, hmore⟩ := not_served.mp hs
        obtain ⟨i, hi⟩ := List.exists_mem_of_length_pos (Nat.zero_lt_of_lt hwaiting)
        refine ⟨[], s, by simp, rfl, ⟨i, (h.cv.mem i).mp hi⟩, (pred_iff h.created).mpr (by omega),
          fun j => ⟨fun hj => ?_, fun hj => ?_⟩⟩
        · exact howing (List.length_pos_of_mem ((h.owing.mem j).mpr hj))
        · exact hnotified (List.length_pos_of_mem ((h.notified.mem j).mpr hj))

/-- From a state where everybody is served, a step meets the condition exactly when everybody is
served after it. -/
theorem failsSafely_iff (h : s.Inv size) (hs : s.Served size) (a : Action T) :
    FailsSafely size s a ↔ ∀ s', SlowNotAbsent.step size s a = some s' → s'.Served size := by
  constructor
  · intro hok s' hstep
    exact hs.step h hok hstep
  · intro hnext
    cases a with
    | connectFailed i =>
      intro hi
      have hstep : SlowNotAbsent.step size s (.connectFailed i)
          = some ({ s with created := s.created - 1 }.enter i .idle) := by
        simp only [SlowNotAbsent.step, Pool.connectFailed, hi]
      have hserved := hnext _ hstep
      have hm := Moves.failed h i
      obtain ⟨hcv, hnotified, howing⟩ := hm.lengths h
      have havail := hm.available
      unfold Served at hserved
      simp only [hi, reduceCtorEq, if_false, Nat.add_zero] at hcv hnotified howing
      omega
    | _ => trivial

end Pool

/-- Nobody is stranded in a state of the run, nor in one that can follow such a state without
another failed connect. -/
def StrandsNobody (size : ℤ) (as : List (Action T)) : Prop :=
  ∀ bs s, bs <+: as → exec (step size) (Pool.init : Pool T) bs = some s →
    ∀ cs s', (∀ a ∈ cs, ∀ i, a ≠ .connectFailed i) → exec (step size) s cs = some s' →
      ¬ s'.Stranded size

namespace Pool

variable {size : ℤ} {s s' : Pool T}

/-- Without a failed connect everybody stays served. -/
theorem Served.exec (h : s.Inv size) (hs : s.Served size) {cs : List (Action T)}
    (hcs : ∀ a ∈ cs, ∀ i, a ≠ .connectFailed i)
    (hrun : SepLab.exec (SlowNotAbsent.step size) s cs = some s') :
    s'.Inv size ∧ s'.Served size := by
  induction cs generalizing s with
  | nil => exact Option.some_inj.mp hrun ▸ ⟨h, hs⟩
  | cons a cs ih =>
    obtain ⟨s₁, hstep, hrest⟩ := Option.bind_eq_some_iff.mp hrun
    have hok : FailsSafely size s a := by
      cases a with
      | connectFailed i => exact absurd rfl (hcs _ List.mem_cons_self i)
      | _ => trivial
    exact ih (h.step hstep) (hs.step h hok hstep)
      (fun b hb => hcs b (List.mem_cons_of_mem a hb)) hrest

end Pool

/-- **The pool strands nobody exactly in the runs whose failed connects meet the condition.** -/
theorem pool_strands_nobody_iff {size : ℤ} (hsize : 1 ≤ size) (as : List (Action T)) :
    StrandsNobody size as ↔
      ∀ bs a s, bs ++ [a] <+: as → exec (step size) (Pool.init : Pool T) bs = some s →
        FailsSafely size s a := by
  rw [← exec_forall_iff (I := Pool.Inv size) (P := Pool.Served size) (.init hsize)
    (fun _ _ _ hs hstep => hs.step hstep) (.inl (Nat.le_refl _))
    (fun s a hs hserved => Pool.failsSafely_iff hs hserved a) as]
  refine forall₄_congr fun bs s hpre hbs => ?_
  have hs : s.Inv size :=
    (Reach.of_exec bs hbs).invariant (.init hsize) fun _ _ _ hs hstep => hs.step hstep
  constructor
  · intro hnever
    by_contra hserved
    obtain ⟨cs, s', hcs, hrun, hstr⟩ := hs.exists_stranded _ rfl hserved
    exact hnever cs s' hcs hrun hstr
  · intro hserved cs s' hcs hrun
    obtain ⟨hs', hserved'⟩ := hserved.exec hs hcs hrun
    exact hs'.not_stranded hserved'

/-- Two threads take turns on one connection, and the connects of both fail. -/
def takingTurns : List (Action ℕ) :=
  [.acquire 0 (-1), .connectFailed 0, .acquire 1 100, .connectFailed 1]

theorem pool_strands_nobody_iff_turns :
    StrandsNobody 1 takingTurns ↔
      ∀ bs a s, bs ++ [a] <+: takingTurns → exec (step 1) (Pool.init : Pool ℕ) bs = some s →
        FailsSafely 1 s a :=
  pool_strands_nobody_iff (by decide) takingTurns

/-- One connection: thread 1 waits while thread 0 connects, and the connect fails. -/
theorem pool_strands_waiter :
    ¬ ∀ s : Pool ℕ, Reach (step 1) Pool.init s → ¬ s.Stranded 1 := by
  intro h
  have hreach : Reach (step 1) (Pool.init : Pool ℕ) _ :=
    .of_exec [.acquire 0 (-1), .acquire 1 (-1), .connectFailed 0] rfl
  have hinv : Pool.Inv 1 _ :=
    hreach.invariant (.init (by decide)) fun _ _ _ hs hstep => hs.step hstep
  refine h _ hreach ⟨⟨1, rfl⟩, rfl, fun j => ⟨fun hj => ?_, fun hj => ?_⟩⟩
  · cases (hinv.owing.mem j).mpr hj
  · cases (hinv.notified.mem j).mpr hj

end SlowNotAbsent
end SepLab
