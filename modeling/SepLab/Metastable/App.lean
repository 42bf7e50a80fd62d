import Mathlib.Data.Fintype.Basic
import SepLab.Lib.Transition

/-!
# The app server's queues and its condition variable

The metastable-failure topic's `App`: two queues, a class of threads for each, and
one condition variable that all of them wait on.  `enqueue` pushes under the lock
and calls `notify_one` after it, which wakes any one of the waiting threads.  A
thread holds the lock while it tests its condition, and takes an item or waits.

## Main definitions

* `App`, `App.Action`, `App.step` — the sections of `enqueue`, `worker` and `stop`.
* `App.NoStranded` — no item is left to threads that all wait.
* `App.Reaches` — a wake-up reaches the threads that it is for.

## Main results

* `App.NoStranded.step` — steps whose wake-ups arrive strand nothing.
* `no_stranded_iff` — nothing is ever stranded exactly if every wake-up arrives.
* `stranded_by_fast_worker` — how a wake-up is lost.
-/

namespace SepLab
namespace Metastable

/-- The classes of threads: `worker(true)` serves `dbq` and `worker(false)` serves `fastq`. -/
inductive Class
  | db
  | fast
deriving DecidableEq

/-- Where the thread of a worker stands. -/
inductive Thread (A : Type)
  /-- It goes to take the lock and test its condition: at its start, after an item, or
  woken inside `cv.wait`. -/
  | looping
  /-- Inside `cv.wait`, and not notified. -/
  | waiting
  | serving (a : A)
  | returned
deriving DecidableEq

/-- The server process. -/
structure App (W A : Type) where
  /-- `dbq` and `fastq`. -/
  queue : Class → List A
  stopping : Bool
  thread : W → Thread A
  /-- The calls of `enqueue` that have pushed to the queue and not yet called `notify_one`. -/
  owed : Class → ℕ

namespace App

variable {W A : Type} [DecidableEq W] [Fintype W]

/-- `start`: empty queues, and the threads of all workers. -/
def start : App W A := ⟨fun _ => [], false, fun _ => .looping, fun _ => 0⟩

/-- The sections of the functions that take the lock, and what comes between them. -/
inductive Action (W A : Type)
  /-- The locked part of `enqueue`. -/
  | enqueue (a : A)
  /-- The `notify_one` of an `enqueue` to the queue of `c`; it wakes the thread `w`, if any. -/
  | notifyOne (c : Class) (w : Option W)
  /-- The locked part of the loop of `worker`, once around. -/
  | worker (w : W)
  /-- The worker has dropped or served its item. -/
  | complete (w : W)
  /-- The locked part of `stop`. -/
  | stop
  /-- The `notify_all` of `stop`. -/
  | notifyAll

/-- `enqueue`, whose item goes by whether it has missed the cache. -/
def enqueue (classOf : A → Class) (s : App W A) (a : A) : App W A :=
  if s.stopping then s
  else
    { s with
      queue := Function.update s.queue (classOf a) (s.queue (classOf a) ++ [a])
      owed := Function.update s.owed (classOf a) (s.owed (classOf a) + 1) }

/-- `notify_one` wakes one of the threads that wait, whichever; without one it does nothing. -/
def notifyOne (s : App W A) (c : Class) (w : Option W) : Option (App W A) :=
  if s.owed c = 0 then none
  else
    match w with
    | some w =>
      match s.thread w with
      | .waiting =>
        some { s with
          thread := Function.update s.thread w .looping
          owed := Function.update s.owed c (s.owed c - 1) }
      | _ => none
    | none =>
      if ∀ w, (s.thread w matches .waiting) = false then
        some { s with owed := Function.update s.owed c (s.owed c - 1) }
      else none

/-- `worker`, from taking the lock up to waiting or to having an item. -/
def worker (cls : W → Class) (s : App W A) (w : W) : Option (App W A) :=
  match s.thread w with
  | .looping =>
    if s.stopping then some { s with thread := Function.update s.thread w .returned }
    else
      match s.queue (cls w) with
      | [] => some { s with thread := Function.update s.thread w .waiting }
      | a :: q =>
        some { s with
          queue := Function.update s.queue (cls w) q
          thread := Function.update s.thread w (.serving a) }
  | _ => none

/-- One section. -/
def step (cls : W → Class) (classOf : A → Class) (s : App W A) : Action W A → Option (App W A)
  | .enqueue a => some (s.enqueue classOf a)
  | .notifyOne c w => s.notifyOne c w
  | .worker w => s.worker cls w
  | .complete w =>
    match s.thread w with
    | .serving _ => some { s with thread := Function.update s.thread w .looping }
    | _ => none
  | .stop =>
    some { s with
      stopping := true
      queue := fun _ => [] }
  | .notifyAll =>
    if s.stopping then
      some { s with
        thread := fun w =>
          match s.thread w with
          | .waiting => .looping
          | t => t }
    else none

/-! ### Stranded items -/

/-- While the server runs, and no `enqueue` has still to notify, a queue with items in it
has a thread that does not wait. -/
def NoStranded (cls : W → Class) (s : App W A) : Prop :=
  s.stopping = false → ∀ c, s.owed c = 0 → s.queue c ≠ [] → ∃ w, cls w = c ∧ s.thread w ≠ .waiting

/-- The wake-up of an `enqueue` is not needed, because the queue is empty, another `enqueue`
to it has still to notify, or one of its threads does not wait; or it wakes one of these. -/
def Reaches (cls : W → Class) (s : App W A) : Action W A → Prop
  | .notifyOne c w => s.stopping = true ∨ s.queue c = [] ∨ 1 < s.owed c ∨
      (∃ w', cls w' = c ∧ s.thread w' ≠ .waiting) ∨ ∃ w', w = some w' ∧ cls w' = c
  | _ => True

variable {cls : W → Class} {classOf : A → Class} {s s' : App W A}

omit [DecidableEq W] [Fintype W] in
theorem NoStranded.start : NoStranded cls (start : App W A) := by
  intro _ c _ hq
  exact absurd rfl hq

/-- What `notify_one` does: it pays one of the owed wake-ups, and at most wakes a thread. -/
theorem notifyOne_some {c : Class} {w : Option W} (h : s.notifyOne c w = some s') :
    s'.queue = s.queue ∧ s'.stopping = s.stopping ∧ s.owed c ≠ 0 ∧
    s'.owed = Function.update s.owed c (s.owed c - 1) ∧
    (∀ w', s'.thread w' = .waiting ↔ s.thread w' = .waiting ∧ w ≠ some w') := by
  unfold notifyOne at h
  split at h
  · cases h
  · next howed =>
    split at h
    -- one waiter is woken
    · next w =>
      split at h
      · obtain rfl := Option.some_inj.mp h
        refine ⟨rfl, rfl, howed, rfl, ?_⟩
        intro w'
        by_cases hw : w' = w
        · subst hw
          simp
        · simp [Function.update_of_ne hw, Ne.symm hw]
      · cases h
    -- nobody waits, and the notification is spent
    · split at h
      · obtain rfl := Option.some_inj.mp h
        exact ⟨rfl, rfl, howed, rfl, fun w' => by simp⟩
      · cases h

omit [Fintype W] in
/-- A thread starts to wait only where its queue is empty. -/
theorem worker_some {w : W} (h : s.worker cls w = some s') :
    s'.owed = s.owed ∧ s'.stopping = s.stopping ∧ (∀ c, c ≠ cls w → s'.queue c = s.queue c) ∧
    (∀ w', w' ≠ w → s'.thread w' = s.thread w') ∧
    (s'.thread w = .waiting → s'.queue (cls w) = []) := by
  unfold worker at h
  split at h
  · split at h
    · obtain rfl := Option.some_inj.mp h
      refine ⟨rfl, rfl, fun _ _ => rfl, fun w' hw => Function.update_of_ne hw _ _, ?_⟩
      -- a worker waits only where it finds its queue empty
      simp
    · split at h
      · next hq =>
        obtain rfl := Option.some_inj.mp h
        exact ⟨rfl, rfl, fun _ _ => rfl, fun w' hw => Function.update_of_ne hw _ _, fun _ => hq⟩
      · obtain rfl := Option.some_inj.mp h
        refine ⟨rfl, rfl, fun c hc => Function.update_of_ne hc _ _,
          fun w' hw => Function.update_of_ne hw _ _, ?_⟩
        simp
  · cases h

/-- **Steps whose wake-ups arrive strand nothing.** -/
theorem NoStranded.step (h : NoStranded cls s) {a : Action W A} (ha : Reaches cls s a)
    (hs : step cls classOf s a = some s') : NoStranded cls s' := by
  intro hrun c howed hq
  cases a with
  | enqueue a =>
    obtain rfl := Option.some_inj.mp hs
    unfold enqueue at hrun howed hq ⊢
    split at hrun
    · next hstop => simp [hstop] at hrun
    · next hstop =>
      rw [if_neg hstop] at howed hq ⊢
      -- the queue of the item is still owed a wake-up, the other one is as it was
      by_cases hc : c = classOf a
      · subst hc
        simp at howed
      · replace howed : Function.update s.owed (classOf a) _ c = 0 := howed
        replace hq : Function.update s.queue (classOf a) _ c ≠ [] := hq
        rw [Function.update_of_ne hc] at howed hq
        exact h hrun c howed hq
  | notifyOne c' w =>
    obtain ⟨hqueue, hstop, hpos, howed', hthread⟩ := notifyOne_some hs
    rw [hqueue] at hq
    rw [hstop] at hrun
    rw [howed'] at howed
    -- a thread that does not wait goes on not waiting
    have hkept : (∃ w', cls w' = c ∧ s.thread w' ≠ .waiting) →
        ∃ w', cls w' = c ∧ s'.thread w' ≠ .waiting := by
      rintro ⟨w', hw', hne⟩
      exact ⟨w', hw', fun hw => hne ((hthread w').mp hw).1⟩
    by_cases hc : c = c'
    · subst hc
      rw [Function.update_self] at howed
      rcases ha with hstopped | hempty | hmore | hawake | ⟨w', rfl, hw'⟩
      · rw [hrun] at hstopped
        cases hstopped
      · exact absurd hempty hq
      · omega
      · exact hkept hawake
      · exact ⟨w', hw', fun hw => ((hthread w').mp hw).2 rfl⟩
    · rw [Function.update_of_ne hc] at howed
      exact hkept (h hrun c howed hq)
  | worker w =>
    obtain ⟨howed', hstop, hqueue, hthread, hwait⟩ := worker_some hs
    rw [howed'] at howed
    rw [hstop] at hrun
    by_cases hc : c = cls w
    · subst hc
      exact ⟨w, rfl, fun hw => hq (hwait hw)⟩
    · rw [hqueue c hc] at hq
      obtain ⟨w', hw', hne⟩ := h hrun c howed hq
      refine ⟨w', hw', ?_⟩
      rwa [hthread w' fun hww => hc (hww ▸ hw').symm]
  | complete w =>
    simp only [App.step] at hs
    split at hs
    · obtain rfl := Option.some_inj.mp hs
      obtain ⟨w', hw', hne⟩ := h hrun c howed hq
      refine ⟨w', hw', ?_⟩
      by_cases hww : w' = w
      · subst hww
        simp
      · simpa [Function.update_of_ne hww] using hne
    · cases hs
  | stop =>
    obtain rfl := Option.some_inj.mp hs
    cases hrun
  | notifyAll =>
    simp only [App.step] at hs
    split at hs
    · next hstop =>
      obtain rfl := Option.some_inj.mp hs
      rw [hstop] at hrun
      cases hrun
    · cases hs

/-- A wake-up that does not arrive strands the queue that it is for. -/
theorem reaches_of_noStranded {a : Action W A} (hs : step cls classOf s a = some s')
    (h : NoStranded cls s') : Reaches cls s a := by
  cases a with
  | notifyOne c w =>
    obtain ⟨hqueue, hstop, hpos, howed, hthread⟩ := notifyOne_some hs
    by_contra hno
    -- this was the last wake-up owed, and all threads of the queue wait on
    simp only [Reaches, not_or, not_exists, not_and] at hno
    obtain ⟨hrun, hq, hmore, hawake, hother⟩ := hno
    have hzero : s'.owed c = 0 := by
      rw [howed, Function.update_self]
      omega
    obtain ⟨w', hw', hne⟩ := h (hstop.trans (by simpa using hrun)) c hzero (hqueue ▸ hq)
    apply hne
    refine (hthread w').mpr ⟨?_, fun hw => hother w' hw hw'⟩
    by_contra hwait
    exact hawake w' hw' hwait
  | _ => trivial

end App

open App

variable {W A : Type} [DecidableEq W] [Fintype W]

/-- **Nothing is stranded, exactly.**  In every state that a run passes through the queues
with items have a thread that does not wait, if and only if every wake-up of the run
reaches the threads that it is for. -/
theorem no_stranded_iff (cls : W → Class) (classOf : A → Class) (as : List (App.Action W A)) :
    (∀ bs s, bs <+: as → exec (App.step cls classOf) App.start bs = some s →
      s.NoStranded cls) ↔
    ∀ bs a s s', bs ++ [a] <+: as → exec (App.step cls classOf) App.start bs = some s →
      s.step cls classOf a = some s' → s.Reaches cls a := by
  have hstep : ∀ (s : App W A) a, True → s.NoStranded cls →
      ((∀ s', s.step cls classOf a = some s' → s.Reaches cls a) ↔
        -- the step before which `Reaches` fails is the one that strands a request
        ∀ s', s.step cls classOf a = some s' → s'.NoStranded cls) := by
    intro s a _ hns
    constructor
    · intro hok s' hs'
      exact hns.step (hok s' hs') hs'
    · intro hnext s' hs'
      exact reaches_of_noStranded hs' (hnext s' hs')
  rw [exec_forall_iff (I := fun _ => True) trivial (fun _ _ _ _ _ => trivial) .start hstep]
  constructor
  · intro h bs a s s' hpre hs
    exact h bs a s hpre hs s'
  · intro h bs a s hpre hs s'
    exact h bs a s s' hpre hs

/-- One database worker (`true`) and one fast worker (`false`). -/
def oneEach (w : Bool) : Class := if w then .db else .fast

/-- Both workers wait when a request misses the cache.  The wake-up of its `enqueue` goes to
the fast worker, which finds its own queue empty and waits again: the item is left in `dbq`
with nobody to take it, and no `enqueue` has still to notify. -/
theorem stranded_by_fast_worker : ¬ ∀ s : App Bool ℕ,
    Reach (App.step oneEach fun _ => .db) App.start s → s.stopping = false →
      (∀ c, s.owed c = 0) → ∀ c, s.queue c ≠ [] → ∃ w, oneEach w = c ∧ s.thread w ≠ .waiting := by
  intro h
  -- the notification reaches a worker of the other class, which finds nothing and waits again
  have hrun : ((exec (App.step oneEach fun _ => .db) (App.start : App Bool ℕ)
      [.worker true, .worker false, .enqueue 1, .notifyOne .db (some false),
        .worker false]).map fun s =>
      (s.stopping, [s.owed .db, s.owed .fast], s.queue .db, [s.thread true, s.thread false])) =
      some (false, [0, 0], [1], [.waiting, .waiting]) := by decide
  obtain ⟨s, hs, hobs⟩ := Option.map_eq_some_iff.mp hrun
  simp only [Prod.mk.injEq, List.cons.injEq, and_true] at hobs
  obtain ⟨hstop, ⟨hdb, hfast⟩, hq, hwait, -⟩ := hobs
  have howed : ∀ c, s.owed c = 0 := by
    intro c
    cases c with
    | db => exact hdb
    | fast => exact hfast
  obtain ⟨w, hw, hne⟩ := h s (.of_exec _ hs) hstop howed .db (by simp [hq])
  cases w with
  | true => exact hne hwait
  | false => cases hw

end Metastable
end SepLab
