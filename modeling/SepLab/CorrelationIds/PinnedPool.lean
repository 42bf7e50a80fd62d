import Mathlib.Logic.Function.Basic
import SepLab.Lib.Transition

/-!
# The pool that pins tasks to threads

`PinnedPool` of `lose_the_context.cpp`: each worker has a queue of its own, with a mutex and
a condition variable.  `submit` pushes under the mutex of the worker and then notifies it.
`shutdown` sets an atomic flag without any mutex, notifies the workers one after the other,
and joins them.  There are no spurious wake-ups, and what is submitted is submitted before
the flag is set.

## Main definitions

* `Worker.step` — the steps of `run`, up to and from a wait.
* `Pool`, `Action`, `step` — the workers, `submit` and `shutdown`.
* `Pool.Abandoned` — a worker sleeps that `shutdown` is past.
* `NotifiesDecided` — no worker is notified between its test and its sleep.

## Main results

* `Worker.Ok.step`, `Worker.Awake.step` — what the steps of a worker keep.
* `Pool.Inv.ran_eq` — when `shutdown` has returned, all tasks have run in order.
* `pool_shuts_down_iff` — a run abandons nobody, whatever follows it that meets the
  condition, exactly when its steps meet it.
-/

namespace SepLab
namespace CorrelationIds

/-! ### A worker -/

/-- Where a worker stands in `run`. -/
inductive Phase (T : Type)
  /-- About to take its mutex, for the first time or after a task. -/
  | ready
  /-- It has the mutex, and is about to test the predicate of its wait. -/
  | testing
  /-- It has the mutex and has found the predicate false. -/
  | undecided
  /-- In `wait`, without the mutex, and not notified. -/
  | sleeping
  /-- Notified, and yet to take the mutex. -/
  | notified
  /-- It has the mutex, and its wait is over. -/
  | passed
  | running (task : T)
  | returned

/-- The mutex is taken. -/
def Phase.locks {T : Type} : Phase T → Bool
  | .testing => true
  | .undecided => true
  | .passed => true
  | _ => false

/-- The task that is running. -/
def Phase.task {T : Type} : Phase T → List T
  | .running t => [t]
  | _ => []

/-- A worker with its queue, and all tasks that were submitted to it and that have run. -/
structure Worker (T : Type) where
  phase : Phase T
  queue : List T
  submitted : List T
  ran : List T

/-- The sections of a worker's loop. -/
inductive WorkerAction
  | lock
  | test
  | sleep
  | take
  | run

namespace Worker

variable {T : Type}

/-- A worker before its first turn. -/
def new : Worker T := ⟨.ready, [], [], []⟩

/-- The next step of `run`, with the value of `stopping_`. -/
def step (stopping : Bool) (w : Worker T) (a : WorkerAction) : Option (Worker T) :=
  match a, w.phase with
  | .lock, .ready => some { w with phase := .testing }
  | .lock, .notified => some { w with phase := .testing }
  | .test, .testing =>
    some { w with phase := if stopping || !w.queue.isEmpty then .passed else .undecided }
  | .sleep, .undecided => some { w with phase := .sleeping }
  | .take, .passed =>
    match w.queue with
    | [] => some { w with phase := if stopping then .returned else .ready }
    | t :: queue => some { w with phase := .running t, queue := queue }
  | .run, .running t => some { w with phase := .ready, ran := w.ran ++ [t] }
  | _, _ => none

/-- What `submit` does under the mutex. -/
def push (w : Worker T) (t : T) : Worker T :=
  { w with queue := w.queue ++ [t], submitted := w.submitted ++ [t] }

/-- `notify_one` and `notify_all`, for the only thread that waits. -/
def notify (w : Worker T) : Worker T :=
  match w.phase with
  | .sleeping => { w with phase := .notified }
  | _ => w

end Worker

/-! ### The pool -/

/-- How far `shutdown` has come; `notifying i` and `joining i` say who is next. -/
inductive Shutdown
  | idle
  | notifying (i : ℕ)
  | joining (i : ℕ)
  | returned
deriving DecidableEq

/-- The pool; `owing` lists the workers to which tasks have been submitted that are yet to
be notified of. -/
structure Pool (n : ℕ) (T : Type) where
  stopping : Bool
  worker : Fin n → Worker T
  owing : List (Fin n)
  shutdown : Shutdown

/-- What the workers and the callers of the pool do. -/
inductive Action (n : ℕ) (T : Type)
  | worker (i : Fin n) (a : WorkerAction)
  /-- `submit`, up to the end of its locked part. -/
  | push (i : Fin n) (t : T)
  /-- The `notify_one` of a `submit`. -/
  | notifyOne (i : Fin n)
  /-- The next step of `shutdown`. -/
  | shutdown

variable {n : ℕ} {T : Type}

namespace Pool

/-- A pool that has just been made. -/
def init : Pool n T := ⟨false, fun _ => .new, [], .idle⟩

/-- The worker `i` goes on to `w`. -/
def set (s : Pool n T) (i : Fin n) (w : Worker T) : Pool n T :=
  { s with worker := Function.update s.worker i w }

/-- The `exchange`, a `notify_all` or a `join`. -/
def stop (s : Pool n T) : Option (Pool n T) :=
  match s.shutdown with
  | .idle => some { s with stopping := true, shutdown := .notifying 0 }
  | .notifying i =>
    if h : i < n then
      some { s.set ⟨i, h⟩ (s.worker ⟨i, h⟩).notify with shutdown := .notifying (i + 1) }
    else some { s with shutdown := .joining 0 }
  | .joining i =>
    if h : i < n then
      match (s.worker ⟨i, h⟩).phase with
      | .returned => some { s with shutdown := .joining (i + 1) }
      | _ => none
    else some { s with shutdown := .returned }
  | .returned => none

end Pool

/-- One step of a worker, of `submit` or of `shutdown`. -/
def step (s : Pool n T) : Action n T → Option (Pool n T)
  | .worker i a => ((s.worker i).step s.stopping a).map (s.set i)
  | .push i t =>
    if s.stopping || (s.worker i).phase.locks then none
    else some { s.set i ((s.worker i).push t) with owing := s.owing ++ [i] }
  | .notifyOne i =>
    if i ∈ s.owing then some { s.set i (s.worker i).notify with owing := s.owing.erase i }
    else none
  | .shutdown => s.stop

/-- The notify loop of `shutdown` is past the worker `i`. -/
def Shutdown.past (i : ℕ) : Shutdown → Prop
  | .idle => False
  | .notifying j => i < j
  | .joining _ => True
  | .returned => True

/-- The notify loop of `shutdown` is over, and a worker sleeps un-notified. -/
def Pool.Abandoned (s : Pool n T) : Prop :=
  (∀ i, s.shutdown.past i) ∧ ∃ i, (s.worker i).phase = .sleeping

/-- `shutdown` notifies no worker that has found the predicate of its wait false, and is not
asleep yet. -/
def NotifiesDecided (s : Pool n T) : Action n T → Prop
  | .shutdown => ∀ i : Fin n, s.shutdown = .notifying i → (s.worker i).phase ≠ .undecided
  | _ => True

/-! ### What a worker keeps -/

namespace Worker

/-- No task is lost, and none is left by a worker that has returned. -/
structure Ok (stopping : Bool) (w : Worker T) : Prop where
  tasks : w.submitted = w.ran ++ w.phase.task ++ w.queue
  returned : w.phase = .returned → stopping = true ∧ w.queue = []

/-- The worker is not asleep, nor about to go to sleep. -/
def Awake (w : Worker T) : Prop := w.phase ≠ .undecided ∧ w.phase ≠ .sleeping

variable {stopping : Bool} {w w' : Worker T} {a : WorkerAction}

theorem Ok.new : (new : Worker T).Ok stopping where
  tasks := rfl
  returned h := by cases h

/-- **A worker runs the tasks of its queue in order**, and returns only when none is left. -/
theorem Ok.step (h : w.Ok stopping) (hs : w.step stopping a = some w') : w'.Ok stopping := by
  have htasks := h.tasks
  unfold Worker.step at hs
  split at hs
  · next hphase =>
    obtain rfl := Option.some_inj.mp hs
    rw [hphase] at htasks
    exact ⟨htasks, fun hret => by cases hret⟩
  · next hphase =>
    obtain rfl := Option.some_inj.mp hs
    rw [hphase] at htasks
    exact ⟨htasks, fun hret => by cases hret⟩
  · next hphase =>
    obtain rfl := Option.some_inj.mp hs
    rw [hphase] at htasks
    split
    · exact ⟨htasks, fun hret => by cases hret⟩
    · exact ⟨htasks, fun hret => by cases hret⟩
  · next hphase =>
    obtain rfl := Option.some_inj.mp hs
    rw [hphase] at htasks
    exact ⟨htasks, fun hret => by cases hret⟩
  · next hphase =>
    rw [hphase] at htasks
    split at hs
    · next hqueue =>
      obtain rfl := Option.some_inj.mp hs
      split
      -- a worker returns only with its queue empty, once it is told to stop
      · next hstopping => exact ⟨htasks, fun _ => ⟨hstopping, hqueue⟩⟩
      · exact ⟨htasks, fun hret => by cases hret⟩
    · next t queue hqueue =>
      obtain rfl := Option.some_inj.mp hs
      -- the task goes from the queue to the worker
      refine ⟨?_, fun hret => by cases hret⟩
      rw [htasks, hqueue]
      simp [Phase.task]
  · next t hphase =>
    obtain rfl := Option.some_inj.mp hs
    -- and from the worker to what it has run
    refine ⟨?_, fun hret => by cases hret⟩
    rw [htasks, hphase]
    simp [Phase.task]
  · cases hs

theorem Ok.push (h : w.Ok stopping) (hopen : stopping = false) (t : T) :
    (w.push t).Ok stopping where
  tasks := by
    show w.submitted ++ [t] = w.ran ++ w.phase.task ++ (w.queue ++ [t])
    rw [h.tasks, List.append_assoc]
  returned hret := by
    have hstopping := (h.returned hret).1
    rw [hopen] at hstopping
    cases hstopping

theorem Ok.notify (h : w.Ok stopping) : w.notify.Ok stopping := by
  unfold Worker.notify
  split
  · next hphase =>
    have htasks := h.tasks
    rw [hphase] at htasks
    exact ⟨htasks, fun hret => by cases hret⟩
  · exact h

theorem Ok.stop (h : w.Ok stopping) : w.Ok true := ⟨h.tasks, fun hret => ⟨rfl, (h.returned hret).2⟩⟩

/-- **Nobody goes to sleep once the flag is set**, short of those who have tested it before. -/
theorem Awake.step (h : w.Awake) (hs : w.step true a = some w') : w'.Awake := by
  unfold Worker.step at hs
  split at hs
  · obtain rfl := Option.some_inj.mp hs
    exact ⟨by simp, by simp⟩
  · obtain rfl := Option.some_inj.mp hs
    exact ⟨by simp, by simp⟩
  · obtain rfl := Option.some_inj.mp hs
    exact ⟨by simp, by simp⟩
  · next hphase => exact absurd hphase h.1
  · split at hs
    · obtain rfl := Option.some_inj.mp hs
      exact ⟨by simp, by simp⟩
    · obtain rfl := Option.some_inj.mp hs
      exact ⟨by simp, by simp⟩
  · obtain rfl := Option.some_inj.mp hs
    exact ⟨by simp, by simp⟩
  · cases hs

/-- A notification wakes whoever sleeps. -/
theorem Awake.notify (h : w.phase ≠ .undecided) : w.notify.Awake := by
  unfold Worker.notify
  split
  · exact ⟨by simp, by simp⟩
  · next hphase => exact ⟨h, hphase⟩

theorem Awake.notify_self (h : w.Awake) : w.notify.Awake := .notify h.1

/-- A worker that has returned does nothing. -/
theorem step_returned (h : w.phase = .returned) : w.step stopping a = none := by
  unfold Worker.step
  cases a <;> simp [h]

@[simp] theorem notify_returned (h : w.phase = .returned) : w.notify.phase = .returned := by
  unfold Worker.notify
  simp [h]

end Worker

/-! ### What the pool keeps -/

/-- `shutdown` has joined the worker `i`. -/
def Shutdown.joined (i : ℕ) : Shutdown → Prop
  | .joining j => i < j
  | .returned => True
  | _ => False

namespace Pool

/-- Every worker is in order, the flag is set by `shutdown`, and who is joined has returned. -/
structure Inv (s : Pool n T) : Prop where
  ok : ∀ i, (s.worker i).Ok s.stopping
  stopping : s.stopping = false ↔ s.shutdown = .idle
  joined : ∀ i : Fin n, s.shutdown.joined i → (s.worker i).phase = .returned

/-- The workers that the notify loop is past are awake. -/
def Settled (s : Pool n T) : Prop := ∀ i : Fin n, s.shutdown.past i → (s.worker i).Awake

variable {s s' : Pool n T}

theorem Inv.init : (init : Pool n T).Inv where
  ok _ := .new
  stopping := iff_of_true rfl rfl
  joined _ h := h.elim

/-- One worker goes on, which has not been joined or is still where it was. -/
theorem Inv.set (h : s.Inv) {i : Fin n} {w : Worker T} (hok : w.Ok s.stopping)
    (hjoined : (s.worker i).phase = .returned → w.phase = .returned) : (s.set i w).Inv where
  ok := (Function.forall_update_iff _ fun _ (w : Worker T) => w.Ok s.stopping).mpr
    ⟨hok, fun j _ => h.ok j⟩
  stopping := h.stopping
  joined := by
    refine (Function.forall_update_iff _
      fun (j : Fin n) (w : Worker T) => s.shutdown.joined j → w.phase = .returned).mpr
      ⟨?_, fun j _ => h.joined j⟩
    exact fun hi => hjoined (h.joined i hi)

/-- `shutdown` goes on. -/
theorem Inv.stop (h : s.Inv) (hs : s.stop = some s') : s'.Inv := by
  unfold Pool.stop at hs
  split at hs
  · obtain rfl := Option.some_inj.mp hs
    -- `stopping` is set; nobody has been joined yet
    refine ⟨fun i => (h.ok i).stop, iff_of_false (by simp) (by simp), ?_⟩
    exact fun _ hj => hj.elim
  · next i hshutdown =>
    have hstopping : s.stopping ≠ false := by simp [h.stopping, hshutdown]
    split at hs
    -- the next worker is notified
    · next hi =>
      obtain rfl := Option.some_inj.mp hs
      have hset : (s.set ⟨i, hi⟩ (s.worker ⟨i, hi⟩).notify).Inv :=
        h.set (h.ok _).notify Worker.notify_returned
      exact ⟨hset.ok, iff_of_false hstopping (by simp), fun _ hj => hj.elim⟩
    -- all are notified, and the joins begin
    · obtain rfl := Option.some_inj.mp hs
      exact ⟨h.ok, iff_of_false hstopping (by simp), fun _ hj => absurd hj (Nat.not_lt_zero _)⟩
  · next i hshutdown =>
    have hstopping : s.stopping ≠ false := by simp [h.stopping, hshutdown]
    -- the workers that have been joined have returned
    have hbefore : ∀ j : Fin n, (j : ℕ) < i → (s.worker j).phase = .returned := by
      intro j hj
      apply h.joined j
      rw [hshutdown]
      exact hj
    split at hs
    · next hi =>
      split at hs
      · next hphase =>
        obtain rfl := Option.some_inj.mp hs
        refine ⟨h.ok, iff_of_false hstopping (by simp), fun j hj => ?_⟩
        rcases Nat.lt_succ_iff_lt_or_eq.mp hj with hlt | heq
        · exact hbefore j hlt
        -- the worker that is joined now has returned as well
        · obtain rfl : j = ⟨i, hi⟩ := Fin.ext heq
          exact hphase
      · cases hs
    · next hi =>
      obtain rfl := Option.some_inj.mp hs
      exact ⟨h.ok, iff_of_false hstopping (by simp),
        fun j _ => hbefore j (Nat.lt_of_lt_of_le j.isLt (Nat.le_of_not_lt hi))⟩
  · cases hs

/-- **Every step keeps the workers in order.** -/
theorem Inv.step (s : Pool n T) (a : Action n T) (s' : Pool n T) (h : s.Inv)
    (hs : CorrelationIds.step s a = some s') : s'.Inv := by
  cases a with
  | worker i a =>
    obtain ⟨w, hw, rfl⟩ := Option.map_eq_some_iff.mp hs
    -- a worker that has returned takes no step, so those that are joined stay so
    refine h.set ((h.ok i).step hw) fun hret => ?_
    rw [Worker.step_returned hret] at hw
    cases hw
  | push i t =>
    simp only [CorrelationIds.step] at hs
    split at hs
    · cases hs
    · next hopen =>
      obtain rfl := Option.some_inj.mp hs
      -- `push` refuses once the pool is stopping
      have hstopping : s.stopping = false := by
        simp only [Bool.or_eq_true, not_or, Bool.not_eq_true] at hopen
        exact hopen.1
      have hset : (s.set i ((s.worker i).push t)).Inv :=
        h.set ((h.ok i).push hstopping t) fun hret => hret
      exact ⟨hset.ok, hset.stopping, hset.joined⟩
  | notifyOne i =>
    simp only [CorrelationIds.step] at hs
    split at hs
    · obtain rfl := Option.some_inj.mp hs
      have hset : (s.set i (s.worker i).notify).Inv :=
        h.set (h.ok i).notify Worker.notify_returned
      exact ⟨hset.ok, hset.stopping, hset.joined⟩
    · cases hs
  | shutdown => exact h.stop hs

/-- **When `shutdown` has returned every task has run**, in the order of submission. -/
theorem Inv.ran_eq (h : s.Inv) (hret : s.shutdown = .returned) (i : Fin n) :
    (s.worker i).ran = (s.worker i).submitted := by
  have hphase : (s.worker i).phase = .returned := by
    apply h.joined i
    rw [hret]
    trivial
  have htasks := (h.ok i).tasks
  rw [hphase, ((h.ok i).returned hphase).2] at htasks
  simpa [Phase.task] using htasks.symm

/-! ### Who is left asleep -/

/-- A run may go on, without another notification that comes too early, until the notify loop is
over and a worker sleeps un-notified. -/
def MayAbandon (s : Pool n T) : Prop :=
  ∃ cs s', AllSteps NotifiesDecided step s cs ∧ exec step s cs = some s' ∧ s'.Abandoned

theorem Inv.stopping_of_past (h : s.Inv) {i : ℕ} (hi : s.shutdown.past i) : s.stopping = true := by
  rw [← Bool.not_eq_false, h.stopping]
  intro hidle
  rw [hidle] at hi
  exact hi

theorem Settled.set (h : s.Settled) {i : Fin n} {w : Worker T}
    (hw : s.shutdown.past i → w.Awake) : (s.set i w).Settled :=
  (Function.forall_update_iff _ fun (j : Fin n) (w : Worker T) =>
    s.shutdown.past j → w.Awake).mpr ⟨hw, fun j _ => h j⟩

/-- The notify loop goes on to a worker that is not about to go to sleep. -/
theorem Settled.stop (h : s.Settled) (ha : NotifiesDecided s .shutdown)
    (hs : s.stop = some s') : s'.Settled := by
  unfold Pool.stop at hs
  split at hs
  · obtain rfl := Option.some_inj.mp hs
    exact fun i hi => absurd hi (Nat.not_lt_zero _)
  · next i hshutdown =>
    -- shutdown has gone past the workers below `i`, and they are awake
    have hpast : ∀ j : Fin n, (j : ℕ) < i → (s.worker j).Awake := by
      intro j hj
      apply h j
      rw [hshutdown]
      exact hj
    split at hs
    · next hi =>
      obtain rfl := Option.some_inj.mp hs
      intro j hj
      show (Function.update s.worker ⟨i, hi⟩ (s.worker ⟨i, hi⟩).notify j).Awake
      by_cases hji : j = ⟨i, hi⟩
      · rw [hji, Function.update_self]
        -- the worker that is notified here has decided, by the condition, and so it hears it
        exact .notify (ha ⟨i, hi⟩ hshutdown)
      · rw [Function.update_of_ne hji]
        exact hpast j (Nat.lt_of_le_of_ne (Nat.lt_succ_iff.mp hj) fun heq => hji (Fin.ext heq))
    · next hi =>
      obtain rfl := Option.some_inj.mp hs
      exact fun j _ => hpast j (Nat.lt_of_lt_of_le j.isLt (Nat.le_of_not_lt hi))
  · next i hshutdown =>
    -- during the joins shutdown has gone past every worker
    have hall : ∀ j, (s.worker j).Awake := by
      intro j
      apply h j
      rw [hshutdown]
      trivial
    split at hs
    · split at hs
      · obtain rfl := Option.some_inj.mp hs
        exact fun j _ => hall j
      · cases hs
    · obtain rfl := Option.some_inj.mp hs
      exact fun j _ => hall j
  · cases hs

/-- **Nobody that the notify loop is past goes to sleep**, if each notification comes in time. -/
theorem Settled.step (h : s.Settled) (hinv : s.Inv) {a : Action n T} (ha : NotifiesDecided s a)
    (hs : CorrelationIds.step s a = some s') : s'.Settled := by
  cases a with
  | worker i a =>
    obtain ⟨w, hw, rfl⟩ := Option.map_eq_some_iff.mp hs
    refine h.set fun hi => ?_
    -- a worker that shutdown has gone past sees `stopping`, so it does not fall asleep again
    rw [hinv.stopping_of_past hi] at hw
    exact (h i hi).step hw
  | push i t =>
    simp only [CorrelationIds.step] at hs
    split at hs
    · cases hs
    · next hopen =>
      obtain rfl := Option.some_inj.mp hs
      intro j hj
      -- nothing is pushed once shutdown has begun
      rw [hinv.stopping_of_past hj] at hopen
      exact absurd rfl hopen
  | notifyOne i =>
    simp only [CorrelationIds.step] at hs
    split at hs
    · obtain rfl := Option.some_inj.mp hs
      have hset : (s.set i (s.worker i).notify).Settled := h.set fun hi => (h i hi).notify_self
      exact hset
    · cases hs
  | shutdown => exact h.stop ha hs

/-- From a state in which who is past is awake, a step meets the condition exactly when this is
so after it. -/
theorem notifiesDecided_iff (hinv : s.Inv) (h : s.Settled) (a : Action n T) :
    NotifiesDecided s a ↔ ∀ s', CorrelationIds.step s a = some s' → s'.Settled := by
  constructor
  · intro ha s' hs
    exact h.step hinv ha hs
  · intro hnext
    cases a with
    | shutdown =>
      intro i hshutdown hphase
      have hstep : CorrelationIds.step s .shutdown = some { s.set i (s.worker i).notify with
          shutdown := .notifying (i + 1) } := by
        simp only [CorrelationIds.step, Pool.stop, hshutdown]
        exact dif_pos i.isLt
      -- the notification finds nobody asleep, and the worker goes to sleep after it
      have hawake : (Function.update s.worker i (s.worker i).notify i).Awake :=
        hnext _ hstep i (Nat.lt_succ_self _)
      rw [Function.update_self, Worker.notify, hphase] at hawake
      exact hawake.1 hphase
    | _ => trivial

theorem MayAbandon.cons {a : Action n T} (ha : NotifiesDecided s a)
    (hs : CorrelationIds.step s a = some s') (h : s'.MayAbandon) : s.MayAbandon := by
  obtain ⟨cs, t, hcs, hrun, ht⟩ := h
  refine ⟨a :: cs, t, ⟨ha, fun s₁ h₁ => ?_⟩, ?_, ht⟩
  · obtain rfl := Option.some_inj.mp (hs.symm.trans h₁)
    exact hcs
  · rw [exec_cons, hs]
    exact hrun

/-- A worker that is undecided goes to sleep. -/
theorem MayAbandon.sleep {i : Fin n} (hphase : (s.worker i).phase = .undecided)
    (h : (s.set i { s.worker i with phase := .sleeping }).MayAbandon) : s.MayAbandon := by
  refine h.cons (a := .worker i .sleep) trivial ?_
  show ((s.worker i).step s.stopping .sleep).map (s.set i) = _
  simp [Worker.step, hphase]

/-- `shutdown` notifies the next worker, in time. -/
theorem MayAbandon.notify {i : Fin n} (hshutdown : s.shutdown = .notifying i)
    (hphase : (s.worker i).phase ≠ .undecided)
    (h : MayAbandon { s.set i (s.worker i).notify with shutdown := .notifying (i + 1) }) :
    s.MayAbandon := by
  refine h.cons (a := .shutdown) ?_ ?_
  · intro j hj
    rw [hshutdown, Shutdown.notifying.injEq] at hj
    rw [← Fin.ext hj]
    exact hphase
  · simp only [CorrelationIds.step, Pool.stop, hshutdown]
    exact dif_pos i.isLt

/-- **Whoever sleeps behind the notify loop is left asleep**, when the loop goes on to its end. -/
theorem mayAbandon_of_sleeping (left : ℕ) {i : Fin n} {j : ℕ} (hleft : n - j = left)
    (hshutdown : s.shutdown = .notifying j) (hij : (i : ℕ) < j)
    (hi : (s.worker i).phase = .sleeping) : s.MayAbandon := by
  induction left generalizing s j with
  | zero =>
    have hj : ¬ j < n := by omega
    have hstep : CorrelationIds.step s .shutdown = some { s with shutdown := .joining 0 } := by
      simp only [CorrelationIds.step, Pool.stop, hshutdown]
      exact dif_neg hj
    have hok : NotifiesDecided s .shutdown := by
      intro k hk
      rw [hshutdown, Shutdown.notifying.injEq] at hk
      exact absurd (hk ▸ k.isLt) hj
    exact MayAbandon.cons hok hstep ⟨[], _, trivial, rfl, fun _ => trivial, i, hi⟩
  | succ left ih =>
    have hj : j < n := by omega
    have hne : i ≠ ⟨j, hj⟩ := fun heq => absurd (congrArg Fin.val heq) (Nat.ne_of_lt hij)
    -- if the next worker is undecided, it goes to sleep before it is notified
    have hnext : ∀ s : Pool n T, s.shutdown = .notifying j → (s.worker i).phase = .sleeping →
        (s.worker ⟨j, hj⟩).phase ≠ .undecided → s.MayAbandon := by
      intro s hshutdown hi hdecided
      refine MayAbandon.notify (i := ⟨j, hj⟩) hshutdown hdecided
        (ih (j := j + 1) (by omega) rfl (by omega) ?_)
      show (Function.update s.worker _ _ i).phase = .sleeping
      rw [Function.update_of_ne hne]
      exact hi
    by_cases hundecided : (s.worker ⟨j, hj⟩).phase = .undecided
    · refine MayAbandon.sleep hundecided (hnext _ hshutdown ?_ ?_)
      · show (Function.update s.worker _ _ i).phase = .sleeping
        rw [Function.update_of_ne hne]
        exact hi
      · show (Function.update s.worker _ _ _).phase ≠ .undecided
        rw [Function.update_self]
        simp
    · exact hnext s hshutdown hi hundecided

/-- A worker that the notify loop is past, asleep or about to go to sleep, may be left asleep. -/
theorem mayAbandon_of_past {i : Fin n} (hpast : s.shutdown.past i)
    (hi : ¬ (s.worker i).Awake) : s.MayAbandon := by
  -- a worker asleep behind shutdown is woken by nobody
  have hasleep : ∀ s : Pool n T, s.shutdown.past i → (s.worker i).phase = .sleeping →
      s.MayAbandon := by
    intro s hpast hi
    cases hshutdown : s.shutdown with
    | idle =>
      rw [hshutdown] at hpast
      exact hpast.elim
    | notifying j =>
      rw [hshutdown] at hpast
      exact mayAbandon_of_sleeping _ rfl hshutdown hpast hi
    | joining j => exact ⟨[], s, trivial, rfl, fun _ => by rw [hshutdown]; trivial, i, hi⟩
    | returned => exact ⟨[], s, trivial, rfl, fun _ => by rw [hshutdown]; trivial, i, hi⟩
  -- one that has not decided may still fall asleep
  by_cases hundecided : (s.worker i).phase = .undecided
  · refine MayAbandon.sleep hundecided (hasleep _ hpast ?_)
    show (Function.update s.worker i _ i).phase = .sleeping
    rw [Function.update_self]
  · refine hasleep s hpast ?_
    by_contra hsleeping
    exact hi ⟨hundecided, hsleeping⟩

theorem Settled.exec {cs : List (Action n T)} (h : s.Settled) (hinv : s.Inv)
    (hcs : AllSteps NotifiesDecided CorrelationIds.step s cs)
    (hrun : SepLab.exec CorrelationIds.step s cs = some s') : s'.Settled := by
  induction cs generalizing s with
  | nil => exact Option.some_inj.mp hrun ▸ h
  | cons a cs ih =>
    obtain ⟨s₁, hstep, hrest⟩ := Option.bind_eq_some_iff.mp hrun
    exact ih (h.step hinv hcs.1 hstep) (hinv.step s a s₁ hstep) (hcs.2 s₁ hstep) hrest

/-- The states from which a worker may be left asleep are those that are not settled. -/
theorem mayAbandon_iff (hinv : s.Inv) : s.MayAbandon ↔ ¬ s.Settled := by
  constructor
  · rintro ⟨cs, s', hcs, hrun, hover, i, hi⟩ h
    exact (h.exec hinv hcs hrun i (hover i)).2 hi
  · intro h
    obtain ⟨i, hi⟩ := not_forall.mp h
    obtain ⟨hpast, hawake⟩ := Classical.not_imp.mp hi
    exact mayAbandon_of_past hpast hawake

end Pool

/-- **`shutdown` leaves nobody asleep exactly in the runs whose notifications come in time**, and
when it has returned every task has run once, in the order of submission. -/
theorem pool_shuts_down_iff (as : List (Action n T)) :
    (∀ bs s, bs <+: as → exec step (Pool.init : Pool n T) bs = some s →
      ¬ s.MayAbandon ∧
        (s.shutdown = .returned → ∀ i, (s.worker i).ran = (s.worker i).submitted)) ↔
    ∀ bs a s, bs ++ [a] <+: as → exec step (Pool.init : Pool n T) bs = some s →
      NotifiesDecided s a := by
  have hinv : ∀ bs s, exec step (Pool.init : Pool n T) bs = some s → s.Inv :=
    fun bs s hs => (Reach.of_exec bs hs).invariant .init Pool.Inv.step
  rw [← exec_forall_iff (I := Pool.Inv) (P := Pool.Settled) .init Pool.Inv.step
    (fun _ hi => hi.elim) (fun _ a hinv h => Pool.notifiesDecided_iff hinv h a) as]
  refine forall₄_congr fun bs s hpre hs => ?_
  rw [Pool.mayAbandon_iff (hinv bs s hs), not_not]
  exact and_iff_left fun hret i => (hinv bs s hs).ran_eq hret i

/-- The only worker finds its queue empty, and is notified before it is asleep. -/
theorem pool_abandons_worker :
    ¬ ∀ s : Pool 1 ℕ, Reach step Pool.init s → ¬ s.Abandoned := by
  intro h
  have hreach : Reach step (Pool.init : Pool 1 ℕ) _ :=
    .of_exec [.worker 0 .lock, .worker 0 .test, .shutdown, .shutdown, .worker 0 .sleep,
      .shutdown] rfl
  exact h _ hreach ⟨fun _ => trivial, 0, rfl⟩

end CorrelationIds
end SepLab
