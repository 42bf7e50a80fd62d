import SepLab.CorrelationIds.Traceparent
import SepLab.Lib.Potential
import SepLab.Lib.Shares

/-!
# A context that is a slot of the thread

`Context` of `LoseTheContext.java`: `CURRENT` is a `ThreadLocal`, so each thread has a slot of its
own.  `makeCurrent` sets it and has its scope set it back, `setForever` sets it, and `wrap` reads
it where a task is handed over, and sets it where the task runs.

A task is what its thread does with the context, in order; where the code branches, the task is
the branch taken.  A fixed pool takes the tasks handed over in any order, on any of its threads;
with virtual threads each task has a new one.  A caller is a thread that is not of the pool.

## Main definitions

* `Task`, `wrap` — what a thread does, and a task that brings its context along.
* `Thread.advance` — the next thing a thread does; `ExecutorService.step` — one step of all.
* `Task.output`, `Task.left` — what a task logs and hands over, and the slot that it leaves.
* `Task.size`, `ExecutorService.size` — how many steps are left at most.

## Main results

* `Thread.outputFrom_advance`, `Thread.slotAfter_advance` — a thread does what its tasks do.
* `Thread.size_advance`, `ExecutorService.size_step` — each step leaves fewer steps.
* `ExecutorService.run_ends` — every run ends, with all threads at rest and no task left.
-/

namespace SepLab
namespace CorrelationIds

/-- A span that `create` or `fromTraceparent` has made. -/
structure LiveSpan extends Span UInt16 where
  length_traceId : traceId.length = 32

/-- A span whose trace id has one letter throughout. -/
def LiveSpan.ofLetter (u : UInt16) : LiveSpan :=
  ⟨⟨[], List.replicate 32 u, [], true⟩, List.length_replicate⟩

/-- `Context.currentTraceId` -/
def currentTraceId (current : Option LiveSpan) : List UInt16 :=
  match current with
  | none => lit utf16 "none"
  | some s => s.traceId

/-- The trace id of a span has 32 letters. -/
theorem LiveSpan.traceId_ne_none (s : LiveSpan) : s.traceId ≠ lit utf16 "none" := by
  intro heq
  have hlength := s.length_traceId
  rw [heq] at hlength
  exact absurd hlength (by decide)

/-- A line of the log, with the trace id that the logger has read off the context. -/
structure LogRecord where
  msg : List UInt16
  traceId : List UInt16

/-- What `logInfo` adds to the log. -/
def logInfo (msg : List UInt16) (current : Option LiveSpan) : LogRecord :=
  let id := currentTraceId current
  ⟨msg, if id = lit utf16 "none" then [] else id⟩

/-- What a task does with its context. -/
inductive Task
  | done
  | throws
  | logInfo (msg : List UInt16) (rest : Task)
  /-- `try (Scope ignored = Context.makeCurrent(span)) { body }` -/
  | makeCurrent (span : Option LiveSpan) (body rest : Task)
  | setForever (span : LiveSpan) (rest : Task)
  /-- `pool.submit(task)` -/
  | submit (task rest : Task)
  /-- `pool.submit(Context.wrap(task))` -/
  | submitWrapped (task rest : Task)

/-- `Context.wrap`, where `captured` is current. -/
def wrap (captured : Option LiveSpan) (task : Task) : Task := .makeCurrent captured task .done

/-! ### The threads -/

/-- What a thread has yet to do: a task or the rest of one, and the end of a scope. -/
inductive Frame
  | task (task : Task)
  | close (previous : Option LiveSpan)

/-- A thread, its slot, and whether it is one of the pool. -/
structure Thread where
  current : Option LiveSpan
  frames : List Frame
  pooled : Bool

namespace Thread

/-- The thread goes on, with this in its slot. -/
def goOn (t : Thread) (current : Option LiveSpan) (frames : List Frame) : Thread :=
  { t with current := current, frames := frames }

/-- What an exception does: the scopes are closed one after the other, and the rest is left. -/
def unwind (t : Thread) : List Frame → Thread
  | [] => t.goOn t.current []
  | .task _ :: frames => t.goOn t.current (.task .throws :: frames)
  | .close previous :: frames => t.goOn previous (.task .throws :: frames)

/-- The next thing the thread does, with the tasks it hands over and the records it logs. -/
def advance (t : Thread) : Option (Thread × List Task × List LogRecord) :=
  match t.frames with
  | [] => none
  | .close previous :: frames => some (t.goOn previous frames, [], [])
  | .task .done :: frames => some (t.goOn t.current frames, [], [])
  | .task .throws :: frames => some (t.unwind frames, [], [])
  | .task (.logInfo msg rest) :: frames =>
    some (t.goOn t.current (.task rest :: frames), [], [CorrelationIds.logInfo msg t.current])
  | .task (.makeCurrent span body rest) :: frames =>
    some (t.goOn span (.task body :: .close t.current :: .task rest :: frames), [], [])
  | .task (.setForever span rest) :: frames =>
    some (t.goOn (some span) (.task rest :: frames), [], [])
  | .task (.submit task rest) :: frames =>
    some (t.goOn t.current (.task rest :: frames), [task], [])
  | .task (.submitWrapped task rest) :: frames =>
    some (t.goOn t.current (.task rest :: frames), [wrap t.current task], [])

end Thread

/-! ### The pool -/

/-- `newFixedThreadPool`, or `newVirtualThreadPerTaskExecutor`. -/
inductive Executor
  | platform
  | virtual
deriving DecidableEq

/-- The threads, the tasks that wait for one, and the log. -/
structure ExecutorService where
  threads : List Thread
  queue : List Task
  logs : List LogRecord

/-- What the threads of an executor do. -/
inductive ExecutorAction
  /-- Thread `i` of the pool, at rest, takes the task `k` of the queue. -/
  | start (i k : ℕ)
  /-- A new virtual thread has the task `k` of the queue. -/
  | spawn (k : ℕ)
  | run (i : ℕ)

namespace ExecutorService

/-- The pool has threads at rest with these slots; each caller has a thread of its own. -/
def init (slots : List (Option LiveSpan)) (callers : List Task) : ExecutorService where
  threads := slots.map (fun c => ⟨c, [], true⟩) ++ callers.map fun t => ⟨none, [.task t], false⟩
  queue := []
  logs := []

/-- One step of a thread, or a task that a thread begins with. -/
def step (e : Executor) (s : ExecutorService) : ExecutorAction → Option ExecutorService
  | .start i k =>
    match e, s.threads[i]?, s.queue[k]? with
    | .platform, some t, some task =>
      if t.pooled && t.frames.isEmpty then
        some { s with
          threads := s.threads.set i (t.goOn t.current [.task task])
          queue := s.queue.eraseIdx k }
      else none
    | _, _, _ => none
  | .spawn k =>
    match e, s.queue[k]? with
    | .virtual, some task =>
      some { s with
        threads := s.threads ++ [⟨none, [.task task], false⟩]
        queue := s.queue.eraseIdx k }
    | _, _ => none
  | .run i =>
    (s.threads[i]?.bind fun t => t.advance).map fun r =>
      { threads := s.threads.set i r.1, queue := s.queue ++ r.2.1, logs := s.logs ++ r.2.2 }

end ExecutorService

/-! ### What a thread does -/

/-- The task ends without an exception. -/
def Task.ends : Task → Bool
  | .done => true
  | .throws => false
  | .logInfo _ rest => rest.ends
  | .makeCurrent _ body rest => body.ends && rest.ends
  | .setForever _ rest => rest.ends
  | .submit _ rest => rest.ends
  | .submitWrapped _ rest => rest.ends

/-- The context at the end of the task. -/
def Task.left : Task → Option LiveSpan → Option LiveSpan
  | .done, c => c
  | .throws, c => c
  | .logInfo _ rest, c => rest.left c
  | .makeCurrent _ body rest, c => if body.ends then rest.left c else c
  | .setForever span rest, _ => rest.left (some span)
  | .submit _ rest, c => rest.left c
  | .submitWrapped _ rest, c => rest.left c

/-- What the task logs and hands over, in order. -/
def Task.output : Task → Option LiveSpan → List (LogRecord ⊕ Task)
  | .done, _ => []
  | .throws, _ => []
  | .logInfo msg rest, c => .inl (CorrelationIds.logInfo msg c) :: rest.output c
  | .makeCurrent span body rest, c =>
    body.output span ++ if body.ends then rest.output c else []
  | .setForever span rest, _ => rest.output (some span)
  | .submit task rest, c => .inr task :: rest.output c
  | .submitWrapped task rest, c => .inr (wrap c task) :: rest.output c

@[simp] theorem ends_wrap (c : Option LiveSpan) (t : Task) : (wrap c t).ends = t.ends :=
  Bool.and_true _

/-- A task that is wrapped leaves its thread as it finds it. -/
@[simp] theorem left_wrap (c d : Option LiveSpan) (t : Task) : (wrap c t).left d = d :=
  ite_self d

/-- The slot after an exception. -/
def unwound : List Frame → Option LiveSpan → Option LiveSpan
  | [], c => c
  | .task _ :: frames, c => unwound frames c
  | .close previous :: frames, _ => unwound frames previous

/-- The slot of the thread when it comes to rest. -/
def slotAfter : List Frame → Option LiveSpan → Option LiveSpan
  | [], c => c
  | .task t :: frames, c =>
    if t.ends then slotAfter frames (t.left c) else unwound frames (t.left c)
  | .close previous :: frames, _ => slotAfter frames previous

/-- What the thread is still to log and to hand over. -/
def outputFrom : List Frame → Option LiveSpan → List (LogRecord ⊕ Task)
  | [], _ => []
  | .task t :: frames, c =>
    t.output c ++ if t.ends then outputFrom frames (t.left c) else []
  | .close previous :: frames, _ => outputFrom frames previous

/-- What a step logs and hands over. -/
def outputOf (records : List LogRecord) (tasks : List Task) : List (LogRecord ⊕ Task) :=
  records.map Sum.inl ++ tasks.map Sum.inr

/-- A thread at rest begins with a task. -/
@[simp] theorem slotAfter_task (t : Task) (c : Option LiveSpan) :
    slotAfter [.task t] c = t.left c :=
  ite_self _

@[simp] theorem outputFrom_task (t : Task) (c : Option LiveSpan) :
    outputFrom [.task t] c = t.output c := by
  simp [outputFrom]

namespace Thread

variable {t t' : Thread} {tasks : List Task} {records : List LogRecord}

theorem slotAfter_unwind (t : Thread) (frames : List Frame) :
    slotAfter (t.unwind frames).frames (t.unwind frames).current = unwound frames t.current := by
  cases frames with
  | nil => rfl
  | cons f frames => cases f <;> rfl

/-- After an exception a thread does nothing more. -/
theorem outputFrom_unwind (t : Thread) (frames : List Frame) :
    outputFrom (t.unwind frames).frames (t.unwind frames).current = [] := by
  cases frames with
  | nil => rfl
  | cons f frames => cases f <;> rfl

/-- **The slot in which a thread comes to rest** stays the same as it goes on. -/
theorem slotAfter_advance (h : t.advance = some (t', tasks, records)) :
    slotAfter t'.frames t'.current = slotAfter t.frames t.current := by
  obtain ⟨c, frames, pooled⟩ := t
  cases frames with
  | nil => cases h
  | cons f frames =>
    cases f with
    | close previous => cases h; rfl
    | task task =>
      cases task with
      | throws => cases h; exact slotAfter_unwind _ _
      | makeCurrent span body rest =>
        cases h
        cases hends : body.ends <;>
          simp [slotAfter, unwound, goOn, Task.ends, Task.left, hends]
      | _ => cases h; rfl

/-- **What a thread is still to do**, it does in this step, or it is still to do it. -/
theorem outputFrom_advance (h : t.advance = some (t', tasks, records)) :
    outputFrom t.frames t.current =
      outputOf records tasks ++ outputFrom t'.frames t'.current := by
  obtain ⟨c, frames, pooled⟩ := t
  cases frames with
  | nil => cases h
  | cons f frames =>
    cases f with
    | close previous => cases h; rfl
    | task task =>
      cases task with
      | throws =>
        cases h
        rw [outputFrom_unwind]
        rfl
      -- what follows the scope is logged only if its body ends
      | makeCurrent span body rest =>
        cases h
        cases hends : body.ends <;>
          simp [outputFrom, outputOf, goOn, Task.output, Task.ends, Task.left, hends]
      | _ => cases h; rfl

end Thread

/-! ### Every run ends -/

/-- How many steps the task takes at most, and all tasks that come of it. -/
def Task.size : Task → ℕ
  | .done => 1
  | .throws => 1
  | .logInfo _ rest => rest.size + 1
  | .makeCurrent _ body rest => body.size + rest.size + 2
  | .setForever _ rest => rest.size + 1
  | .submit task rest => task.size + rest.size + 2
  | .submitWrapped task rest => task.size + rest.size + 5

/-- How many steps of a thread a frame takes. -/
def Frame.size : Frame → ℕ
  | .task t => t.size
  | .close _ => 1

/-- How many steps a thread has left for what it has taken. -/
def Thread.size (t : Thread) : ℕ := (t.frames.map Frame.size).sum

/-- The start of a task is a step as well. -/
def ExecutorService.size (s : ExecutorService) : ℕ :=
  (s.threads.map Thread.size).sum + (s.queue.map fun t => t.size + 1).sum

@[simp] theorem size_wrap (c : Option LiveSpan) (t : Task) : (wrap c t).size = t.size + 3 := rfl

theorem Task.size_pos (t : Task) : 0 < t.size := by
  cases t <;> exact Nat.succ_pos _

@[simp] theorem Thread.size_goOn (t : Thread) (c : Option LiveSpan) (frames : List Frame) :
    (t.goOn c frames).size = (frames.map Frame.size).sum := rfl

theorem Thread.size_unwind (t : Thread) (frames : List Frame) :
    (t.unwind frames).size ≤ (frames.map Frame.size).sum := by
  cases frames with
  | nil => exact Nat.le_refl _
  | cons f frames =>
    cases f with
    | task task =>
      have hpos := task.size_pos
      simp only [Thread.unwind, Thread.size_goOn, List.map_cons, List.sum_cons, Frame.size,
        Task.size]
      omega
    | close previous => exact Nat.le_refl _

/-- **A step of a thread leaves fewer steps**, those of the tasks it hands over included. -/
theorem Thread.size_advance {t t' : Thread} {tasks : List Task} {records : List LogRecord}
    (h : t.advance = some (t', tasks, records)) :
    t'.size + (tasks.map fun t => t.size + 1).sum + 1 ≤ t.size := by
  obtain ⟨c, frames, pooled⟩ := t
  cases frames with
  | nil => cases h
  | cons f frames =>
    cases f with
    | close previous =>
      cases h
      simp only [Thread.size, Thread.goOn, Frame.size, List.map_cons, List.map_nil, List.sum_cons,
        List.sum_nil]
      omega
    | task task =>
      cases task with
      -- a task that throws leaves every frame above the next scope
      | throws =>
        cases h
        have hle := Thread.size_unwind ⟨c, .task .throws :: frames, pooled⟩ frames
        simp only [Thread.size, List.map_cons, List.sum_cons, Frame.size, Task.size, List.map_nil,
          List.sum_nil] at hle ⊢
        omega
      | _ =>
        cases h
        -- a task that is submitted is counted in the queue from now on
        simp only [Thread.size, Thread.goOn, Frame.size, Task.size, size_wrap, List.map_cons,
          List.map_nil, List.sum_cons, List.sum_nil]
        omega

/-- A thread that has something to do can do it. -/
theorem Thread.advance_ne_none {t : Thread} (h : t.frames ≠ []) : t.advance ≠ none := by
  obtain ⟨c, frames, pooled⟩ := t
  cases frames with
  | nil => exact absurd rfl h
  | cons f frames =>
    cases f with
    | close previous => simp [Thread.advance]
    | task task => cases task <;> simp [Thread.advance]

/-- No thread comes to the pool, or leaves it. -/
theorem Thread.pooled_advance {t t' : Thread} {tasks : List Task} {records : List LogRecord}
    (h : t.advance = some (t', tasks, records)) : t'.pooled = t.pooled := by
  obtain ⟨c, frames, pooled⟩ := t
  cases frames with
  | nil => cases h
  | cons f frames =>
    cases f with
    | close previous => cases h; rfl
    | task task =>
      cases task with
      | throws =>
        cases h
        cases frames with
        | nil => rfl
        | cons f frames => cases f <;> rfl
      | _ => cases h; rfl

namespace ExecutorService

variable {e : Executor} {s s' : ExecutorService}

/-- What a step is: a task begins on a thread of the pool, or on a new one, or a thread goes on. -/
theorem step_cases {a : ExecutorAction} (h : step e s a = some s') :
    (∃ i k t task, a = .start i k ∧ e = .platform ∧ s.threads[i]? = some t ∧
      s.queue[k]? = some task ∧ t.pooled = true ∧ t.frames = [] ∧
      s' = { s with
        threads := s.threads.set i (t.goOn t.current [.task task])
        queue := s.queue.eraseIdx k }) ∨
    (∃ k task, a = .spawn k ∧ e = .virtual ∧ s.queue[k]? = some task ∧
      s' = { s with
        threads := s.threads ++ [⟨none, [.task task], false⟩]
        queue := s.queue.eraseIdx k }) ∨
    ∃ i t t' tasks records, a = .run i ∧ s.threads[i]? = some t ∧
      t.advance = some (t', tasks, records) ∧
      s' = ⟨s.threads.set i t', s.queue ++ tasks, s.logs ++ records⟩ := by
  cases a with
  | start i k =>
    simp only [step] at h
    split at h
    · next t task hi hk =>
      split at h
      · next hrest =>
        rw [Bool.and_eq_true, List.isEmpty_iff] at hrest
        exact Or.inl ⟨i, k, t, task, rfl, rfl, hi, hk, hrest.1, hrest.2,
          (Option.some_inj.mp h).symm⟩
      · cases h
    · cases h
  | spawn k =>
    simp only [step] at h
    split at h
    · next task hk => exact Or.inr (Or.inl ⟨k, task, rfl, rfl, hk, (Option.some_inj.mp h).symm⟩)
    · cases h
  -- the only action whose effect is computed by a thread
  | run i =>
    obtain ⟨r, hr, rfl⟩ := Option.map_eq_some_iff.mp h
    obtain ⟨t, hi, hadvance⟩ := Option.bind_eq_some_iff.mp hr
    exact Or.inr (Or.inr ⟨i, t, r.1, r.2.1, r.2.2, rfl, hi, hadvance, rfl⟩)

/-- **Each step leaves fewer steps.** -/
theorem size_step {a : ExecutorAction} (h : step e s a = some s') : s'.size + 1 ≤ s.size := by
  rcases step_cases h with ⟨i, k, t, task, -, -, hi, hk, -, hrest, rfl⟩ |
    ⟨k, task, -, -, hk, rfl⟩ | ⟨i, t, t', tasks, records, -, hi, hadvance, rfl⟩
  · have hthread : t.size = 0 := by rw [Thread.size, hrest]; rfl
    simp only [size]
    rw [sum_set _ hi, sum_eraseIdx _ hi, sum_eraseIdx _ hk, Thread.size_goOn, List.map_singleton,
      List.sum_singleton, Frame.size]
    omega
  · simp only [size]
    rw [sum_eraseIdx _ hk, List.map_append, List.sum_append, List.map_singleton,
      List.sum_singleton]
    have hnew : Thread.size ⟨none, [.task task], false⟩ = task.size := Nat.add_zero _
    omega
  · have hle := Thread.size_advance hadvance
    simp only [size]
    rw [sum_set _ hi, sum_eraseIdx _ hi, List.map_append, List.sum_append]
    omega

/-- A run takes no more steps than there were. -/
theorem length_le_size {as : List ExecutorAction} (h : exec (step e) s as = some s') :
    as.length ≤ s.size := by
  have hwork : s'.size + (as.map fun _ => 1).sum ≤ s.size + (as.map fun _ => 0).sum :=
    exec_work_le (I := fun _ => True) (fun _ _ _ _ _ => trivial)
      (fun _ _ _ _ hs => size_step hs) trivial h
  simp only [List.map_const', List.sum_replicate_nat, Nat.mul_one, Nat.mul_zero] at hwork
  omega

/-- All threads are at rest, and no task waits. -/
def AtRest (s : ExecutorService) : Prop := (∀ t ∈ s.threads, t.frames = []) ∧ s.queue = []

/-- Virtual threads, or a fixed pool that has a thread. -/
def Staffed (e : Executor) (s : ExecutorService) : Prop :=
  e = .virtual ∨ ∃ t ∈ s.threads, t.pooled = true

theorem Staffed.step {a : ExecutorAction} (hstaffed : s.Staffed e) (h : step e s a = some s') :
    s'.Staffed e := by
  refine hstaffed.imp_right fun ⟨u, hu, hpooled⟩ => ?_
  obtain ⟨j, hj⟩ := List.mem_iff_getElem?.mp hu
  -- the thread that changes is in the pool if it was
  have hset : ∀ i t t', s.threads[i]? = some t → t'.pooled = t.pooled →
      ∃ v ∈ s.threads.set i t', v.pooled = true := by
    intro i t t' hi heq
    by_cases hij : i = j
    · subst hij
      obtain rfl := Option.some_inj.mp (hi.symm.trans hj)
      obtain ⟨hlt, -⟩ := List.getElem?_eq_some_iff.mp hi
      exact ⟨t', List.mem_set hlt t', heq.trans hpooled⟩
    · refine ⟨u, List.mem_iff_getElem?.mpr ⟨j, ?_⟩, hpooled⟩
      rw [List.getElem?_set_ne hij, hj]
  rcases step_cases h with ⟨i, k, t, task, -, -, hi, -, -, -, rfl⟩ | ⟨k, task, -, -, -, rfl⟩ |
    ⟨i, t, t', tasks, records, -, hi, hadvance, rfl⟩
  · exact hset i t _ hi rfl
  · exact ⟨u, List.mem_append_left _ hu, hpooled⟩
  · exact hset i t t' hi (Thread.pooled_advance hadvance)

/-- **Where nothing can happen, all is done.** -/
theorem AtRest.of_stuck (hstaffed : s.Staffed e) (hstuck : ∀ a, step e s a = none) :
    s.AtRest := by
  -- a thread with a frame left could run
  have hthreads : ∀ t ∈ s.threads, t.frames = [] := by
    intro t ht
    by_contra hne
    obtain ⟨i, hi⟩ := List.mem_iff_getElem?.mp ht
    have hrun := hstuck (.run i)
    simp only [step, hi, Option.bind_some, Option.map_eq_none_iff] at hrun
    exact Thread.advance_ne_none hne hrun
  refine ⟨hthreads, ?_⟩
  cases hqueue : s.queue with
  | nil => rfl
  | cons task queue =>
    -- and a task in the queue could be started: by a new thread, or by one of the pool
    have hk : s.queue[0]? = some task := by rw [hqueue]; rfl
    cases e with
    | virtual =>
      have hspawn := hstuck (.spawn 0)
      simp [step, hk] at hspawn
    | platform =>
      obtain ⟨t, ht, hpooled⟩ := hstaffed.resolve_left (by simp)
      obtain ⟨i, hi⟩ := List.mem_iff_getElem?.mp ht
      have hstart := hstuck (.start i 0)
      simp [step, hi, hk, hpooled, hthreads t ht] at hstart

/-- Where all is done nothing can happen. -/
theorem AtRest.stuck (h : s.AtRest) (a : ExecutorAction) : step e s a = none := by
  refine Option.eq_none_iff_forall_ne_some.mpr fun s' hs' => ?_
  rcases step_cases hs' with ⟨i, k, t, task, -, -, -, hk, -⟩ | ⟨k, task, -, -, hk, -⟩ |
    ⟨i, t, t', tasks, records, -, hi, hadvance, -⟩
  · rw [h.2] at hk
    cases hk
  · rw [h.2] at hk
    cases hk
  · rw [Thread.advance, h.1 t (List.mem_of_getElem? hi)] at hadvance
    cases hadvance

/-- **Every run ends**, and where it cannot go on all is done. -/
theorem run_ends (hstaffed : s.Staffed e) {as : List ExecutorAction}
    (h : exec (step e) s as = some s') :
    as.length ≤ s.size ∧ ((∀ a, step e s' a = none) → s'.AtRest) := by
  refine ⟨length_le_size h, fun hstuck => AtRest.of_stuck ?_ hstuck⟩
  exact (Reach.of_exec as h).invariant hstaffed fun _ _ _ hs hstep => hs.step hstep

end ExecutorService
end CorrelationIds
end SepLab
