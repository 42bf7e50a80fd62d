import SepLab.Lib.Transition

/-!
# A component in an event loop

One thread runs one job after another, each to its end: the microtasks of a queue, first in
first out, and a new macrotask only when the queue is empty.  A component is what it does when
it is called, when one of its continuations runs and when one of its timers fires.  All other
code is left open: while it runs it calls the component as it likes, and it may queue
microtasks of its own.

## Main definitions

* `Loop` — the memory of the component, the queue, and whether other code is running.
* `Component`, `Component.step` — the component, and the loop that it runs in.
* `Loop.jobs` — the continuations of the component that are queued.

## Main results

* `Component.invariant` — a property that calls, continuations and timers preserve, and that
  does not depend on the other code, holds throughout.
-/

namespace SepLab

variable {σ J C T : Type}

/-- The loop; in the queue `none` is a microtask of other code. -/
structure Loop (σ J : Type) where
  mem : σ
  queue : List (Option J)
  busy : Bool

namespace Loop

/-- Nothing runs and no microtask is queued. -/
def init (mem : σ) : Loop σ J := ⟨mem, [], false⟩

/-- The memory is written. -/
def modify (s : Loop σ J) (f : σ → σ) : Loop σ J := { s with mem := f s.mem }

/-- A microtask is queued. -/
def push (s : Loop σ J) (job : Option J) : Loop σ J := { s with queue := s.queue ++ [job] }

/-- The continuations of the component that are queued. -/
def jobs (s : Loop σ J) : List J := s.queue.filterMap id

variable {s : Loop σ J} {f : σ → σ} {job : Option J}

@[simp] theorem mem_modify : (s.modify f).mem = f s.mem := rfl

@[simp] theorem queue_modify : (s.modify f).queue = s.queue := rfl

@[simp] theorem busy_modify : (s.modify f).busy = s.busy := rfl

@[simp] theorem mem_push : (s.push job).mem = s.mem := rfl

@[simp] theorem queue_push : (s.push job).queue = s.queue ++ [job] := rfl

@[simp] theorem busy_push : (s.push job).busy = s.busy := rfl

@[simp] theorem jobs_modify : (s.modify f).jobs = s.jobs := rfl

@[simp] theorem jobs_push_none : (s.push none).jobs = s.jobs := by simp [jobs]

@[simp] theorem jobs_push_some {j : J} : (s.push (some j)).jobs = s.jobs ++ [j] := by simp [jobs]

end Loop

/-- What a component does: when it is called, when a continuation of it runs, and when one of its
timers fires, if it is armed. -/
structure Component (σ J C T : Type) where
  call : C → Loop σ J → Option (Loop σ J)
  run : J → Loop σ J → Loop σ J
  timer : T → Loop σ J → Option (Loop σ J)

/-- What runs next. -/
inductive LoopAction (C T : Type)
  /-- A macrotask of other code starts. -/
  | enter
  /-- A timer of the component fires. -/
  | timer (t : T)
  /-- Other code calls the component. -/
  | call (c : C)
  /-- Other code queues a microtask. -/
  | defer
  /-- Other code has run to its end. -/
  | leave
  /-- The first microtask runs. -/
  | next
  deriving DecidableEq, Repr

namespace Component

/-- The loop with the component `k` in it. -/
def step (k : Component σ J C T) (s : Loop σ J) : LoopAction C T → Option (Loop σ J)
  | .enter => if s.busy = false ∧ s.queue.isEmpty then some { s with busy := true } else none
  | .timer t => if s.busy = false ∧ s.queue.isEmpty then k.timer t s else none
  | .call c => if s.busy then k.call c s else none
  | .defer => if s.busy then some (s.push none) else none
  | .leave => if s.busy then some { s with busy := false } else none
  | .next =>
    if s.busy then none
    else
      match s.queue with
      | [] => none
      | none :: queue => some { s with queue := queue, busy := true }
      | some j :: queue => some (k.run j { s with queue := queue })

/-- **An invariant of the component.**  Other code goes on when it is running already, or when no
continuation of the component is the first in the queue; a timer fires when the queue is empty. -/
theorem invariant {k : Component σ J C T} {I : Loop σ J → Prop} {s₀ : Loop σ J} (h₀ : I s₀)
    (hother : ∀ s s' : Loop σ J, I s → (s.busy = true ∨ ∀ j, s.queue.head? ≠ some (some j)) →
      s'.mem = s.mem → s'.jobs = s.jobs → I s')
    (hcall : ∀ c s s', I s → s.busy = true → k.call c s = some s' → I s')
    (htimer : ∀ t s s', I s → s.busy = false → s.queue = [] → k.timer t s = some s' → I s')
    (hrun : ∀ j s, I { s with queue := some j :: s.queue } → s.busy = false → I (k.run j s))
    {s : Loop σ J} (h : Reach k.step s₀ s) : I s := by
  refine h.invariant h₀ fun s a s' hs hstep => ?_
  cases a with
  -- other code begins, ends or defers, and the component does not notice
  | enter =>
    obtain ⟨⟨-, hq⟩, hstep⟩ := Option.ite_none_right_eq_some.mp hstep
    refine Option.some_inj.mp hstep ▸ hother s _ hs (Or.inr fun j => ?_) rfl rfl
    simp [List.isEmpty_iff.mp hq]
  | timer t =>
    obtain ⟨⟨hb, hq⟩, hstep⟩ := Option.ite_none_right_eq_some.mp hstep
    exact htimer t s s' hs hb (List.isEmpty_iff.mp hq) hstep
  | call c =>
    obtain ⟨hb, hstep⟩ := Option.ite_none_right_eq_some.mp hstep
    exact hcall c s s' hs hb hstep
  | defer =>
    obtain ⟨hb, hstep⟩ := Option.ite_none_right_eq_some.mp hstep
    exact Option.some_inj.mp hstep ▸ hother s _ hs (Or.inl hb) rfl Loop.jobs_push_none
  | leave =>
    obtain ⟨hb, hstep⟩ := Option.ite_none_right_eq_some.mp hstep
    exact Option.some_inj.mp hstep ▸ hother s _ hs (Or.inl hb) rfl rfl
  | next =>
    obtain ⟨hb, hstep⟩ := Option.ite_none_left_eq_some.mp hstep
    split at hstep
    · cases hstep
    · next queue hq =>
      refine Option.some_inj.mp hstep ▸ hother s _ hs (Or.inr fun j => ?_) rfl ?_
      · simp [hq]
      · simp [Loop.jobs, hq]
    -- a job of the component is taken from the queue
    · next j queue hq =>
      refine Option.some_inj.mp hstep ▸ hrun j _ ?_ (Bool.eq_false_iff.mpr hb)
      rw [← hq]
      exact hs

end Component
end SepLab
