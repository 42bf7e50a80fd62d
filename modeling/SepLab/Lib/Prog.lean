import Mathlib.Logic.Function.Basic
import SepLab.Lib.Transition

/-!
# Programs that ask, and threads that share a state

A program asks for what it does not compute: a clock, another machine, a variable that it
shares.  Threads run such programs against one shared state, in any order, and one
question of one thread is a step.  What the state does not decide is taken from a
world, which is different in each step.

## Main definitions

* `Prog E A α` — a program with the questions `E` that returns an `α`.
* `Threads.step answer` — one thread asks, and goes on with the answer.

## Main results

* `Threads.shared_invariant` — what no answer breaks holds of the shared state throughout.
-/

namespace SepLab

/-- A program that asks questions `e : E`, answered in `A e`, and returns an `α`. -/
inductive Prog (E : Type*) (A : E → Type*) (α : Type*)
  | ret (a : α)
  | ask (e : E) (k : A e → Prog E A α)

namespace Prog

universe u v w

variable {E : Type u} {A : E → Type v} {α β : Type w}

/-- `p`, and then what is to be done with its result. -/
def bind (p : Prog E A α) (f : α → Prog E A β) : Prog E A β :=
  match p with
  | .ret a => f a
  | .ask e k => .ask e fun a => (k a).bind f

instance : Monad (Prog E A : Type w → Type (max u v w)) where
  pure := .ret
  bind := .bind

@[simp] theorem ret_bind (a : α) (f : α → Prog E A β) : (Prog.ret a >>= f) = f a := rfl

@[simp] theorem ask_bind (e : E) (k : A e → Prog E A α) (f : α → Prog E A β) :
    (Prog.ask e k >>= f) = .ask e fun a => k a >>= f := rfl

/-- A single question. -/
def query (e : E) : Prog E A (A e) := .ask e .ret

end Prog

/-- A shared state, and what each thread has yet to do. -/
structure Threads (σ ι : Type*) {E : Type*} (A : E → Type*) (α : Type*) where
  shared : σ
  threads : ι → Prog E A α

namespace Threads

variable {σ ι E α : Type*} {A : E → Type*} [DecidableEq ι]

/-- The thread `i` asks, in the world `w`.  The shared state may give another answer than
the world's. -/
def step (answer : σ → (e : E) → A e → A e × σ) (s : Threads σ ι A α) :
    ι × ((e : E) → A e) → Option (Threads σ ι A α)
  | (i, w) =>
    match s.threads i with
    | .ret _ => none
    | .ask e k =>
      let r := answer s.shared e (w e)
      some ⟨r.2, Function.update s.threads i (k r.1)⟩

variable {answer : σ → (e : E) → A e → A e × σ} {s s' : Threads σ ι A α}

theorem step_cases {i : ι} {w : (e : E) → A e} (h : step answer s (i, w) = some s') :
    ∃ e k, s.threads i = .ask e k ∧
      s' = ⟨(answer s.shared e (w e)).2,
        Function.update s.threads i (k (answer s.shared e (w e)).1)⟩ := by
  simp only [step] at h
  split at h
  · cases h
  · next e k hi =>
    obtain rfl := Option.some_inj.mp h
    exact ⟨e, k, hi, rfl⟩

/-- **What no answer breaks holds of the shared state throughout.** -/
theorem shared_invariant {P : σ → Prop} (h₀ : P s.shared)
    (hanswer : ∀ t e a, P t → P (answer t e a).2) (h : Reach (step answer) s s') :
    P s'.shared := by
  apply h.invariant h₀ (P := fun s => P s.shared)
  rintro s₁ ⟨i, w⟩ s₂ hs₁ hs
  obtain ⟨e, k, -, rfl⟩ := step_cases hs
  exact hanswer s₁.shared e (w e) hs₁

end Threads
end SepLab
