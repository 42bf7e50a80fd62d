import SepLab.Lib.Prog

/-!
# A program that runs alone

A program that nothing else interleaves with, run against a state that answers its questions, if
it does.

## Main definitions

* `Prog.run answer p s` — what `p` returns from the state `s`, and the state then.

## Main results

* `Prog.run_bind` — a program and its continuation, one after the other.
-/

namespace SepLab
namespace Prog

universe u v w

variable {σ : Type*} {E : Type u} {A : E → Type v} {α β : Type w}

/-- What a program returns, and the state then; `none` when a question has no answer. -/
def run (answer : σ → (e : E) → Option (A e × σ)) : Prog E A α → σ → Option (α × σ)
  | .ret a, s => some (a, s)
  | .ask e k, s => (answer s e).bind fun r => (k r.1).run answer r.2

variable {answer : σ → (e : E) → Option (A e × σ)} {s : σ}

@[simp] theorem run_pure (a : α) : (Pure.pure a : Prog E A α).run answer s = some (a, s) := rfl

theorem run_bind (p : Prog E A α) (f : α → Prog E A β) :
    (p >>= f).run answer s = (p.run answer s).bind fun r => (f r.1).run answer r.2 := by
  induction p generalizing s with
  | ret a => rfl
  | ask e k ih =>
    rw [ask_bind, run, run, Option.bind_assoc]
    exact congrArg _ (funext fun r => ih r.1)

theorem run_query_bind {A : E → Type w} {answer : σ → (e : E) → Option (A e × σ)} (e : E)
    (f : A e → Prog E A β) :
    (query e >>= f).run answer s = (answer s e).bind fun r => (f r.1).run answer r.2 := rfl

end Prog
end SepLab
