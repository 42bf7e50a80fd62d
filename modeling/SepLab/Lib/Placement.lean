import Mathlib.Logic.Function.Basic

/-!
# Things that are in one hand at a time

Processes hand things on to one another, or put them down somewhere.  What a process has in its
hand is read off its own state; where a thing is, is a function of the thing, so that no thing
is in two hands or in two places.

## Main definitions

* `Place` — the hand of a process, or a spot where the thing lies.
* `Placed hold place` — the processes have in their hands what is there according to `place`.

## Main results

* `update_spot_iff` — what a move leaves as it is.
* `Placed.unique` — a thing is in the hand of one process.
* `Placed.take`, `Placed.put` — a process takes a thing, or puts down the one that it has.
-/

namespace SepLab

variable {Θ R X : Type}

/-- Where a thing is. -/
inductive Place (Θ X : Type)
  | hand (θ : Θ)
  | spot (x : X)

/-- Each process has in its hand the thing that is there. -/
def Placed (hold : Θ → Option R) (place : R → Place Θ X) : Prop :=
  ∀ θ r, hold θ = some r ↔ place r = .hand θ

/-- What moves from one place to another is neither before nor after at a third. -/
theorem update_spot_iff [DecidableEq R] {place : R → Place Θ X} {r : R} {x : X} {p : Place Θ X}
    (hr : place r ≠ .spot x) (hp : p ≠ .spot x) (r' : R) :
    Function.update place r p r' = .spot x ↔ place r' = .spot x := by
  by_cases hr' : r' = r
  · rw [hr', Function.update_self]
    exact iff_of_false hp hr
  · rw [Function.update_of_ne hr']

namespace Placed

variable {hold : Θ → Option R} {place : R → Place Θ X} {θ θ' : Θ} {r : R} {x : X}

theorem unique (h : Placed hold place) (hθ : hold θ = some r) (hθ' : hold θ' = some r) :
    θ = θ' := by
  have heq := ((h θ r).mp hθ).symm.trans ((h θ' r).mp hθ')
  exact Place.hand.inj heq

/-- A thing that lies somewhere is in nobody's hand. -/
theorem not_held (h : Placed hold place) (hr : place r = .spot x) (θ : Θ) : hold θ ≠ some r := by
  intro hθ
  rw [(h θ r).mp hθ] at hr
  cases hr

variable [DecidableEq Θ] [DecidableEq R]

/-- A process whose hand is empty takes a thing that lies somewhere. -/
theorem take (h : Placed hold place) (hθ : hold θ = none) (hr : place r = .spot x) :
    Placed (Function.update hold θ (some r)) (Function.update place r (.hand θ)) := by
  intro θ' r'
  by_cases hθ' : θ' = θ
  · subst hθ'
    rw [Function.update_self, Option.some_inj]
    by_cases hr' : r' = r
    · subst hr'
      simp
    · rw [Function.update_of_ne hr', ← h, hθ]
      simp [Ne.symm hr']
  · rw [Function.update_of_ne hθ']
    by_cases hr' : r' = r
    · subst hr'
      rw [Function.update_self]
      exact iff_of_false (h.not_held hr θ') fun heq => hθ' (Place.hand.inj heq).symm
    · rw [Function.update_of_ne hr', h]

/-- A process puts down what it has. -/
theorem put (h : Placed hold place) (hθ : hold θ = some r) (x : X) :
    Placed (Function.update hold θ none) (Function.update place r (.spot x)) := by
  intro θ' r'
  by_cases hr' : r' = r
  · subst hr'
    rw [Function.update_self]
    refine iff_of_false ?_ nofun
    by_cases hθ' : θ' = θ
    · simp [hθ']
    · rw [Function.update_of_ne hθ']
      exact fun heq => hθ' (h.unique heq hθ)
  · rw [Function.update_of_ne hr', ← h]
    by_cases hθ' : θ' = θ
    · subst hθ'
      rw [Function.update_self, hθ, Option.some_inj]
      exact iff_of_false nofun (Ne.symm hr')
    · rw [Function.update_of_ne hθ']

end Placed
end SepLab
