import Mathlib.Algebra.BigOperators.Group.Finset.Piecewise
import Mathlib.Algebra.GroupWithZero.Nat
import Mathlib.Algebra.Order.Monoid.Defs
import Mathlib.Data.List.Chain
import SepLab.Lib.Transition

/-!
# What is left to do

Some actions of a system bring work, and others do a part of it.  If a potential measures what is
left to do, then no run does more than there was at first and what has come since; so where only
finitely much comes, the system is at rest sooner or later.

## Main results

* `exec_work_le` — what a run does, and what it leaves.
* `sum_le_of_isChain` — what is spent over consecutive periods, each of which hands on no more
  than it was given and has not spent.
* `sum_update` — a potential that is a sum, after one of its terms has changed.
-/

namespace SepLab

variable {σ α ι P : Type*}

/-- **No run does more work than there was and has come.** -/
theorem exec_work_le {step : σ → α → Option σ} {I : σ → Prop} {φ : σ → ℕ} {work gain : α → ℕ}
    (hI : ∀ s a s', I s → step s a = some s' → I s')
    (hφ : ∀ s a s', I s → step s a = some s' → φ s' + work a ≤ φ s + gain a)
    {s s' : σ} {as : List α} (hs : I s) (h : exec step s as = some s') :
    φ s' + (as.map work).sum ≤ φ s + (as.map gain).sum := by
  induction as generalizing s with
  | nil =>
    rw [exec_nil, Option.some_inj] at h
    rw [h]
    exact Nat.le_refl _
  | cons a as ih =>
    rw [exec_cons, Option.bind_eq_some_iff] at h
    obtain ⟨s₁, h₁, h₂⟩ := h
    have hone := hφ s a s₁ hs h₁
    have hrest := ih (hI s a s₁ hs h₁) h₂
    rw [List.map_cons, List.sum_cons, List.map_cons, List.sum_cons]
    omega

/-- **What is spent over consecutive periods.**  A period gets `g`, and may hand on to the next
one what it neither spends nor owes. -/
theorem sum_le_of_isChain {π G : Type*} [AddCommMonoid G] [PartialOrder G] [IsOrderedAddMonoid G]
    {cost φ : π → G} {g : G} {x : π} {xs : List π}
    (hchain : (x :: xs).IsChain fun p p' => cost p + φ p' ≤ g + φ p)
    (hcost : ∀ p ∈ x :: xs, cost p ≤ g + φ p) :
    ((x :: xs).map cost).sum ≤ (x :: xs).length • g + φ x := by
  induction xs generalizing x with
  | nil => simpa [one_nsmul] using hcost x List.mem_cons_self
  | cons y ys ih =>
    obtain ⟨hxy, htail⟩ := List.isChain_cons_cons.mp hchain
    have hrest := ih htail fun p hp => hcost p (List.mem_cons_of_mem _ hp)
    calc ((x :: y :: ys).map cost).sum
        = cost x + ((y :: ys).map cost).sum := by rw [List.map_cons, List.sum_cons]
      _ ≤ cost x + ((y :: ys).length • g + φ y) := by gcongr
      _ = (y :: ys).length • g + (cost x + φ y) := add_left_comm _ _ _
      _ ≤ (y :: ys).length • g + (g + φ x) := by gcongr
      _ = (x :: y :: ys).length • g + φ x := by
        rw [← add_assoc, ← succ_nsmul]
        rfl

variable [DecidableEq ι] {f : ι → P} {i : ι}

/-- A sum over processes, after `i` has changed its phase. -/
theorem sum_update {S : Finset ι} (hi : i ∈ S) (g : P → ℕ) (p : P) :
    ∑ j ∈ S, g (Function.update f i p j) + g (f i) = ∑ j ∈ S, g (f j) + g p := by
  have hrest : ∑ j ∈ S \ {i}, g (Function.update f i p j) = ∑ j ∈ S \ {i}, g (f j) := by
    refine Finset.sum_congr rfl fun j hj => ?_
    have hne : j ≠ i := fun h => (Finset.mem_sdiff.mp hj).2 (Finset.mem_singleton.mpr h)
    rw [Function.update_of_ne hne]
  rw [Finset.sum_eq_add_sum_sdiff_singleton_of_mem hi,
    Finset.sum_eq_add_sum_sdiff_singleton_of_mem hi (fun j => g (f j)), hrest,
    Function.update_self]
  omega

/-- A sum that `i` is no part of. -/
theorem sum_update_of_notMem {S : Finset ι} (hi : i ∉ S) (g : P → ℕ) (p : P) :
    ∑ j ∈ S, g (Function.update f i p j) = ∑ j ∈ S, g (f j) := by
  refine Finset.sum_congr rfl fun j hj => ?_
  have hne : j ≠ i := fun h => hi (h ▸ hj)
  rw [Function.update_of_ne hne]

end SepLab
