import Mathlib.Algebra.BigOperators.Group.Finset.Basic
import Mathlib.Algebra.BigOperators.Ring.Finset
import Mathlib.Algebra.Order.BigOperators.Group.List
import Mathlib.Algebra.Group.Action.Defs
import Mathlib.Data.List.Perm.Basic
import Mathlib.Tactic.Linarith
import Mathlib.Tactic.Ring

/-!
# Counting pairs of entries

The ordered pairs of entries of a list at two different places, counted by the values that stand
there: the product of two counts, less the entries paired with themselves. Pairs of different
values are what is left of the square of the length when equal ones are taken off.

## Main definitions

* `orderedPairs xs` — the ordered pairs of entries at two different places.
* `disagreements xs` — how many of them have different values.

## Main results

* `count_orderedPairs` — **a pair of values** is there as often as the product of their counts.
* `disagreements_eq_sum` — the disagreements, by the values.
* `disagreements_add_sum` — disagreements and equal pairs make up the square of the length.
* `disagreements_eq_zero_iff` — nothing disagrees just when all entries are equal.
-/

namespace SepLab

variable {α β : Type*}

/-- The ordered pairs of entries at two different places. -/
def orderedPairs (xs : List α) : List (α × α) :=
  xs.zipIdx.flatMap fun p => (xs.eraseIdx p.2).map fun y => (p.1, y)

variable [DecidableEq α] [DecidableEq β]

/-- How many ordered pairs of entries have different values. -/
def disagreements (xs : List α) : ℕ := (xs.map fun x => xs.countP fun y => x ≠ y).sum

theorem count_eraseIdx_add {xs : List α} {i : ℕ} {x : α} (h : xs[i]? = some x) (b : α) :
    (xs.eraseIdx i).count b + (if x = b then 1 else 0) = xs.count b := by
  obtain ⟨hi, rfl⟩ := List.getElem?_eq_some_iff.mp h
  rw [← (List.getElem_cons_eraseIdx_perm hi).count_eq, List.count_cons]
  simp only [beq_iff_eq]

theorem count_map_pair (x a b : α) (ys : List α) :
    (ys.map fun y => (x, y)).count (a, b) = if x = a then ys.count b else 0 := by
  induction ys with
  | nil => simp
  | cons y ys ih =>
    rw [List.map_cons, List.count_cons, ih, List.count_cons]
    by_cases hx : x = a <;> simp [hx]

/-- **A pair of values** is there as often as the product of their counts, an entry not being
paired with itself. -/
theorem count_orderedPairs (xs : List α) (a b : α) :
    (orderedPairs xs).count (a, b) + (if a = b then xs.count a else 0) =
      xs.count a * xs.count b := by
  -- the first entries of the pairs one by one
  have hprefix : ∀ ps : List (α × ℕ), (∀ p ∈ ps, xs[p.2]? = some p.1) →
      (ps.flatMap fun p => (xs.eraseIdx p.2).map fun y => (p.1, y)).count (a, b) +
          (if a = b then (ps.map Prod.fst).count a else 0) =
        (ps.map Prod.fst).count a * xs.count b := by
    intro ps hps
    induction ps with
    | nil => simp
    | cons p ps ih =>
      have hrest := ih fun q hq => hps q (List.mem_cons_of_mem p hq)
      have herase := count_eraseIdx_add (hps p List.mem_cons_self) b
      rw [List.flatMap_cons, List.count_append, count_map_pair, List.map_cons, List.count_cons]
      by_cases hp : p.1 = a
      · subst hp
        rw [if_pos rfl, if_pos (beq_self_eq_true p.1)]
        by_cases hab : p.1 = b
        · rw [if_pos hab] at hrest herase ⊢
          linarith
        · rw [if_neg hab] at hrest herase ⊢
          linarith
      · rw [if_neg hp, if_neg (show ¬ (p.1 == a) = true by simpa using hp), Nat.zero_add,
          Nat.add_zero]
        exact hrest
  have hall := hprefix xs.zipIdx fun p hp => List.mem_zipIdx_iff_getElem?.mp hp
  rwa [List.zipIdx_map_fst] at hall

/-! ### By the values -/

variable {S : Finset α} {xs : List α}

theorem sum_map_eq_sum_count {M : Type*} [AddCommMonoid M] (hS : ∀ x ∈ xs, x ∈ S) (f : α → M) :
    (xs.map f).sum = ∑ a ∈ S, xs.count a • f a := by
  rw [Finset.sum_list_map_count]
  refine Finset.sum_subset (fun a ha => hS a (List.mem_toFinset.mp ha)) fun a _ ha => ?_
  rw [List.count_eq_zero.mpr (mt List.mem_toFinset.mpr ha), zero_nsmul]

theorem countP_eq_sum_count (hS : ∀ x ∈ xs, x ∈ S) (p : α → Prop) [DecidablePred p] :
    (xs.countP fun y => p y) = ∑ b ∈ S with p b, xs.count b := by
  have hone : (xs.countP fun y => p y) = (xs.map fun y => if p y then 1 else 0).sum := by
    clear hS
    induction xs with
    | nil => rfl
    | cons y ys ih =>
      rw [List.countP_cons, ih, List.map_cons, List.sum_cons, Nat.add_comm]
      simp only [decide_eq_true_eq]
  rw [hone, sum_map_eq_sum_count hS, Finset.sum_filter]
  simp only [smul_eq_mul, mul_ite, mul_one, mul_zero]

/-- The disagreements, by the values. -/
theorem disagreements_eq_sum (hS : ∀ x ∈ xs, x ∈ S) :
    disagreements xs = ∑ a ∈ S, ∑ b ∈ S with a ≠ b, xs.count a * xs.count b := by
  rw [disagreements, sum_map_eq_sum_count hS]
  refine Finset.sum_congr rfl fun a _ => ?_
  rw [countP_eq_sum_count hS fun b => a ≠ b, smul_eq_mul, Finset.mul_sum]

/-- The number of entries, by the values. -/
theorem sum_count (hS : ∀ x ∈ xs, x ∈ S) : ∑ a ∈ S, xs.count a = xs.length := by
  have hsum := sum_map_eq_sum_count hS fun _ => 1
  simpa using hsum.symm

/-- Disagreements and pairs of equal values make up the square of the length. -/
theorem disagreements_add_sum (hS : ∀ x ∈ xs, x ∈ S) :
    disagreements xs + ∑ a ∈ S, xs.count a * xs.count a = xs.length * xs.length := by
  rw [disagreements_eq_sum hS, ← Finset.sum_add_distrib, ← sum_count hS, Finset.sum_mul_sum]
  refine Finset.sum_congr rfl fun a ha => ?_
  rw [← Finset.sum_filter_add_sum_filter_not S (fun b => a ≠ b)]
  congr 1
  simp only [ne_eq, not_not]
  rw [Finset.filter_eq, if_pos ha, Finset.sum_singleton]

/-! ### What the disagreements depend on -/

/-- Nothing disagrees just when all entries are equal. -/
theorem disagreements_eq_zero_iff {xs : List α} :
    disagreements xs = 0 ↔ ∀ a ∈ xs, ∀ b ∈ xs, a = b := by
  rw [disagreements, List.sum_eq_zero_iff]
  simp only [List.forall_mem_map, List.countP_eq_zero, decide_eq_true_eq, ne_eq, not_not]

theorem disagreements_perm {xs ys : List α} (h : xs.Perm ys) :
    disagreements xs = disagreements ys := by
  unfold disagreements
  rw [(h.map _).sum_eq]
  exact congrArg List.sum (List.map_congr_left fun a _ => h.countP_eq _)

/-- Only which entries are equal matters. -/
theorem disagreements_map {f : α → β} (hf : Function.Injective f) (xs : List α) :
    disagreements (xs.map f) = disagreements xs := by
  unfold disagreements
  rw [List.map_map]
  refine congrArg List.sum (List.map_congr_left fun a _ => ?_)
  rw [Function.comp_apply, List.countP_map]
  exact List.countP_congr fun b _ => by simp [hf.eq_iff]

end SepLab
