import Mathlib.Algebra.BigOperators.Group.List.Basic
import Mathlib.Algebra.Group.Basic
import Mathlib.Data.List.Induction
import Mathlib.Tactic.Abel

/-!
# Sums over a trailing window

The sum of the last entries of a series up to a place, as the difference of two sums from the
start, and as a sum that is kept up to date from one place to the next.

## Main definitions

* `trailing xs n w` — the sum of the last `w` of the first `n` entries, or of all of these.
* `prefixSums xs` — the sums of the first entries, none of them first.

## Main results

* `trailing_eq_sub` — the difference of two sums from the start.
* `trailing_succ` — **the next place**: one entry comes, and one goes once the window is full.
* `trailing_eq_sum_range` — the entries of the window one by one.
* `getElem?_prefixSums` — the sums from the start one by one.
-/

namespace SepLab

variable {M : Type*}

section
variable [AddCommGroup M]

/-- The sum of the last `w` of the first `n` entries. -/
def trailing (xs : List M) (n w : ℕ) : M := ((xs.take n).drop (n - w)).sum

@[simp] theorem trailing_zero (xs : List M) (w : ℕ) : trailing xs 0 w = 0 := by
  simp [trailing]

theorem trailing_eq_sub (xs : List M) (n w : ℕ) :
    trailing xs n w = (xs.take n).sum - (xs.take (n - w)).sum := by
  have hsplit : (xs.take (n - w)).sum + trailing xs n w = (xs.take n).sum := by
    have htake : xs.take (n - w) = (xs.take n).take (n - w) := by
      rw [List.take_take, Nat.min_eq_left (Nat.sub_le n w)]
    rw [trailing, htake, List.sum_take_add_sum_drop]
  rw [← hsplit, add_sub_cancel_left]

/-- **The next place**: one entry comes, and one goes once the window is full. -/
theorem trailing_succ {xs : List M} {n : ℕ} {x : M} (hx : xs[n]? = some x) (w : ℕ) :
    trailing xs (n + 1) w =
      trailing xs n w + x - if w ≤ n then (xs[n - w]?).getD 0 else 0 := by
  have hnew : (xs.take (n + 1)).sum = (xs.take n).sum + x := by
    rw [List.take_add_one, hx, Option.toList_some, List.sum_append, List.sum_singleton]
  rw [trailing_eq_sub, trailing_eq_sub, hnew]
  split
  · next hw =>
    have hold : (xs.take (n + 1 - w)).sum = (xs.take (n - w)).sum + (xs[n - w]?).getD 0 := by
      rw [Nat.succ_sub hw, List.take_add_one, List.sum_append]
      cases xs[n - w]? <;> simp
    rw [hold]
    abel
  · next hw =>
    have hnone : n + 1 - w = 0 := by omega
    have hnone' : n - w = 0 := by omega
    rw [hnone, hnone']
    abel

/-- The entries of the window, from its end on. -/
theorem trailing_eq_sum_range {xs : List M} {n : ℕ} (hn : n ≤ xs.length) {w : ℕ} (hw : w ≤ n) :
    trailing xs n w = ((List.range w).map fun k => (xs[n - 1 - k]?).getD 0).sum := by
  induction w with
  | zero => simp [trailing_eq_sub]
  | succ w ih =>
    have hget : xs[n - (w + 1)]? = some xs[n - (w + 1)] := List.getElem?_eq_getElem (by omega)
    have htake : (xs.take (n - w)).sum = (xs.take (n - (w + 1))).sum + xs[n - (w + 1)] := by
      have hsucc : n - w = n - (w + 1) + 1 := by omega
      rw [hsucc, List.take_add_one, hget, Option.toList_some, List.sum_append, List.sum_singleton]
    have hplace : n - 1 - w = n - (w + 1) := by omega
    rw [List.range_succ, List.map_append, List.sum_append, ← ih (by omega), List.map_singleton,
      List.sum_singleton, hplace, hget, Option.getD_some, trailing_eq_sub, trailing_eq_sub, htake]
    abel

end

section
variable [AddMonoid M]

/-- The sums of the first entries, as a loop makes them. -/
def prefixSums (xs : List M) : List M :=
  (xs.foldl (fun s x => (s.1 ++ [s.2 + x], s.2 + x)) ([0], 0)).1

theorem foldl_prefixSums (xs : List M) :
    xs.foldl (fun s x => (s.1 ++ [s.2 + x], s.2 + x)) ([0], 0) =
      ((List.range (xs.length + 1)).map fun n => (xs.take n).sum, xs.sum) := by
  induction xs using List.reverseRecOn with
  | nil => simp
  | append_singleton xs x ih =>
    have hold : ∀ n ∈ List.range (xs.length + 1), (xs.take n).sum = ((xs ++ [x]).take n).sum := by
      intro n hn
      rw [List.take_append_of_le_length (Nat.lt_succ_iff.mp (List.mem_range.mp hn))]
    have hlast : ((xs ++ [x]).take (xs.length + 1)).sum = xs.sum + x := by
      rw [List.take_of_length_le (by simp), List.sum_append, List.sum_singleton]
    rw [List.foldl_append, ih, List.foldl_cons, List.foldl_nil, List.map_congr_left hold,
      List.sum_append, List.sum_singleton, List.length_append, List.length_singleton,
      List.range_succ (n := xs.length + 1), List.map_append, List.map_singleton, hlast]

/-- The sums one by one. -/
theorem getElem?_prefixSums (xs : List M) (n : ℕ) :
    (prefixSums xs)[n]? = if n ≤ xs.length then some (xs.take n).sum else none := by
  rw [prefixSums, foldl_prefixSums]
  split
  · next hn => simp [List.getElem?_range (Nat.lt_succ_of_le hn)]
  · next hn =>
    apply List.getElem?_eq_none
    rw [List.length_map, List.length_range]
    omega

end

end SepLab
