import Mathlib.Data.List.Sort
import Mathlib.Order.Basic

/-!
# Order statistics of a list

The `k`-th smallest entry of a list, and how it compares with a bound: by a count of the entries
that the bound covers, so that whoever keeps such counts can say where the entry lies.

## Main definitions

* `kthSmallest xs k` — the `k`-th smallest entry, counted from one.

## Main results

* `kthSmallest_le_iff` — **a bound covers the entry just when it covers `k` entries**.
* `exists_kthSmallest` — from the first to the last there is one, an entry of the list.
-/

namespace SepLab

variable {α : Type*} [LinearOrder α]

/-- The `k`-th smallest entry of a list, counted from one. -/
def kthSmallest (xs : List α) : ℕ → Option α
  | 0 => none
  | k + 1 => (xs.insertionSort (· ≤ ·))[k]?

theorem exists_kthSmallest {xs : List α} {k : ℕ} (h₁ : 1 ≤ k) (hk : k ≤ xs.length) :
    ∃ x ∈ xs, kthSmallest xs k = some x := by
  obtain ⟨j, rfl⟩ : ∃ j, k = j + 1 := ⟨k - 1, by omega⟩
  have hj : j < (xs.insertionSort (· ≤ ·)).length := by
    rw [List.length_insertionSort]
    exact hk
  exact ⟨(xs.insertionSort (· ≤ ·))[j],
    (List.mem_insertionSort (· ≤ ·)).mp (List.getElem_mem hj), List.getElem?_eq_getElem hj⟩

/-- In ascending order the entries that a bound covers are the first ones. -/
theorem countP_le_iff {xs : List α} (hs : xs.Pairwise (· ≤ ·)) (b : α) {j : ℕ}
    (hj : j < xs.length) : xs[j] ≤ b ↔ j + 1 ≤ xs.countP fun y => y ≤ b := by
  induction xs generalizing j with
  | nil => exact absurd hj (Nat.not_lt_zero j)
  | cons x xs ih =>
    obtain ⟨hx, hs⟩ := List.pairwise_cons.mp hs
    by_cases hxb : x ≤ b
    · rw [List.countP_cons_of_pos (by simpa using hxb)]
      cases j with
      | zero => simpa using hxb
      | succ j =>
        rw [List.getElem_cons_succ, ih hs (Nat.lt_of_succ_lt_succ hj), Nat.succ_le_succ_iff]
    · -- past the bound there is nothing left to count
      have hnone : xs.countP (fun y => y ≤ b) = 0 := by
        refine List.countP_eq_zero.mpr fun y hy hyb => hxb ?_
        exact (hx y hy).trans (of_decide_eq_true hyb)
      rw [List.countP_cons_of_neg (by simpa using hxb), hnone]
      refine ⟨fun hle => absurd ?_ hxb, fun hle => absurd hle (Nat.not_succ_le_zero j)⟩
      cases j with
      | zero => exact hle
      | succ j => exact (hx _ (List.getElem_mem _)).trans hle

/-- **A bound covers the `k`-th smallest entry** just when it covers `k` entries. -/
theorem kthSmallest_le_iff {xs : List α} {k : ℕ} {x : α} (hx : kthSmallest xs k = some x)
    (b : α) : x ≤ b ↔ k ≤ xs.countP fun y => y ≤ b := by
  cases k with
  | zero => simp [kthSmallest] at hx
  | succ j =>
    obtain ⟨hj, rfl⟩ := List.getElem?_eq_some_iff.mp hx
    rw [countP_le_iff (List.pairwise_insertionSort (· ≤ ·) xs) b hj,
      (List.perm_insertionSort (· ≤ ·) xs).countP_eq]

end SepLab
