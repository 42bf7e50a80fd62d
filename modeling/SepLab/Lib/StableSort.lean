import Mathlib.Data.List.Sort
import Mathlib.Order.Basic

/-!
# Stable sorting

Sorting by a key that leaves entries of equal keys in the order they had. There is only one
such arrangement of a list, so that two programs which sort stably by one key agree, whatever
they sort by and however they go about it; a conversion of the entries that keeps their keys
may come before the sort or after it.

## Main definitions

* `StablySorts key xs ys` — `ys` is `xs` in the order of the key, equal keys as they were.
* `sortBy cmp xs` — a stable sort by a comparison function.

## Main results

* `StablySorts.unique` — **there is only one**.
* `stablySorts_sortBy` — `sortBy` is one, for a comparison that compares keys.
* `sortBy_map` — converting and then sorting is sorting and then converting.
-/

namespace SepLab

variable {α β κ : Type*} [LinearOrder κ]

/-- In the order of the key, with entries of one key in the order they had. -/
structure StablySorts (key : α → κ) (xs ys : List α) : Prop where
  /-- Keys never descend. -/
  sorted : ys.Pairwise fun a b => key a ≤ key b
  /-- The entries of a key are those there were, in their order. -/
  stable : ∀ k, (ys.filter fun a => key a = k) = xs.filter fun a => key a = k

namespace StablySorts

variable {key : α → κ} {xs ys zs : List α}

/-- Lists with the same entries of every key have the same entries. -/
private theorem mem_iff_of_filter_eq
    (h : ∀ k, (ys.filter fun a => key a = k) = zs.filter fun a => key a = k) (a : α) :
    a ∈ ys ↔ a ∈ zs := by
  have hmem : a ∈ ys.filter (fun b => key b = key a) ↔ a ∈ zs.filter fun b => key b = key a := by
    rw [h]
  simpa only [List.mem_filter, decide_true, and_true] using hmem

/-- The two ways of arranging one list start with the same entry. -/
private theorem head_eq {y z : α} (hy : (y :: ys).Pairwise fun a b => key a ≤ key b)
    (hz : (z :: zs).Pairwise fun a b => key a ≤ key b)
    (h : ∀ k, ((y :: ys).filter fun a => key a = k) = (z :: zs).filter fun a => key a = k) :
    y = z := by
  have hmem := mem_iff_of_filter_eq h
  have hle : ∀ {a : α} {l : List α}, (a :: l).Pairwise (fun a b => key a ≤ key b) →
      ∀ b ∈ a :: l, key a ≤ key b := by
    intro a l hl b hb
    rcases List.mem_cons.mp hb with rfl | hb
    · exact le_rfl
    · exact List.rel_of_pairwise_cons hl hb
  have hkey : key y = key z :=
    le_antisymm (hle hy z ((hmem z).mpr List.mem_cons_self))
      (hle hz y ((hmem y).mp List.mem_cons_self))
  have hfirst := h (key y)
  rw [List.filter_cons_of_pos (by simp), List.filter_cons_of_pos (by simpa using hkey.symm)]
    at hfirst
  exact (List.cons.inj hfirst).1

/-- **There is only one** stable arrangement of a list. -/
theorem unique (hy : StablySorts key xs ys) (hz : StablySorts key xs zs) : ys = zs := by
  -- both have the same elements under each key, in the order of `xs`
  have hall : ∀ k, (ys.filter fun a => key a = k) = zs.filter fun a => key a = k :=
    fun k => (hy.stable k).trans (hz.stable k).symm
  have hys := hy.sorted
  have hzs := hz.sorted
  clear hy hz
  induction ys generalizing zs with
  | nil =>
    refine (List.eq_nil_iff_forall_not_mem.mpr fun a ha => ?_).symm
    exact absurd ((mem_iff_of_filter_eq hall a).mpr ha) List.not_mem_nil
  | cons y ys ih =>
    cases zs with
    | nil =>
      have hfirst := hall (key y)
      rw [List.filter_cons_of_pos (by simp)] at hfirst
      exact absurd hfirst (List.cons_ne_nil _ _)
    | cons z zs =>
      -- the first elements are the same, for both are the first of the least key
      obtain rfl := head_eq hys hzs hall
      refine congrArg (y :: ·) (ih (fun k => ?_) hys.tail hzs.tail)
      have hk := hall k
      by_cases hyk : key y = k
      · rw [List.filter_cons_of_pos (by simpa using hyk),
          List.filter_cons_of_pos (by simpa using hyk)] at hk
        exact (List.cons.inj hk).2
      · rwa [List.filter_cons_of_neg (by simpa using hyk),
          List.filter_cons_of_neg (by simpa using hyk)] at hk

end StablySorts

/-! ### A stable sort by a comparison function -/

/-- A stable sort: each entry goes before the first that it does not compare greater than. -/
def sortBy (cmp : α → α → Ordering) (xs : List α) : List α :=
  xs.insertionSort fun a b => cmp a b ≠ .gt

theorem filter_orderedInsert {key : α → κ} (a : α) (l : List α) (k : κ) :
    (l.orderedInsert (fun a b => key a ≤ key b) a).filter (fun b => key b = k) =
      (a :: l).filter fun b => key b = k := by
  induction l with
  | nil => rfl
  | cons b l ih =>
    by_cases hab : key a ≤ key b
    · rw [List.orderedInsert_cons_of_le _ l hab]
    · -- what goes before the new entry has another key
      rw [List.orderedInsert_of_not_le _ l hab, List.filter_cons, ih, List.filter_cons,
        List.filter_cons, List.filter_cons]
      by_cases hak : key a = k
      · have hbk : key b ≠ k := fun h => hab (hak.trans h.symm).le
        simp [hak, hbk]
      · simp [hak]

theorem stablySorts_insertionSort (key : α → κ) (xs : List α) :
    StablySorts key xs (xs.insertionSort fun a b => key a ≤ key b) where
  sorted := by
    have : Std.Total fun a b : α => key a ≤ key b := ⟨fun a b => le_total (key a) (key b)⟩
    have : IsTrans α fun a b => key a ≤ key b := ⟨fun _ _ _ => le_trans⟩
    exact List.pairwise_insertionSort _ xs
  stable := by
    intro k
    induction xs with
    | nil => rfl
    | cons a xs ih =>
      rw [List.insertionSort_cons, filter_orderedInsert, List.filter_cons, ih,
        List.filter_cons]

theorem stablySorts_sortBy {cmp : α → α → Ordering} {key : α → κ}
    (hcmp : ∀ a b, cmp a b ≠ .gt ↔ key a ≤ key b) (xs : List α) :
    StablySorts key xs (sortBy cmp xs) := by
  have heq : sortBy cmp xs = xs.insertionSort fun a b => key a ≤ key b := by
    unfold sortBy
    congr 1
    funext a b
    exact propext (hcmp a b)
  rw [heq]
  exact stablySorts_insertionSort key xs

/-- Converting and then sorting is sorting and then converting. -/
theorem sortBy_map {cmp : α → α → Ordering} {cmp' : β → β → Ordering} {f : α → β}
    (h : ∀ a b, cmp' (f a) (f b) = cmp a b) (xs : List α) :
    sortBy cmp' (xs.map f) = (sortBy cmp xs).map f :=
  (List.map_insertionSort _ _ f xs fun a _ b _ => by rw [h]).symm

end SepLab
