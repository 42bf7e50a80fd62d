import Mathlib.Algebra.BigOperators.Group.List.Basic
import Mathlib.Algebra.Order.Group.Multiset
import Mathlib.Data.List.Perm.Basic

/-!
# Shares of a list

Each entry of a list has a share, and the list has the sum of them: what becomes of the sum when
one entry changes, or is taken out.

## Main results

* `sum_eraseIdx` — an entry that is taken out takes its share along.
* `sum_set` — an entry that is replaced, by the rest of the list.
* `coe_flatMap` — a list that is put together, in any order, is the sum of its parts.
-/

namespace SepLab

variable {ι M : Type*} [AddCommMonoid M] {l : List ι} {k : ℕ} {a : ι}

theorem cons_eraseIdx_perm (h : l[k]? = some a) : (a :: l.eraseIdx k).Perm l := by
  obtain ⟨hk, rfl⟩ := List.getElem?_eq_some_iff.mp h
  exact List.getElem_cons_eraseIdx_perm hk

/-- An entry that is taken out takes its share along. -/
theorem sum_eraseIdx (f : ι → M) (h : l[k]? = some a) :
    (l.map f).sum = f a + ((l.eraseIdx k).map f).sum := by
  rw [((cons_eraseIdx_perm h).map f).symm.sum_eq, List.map_cons, List.sum_cons]

/-- The new entry and those that were left have the shares. -/
theorem sum_set (f : ι → M) (h : l[k]? = some a) (b : ι) :
    ((l.set k b).map f).sum = f b + ((l.eraseIdx k).map f).sum := by
  obtain ⟨hk, -⟩ := List.getElem?_eq_some_iff.mp h
  rw [((List.set_perm_cons_eraseIdx hk b).map f).sum_eq, List.map_cons, List.sum_cons]

/-- A list that is put together, in any order, is the sum of its parts. -/
theorem coe_flatMap {κ : Type*} (f : ι → List κ) (l : List ι) :
    (l.flatMap f : Multiset κ) = (l.map fun a => (f a : Multiset κ)).sum := by
  induction l with
  | nil => rfl
  | cons a l ih => rw [List.flatMap_cons, ← Multiset.coe_add, ih, List.map_cons, List.sum_cons]

end SepLab
