import Mathlib.Data.List.Induction
import Mathlib.Data.List.Nodup

/-!
# Grouping a list by a key

A dictionary from keys to the entries that have them, filled in one pass: the entry of a key that
is new opens a group, any other is appended to its group.

## Main definitions

* `pushGroup k e d` — an entry is appended to the group of its key.
* `groupBy key xs` — the groups of a list, in the order in which their keys arrive.
* `groupOf d k` — the group of a key, empty when there is none.

## Main results

* `groupOf_groupBy` — **a group is the list filtered by its key**.
* `nodup_keys_groupBy`, `mem_keys_groupBy` — each key that occurs has one group.
-/

namespace SepLab

variable {ε κ : Type*} [DecidableEq κ]

/-- An entry is appended to the group of its key. -/
def pushGroup (k : κ) (e : ε) : List (κ × List ε) → List (κ × List ε)
  | [] => [(k, [e])]
  | (k', es) :: d => if k' = k then (k', es ++ [e]) :: d else (k', es) :: pushGroup k e d

/-- The groups of a list. -/
def groupBy (key : ε → κ) (xs : List ε) : List (κ × List ε) :=
  xs.foldl (fun d e => pushGroup (key e) e d) []

/-- The group of a key. -/
def groupOf (d : List (κ × List ε)) (k : κ) : List ε :=
  match d with
  | [] => []
  | (k', es) :: d => if k' = k then es else groupOf d k

theorem groupOf_pushGroup (k k' : κ) (e : ε) (d : List (κ × List ε)) :
    groupOf (pushGroup k e d) k' = groupOf d k' ++ if k = k' then [e] else [] := by
  induction d with
  | nil => simp [pushGroup, groupOf]
  | cons g d ih =>
    obtain ⟨l, es⟩ := g
    by_cases hl : l = k
    · subst hl
      by_cases hk : l = k' <;> simp [pushGroup, groupOf, hk]
    · by_cases hk : l = k'
      · subst hk
        simp [pushGroup, groupOf, hl, Ne.symm hl]
      · simp [pushGroup, groupOf, hl, hk, ih]

theorem keys_pushGroup (k : κ) (e : ε) (d : List (κ × List ε)) :
    (pushGroup k e d).map Prod.fst =
      if k ∈ d.map Prod.fst then d.map Prod.fst else d.map Prod.fst ++ [k] := by
  induction d with
  | nil => simp [pushGroup]
  | cons g d ih =>
    obtain ⟨l, es⟩ := g
    by_cases hl : l = k
    · simp [pushGroup, hl]
    · rw [pushGroup, if_neg hl, List.map_cons, ih, List.map_cons]
      by_cases hk : k ∈ d.map Prod.fst
      · rw [if_pos hk, if_pos (List.mem_cons_of_mem l hk)]
      · rw [if_neg hk, if_neg (by simpa [Ne.symm hl] using hk), List.cons_append]

/-- **A group is the list filtered** by its key. -/
theorem groupOf_groupBy (key : ε → κ) (xs : List ε) (k : κ) :
    groupOf (groupBy key xs) k = xs.filter fun e => key e = k := by
  unfold groupBy
  induction xs using List.reverseRecOn with
  | nil => rfl
  | append_singleton xs e ih =>
    rw [List.foldl_append, List.foldl_cons, List.foldl_nil, groupOf_pushGroup, ih,
      List.filter_append]
    by_cases hk : key e = k <;> simp [hk]

theorem nodup_keys_groupBy (key : ε → κ) (xs : List ε) :
    ((groupBy key xs).map Prod.fst).Nodup := by
  unfold groupBy
  induction xs using List.reverseRecOn with
  | nil => exact List.nodup_nil
  | append_singleton xs e ih =>
    rw [List.foldl_append, List.foldl_cons, List.foldl_nil, keys_pushGroup]
    split
    · exact ih
    · next h =>
      rw [← List.concat_eq_append]
      exact ih.concat h

theorem mem_keys_groupBy {key : ε → κ} {xs : List ε} {k : κ} :
    k ∈ (groupBy key xs).map Prod.fst ↔ ∃ e ∈ xs, key e = k := by
  unfold groupBy
  induction xs using List.reverseRecOn with
  | nil => simp
  | append_singleton xs e ih =>
    rw [List.foldl_append, List.foldl_cons, List.foldl_nil, keys_pushGroup]
    have hlast : (∃ e' ∈ xs ++ [e], key e' = k) ↔ (∃ e' ∈ xs, key e' = k) ∨ key e = k := by
      simp [or_and_right, exists_or]
    rw [hlast, ← ih]
    split
    · next h =>
      refine ⟨Or.inl, fun hor => hor.elim id ?_⟩
      rintro rfl
      exact h
    · rw [List.mem_append, List.mem_singleton, eq_comm (a := k)]

end SepLab
