import Mathlib.Data.List.Induction
import Mathlib.Data.Prod.Lex
import Mathlib.Tactic.Linarith
import SepLab.Lib.Keyset

/-!
# Keyset pagination

The property-testing topic's three cursors over rows that may share a timestamp,
and the harness that walks the pages until there is no next cursor.

## Main definitions

* `page`, `pageInclusive`, `pageComposite` — one page, and the cursor of the next.
* `walkPages` — all pages, one after the other.
* `sortedDescComposite` — the order that the composite cursor is for.

## Main results

* `Row.strictlyDescending_sortedDescComposite` — that order has no ties.
* `walkPages_pageComposite` — the composite cursor visits every row once.
-/

namespace SepLab
namespace Pagination

/-- A row as the query returns it. -/
structure Row where
  createdAt : ℤ
  id : ℤ
deriving DecidableEq

/-- The whole sort key; tuples are compared by their first components first. -/
def Row.key (r : Row) : ℤ ×ₗ ℤ := toLex (r.createdAt, r.id)

/-- What the functions raise. -/
inductive Error
  | valueError (message : String)
  | runtimeError (message : String)
deriving DecidableEq

/-- The rows of a page and the cursor of the next page, `none` after the last one. -/
abbrev Page (C : Type) := List Row × Option C

/-- The rows that the cursor leaves; `within` is the bound that it puts on a row. -/
def bounded {C : Type} (within : Row → C → Bool) (rows : List Row) : Option C → List Row
  | none => rows
  | some c => rows.filter fun r => within r c

/-- The common body of the three implementations; `cursorOf` makes a row the next cursor. -/
def pageBy {C : Type} (within : Row → C → Bool) (cursorOf : Row → C) (rows : List Row)
    (cursor : Option C) (limit : ℤ) : Except Error (Page C) :=
  if limit < 1 then .error (.valueError "limit must be >= 1")
  else
    let out := (bounded within rows cursor).take limit.toNat
    .ok (out, if (out.length : ℤ) = limit then out.getLast?.map cursorOf else none)

/-- The shipped cursor, `WHERE created_at < :cursor`. -/
def page : List Row → Option ℤ → ℤ → Except Error (Page ℤ) :=
  pageBy (fun r c => decide (r.createdAt < c)) Row.createdAt

/-- The cursor with `<=` for `<`. -/
def pageInclusive : List Row → Option ℤ → ℤ → Except Error (Page ℤ) :=
  pageBy (fun r c => decide (r.createdAt ≤ c)) Row.createdAt

/-- The cursor over the whole sort key, `WHERE (created_at, id) < (:ts, :id)`. -/
def pageComposite : List Row → Option (ℤ ×ₗ ℤ) → ℤ → Except Error (Page (ℤ ×ₗ ℤ)) :=
  pageBy (fun r c => decide (r.key < c)) Row.key

/-- An implementation under its name. -/
structure Impl (C : Type) where
  name : String
  run : List Row → Option C → ℤ → Except Error (Page C)

/-- The text of the error after `maxPages` pages with a next cursor. -/
def notTerminated (name : String) (maxPages : ℤ) (emitted inputs : ℕ) : String :=
  s!"{name} did not terminate within {maxPages} pages " ++
    s!"({emitted} rows emitted from {inputs} inputs) -- this is the " ++
    "duplicate-forever failure, not a harness timeout"

/-- The loop of `walk_pages`, with the number of pages that are left. -/
def walkLoop {C : Type} (impl : Impl C) (rows : List Row) (limit maxPages : ℤ) :
    ℕ → List Row → Option C → Except Error (List Row)
  | 0, seen, _ =>
    .error (.runtimeError (notTerminated impl.name maxPages seen.length rows.length))
  | n + 1, seen, cursor =>
    match impl.run rows cursor limit with
    | .error e => .error e
    | .ok (out, none) => .ok (seen ++ out)
    | .ok (out, some c) => walkLoop impl rows limit maxPages n (seen ++ out) (some c)

/-- Walk every page until the implementation says there is no next cursor. -/
def walkPages {C : Type} (impl : Impl C) (rows : List Row) (limit maxPages : ℤ) :
    Except Error (List Row) :=
  walkLoop impl rows limit maxPages maxPages.toNat [] none

/-- The composite cursor's precondition, by a stable sort. -/
def sortedDescComposite (rows : List Row) : List Row :=
  rows.mergeSort fun a b => decide (b.key ≤ a.key)

/-- Rows of different `(created_at, id)` come in a strict order. -/
theorem Row.strictlyDescending_sortedDescComposite {rows : List Row}
    (h : (rows.map Row.key).Nodup) :
    Keyset.StrictlyDescending Row.key (sortedDescComposite rows) := by
  apply Keyset.Descending.strictly
  · have hsorted : (sortedDescComposite rows).Pairwise
        fun a b => decide (b.key ≤ a.key) = true := by
      apply List.pairwise_mergeSort
      · intro a b c hab hbc
        exact decide_eq_true (le_trans (of_decide_eq_true hbc) (of_decide_eq_true hab))
      · intro a b
        simpa using le_total b.key a.key
    exact hsorted.imp fun hle => of_decide_eq_true hle
  · exact ((List.mergeSort_perm rows _).map Row.key).nodup_iff.mpr h

/-! ### Walking with the composite cursor -/

/-- The cursor after the rows `seen`: the key of the last one, none at first. -/
def cursorAfter (seen : List Row) : Option (ℤ ×ₗ ℤ) := seen.getLast?.map Row.key

@[simp] theorem cursorAfter_nil : cursorAfter [] = none := rfl

@[simp] theorem cursorAfter_concat (seen : List Row) (r : Row) :
    cursorAfter (seen ++ [r]) = some r.key := by
  simp [cursorAfter]

variable {seen rest : List Row} {limit : ℤ}

/-- A page is cut from the rows that have not been seen. -/
theorem pageComposite_append (h : Keyset.StrictlyDescending Row.key (seen ++ rest))
    (hlimit : 1 ≤ limit) :
    pageComposite (seen ++ rest) (cursorAfter seen) limit =
      .ok (rest.take limit.toNat,
        if ((rest.take limit.toNat).length : ℤ) = limit then cursorAfter (rest.take limit.toNat)
        else none) := by
  have hbound : bounded (fun r c => decide (r.key < c)) (seen ++ rest) (cursorAfter seen) =
      rest := by
    cases seen using List.reverseRecOn with
    | nil => rfl
    | append_singleton seen r =>
      rw [cursorAfter_concat]
      rw [List.append_assoc, List.singleton_append] at h ⊢
      exact h.filter_lt
  unfold pageComposite pageBy
  rw [if_neg (by omega), hbound]
  rfl

/-- **Every page goes on where the last one ended.**  With enough pages left the walk
returns what it has seen and all the rest. -/
theorem walkLoop_pageComposite (h : Keyset.StrictlyDescending Row.key (seen ++ rest))
    (hlimit : 1 ≤ limit) (maxPages : ℤ) (n : ℕ) (hn : (rest.length : ℤ) < n * limit) :
    walkLoop ⟨"page_composite", pageComposite⟩ (seen ++ rest) limit maxPages n seen
      (cursorAfter seen) = .ok (seen ++ rest) := by
  induction n generalizing seen rest with
  | zero => omega
  | succ n ih =>
    unfold walkLoop
    simp only [pageComposite_append h hlimit]
    by_cases hfull : ((rest.take limit.toNat).length : ℤ) = limit
    · -- a full page: its last row bounds the next page
      have hsplit : rest = rest.take limit.toNat ++ rest.drop limit.toNat :=
        (List.take_append_drop _ _).symm
      have hrest : (rest.length : ℤ) = limit + (rest.drop limit.toNat).length := by
        rw [List.length_take] at hfull
        rw [List.length_drop]
        omega
      have hpage : ∃ page r, rest.take limit.toNat = page ++ [r] := by
        cases hp : rest.take limit.toNat using List.reverseRecOn with
        | nil =>
          rw [hp] at hfull
          simp only [List.length_nil] at hfull
          omega
        | append_singleton page r => exact ⟨page, r, rfl⟩
      obtain ⟨page, r, hpage⟩ := hpage
      have hwhole : seen ++ rest = (seen ++ (page ++ [r])) ++ rest.drop limit.toNat := by
        rw [List.append_assoc, ← hpage, List.take_append_drop]
      have hcursor : cursorAfter (seen ++ (page ++ [r])) = some r.key := by
        rw [← List.append_assoc, cursorAfter_concat]
      rw [if_pos hfull, hpage, cursorAfter_concat]
      simp only
      rw [hwhole] at h ⊢
      rw [← hcursor]
      apply ih h
      push_cast at hn
      linarith
    · -- a short page: it is all that was left
      have hall : rest.take limit.toNat = rest := by
        apply List.take_of_length_le
        rw [List.length_take] at hfull
        omega
      rw [if_neg hfull, hall]

/-- **The composite cursor visits every row exactly once**, in order, however many rows
share a timestamp. -/
theorem walkPages_pageComposite (rows : List Row) (hunique : (rows.map Row.key).Nodup)
    (limit maxPages : ℤ) (hlimit : 1 ≤ limit)
    (hpages : ((sortedDescComposite rows).length : ℤ) < maxPages * limit) :
    walkPages ⟨"page_composite", pageComposite⟩ (sortedDescComposite rows) limit maxPages =
      .ok (sortedDescComposite rows) := by
  have hpos : 0 < maxPages := by
    by_contra hneg
    have hle : maxPages * limit ≤ 0 := mul_nonpos_of_nonpos_of_nonneg (by omega) (by omega)
    omega
  have hn : ((sortedDescComposite rows).length : ℤ) < (maxPages.toNat : ℤ) * limit := by
    rwa [Int.toNat_of_nonneg hpos.le]
  have hstrict : Keyset.StrictlyDescending Row.key ([] ++ sortedDescComposite rows) :=
    Row.strictlyDescending_sortedDescComposite hunique
  exact walkLoop_pageComposite hstrict hlimit maxPages maxPages.toNat hn

/-- Three rows of one timestamp in pages of two: the walk with `created_at` alone would
end without the third. -/
theorem walkPages_pageComposite_ties :
    walkPages ⟨"page_composite", pageComposite⟩ (sortedDescComposite [⟨5, 1⟩, ⟨5, 2⟩, ⟨5, 3⟩])
      2 2 = .ok (sortedDescComposite [⟨5, 1⟩, ⟨5, 2⟩, ⟨5, 3⟩]) := by
  apply walkPages_pageComposite
  · decide
  · decide
  · rw [sortedDescComposite, List.length_mergeSort]
    decide

end Pagination
end SepLab
