import SepLab.Pagination.Pages

/-!
# What the shipped cursor loses

`page` bounds the next page by the timestamp of the last row alone.  Walking with it
ends, repeats nothing, and skips the rows that share a timestamp with the last row of a
full page and come after it.

## Main definitions

* `Pages impl rows limit cursor pages` — the pages that consecutive calls return.

## Main results

* `Pages.walkLoop_eq` — the walk returns them one after the other.
* `Pages.of_cut` — `page` cuts the rows as the bound on timestamps does.
* `walkPages_page` — **exactly the boundary ties are lost**.
-/

namespace SepLab
namespace Pagination

/-- The pages that an implementation returns from a cursor on, each call with the cursor
that the one before has returned, until there is none. -/
inductive Pages {C : Type} (impl : Impl C) (rows : List Row) (limit : ℤ) :
    Option C → List (List Row) → Prop
  | last {cursor : Option C} {out : List Row}
      (hrun : impl.run rows cursor limit = .ok (out, none)) : Pages impl rows limit cursor [out]
  | next {cursor : Option C} {out : List Row} {c : C} {pages : List (List Row)}
      (hrun : impl.run rows cursor limit = .ok (out, some c))
      (hrest : Pages impl rows limit (some c) pages) : Pages impl rows limit cursor (out :: pages)

/-- **The walk returns the pages one after the other**, if it may fetch that many. -/
theorem Pages.walkLoop_eq {C : Type} {impl : Impl C} {rows : List Row} {limit : ℤ}
    {cursor : Option C} {pages : List (List Row)} (h : Pages impl rows limit cursor pages)
    (maxPages : ℤ) {n : ℕ} (hn : pages.length ≤ n) (seen : List Row) :
    walkLoop impl rows limit maxPages n seen cursor = .ok (seen ++ pages.flatten) := by
  induction h generalizing n seen with
  | last hrun =>
    obtain ⟨n, rfl⟩ : ∃ m, n = m + 1 := ⟨n - 1, by simp at hn; omega⟩
    unfold walkLoop
    rw [hrun, List.flatten_singleton]
  | next hrun _ ih =>
    rw [List.length_cons] at hn
    obtain ⟨n, rfl⟩ : ∃ m, n = m + 1 := ⟨n - 1, by omega⟩
    unfold walkLoop
    rw [hrun]
    simp only
    rw [ih (by omega), List.flatten_cons, List.append_assoc]

/-! ### Pages of the shipped cursor -/

/-- The bound of the shipped cursor. -/
def before (r : Row) (c : ℤ) : Bool := decide (r.createdAt < c)

variable {rows : List Row} {cursor : Option ℤ} {n : ℕ}

/-- A later bound is tighter than the one before. -/
theorem bounded_of_mem {a : Row} (ha : a ∈ bounded before rows cursor) :
    bounded before rows (some a.createdAt) =
      (bounded before rows cursor).filter fun r => decide (r.createdAt < a.createdAt) := by
  cases cursor with
  | none => rfl
  | some c =>
    have hac : a.createdAt < c := of_decide_eq_true (List.mem_filter.mp ha).2
    show rows.filter _ = (rows.filter _).filter _
    rw [List.filter_filter]
    apply List.filter_congr
    intro r _
    unfold before
    by_cases hr : r.createdAt < a.createdAt
    · simp [hr, hr.trans hac]
    · simp [hr]

/-- A page that is not filled is the last one. -/
theorem page_of_short {out : List Row} (h : bounded before rows cursor = out)
    (hout : out.length < n) : page rows cursor n = .ok (out, none) := by
  have htake : out.take n = out := List.take_of_length_le hout.le
  have hne : (out.length : ℤ) ≠ n := by omega
  show pageBy before Row.createdAt rows cursor n = _
  unfold pageBy
  rw [if_neg (by omega), h, Int.toNat_natCast, htake]
  simp only [if_neg hne]

/-- A page that is filled is bounded by its last row. -/
theorem page_of_full {xs tail : List Row} {a : Row}
    (h : bounded before rows cursor = xs ++ a :: tail) (hlen : xs.length + 1 = n) :
    page rows cursor n = .ok (xs ++ [a], some a.createdAt) := by
  have htake : (xs ++ a :: tail).take n = xs ++ [a] := by
    rw [← List.singleton_append, ← List.append_assoc]
    exact List.take_left' (by simpa using hlen)
  have hfull : ((xs ++ [a]).length : ℤ) = n := by
    rw [← hlen, List.length_append]
    rfl
  show pageBy before Row.createdAt rows cursor n = _
  unfold pageBy
  rw [if_neg (by omega), h, Int.toNat_natCast, htake]
  simp only [if_pos hfull, List.getLast?_concat]
  rfl

/-- **A walk with the shipped cursor cuts the rows as the bound on timestamps does.** -/
theorem Pages.of_cut {rest : List Row} {pages : List (List Row)}
    (h : Keyset.Cut Row.createdAt n rest pages) (hsorted : Keyset.Descending Row.createdAt rows)
    (hrest : bounded before rows cursor = rest) :
    Pages ⟨"page", page⟩ rows n cursor pages := by
  induction h generalizing cursor with
  | last hlen => exact .last (page_of_short hrest hlen)
  | @full xs ties rest a pages hlen hties hlt _ ih =>
    have ha : a ∈ bounded before rows cursor := by
      rw [hrest]
      exact List.mem_append_right _ List.mem_cons_self
    have hdesc : Keyset.Descending Row.createdAt (xs ++ a :: (ties ++ rest)) := by
      rw [← hrest]
      cases cursor with
      | none => exact hsorted
      | some c => exact hsorted.sublist List.filter_sublist
    -- the bound keeps nothing of the ties and all of the rest
    have hnone : ties.filter (fun r => decide (r.createdAt < a.createdAt)) = [] := by
      rw [List.filter_eq_nil_iff]
      intro r hr hlt
      exact (of_decide_eq_true hlt).ne (hties r hr)
    have hall : rest.filter (fun r => decide (r.createdAt < a.createdAt)) = rest := by
      rw [List.filter_eq_self]
      exact fun r hr => decide_eq_true (hlt r hr)
    have hnext : bounded before rows (some a.createdAt) = rest := by
      rw [bounded_of_mem ha, hrest, hdesc.filter_lt, List.filter_append, hnone, hall,
        List.nil_append]
    exact .next (page_of_full hrest hlen) (ih hnext)

/-- **Exactly the boundary ties are lost.**  On rows sorted by timestamp, with enough pages
to fetch, the walk ends; the pages hold rows at increasing places, so that no place comes
twice; and a place is on no page just if it follows the last row of a full page and has the
timestamp of that row. -/
theorem walkPages_page (rows : List Row) (hsorted : Keyset.Descending Row.createdAt rows)
    (limit maxPages : ℤ) (hlimit : 1 ≤ limit) (hpages : (rows.length : ℤ) < maxPages * limit) :
    ∃ pages : List (List (Row × ℕ)),
      Pages ⟨"page", page⟩ rows limit none (pages.map (List.map Prod.fst)) ∧
      walkPages ⟨"page", page⟩ rows limit maxPages = .ok (pages.flatten.map Prod.fst) ∧
      pages.flatten.Sublist rows.zipIdx ∧ (pages.flatten.map Prod.snd).Nodup ∧
      (pages.flatten.map Prod.fst).Sublist rows ∧
      ∀ p ∈ rows.zipIdx, p ∉ pages.flatten ↔ ∃ page ∈ pages, (page.length : ℤ) = limit ∧
        ∃ b, page.getLast? = some b ∧ b.2 < p.2 ∧ p.1.createdAt = b.1.createdAt := by
  obtain ⟨n, rfl⟩ : ∃ n : ℕ, limit = n := ⟨limit.toNat, by omega⟩
  have hsortedIdx : Keyset.Descending (Row.createdAt ∘ Prod.fst) rows.zipIdx := by
    rwa [← Keyset.descending_map, List.zipIdx_map_fst]
  have hplaces : rows.zipIdx.Pairwise fun p q => p.2 < q.2 := by
    apply List.pairwise_map.mp
    rw [List.zipIdx_map_snd]
    exact List.pairwise_lt_range'
  -- the pages cut the rows, and what they lose is the ties the cut runs through
  obtain ⟨pages, hcut⟩ := hsortedIdx.exists_cut (by omega : 0 < n)
  have hsub : pages.flatten.Sublist rows.zipIdx := hcut.flatten_sublist
  have hrun : Pages ⟨"page", page⟩ rows n none (pages.map (List.map Prod.fst)) := by
    apply Pages.of_cut _ hsorted rfl
    have := hcut.map
    rwa [List.zipIdx_map_fst] at this
  -- the walk reads these pages
  have henough : (pages.map (List.map Prod.fst)).length ≤ maxPages.toNat := by
    have hlen := hcut.length_mul_le
    rw [List.length_zipIdx] at hlen
    have hlt : (pages.length : ℤ) * n < (maxPages + 1) * n := by
      zify at hlen
      linarith
    have := lt_of_mul_lt_mul_right hlt (by omega)
    rw [List.length_map]
    omega
  refine ⟨pages, hrun, ?_, hsub, ?_, ?_, ?_⟩
  · have hwalk := hrun.walkLoop_eq maxPages henough []
    rwa [List.nil_append, ← List.map_flatten] at hwalk
  · have hlt : (pages.flatten.map Prod.snd).Pairwise fun i j => i < j :=
      List.pairwise_map.mpr (hplaces.sublist hsub)
    exact hlt.imp fun h => h.ne
  -- what is collected is in order and has no row twice
  · have := hsub.map Prod.fst
    rwa [List.zipIdx_map_fst] at this
  · intro p hp
    rw [hcut.not_mem_flatten_iff hplaces hp]
    simp only [Nat.cast_inj]
    rfl

/-- Four rows of one timestamp and an older one in pages of two: of the six facts, that
there are pages, that the walk returns them, and that they are rows in order. -/
theorem walkPages_page_ties :
    ∃ pages : List (List (Row × ℕ)),
      Pages ⟨"page", page⟩ [⟨5, 4⟩, ⟨5, 3⟩, ⟨5, 2⟩, ⟨5, 1⟩, ⟨4, 9⟩] 2 none
        (pages.map (List.map Prod.fst)) ∧
      walkPages ⟨"page", page⟩ [⟨5, 4⟩, ⟨5, 3⟩, ⟨5, 2⟩, ⟨5, 1⟩, ⟨4, 9⟩] 2 1000 =
        .ok (pages.flatten.map Prod.fst) ∧
      (pages.flatten.map Prod.fst).Sublist [⟨5, 4⟩, ⟨5, 3⟩, ⟨5, 2⟩, ⟨5, 1⟩, ⟨4, 9⟩] := by
  obtain ⟨pages, hpages, hwalk, -, -, hsub, -⟩ :=
    walkPages_page [⟨5, 4⟩, ⟨5, 3⟩, ⟨5, 2⟩, ⟨5, 1⟩, ⟨4, 9⟩] (by decide) 2 1000 (by decide)
      (by decide)
  exact ⟨pages, hpages, hwalk, hsub⟩

example : walkPages ⟨"page", page⟩ [⟨5, 4⟩, ⟨5, 3⟩, ⟨5, 2⟩, ⟨5, 1⟩, ⟨4, 9⟩] 2 1000 =
    .ok [⟨5, 4⟩, ⟨5, 3⟩, ⟨4, 9⟩] := by
  decide

end Pagination
end SepLab
