import SepLab.Lib.KeysetOverlap
import SepLab.Pagination.Ties

/-!
# What the inclusive cursor repeats

`page_inclusive` bounds the next page by `<=` on the timestamp of the last row, so that
the rows which share that timestamp are served again.  Walking with it ends unless as
many rows as a page holds share a timestamp; it loses nothing then, and serves each
row once only where one page holds them all.

## Main results

* `Pages.of_overlap` — `page_inclusive` reads the rows as the bound on timestamps does.
* `walkLoop_stuck` — a timestamp that fills a page is served for ever.
* `walkPages_pageInclusive` — **exactly when the walk ends, and what it yields.**
-/

namespace SepLab
namespace Pagination

variable {rows : List Row} {cursor : Option ℤ} {n : ℕ}

/-- The bound of the inclusive cursor. -/
def upTo (r : Row) (c : ℤ) : Bool := decide (r.createdAt ≤ c)

/-- A later bound is tighter than the one before. -/
theorem bounded_upTo_of_mem {a : Row} (ha : a ∈ bounded upTo rows cursor) :
    bounded upTo rows (some a.createdAt) =
      (bounded upTo rows cursor).filter fun r => decide (r.createdAt ≤ a.createdAt) := by
  cases cursor with
  | none => rfl
  | some c =>
    have hac : a.createdAt ≤ c := of_decide_eq_true (List.mem_filter.mp ha).2
    show rows.filter _ = (rows.filter _).filter _
    rw [List.filter_filter]
    refine List.filter_congr fun r _ => ?_
    unfold upTo
    by_cases hr : r.createdAt ≤ a.createdAt
    · simp [hr, hr.trans hac]
    · simp [hr]

/-- A bound keeps the order of the rows. -/
theorem descending_bounded (h : Keyset.Descending Row.createdAt rows) (cursor : Option ℤ) :
    Keyset.Descending Row.createdAt (bounded upTo rows cursor) := by
  cases cursor with
  | none => exact h
  | some c => exact h.sublist List.filter_sublist

/-- A page that is not filled is the last one. -/
theorem pageInclusive_of_short {out : List Row} (h : bounded upTo rows cursor = out)
    (hout : out.length < n) : pageInclusive rows cursor n = .ok (out, none) := by
  have htake : out.take n = out := List.take_of_length_le hout.le
  have hne : (out.length : ℤ) ≠ n := by omega
  show pageBy upTo Row.createdAt rows cursor n = _
  unfold pageBy
  rw [if_neg (by omega), h, Int.toNat_natCast, htake]
  simp only [if_neg hne]

/-- A page that is filled is bounded by its last row. -/
theorem pageInclusive_of_full {front rest : List Row} {a : Row}
    (h : bounded upTo rows cursor = front ++ a :: rest) (hlen : front.length + 1 = n) :
    pageInclusive rows cursor n = .ok (front ++ [a], some a.createdAt) := by
  have htake : (front ++ a :: rest).take n = front ++ [a] := by
    rw [← List.singleton_append, ← List.append_assoc]
    exact List.take_left' (by simpa using hlen)
  have hfull : ((front ++ [a]).length : ℤ) = n := by
    rw [← hlen, List.length_append]
    rfl
  show pageBy upTo Row.createdAt rows cursor n = _
  unfold pageBy
  rw [if_neg (by omega), h, Int.toNat_natCast, htake]
  simp only [if_pos hfull, List.getLast?_concat]
  rfl

/-- **A walk with the inclusive cursor reads the rows as the bound on timestamps does.** -/
theorem Pages.of_overlap {rest : List Row} {pages : List (List Row)}
    (h : Keyset.Overlap Row.createdAt n rest pages)
    (hsorted : Keyset.Descending Row.createdAt rows) (hrest : bounded upTo rows cursor = rest) :
    Pages ⟨"page_inclusive", pageInclusive⟩ rows n cursor pages := by
  induction h generalizing cursor with
  | last hlen => exact .last (pageInclusive_of_short hrest hlen)
  | @full front ties rest a pages _ hfront hties hlen _ ih =>
    have ha : a ∈ bounded upTo rows cursor := by
      rw [hrest]
      simp
    have hdesc := descending_bounded hsorted cursor
    rw [hrest] at hdesc
    have hnext : bounded upTo rows (some a.createdAt) = ties ++ a :: rest := by
      rw [bounded_upTo_of_mem ha, hrest]
      exact Keyset.filter_le hfront hties (List.pairwise_append.mp hdesc).2.1
    rw [← List.append_assoc] at hrest
    refine .next (pageInclusive_of_full hrest ?_) (ih hnext)
    rw [List.length_append]
    exact hlen

/-- **A timestamp that fills a page is served for ever.** -/
theorem walkLoop_stuck (hn : 0 < n) (hsorted : Keyset.Descending Row.createdAt rows) {r : Row}
    (maxPages : ℤ) (m : ℕ) (seen : List Row)
    (hrun : n ≤ Keyset.runLength Row.createdAt (bounded upTo rows cursor) r) :
    ∃ message, walkLoop ⟨"page_inclusive", pageInclusive⟩ rows n maxPages m seen cursor =
      .error (.runtimeError message) := by
  induction m generalizing seen cursor with
  | zero => exact ⟨_, rfl⟩
  | succ m ih =>
    obtain ⟨front, a, rest, hrest, hlen, hnext⟩ :=
      (descending_bounded hsorted cursor).stuck hn hrun
    have ha : a ∈ bounded upTo rows cursor := by
      rw [hrest]
      simp
    rw [← bounded_upTo_of_mem ha] at hnext
    unfold walkLoop
    simp only [pageInclusive_of_full hrest hlen]
    exact ih (seen ++ (front ++ [a])) hnext

/-- **When the inclusive cursor ends, and what it yields.**  On rows sorted by timestamp: if some
timestamp has as many rows as a page holds, the walk fails, whatever number of pages it may
fetch; otherwise, with more pages than rows, it ends, all rows are served in their order, and
none is served twice only if they are fewer than a page holds. -/
theorem walkPages_pageInclusive (rows : List Row)
    (hsorted : Keyset.Descending Row.createdAt rows) (limit : ℤ) (hlimit : 1 ≤ limit) :
    ((∃ r ∈ rows, limit ≤ Keyset.runLength Row.createdAt rows r) → ∀ maxPages, ∃ message,
      walkPages ⟨"page_inclusive", pageInclusive⟩ rows limit maxPages =
        .error (.runtimeError message)) ∧
    ((∀ r ∈ rows, Keyset.runLength Row.createdAt rows r < limit) →
      ∀ maxPages : ℤ, rows.length < maxPages → ∃ out,
        walkPages ⟨"page_inclusive", pageInclusive⟩ rows limit maxPages = .ok out ∧
        rows.Sublist out ∧ (rows.length < limit → out = rows) ∧
        (limit ≤ rows.length → ¬ out.Nodup)) := by
  obtain ⟨n, rfl⟩ : ∃ n : ℕ, limit = n := ⟨limit.toNat, by omega⟩
  have hn : 0 < n := by omega
  constructor
  · rintro ⟨r, -, hrun⟩ maxPages
    -- a run of equal times as long as a page has nowhere to go but itself
    have hstuck : n ≤ Keyset.runLength Row.createdAt (bounded upTo rows none) r :=
      Int.ofNat_le.mp hrun
    exact walkLoop_stuck hn hsorted maxPages _ [] hstuck
  · intro hrun maxPages hpages
    obtain ⟨pages, hover⟩ := hsorted.exists_overlap hn fun r hr => Int.ofNat_lt.mp (hrun r hr)
    have hread : Pages ⟨"page_inclusive", pageInclusive⟩ rows n none pages :=
      Pages.of_overlap hover hsorted rfl
    have hwalk := hread.walkLoop_eq maxPages
      (n := maxPages.toNat) (by have := hover.length_le; omega) []
    refine ⟨pages.flatten, hwalk, hover.sublist, fun hlt => ?_, fun hle => ?_⟩
    · exact hover.flatten_of_lt (Int.ofNat_lt.mp hlt)
    · exact hover.not_nodup (Int.ofNat_le.mp hle)

/-- Two rows of one timestamp: pages of two are served for ever, and pages of three end. -/
theorem walkPages_pageInclusive_ties :
    (∃ message, walkPages ⟨"page_inclusive", pageInclusive⟩ [⟨5, 2⟩, ⟨5, 1⟩, ⟨4, 9⟩] 2 1000 =
      .error (.runtimeError message)) ∧
    ∃ out, walkPages ⟨"page_inclusive", pageInclusive⟩ [⟨5, 2⟩, ⟨5, 1⟩, ⟨4, 9⟩] 3 1000 = .ok out ∧
      ¬ out.Nodup := by
  constructor
  · exact (walkPages_pageInclusive [⟨5, 2⟩, ⟨5, 1⟩, ⟨4, 9⟩] (by decide) 2 (by decide)).1
      (by decide) 1000
  · obtain ⟨out, hout, -, -, hdup⟩ :=
      (walkPages_pageInclusive [⟨5, 2⟩, ⟨5, 1⟩, ⟨4, 9⟩] (by decide) 3 (by decide)).2 (by decide)
        1000
        (by decide)
    exact ⟨out, hout, hdup (by decide)⟩

end Pagination
end SepLab
