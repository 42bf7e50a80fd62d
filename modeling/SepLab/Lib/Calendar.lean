import Mathlib.Algebra.BigOperators.Intervals
import Mathlib.Algebra.Order.BigOperators.Group.Finset
import Mathlib.Tactic.Ring

/-!
# Positions in a sequence of segments, and the calendar

A point given by a segment and a position in it comes before another one just when its segment
comes first, or it stands first in the same segment. Numbers in a positional system and the days
of the Gregorian calendar are both such points, on several levels.

## Main definitions

* `place len n d` — the position `d` of segment `n`, counted from the beginning.
* `monthLength`, `yearLength`, `dayNumber` — the calendar, days counted from the first of year `0`.

## Main results

* `place_lt_iff`, `place_inj` — **the order of places** is that of the segments first.
* `dayNumber_lt_iff` — the order of dates is that of years, months and days.
-/

namespace SepLab
namespace Calendar

/-! ### Segments -/

/-- The position `d` of segment `n`, counted from the beginning; segment `i` has length `len i`. -/
def place (len : ℕ → ℕ) (n d : ℕ) : ℕ := ∑ i ∈ Finset.range n, len i + d

theorem place_const (len n d : ℕ) : place (fun _ => len) n d = n * len + d := by
  simp [place]

variable {len : ℕ → ℕ} {n n' d d' : ℕ}

/-- A segment is over before the next one begins. -/
theorem place_lt_of_lt (hd : d < len n) (h : n < n') : place len n d < place len n' d' := by
  have hle : ∑ i ∈ Finset.range (n + 1), len i ≤ ∑ i ∈ Finset.range n', len i :=
    Finset.sum_le_sum_of_subset (Finset.range_mono h)
  rw [Finset.sum_range_succ] at hle
  unfold place
  omega

/-- **The order of places.** -/
theorem place_lt_iff (hd : d < len n) (hd' : d' < len n') :
    place len n d < place len n' d' ↔ n < n' ∨ n = n' ∧ d < d' := by
  constructor
  · intro h
    rcases lt_trichotomy n n' with hn | rfl | hn
    · exact Or.inl hn
    · unfold place at h
      exact Or.inr ⟨rfl, by omega⟩
    · exact absurd h (place_lt_of_lt hd' hn).not_gt
  · rintro (hn | ⟨rfl, hlt⟩)
    · exact place_lt_of_lt hd hn
    · unfold place
      omega

/-- A place is in one segment. -/
theorem place_inj (hd : d < len n) (hd' : d' < len n') :
    place len n d = place len n' d' ↔ n = n' ∧ d = d' := by
  constructor
  · intro h
    rcases lt_trichotomy n n' with hn | rfl | hn
    · exact absurd h (place_lt_of_lt hd hn).ne
    · unfold place at h
      exact ⟨rfl, by omega⟩
    · exact absurd h (place_lt_of_lt hd' hn).ne'
  · rintro ⟨rfl, rfl⟩
    rfl

/-- What is in a segment stays below the end of the segment. -/
theorem place_lt_sum (hd : d < len n) (hn : n < n') :
    place len n d < ∑ i ∈ Finset.range n', len i := by
  have hlt : place len n d < place len n' 0 := place_lt_of_lt hd hn
  unfold place at hlt ⊢
  omega

/-! ### The Gregorian calendar -/

/-- A year with a 29th of February. -/
def isLeapYear (y : ℕ) : Bool := y % 4 == 0 && (y % 100 != 0 || y % 400 == 0)

/-- The length of month `m`, where January is `0`. -/
def monthLength (y m : ℕ) : ℕ :=
  if m = 1 then if isLeapYear y then 29 else 28
  else if m = 3 ∨ m = 5 ∨ m = 8 ∨ m = 10 then 30
  else 31

theorem monthLength_le (y m : ℕ) : monthLength y m ≤ 31 := by
  unfold monthLength
  split
  · split
    · decide
    · decide
  split
  · decide
  · exact le_rfl

/-- The days of a year. -/
def yearLength (y : ℕ) : ℕ := ∑ m ∈ Finset.range 12, monthLength y m

/-- The number of days before day `d` of month `m` of year `y`; the first month and the first day
are `1`. -/
def dayNumber (y m d : ℕ) : ℕ := place yearLength y (place (monthLength y) (m - 1) (d - 1))

/-- The day is one of the month. -/
def IsDate (y m d : ℕ) : Prop := 1 ≤ m ∧ m ≤ 12 ∧ 1 ≤ d ∧ d ≤ monthLength y (m - 1)

instance (y m d : ℕ) : Decidable (IsDate y m d) :=
  inferInstanceAs (Decidable (1 ≤ m ∧ m ≤ 12 ∧ 1 ≤ d ∧ d ≤ monthLength y (m - 1)))

/-- Months and days have two digits. -/
theorem IsDate.le {y m d : ℕ} (h : IsDate y m d) : m ≤ 12 ∧ d ≤ 31 :=
  ⟨h.2.1, h.2.2.2.trans (monthLength_le _ _)⟩

theorem IsDate.day_lt {y m d : ℕ} (h : IsDate y m d) :
    place (monthLength y) (m - 1) (d - 1) < yearLength y := by
  obtain ⟨hm₁, hm, hd₁, hd⟩ := h
  exact place_lt_sum (by omega) (by omega)

/-- **The order of dates.** -/
theorem dayNumber_lt_iff {y m d y' m' d' : ℕ} (h : IsDate y m d) (h' : IsDate y' m' d') :
    dayNumber y m d < dayNumber y' m' d' ↔
      y < y' ∨ y = y' ∧ (m < m' ∨ m = m' ∧ d < d') := by
  unfold dayNumber
  rw [place_lt_iff h.day_lt h'.day_lt]
  obtain ⟨hm₁, hm, hd₁, hd⟩ := h
  obtain ⟨hm₁', hm', hd₁', hd'⟩ := h'
  refine or_congr Iff.rfl (and_congr_right fun hy => ?_)
  subst hy
  rw [place_lt_iff (by omega) (by omega)]
  omega

theorem dayNumber_inj {y m d y' m' d' : ℕ} (h : IsDate y m d) (h' : IsDate y' m' d') :
    dayNumber y m d = dayNumber y' m' d' ↔ y = y' ∧ m = m' ∧ d = d' := by
  unfold dayNumber
  rw [place_inj h.day_lt h'.day_lt]
  obtain ⟨hm₁, hm, hd₁, hd⟩ := h
  obtain ⟨hm₁', hm', hd₁', hd'⟩ := h'
  refine and_congr_right fun hy => ?_
  subst hy
  rw [place_inj (by omega) (by omega)]
  omega

/-- The first of January 1970 is day `719528`. -/
example : dayNumber 1970 1 1 = 719528 := by decide +kernel

end Calendar
end SepLab
