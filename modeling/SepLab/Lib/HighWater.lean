import Mathlib.Data.List.Basic
import Mathlib.Data.Set.Insert
import Mathlib.Order.Lattice

/-!
# A reader that keeps a mark

Items with keys come to light in any order.  A reader remembers only the largest
key that it has taken, and takes what is visible beyond it, in the order of the
keys.  It never takes anything twice, and what it misses is what comes to light
behind the mark.

## Main definitions

* `HighWater.Behind taken k` — something with a key from `k` on has been taken.
* `HighWater visible taken late` — what is visible, taken, and has come to light too late.

## Main results

* `HighWater.reveal`, `HighWater.poll` — what happens when items come to light or are taken.
* `HighWater.mem_taken_iff` — **what is taken is what came to light in time**, up to the mark.
-/

namespace SepLab

variable {κ : Type*} [LinearOrder κ] {visible visible' late : Set κ} {taken rows : List κ}

/-- Something with a key from `k` on has been taken. -/
def HighWater.Behind (taken : List κ) (k : κ) : Prop := ∃ k' ∈ taken, k ≤ k'

/-- The keys that are visible, those that were taken, in this order, and those that
came to light behind the mark. -/
structure HighWater (visible : Set κ) (taken : List κ) (late : Set κ) : Prop where
  ascending : taken.Pairwise (· < ·)
  mem_visible : ∀ k ∈ taken, k ∈ visible
  behind : ∀ k ∈ late, HighWater.Behind taken k
  taken_iff : ∀ k ∈ visible, HighWater.Behind taken k → (k ∈ taken ↔ k ∉ late)

namespace HighWater

theorem init : HighWater (∅ : Set κ) [] ∅ where
  ascending := .nil
  mem_visible k hk := by cases hk
  behind k hk := hk.elim
  taken_iff k hk := hk.elim

/-- **What is taken is what came to light in time**, as far as the mark has got. -/
theorem mem_taken_iff (h : HighWater visible taken late) {k : κ} (hk : k ∈ visible) :
    k ∈ taken ↔ Behind taken k ∧ k ∉ late := by
  constructor
  · intro hmem
    have hbehind : Behind taken k := ⟨k, hmem, le_rfl⟩
    exact ⟨hbehind, (h.taken_iff k hk hbehind).mp hmem⟩
  · rintro ⟨hbehind, hlate⟩
    exact (h.taken_iff k hk hbehind).mpr hlate

/-- Nothing is taken twice. -/
theorem nodup (h : HighWater visible taken late) : taken.Nodup := h.ascending.imp fun hlt => hlt.ne

/-- **Items come to light.**  Those behind the mark are late. -/
theorem reveal (h : HighWater visible taken late) (hsub : visible ⊆ visible') :
    HighWater visible' taken (late ∪ {k | k ∈ visible' ∧ k ∉ visible ∧ Behind taken k}) where
  ascending := h.ascending
  mem_visible k hk := hsub (h.mem_visible k hk)
  behind k hk := by
    rcases hk with hk | ⟨-, -, hk⟩
    · exact h.behind k hk
    · exact hk
  taken_iff k hk hbehind := by
    by_cases hold : k ∈ visible
    · rw [h.taken_iff k hold hbehind]
      refine not_congr ⟨Or.inl, ?_⟩
      rintro (hlate | ⟨-, hnot, -⟩)
      · exact hlate
      · exact absurd hold hnot
    · refine iff_of_false (fun hmem => hold (h.mem_visible k hmem)) (not_not.mpr ?_)
      exact Or.inr ⟨hk, hold, hbehind⟩

/-- **Items are taken**: visible ones beyond the mark, in order, none of them left out. -/
theorem take (h : HighWater visible taken late) (hasc : rows.Pairwise (· < ·))
    (hrows : ∀ k ∈ rows, k ∈ visible ∧ ¬ Behind taken k)
    (hall : ∀ k ∈ visible, ¬ Behind taken k → Behind rows k → k ∈ rows) :
    HighWater visible (taken ++ rows) late where
  ascending := by
    refine List.pairwise_append.mpr ⟨h.ascending, hasc, fun k hk k' hk' => ?_⟩
    by_contra hle
    exact (hrows k' hk').2 ⟨k, hk, not_lt.mp hle⟩
  mem_visible k hk := by
    rcases List.mem_append.mp hk with hk | hk
    · exact h.mem_visible k hk
    · exact (hrows k hk).1
  behind k hk := by
    obtain ⟨k', hk', hle⟩ := h.behind k hk
    exact ⟨k', List.mem_append_left _ hk', hle⟩
  taken_iff k hk := by
    rintro ⟨k', hk', hle⟩
    rw [List.mem_append]
    by_cases hold : Behind taken k
    · rw [← h.taken_iff k hk hold]
      refine ⟨?_, Or.inl⟩
      rintro (hmem | hmem)
      · exact hmem
      · exact absurd hold (hrows k hmem).2
    · -- not behind the mark before, so not late
      refine iff_of_true (Or.inr (hall k hk hold ?_)) fun hlate => hold (h.behind k hlate)
      rcases List.mem_append.mp hk' with hk' | hk'
      · exact absurd ⟨k', hk', hle⟩ hold
      · exact ⟨k', hk', hle⟩

/-- **A batch is taken**: the first `n` of the visible items beyond the mark. -/
theorem poll (h : HighWater visible taken late) (hasc : rows.Pairwise (· < ·))
    (hrows : ∀ k, k ∈ rows ↔ k ∈ visible ∧ ¬ Behind taken k) (n : ℕ) :
    HighWater visible (taken ++ rows.take n) late := by
  refine h.take (hasc.sublist (List.take_sublist _ _))
    (fun k hk => (hrows k).mp (List.mem_of_mem_take hk)) fun k hk hnot hbehind => ?_
  obtain ⟨k', hk', hle⟩ := hbehind
  have hmem : k ∈ rows.take n ++ rows.drop n := by
    rw [List.take_append_drop]
    exact (hrows k).mpr ⟨hk, hnot⟩
  rcases List.mem_append.mp hmem with hmem | hmem
  · exact hmem
  · -- what is left out is beyond all that is taken
    rw [← List.take_append_drop n rows] at hasc
    exact absurd ((List.pairwise_append.mp hasc).2.2 k' hk' k hmem) (not_lt.mpr hle)

end HighWater
end SepLab
