import Mathlib.Data.List.MinMax

/-!
# Extremes under a key

Elements are ordered by a time, and chosen by a key. Where two elements have the same key just
when they have the same time, the first element with the least key is an earliest one, and the
first with the greatest key a latest one, unless an extreme element stands the wrong way round to
another one.

## Main definitions

* `Earliest`, `Latest` — no element of a list is earlier, or later.

## Main results

* `earliest_argmin_iff`, `latest_argmax_iff` — **when the choice by the key is right**.
-/

namespace SepLab
namespace KeyOrder

variable {α K T : Type*} [LinearOrder K] [LinearOrder T]

/-- None comes before it. -/
def Earliest (t : α → T) (xs : List α) (a : α) : Prop := ∀ b ∈ xs, t a ≤ t b

/-- None comes after it. -/
def Latest (t : α → T) (xs : List α) (a : α) : Prop := ∀ b ∈ xs, t b ≤ t a

variable {k : α → K} {t : α → T} {xs : List α}

/-- **When the least key is earliest**: an earliest element has a smaller key than any later one. -/
theorem earliest_argmin_iff (hkey : ∀ a ∈ xs, ∀ b ∈ xs, k a = k b ↔ t a = t b) :
    (∀ m ∈ xs.argmin k, Earliest t xs m) ↔
      ∀ a ∈ xs, Earliest t xs a → ∀ b ∈ xs, t a < t b → k a < k b := by
  constructor
  · intro h a ha hearly b hb hlt
    cases hm : xs.argmin k with
    | none =>
      obtain rfl := List.argmin_eq_none.mp hm
      cases ha
    | some m =>
      have hmem := List.argmin_mem hm
      -- the element that is chosen is as early as `a`, so it has the same key
      have hsame : k m = k a :=
        (hkey m hmem a ha).mpr (le_antisymm (h m hm a ha) (hearly m hmem))
      have hle : k a ≤ k b := hsame ▸ List.le_of_mem_argmin hb hm
      exact hle.lt_of_ne fun heq => hlt.ne ((hkey a ha b hb).mp heq)
  · intro h m hm b hb
    have hmem := List.argmin_mem hm
    by_contra hlt
    -- an earliest element would have a smaller key than the one chosen
    obtain ⟨a, ha⟩ : ∃ a, a ∈ xs.argmin t :=
      Option.ne_none_iff_exists'.mp fun hnil => by
        rw [List.argmin_eq_none.mp hnil] at hb
        cases hb
    have hearly : Earliest t xs a := fun c hc => List.le_of_mem_argmin hc ha
    have hbefore : t a < t m := (hearly b hb).trans_lt (not_le.mp hlt)
    have hsmall := h a (List.argmin_mem ha) hearly m hmem hbefore
    exact hsmall.not_ge (List.le_of_mem_argmin (List.argmin_mem ha) hm)

/-- **When the greatest key is latest**: a latest element has a greater key than any earlier one. -/
theorem latest_argmax_iff (hkey : ∀ a ∈ xs, ∀ b ∈ xs, k a = k b ↔ t a = t b) :
    (∀ m ∈ xs.argmax k, Latest t xs m) ↔
      ∀ b ∈ xs, Latest t xs b → ∀ a ∈ xs, t a < t b → k a < k b :=
  earliest_argmin_iff (K := Kᵒᵈ) (T := Tᵒᵈ) (k := fun a => OrderDual.toDual (k a))
    (t := fun a => OrderDual.toDual (t a)) hkey

end KeyOrder
end SepLab
