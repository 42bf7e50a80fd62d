import Mathlib.Data.Int.Notation
import Mathlib.Data.List.Induction

/-!
# The last hit in a history

The last element of a growing list that meets a condition, with its position.

## Main definitions

* `hits p l`, `lastHit p l` — the elements that meet `p` with their positions, the last of them.
* `lastIndex p l` — its position, and `-1` if there is none.

## Main results

* `lastHit_concat`, `lastHit_map` — the last hit as the list grows, and in an image of it.
* `lastHit_eq_some_iff` — what the last hit is.
* `le_lastIndex` — no hit comes after the last one.
-/

namespace SepLab

variable {α β : Type*} {p : α → Bool} {l : List α} {a : α} {i : ℕ}

/-- The elements that meet `p`, each with its position. -/
def hits (p : α → Bool) (l : List α) : List (α × ℕ) := l.zipIdx.filter fun e => p e.1

/-- The last of them. -/
def lastHit (p : α → Bool) (l : List α) : Option (α × ℕ) := (hits p l).getLast?

/-- The position of the last element that meets `p`, or `-1`. -/
def lastIndex (p : α → Bool) (l : List α) : ℤ := (lastHit p l).elim (-1) fun e => e.2

@[simp] theorem lastHit_nil (p : α → Bool) : lastHit p [] = none := rfl

@[simp] theorem lastIndex_nil (p : α → Bool) : lastIndex p [] = -1 := rfl

/-- The last hit as the list grows. -/
theorem lastHit_concat (p : α → Bool) (l : List α) (a : α) :
    lastHit p (l ++ [a]) = if p a then some (a, l.length) else lastHit p l := by
  unfold lastHit hits
  rw [List.zipIdx_append, List.filter_append, List.getLast?_append]
  cases h : p a <;> simp [h]

theorem lastHit_map (p : β → Bool) (f : α → β) (l : List α) :
    lastHit p (l.map f) = (lastHit (p ∘ f) l).map fun e => (f e.1, e.2) := by
  induction l using List.reverseRecOn with
  | nil => rfl
  | append_singleton l a ih =>
    rw [List.map_append, List.map_singleton, lastHit_concat, lastHit_concat, ih, List.length_map,
      Function.comp_apply]
    split <;> rfl

theorem lastIndex_map (p : β → Bool) (f : α → β) (l : List α) :
    lastIndex p (l.map f) = lastIndex (p ∘ f) l := by
  unfold lastIndex
  rw [lastHit_map]
  cases lastHit (p ∘ f) l <;> rfl

/-- **What the last hit is**: it meets the condition, and nothing after it does. -/
theorem lastHit_eq_some_iff : lastHit p l = some (a, i) ↔
    l[i]? = some a ∧ p a = true ∧ ∀ (k : ℕ) b, i < k → l[k]? = some b → p b = false := by
  induction l using List.reverseRecOn generalizing a i with
  | nil => simp
  | append_singleton l b ih =>
    rw [lastHit_concat]
    by_cases hb : p b = true
    -- the new element is a hit, and nothing is behind it
    · rw [if_pos hb, Option.some_inj, Prod.mk.injEq]
      constructor
      · rintro ⟨rfl, rfl⟩
        refine ⟨List.getElem?_concat_length, hb, ?_⟩
        intro k c hk hc
        have hlt := (List.getElem?_eq_some_iff.mp hc).1
        rw [List.length_append, List.length_singleton] at hlt
        omega
      · rintro ⟨ha, -, hlast⟩
        have hle : l.length ≤ i := by
          by_contra hlt
          have := hlast l.length b (by omega) List.getElem?_concat_length
          simp [hb] at this
        have hlt := (List.getElem?_eq_some_iff.mp ha).1
        rw [List.length_append, List.length_singleton] at hlt
        obtain rfl : i = l.length := by omega
        rw [List.getElem?_concat_length, Option.some_inj] at ha
        exact ⟨ha, rfl⟩
    -- it is none, so the last hit is that of the list before
    · rw [if_neg hb, ih]
      constructor
      · rintro ⟨ha, hp, hlast⟩
        have hlt := (List.getElem?_eq_some_iff.mp ha).1
        refine ⟨by rwa [List.getElem?_append_left hlt], hp, ?_⟩
        intro k c hk hc
        by_cases hkl : k < l.length
        · rw [List.getElem?_append_left hkl] at hc
          exact hlast k c hk hc
        · rw [List.getElem?_append_right (by omega)] at hc
          obtain ⟨-, rfl⟩ := by simpa [List.getElem?_singleton] using hc
          simpa using hb
      · rintro ⟨ha, hp, hlast⟩
        have hlt : i < l.length := by
          by_contra hle
          rw [List.getElem?_append_right (by omega)] at ha
          obtain ⟨-, rfl⟩ := by simpa [List.getElem?_singleton] using ha
          exact hb hp
        rw [List.getElem?_append_left hlt] at ha
        refine ⟨ha, hp, ?_⟩
        intro k c hk hc
        exact hlast k c hk (by rwa [List.getElem?_append_left (List.getElem?_eq_some_iff.mp hc).1])

theorem lastHit_eq_none_iff : lastHit p l = none ↔ ∀ a ∈ l, p a = false := by
  induction l using List.reverseRecOn with
  | nil => simp
  | append_singleton l b ih =>
    rw [lastHit_concat]
    by_cases hb : p b = true
    · simp [hb]
    · simp [hb, ih, or_imp, forall_and]

theorem lastIndex_eq_of_lastHit (h : lastHit p l = some (a, i)) : lastIndex p l = i := by
  rw [lastIndex, h]
  rfl

theorem neg_one_le_lastIndex : -1 ≤ lastIndex p l := by
  unfold lastIndex
  cases lastHit p l with
  | none => exact Int.le_refl _
  | some e => show (-1 : ℤ) ≤ (e.2 : ℤ); omega

/-- **No hit comes after the last one.** -/
theorem le_lastIndex (ha : l[i]? = some a) (hp : p a = true) : (i : ℤ) ≤ lastIndex p l := by
  cases hlast : lastHit p l with
  | none =>
    have hnot := lastHit_eq_none_iff.mp hlast a (List.mem_of_getElem? ha)
    simp [hp] at hnot
  | some e =>
    rw [lastIndex_eq_of_lastHit hlast]
    by_contra hlt
    have hnot := (lastHit_eq_some_iff.mp hlast).2.2 i a (by omega) ha
    simp [hp] at hnot

end SepLab
