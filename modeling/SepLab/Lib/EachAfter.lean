import Mathlib.Data.List.Basic
import Mathlib.Data.List.Infix
import Mathlib.Data.List.Induction
import Mathlib.Order.Lattice

/-!
# Histories in which each element follows from those before it

A history grows at its end, and each element is related to all that was there when it
came.  What is related to the last element alone, and is over it, is over all of them.

## Main definitions

* `EachAfter R xs` — each element of `xs` has the relation `R` to those before it.

## Main results

* `EachAfter.concat`, `EachAfter.of_isPrefix`, `EachAfter.mem` — a history that grows.
* `EachAfter.sorted` — a history that increases from one element to the next is sorted.
-/

namespace SepLab

variable {α : Type*} {R R' : List α → α → Prop} {xs : List α}

/-- Each element has the relation `R` to all that is before it. -/
def EachAfter (R : List α → α → Prop) (xs : List α) : Prop :=
  ∀ pre x, pre ++ [x] <+: xs → R pre x

theorem EachAfter.nil : EachAfter R [] := by
  intro pre x h
  exact absurd (List.prefix_nil.mp h) (by simp)

theorem EachAfter.mono (h : EachAfter R xs)
    (hmono : ∀ pre x, pre ++ [x] <+: xs → R pre x → R' pre x) : EachAfter R' xs :=
  fun pre x hpre => hmono pre x hpre (h pre x hpre)

theorem EachAfter.of_isPrefix {ys : List α} (h : EachAfter R xs) (hys : ys <+: xs) :
    EachAfter R ys := fun pre x hpre => h pre x (hpre.trans hys)

/-- One more element. -/
theorem EachAfter.concat (h : EachAfter R xs) {x : α} (hx : R xs x) : EachAfter R (xs ++ [x]) := by
  intro pre y hpre
  rcases List.prefix_concat_iff.mp hpre with heq | hpre
  · obtain ⟨rfl, hy⟩ := List.append_inj' heq rfl
    obtain rfl := List.singleton_inj.mp hy
    exact hx
  · exact h pre y hpre

/-- Whatever is in the history has something before it, if only nothing. -/
theorem EachAfter.mem (h : EachAfter R xs) {x : α} (hx : x ∈ xs) :
    ∃ pre, pre ++ [x] <+: xs ∧ R pre x := by
  obtain ⟨pre, post, rfl⟩ := List.append_of_mem hx
  have hpre : pre ++ [x] <+: pre ++ x :: post := ⟨post, by simp⟩
  exact ⟨pre, hpre, h pre x hpre⟩

section Sorted

variable {τ : Type*} [LinearOrder τ] {f : α → τ}

/-- In a history that increases the last element is the greatest. -/
theorem le_getLast (h : xs.Pairwise fun x y => f x < f y) {x r : α} (hx : x ∈ xs)
    (hr : xs.getLast? = some r) : f x ≤ f r := by
  obtain ⟨ys, rfl⟩ := List.getLast?_eq_some_iff.mp hr
  rcases List.mem_append.mp hx with hx | hx
  · exact ((List.pairwise_append.mp h).2.2 x hx r List.mem_cons_self).le
  · rw [List.mem_singleton.mp hx]

/-- **What is over the last element is over all of them.** -/
theorem EachAfter.sorted
    (h : EachAfter (fun pre x => ∀ r, pre.getLast? = some r → f r < f x) xs) :
    xs.Pairwise fun x y => f x < f y := by
  induction xs using List.reverseRecOn with
  | nil => exact List.Pairwise.nil
  | append_singleton xs x ih =>
    have hxs := ih (h.of_isPrefix (List.prefix_append xs [x]))
    refine List.pairwise_append.mpr ⟨hxs, List.pairwise_singleton _ _, fun y hy z hz => ?_⟩
    rw [List.mem_singleton.mp hz]
    cases hlast : xs.getLast? with
    | none =>
      rw [List.getLast?_eq_none_iff.mp hlast] at hy
      cases hy
    | some r => exact (le_getLast hxs hy hlast).trans_lt (h xs x List.prefix_rfl r hlast)

end Sorted

end SepLab
