import Mathlib.Algebra.BigOperators.Group.Finset.Piecewise
import Mathlib.Algebra.Order.BigOperators.Group.Finset
import Mathlib.Tactic.Abel
import SepLab.Lib.Prog

/-!
# Programs that live on credit

Each answer to a program costs something, or earns something.  A program is within a
credit if on no path, and at no point of one, it has spent more than the credit and
what it has earned.  This is a property of the program alone; that threads which are
within their credits together spend no more than the sum of these holds in any order.

## Main definitions

* `Within cost post p q` — `p` is within the credit `q`, and leaves `post a` of it.

## Main results

* `Within.bind` — what a program leaves is the credit of the next one.
* `Within.frame` — a program can be given more than it needs.
* `Within.measure_le` — a measure that grows with the costs is bounded by the credits.
-/

namespace SepLab

universe u v w

variable {E : Type u} {A : E → Type v} {α β : Type w} {R : Type*}
  [AddCommGroup R] [LinearOrder R] [IsOrderedAddMonoid R]
  {cost : (e : E) → A e → R} {post : α → R} {post' : β → R}

omit [IsOrderedAddMonoid R] in
/-- On no path does `p` spend more than `q`, and `post a` of it is left with the result `a`. -/
def Within (cost : (e : E) → A e → R) (post : α → R) : Prog E A α → R → Prop
  | .ret a, q => post a ≤ q
  | .ask e k, q => 0 ≤ q ∧ ∀ a, Within cost post (k a) (q - cost e a)

namespace Within

theorem mono {p : Prog E A α} {q q' : R} (h : Within cost post p q) (hq : q ≤ q') :
    Within cost post p q' := by
  induction p generalizing q q' with
  | ret a => exact le_trans h hq
  | ask e k ih => exact ⟨h.1.trans hq, fun a => ih a (h.2 a) (sub_le_sub_right hq _)⟩

omit [IsOrderedAddMonoid R] in
theorem nonneg {p : Prog E A α} {q : R} (h : Within cost post p q) (hpost : ∀ a, 0 ≤ post a) :
    0 ≤ q := by
  cases p with
  | ret a => exact (hpost a).trans h
  | ask e k => exact h.1

omit [IsOrderedAddMonoid R] in
theorem pure {a : α} {q : R} (h : post a ≤ q) :
    Within cost post (Pure.pure a : Prog E A α) q := h

/-- **What a program leaves is the credit of the next one.** -/
theorem bind {p : Prog E A α} {f : α → Prog E A β} {q : R} (h : Within cost post p q)
    (hf : ∀ a, Within cost post' (f a) (post a)) : Within cost post' (p >>= f) q := by
  induction p generalizing q with
  | ret a => exact (hf a).mono h
  | ask e k ih => exact ⟨h.1, fun a => ih a (h.2 a)⟩

/-- What is kept aside is left at the end. -/
theorem frame {p : Prog E A α} {q : R} (h : Within cost post p q) {r : R} (hr : 0 ≤ r) :
    Within cost (fun a => post a + r) p (q + r) := by
  induction p generalizing q with
  | ret a => exact add_le_add_left h r
  | ask e k ih =>
    refine ⟨add_nonneg h.1 hr, fun a => ?_⟩
    rw [add_sub_right_comm]
    exact ih a (h.2 a)

omit [IsOrderedAddMonoid R] in
/-- A question, and what is done with its answer. -/
theorem query_bind {A : E → Type w} {cost : (e : E) → A e → R} {e : E} {f : A e → Prog E A β}
    {q : R} (hq : 0 ≤ q) (hf : ∀ a, Within cost post' (f a) (q - cost e a)) :
    Within cost post' (Prog.query e >>= f) q :=
  ⟨hq, hf⟩

/-- A question that costs nothing. -/
theorem free_bind {A : E → Type w} {cost : (e : E) → A e → R} {e : E} {f : A e → Prog E A β}
    {q : R} (hcost : ∀ a, cost e a ≤ 0) (hq : 0 ≤ q) (hf : ∀ a, Within cost post' (f a) q) :
    Within cost post' (Prog.query e >>= f) q :=
  query_bind hq fun a => (hf a).mono (le_sub_self_iff q |>.mpr (hcost a))

end Within

section Threads

variable {σ ι : Type*} [Fintype ι] [DecidableEq ι] {answer : σ → (e : E) → A e → A e × σ}
  {s s' : Threads σ ι A α} {μ : σ → R}

omit [LinearOrder R] [IsOrderedAddMonoid R] in
/-- The sum over all threads, when one has paid `c`. -/
theorem sum_update_sub (f : ι → R) (i : ι) (c : R) :
    ∑ j, Function.update f i (f i - c) j = ∑ j, f j - c := by
  have hf : ∑ j, f j = f i + ∑ j ∈ Finset.univ \ {i}, f j :=
    Finset.sum_eq_add_sum_sdiff_singleton_of_mem (Finset.mem_univ i) f
  rw [Finset.sum_update_of_mem (Finset.mem_univ i), hf]
  abel

/-- **A measure that grows with the costs is bounded by the credits**, in any order of the
threads' questions. -/
theorem Within.measure_le (q : ι → R) (hs : ∀ i, Within cost post (s.threads i) (q i))
    (hpost : ∀ a, 0 ≤ post a)
    (hμ : ∀ t e a, μ (answer t e a).2 ≤ μ t + cost e (answer t e a).1)
    (h : Reach (Threads.step answer) s s') : μ s'.shared ≤ μ s.shared + ∑ i, q i := by
  -- every thread is within what is left of its credit
  have hinv : ∃ r : ι → R, (∀ i, Within cost post (s'.threads i) (r i)) ∧
      μ s'.shared + ∑ i, r i ≤ μ s.shared + ∑ i, q i := by
    refine h.invariant (P := fun t => ∃ r : ι → R, (∀ i, Within cost post (t.threads i) (r i)) ∧
      μ t.shared + ∑ i, r i ≤ μ s.shared + ∑ i, q i) ⟨q, hs, le_rfl⟩ ?_
    rintro t ⟨i, w⟩ t' ⟨r, hr, hle⟩ ht
    obtain ⟨e, k, hi, rfl⟩ := Threads.step_cases ht
    have hri := hr i
    rw [hi] at hri
    set a := (answer t.shared e (w e)).1
    refine ⟨Function.update r i (r i - cost e a), ?_, ?_⟩
    · intro j
      by_cases hj : j = i
      · subst hj
        simp only [Function.update_self]
        exact hri.2 a
      · simp only [Function.update_of_ne hj]
        exact hr j
    · rw [sum_update_sub]
      calc μ (answer t.shared e (w e)).2 + (∑ j, r j - cost e a)
          ≤ μ t.shared + cost e a + (∑ j, r j - cost e a) :=
            add_le_add_left (hμ t.shared e (w e)) _
        _ = μ t.shared + ∑ j, r j := by abel
        _ ≤ μ s.shared + ∑ i, q i := hle
  obtain ⟨r, hr, hle⟩ := hinv
  -- what is left is not negative, and may be left out
  have hsum : 0 ≤ ∑ i, r i := Finset.sum_nonneg fun i _ => (hr i).nonneg hpost
  exact (le_add_of_nonneg_right hsum).trans hle

end Threads
end SepLab
