import Mathlib.Algebra.Order.Floor.Ring
import Mathlib.Algebra.Order.AbsoluteValue.Basic
import Mathlib.Algebra.Order.Field.Basic
import Mathlib.Algebra.Ring.Int.Parity
import Mathlib.Tactic.Linarith
import Mathlib.Tactic.NormNum

/-!
# Rounding to the nearest integer, ties to the even one

## Main definitions

* `IsHalfEven x n` — `n` is a nearest integer to `x`, the even one if there are two.
* `roundHalfEven x` — that integer, from the integer below and what is above it.

## Main results

* `IsHalfEven.unique` — **there is only one**.
* `isHalfEven_roundHalfEven` — the rounding finds it.
-/

namespace SepLab

variable {K : Type*} [Field K] [LinearOrder K] [IsStrictOrderedRing K]

/-- A nearest integer, the even one if there are two. -/
structure IsHalfEven (x : K) (n : ℤ) : Prop where
  near : |x - n| ≤ 1 / 2
  even : |x - n| = 1 / 2 → Even n

/-- **There is only one** such integer: two would lie next to each other and both be even. -/
theorem IsHalfEven.unique {x : K} {n m : ℤ} (hn : IsHalfEven x n) (hm : IsHalfEven x m) :
    n = m := by
  wlog hlt : n < m generalizing n m
  · rcases (not_lt.mp hlt).lt_or_eq with h | h
    · exact (this hm hn h).symm
    · exact h.symm
  exfalso
  have hgap : (n : K) + 1 ≤ m := by exact_mod_cast hlt
  have hlow := (abs_le.mp hn.near).2
  have hhigh := (abs_le.mp hm.near).1
  have hsame : (m : K) = n + 1 := by linarith
  have hx : x - n = 1 / 2 := by linarith
  have hx' : x - m = -(1 / 2) := by linarith
  have hneven : Even n := hn.even (by rw [hx, abs_of_pos]; norm_num)
  have hmeven : Even m := hm.even (by rw [hx', abs_neg, abs_of_pos]; norm_num)
  have hnext : m = n + 1 := by exact_mod_cast hsame
  rw [hnext] at hmeven
  exact absurd hneven (Int.even_add_one.mp hmeven)

variable [FloorRing K]

/-- Rounding to the nearest integer, ties to the even one. -/
def roundHalfEven (x : K) : ℤ :=
  if Int.fract x < 1 / 2 then ⌊x⌋
  else if 1 / 2 < Int.fract x then ⌊x⌋ + 1
  else if Even ⌊x⌋ then ⌊x⌋
  else ⌊x⌋ + 1

/-- The rounding finds it. -/
theorem isHalfEven_roundHalfEven (x : K) : IsHalfEven x (roundHalfEven x) := by
  have hbelow : x - ⌊x⌋ = Int.fract x := rfl
  have habove : x - ((⌊x⌋ + 1 : ℤ) : K) = Int.fract x - 1 := by
    rw [Int.cast_add, Int.cast_one, ← sub_sub, hbelow]
  have hnonneg := Int.fract_nonneg x
  have hlt := Int.fract_lt_one x
  unfold roundHalfEven
  split
  -- below the half the floor is nearer
  · next h =>
    refine ⟨?_, fun heq => ?_⟩
    · rw [hbelow, abs_of_nonneg hnonneg]
      exact h.le
    · rw [hbelow, abs_of_nonneg hnonneg] at heq
      exact absurd heq h.ne
  · next h =>
    split
    -- above it the next integer is
    · next h' =>
      have habs : |Int.fract x - 1| = 1 - Int.fract x := by
        rw [abs_of_neg (by linarith), neg_sub]
      refine ⟨?_, fun heq => ?_⟩
      · rw [habove, habs]
        linarith
      · rw [habove, habs] at heq
        linarith
    · next h' =>
      -- both are as near, and the even one is taken
      have hhalf : Int.fract x = 1 / 2 := le_antisymm (not_lt.mp h') (not_lt.mp h)
      split
      · next heven =>
        exact ⟨by rw [hbelow, abs_of_nonneg hnonneg, hhalf], fun _ => heven⟩
      · next hodd =>
        refine ⟨?_, fun _ => Int.even_add_one.mpr hodd⟩
        rw [habove, hhalf, abs_of_neg (by norm_num)]
        norm_num

end SepLab
