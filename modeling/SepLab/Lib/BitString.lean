import Mathlib.Algebra.Order.Ring.Nat
import Mathlib.Data.Nat.Bitwise

/-!
# Numbers as bit strings of a fixed width

The low bits of a number from the highest to the lowest, as a list: what a stream of digits of
one width is regrouped over when it is cut into digits of another width.

## Main definitions

* `bitString k x` — the low `k` bits of `x`, the highest first.

## Main results

* `bitString_append` — the high part and the low part of a number.
* `bitString_mul_add` — **a digit joined below a number is appended to its bits**.
* `bitString_mod` — bits above the width do not matter.
* `eq_of_flatMap_bitString` — digits can be read back from the bits of all of them.
-/

namespace SepLab

/-- The low `k` bits of a number, the highest first. -/
def bitString : ℕ → ℕ → List Bool
  | 0, _ => []
  | k + 1, x => x.testBit k :: bitString k x

@[simp] theorem length_bitString (k x : ℕ) : (bitString k x).length = k := by
  induction k with
  | zero => rfl
  | succ k ih => rw [bitString, List.length_cons, ih]

theorem bitString_congr {k x y : ℕ} (h : ∀ i < k, x.testBit i = y.testBit i) :
    bitString k x = bitString k y := by
  induction k with
  | zero => rfl
  | succ k ih =>
    rw [bitString, bitString, h k (Nat.lt_succ_self k), ih fun i hi => h i (Nat.lt_succ_of_lt hi)]

theorem testBit_of_bitString_eq {k x y : ℕ} (h : bitString k x = bitString k y) :
    ∀ i < k, x.testBit i = y.testBit i := by
  induction k with
  | zero => exact fun i hi => absurd hi (Nat.not_lt_zero i)
  | succ k ih =>
    obtain ⟨hbit, hrest⟩ := List.cons.inj h
    intro i hi
    rcases Nat.lt_succ_iff_lt_or_eq.mp hi with hlt | rfl
    · exact ih hrest i hlt
    · exact hbit

/-- A number that fits the width is known from its bits. -/
theorem bitString_inj {k x y : ℕ} (hx : x < 2 ^ k) (hy : y < 2 ^ k)
    (h : bitString k x = bitString k y) : x = y := by
  refine Nat.eq_of_testBit_eq fun i => ?_
  rcases Nat.lt_or_ge i k with hi | hi
  · exact testBit_of_bitString_eq h i hi
  · have hpow : 2 ^ k ≤ 2 ^ i := Nat.pow_le_pow_right Nat.two_pos hi
    rw [Nat.testBit_lt_two_pow (hx.trans_le hpow), Nat.testBit_lt_two_pow (hy.trans_le hpow)]

/-- Bits above the width do not matter. -/
theorem bitString_mod {k w : ℕ} (hk : k ≤ w) (x : ℕ) :
    bitString k (x % 2 ^ w) = bitString k x := by
  refine bitString_congr fun i hi => ?_
  rw [Nat.testBit_mod_two_pow, decide_eq_true (hi.trans_le hk), Bool.true_and]

/-- The high part of a number and the low part. -/
theorem bitString_append (a b x : ℕ) :
    bitString (a + b) x = bitString a (x / 2 ^ b) ++ bitString b x := by
  induction a with
  | zero => rw [Nat.zero_add, bitString, List.nil_append]
  | succ a ih =>
    rw [Nat.succ_add, bitString, bitString, ih, List.cons_append, Nat.testBit_div_two_pow]

/-- **A digit joined below a number** is appended to its bits. -/
theorem bitString_mul_add {b z : ℕ} (hz : z < 2 ^ b) (a y : ℕ) :
    bitString (a + b) (y * 2 ^ b + z) = bitString a y ++ bitString b z := by
  have hdiv : (y * 2 ^ b + z) / 2 ^ b = y := by
    rw [Nat.mul_comm, Nat.mul_add_div (Nat.two_pow_pos b), Nat.div_eq_of_lt hz, Nat.add_zero]
  have hmod : bitString b (y * 2 ^ b + z) = bitString b z := by
    rw [← bitString_mod le_rfl, Nat.mul_comm, Nat.mul_add_mod, bitString_mod le_rfl]
  rw [bitString_append, hdiv, hmod]

theorem length_flatMap_bitString (k : ℕ) (xs : List ℕ) :
    (xs.flatMap (bitString k)).length = xs.length * k := by
  induction xs with
  | nil => simp
  | cons x xs ih =>
    rw [List.flatMap_cons, List.length_append, ih, length_bitString, List.length_cons,
      Nat.succ_mul, Nat.add_comm]

/-- Digits can be read back from the bits of all of them. -/
theorem eq_of_flatMap_bitString {k : ℕ} {xs ys : List ℕ} (hx : ∀ x ∈ xs, x < 2 ^ k)
    (hy : ∀ y ∈ ys, y < 2 ^ k) (hlen : xs.length = ys.length)
    (h : xs.flatMap (bitString k) = ys.flatMap (bitString k)) : xs = ys := by
  induction xs generalizing ys with
  | nil => exact (List.length_eq_zero_iff.mp hlen.symm).symm
  | cons x xs ih =>
    cases ys with
    | nil => exact absurd hlen (Nat.succ_ne_zero _)
    | cons y ys =>
      rw [List.flatMap_cons, List.flatMap_cons] at h
      obtain ⟨hhead, htail⟩ := List.append_inj h (by rw [length_bitString, length_bitString])
      rw [bitString_inj (hx x List.mem_cons_self) (hy y List.mem_cons_self) hhead,
        ih (fun z hz => hx z (List.mem_cons_of_mem x hz))
          (fun z hz => hy z (List.mem_cons_of_mem y hz)) (Nat.succ_injective hlen) htail]

end SepLab
