import Mathlib.Algebra.BigOperators.Ring.List
import Mathlib.Data.Int.Order.Basic
import Mathlib.Tactic.Ring

/-!
# Splitting an amount of money

The property-testing topic's `split_evenly`, which divides a total into parts of
the same size and gives the first parts the cents that are left over, and its
correction for refunds, which splits the magnitude and puts the sign back.

## Main definitions

* `splitEvenly`, `splitEvenlyFixed` — the two functions.
* `Even parts n` — `parts` has `n` parts, no two of them more than a cent apart.

## Main results

* `splitEvenly_eq`, `splitEvenlyFixed_eq` — the parts, written out.
* `splitEvenly_conserves_iff` — **where the first function conserves the total**, and where
  it agrees with the second one, which always does.
-/

namespace SepLab
namespace Money

/-- What the functions raise. -/
inductive Error
  | valueError (message : String)
  | indexError
deriving DecidableEq

/-! ### The functions -/

/-- `parts[i] += 1` -/
def addCent (parts : List ℤ) (i : ℕ) : Except Error (List ℤ) :=
  match parts[i]? with
  | none => .error .indexError
  | some p => .ok (parts.set i (p + 1))

/-- The loop over `range(remainder)`. -/
def addCents (remainder : ℤ) (parts : List ℤ) : Except Error (List ℤ) :=
  (List.range remainder.toNat).foldlM addCent parts

/-- `split_evenly`: a negative total is divided towards minus infinity, its remainder is
that of the magnitude. -/
def splitEvenly (totalCents n : ℤ) : Except Error (List ℤ) :=
  if n < 1 then .error (.valueError "n must be >= 1")
  else
    let base := totalCents.fdiv n
    let remainder := (totalCents.natAbs : ℤ).fmod n
    addCents remainder (List.replicate n.toNat base)

/-- `split_evenly_fixed`: the magnitude is split, and the sign comes back at the end. -/
def splitEvenlyFixed (totalCents n : ℤ) : Except Error (List ℤ) :=
  if n < 1 then .error (.valueError "n must be >= 1")
  else do
    let sign : ℤ := if totalCents < 0 then -1 else 1
    let base := (totalCents.natAbs : ℤ).fdiv n
    let remainder := (totalCents.natAbs : ℤ).fmod n
    let parts ← addCents remainder (List.replicate n.toNat base)
    return parts.map fun p => sign * p

/-- There are `n` parts, and no two are more than a cent apart. -/
structure Even (parts : List ℤ) (n : ℤ) : Prop where
  length : (parts.length : ℤ) = n
  close : ∀ a ∈ parts, ∀ b ∈ parts, a - b ≤ 1

example : splitEvenly (-1) 3 = .ok [0, -1, -1] := by decide

/-! ### The parts -/

/-- The parts of which the first `r` have got a cent more than `base`. -/
def shares (base : ℤ) (r n : ℕ) : List ℤ :=
  List.replicate r (base + 1) ++ List.replicate (n - r) base

/-- **The loop gives a cent to each of the first parts**, and no index is out of range. -/
theorem addCents_replicate {r n : ℕ} (base : ℤ) (h : r ≤ n) :
    (List.range r).foldlM addCent (List.replicate n base) = .ok (shares base r n) := by
  induction r with
  | zero => rfl
  | succ r ih =>
    have hget : (shares base r n)[r]? = some base := by
      unfold shares
      rw [List.getElem?_append_right (by simp), List.length_replicate, Nat.sub_self,
        List.getElem?_replicate, if_pos (by omega)]
    -- the next cent goes to the first share that has none
    have hset : (shares base r n).set r (base + 1) = shares base (r + 1) n := by
      obtain ⟨k, hk⟩ : ∃ k, n - r = k + 1 := ⟨n - r - 1, by omega⟩
      have hk' : n - (r + 1) = k := by omega
      unfold shares
      rw [List.set_append_right _ _ (by simp), List.length_replicate, Nat.sub_self, hk, hk',
        List.replicate_succ, List.set_cons_zero, List.replicate_succ', List.append_assoc]
      rfl
    rw [List.range_succ, List.foldlM_append, ih (by omega)]
    show addCent (shares base r n) r >>= _ = _
    unfold addCent
    rw [hget]
    exact congrArg Except.ok hset

theorem length_shares {base : ℤ} {r n : ℕ} (h : r ≤ n) : (shares base r n).length = n := by
  unfold shares
  rw [List.length_append, List.length_replicate, List.length_replicate]
  omega

theorem sum_shares {base : ℤ} {r n : ℕ} (h : r ≤ n) : (shares base r n).sum = n * base + r := by
  unfold shares
  rw [List.sum_append, List.sum_replicate, List.sum_replicate]
  push_cast [Nat.cast_sub h, nsmul_eq_mul]
  ring

theorem mem_shares {base a : ℤ} {r n : ℕ} (h : a ∈ shares base r n) : a = base ∨ a = base + 1 := by
  unfold shares at h
  rcases List.mem_append.mp h with h | h
  · exact Or.inr (List.eq_of_mem_replicate h)
  · exact Or.inl (List.eq_of_mem_replicate h)

theorem even_shares {base : ℤ} {r n : ℕ} (h : r ≤ n) : Even (shares base r n) n where
  length := by rw [length_shares h]
  close a ha b hb := by
    rcases mem_shares ha with rfl | rfl <;> rcases mem_shares hb with rfl | rfl <;> omega

/-! ### What the functions return -/

variable {t n : ℤ}

/-- The number of cents that are left over. -/
def leftOver (t n : ℤ) : ℕ := ((t.natAbs : ℤ) % n).toNat

theorem leftOver_le (h : 1 ≤ n) : leftOver t n ≤ n.toNat := by
  have hlt := Int.emod_lt_of_pos (t.natAbs : ℤ) (show 0 < n by omega)
  unfold leftOver
  omega

theorem cast_leftOver (h : 1 ≤ n) : (leftOver t n : ℤ) = t.natAbs % n :=
  Int.toNat_of_nonneg (Int.emod_nonneg _ (by omega))

theorem splitEvenly_eq (h : 1 ≤ n) :
    splitEvenly t n = .ok (shares (t / n) (leftOver t n) n.toNat) := by
  unfold splitEvenly addCents
  rw [if_neg (by omega), Int.fdiv_eq_ediv_of_nonneg t (by omega),
    Int.fmod_eq_emod_of_nonneg _ (by omega)]
  exact addCents_replicate (t / n) (leftOver_le h)

theorem splitEvenlyFixed_eq (h : 1 ≤ n) :
    splitEvenlyFixed t n = .ok ((shares (t.natAbs / n) (leftOver t n) n.toNat).map fun p =>
      (if t < 0 then -1 else 1) * p) := by
  unfold splitEvenlyFixed addCents
  rw [if_neg (by omega), Int.fdiv_eq_ediv_of_nonneg _ (by omega),
    Int.fmod_eq_emod_of_nonneg _ (by omega)]
  have hloop := addCents_replicate (t.natAbs / n) (leftOver_le (t := t) h)
  unfold leftOver at hloop
  simp only [hloop]
  rfl

theorem leftOver_eq_zero (h : 1 ≤ n) : leftOver t n = 0 ↔ n ∣ t := by
  have hcast := cast_leftOver (t := t) h
  rw [← Int.dvd_natAbs, Int.dvd_iff_emod_eq_zero]
  omega

/-- The magnitude is put together from its parts. -/
theorem natAbs_eq (h : 1 ≤ n) : (t.natAbs : ℤ) = n * (t.natAbs / n) + leftOver t n := by
  rw [cast_leftOver h]
  exact (Int.mul_ediv_add_emod _ _).symm

/-- **A refund is divided towards minus infinity**: one below the magnitude's quotient when
cents are left over. -/
theorem ediv_of_neg (h : 1 ≤ n) (ht : t < 0) :
    t / n = -(t.natAbs / n) - if leftOver t n = 0 then 0 else 1 := by
  have habs := natAbs_eq (t := t) h
  have hlt := Int.emod_lt_of_pos (t.natAbs : ℤ) (show 0 < n by omega)
  rw [← cast_leftOver h] at hlt
  generalize (t.natAbs : ℤ) / n = q at habs ⊢
  split
  · next hzero =>
    refine ((Int.ediv_emod_unique (r := 0) (by omega)).mpr ⟨?_, by omega, by omega⟩).1
    rw [hzero] at habs
    rw [Int.sub_zero, Int.mul_neg]
    omega
  · next hne =>
    refine ((Int.ediv_emod_unique (r := n - leftOver t n) (by omega)).mpr
      ⟨?_, by omega, by omega⟩).1
    rw [Int.mul_sub, Int.mul_neg]
    omega

/-- **What the parts of the first function add up to.** -/
theorem sum_splitEvenly_iff (h : 1 ≤ n) :
    (shares (t / n) (leftOver t n) n.toNat).sum = t ↔
      0 ≤ t ∨ n ∣ t ∨ 2 * ((t.natAbs : ℤ) % n) = n := by
  have habs := natAbs_eq (t := t) h
  rw [sum_shares (leftOver_le h), Int.toNat_of_nonneg (by omega), ← leftOver_eq_zero h,
    ← cast_leftOver h]
  by_cases ht : 0 ≤ t
  · refine iff_of_true ?_ (Or.inl ht)
    rw [Int.natAbs_of_nonneg ht] at habs
    exact habs.symm
  · rw [ediv_of_neg h (by omega), Int.mul_sub, Int.mul_neg]
    split
    · next hzero => exact iff_of_true (by omega) (Or.inr (Or.inl hzero))
    · next hne => omega

/-- **Where the functions return the same parts.** -/
theorem splitEvenly_eq_fixed_iff (h : 1 ≤ n) :
    shares (t / n) (leftOver t n) n.toNat =
      ((shares (t.natAbs / n) (leftOver t n) n.toNat).map fun p =>
        (if t < 0 then -1 else 1) * p) ↔ 0 ≤ t ∨ n ∣ t := by
  by_cases ht : 0 ≤ t
  · refine iff_of_true ?_ (Or.inl ht)
    rw [if_neg (by omega), Int.natAbs_of_nonneg ht]
    simp
  · rw [if_pos (by omega), ediv_of_neg h (by omega), ← leftOver_eq_zero h]
    split
    · next hzero =>
      refine iff_of_true ?_ (Or.inr hzero)
      simp [shares, hzero]
    · next hne =>
      refine iff_of_false ?_ (by omega)
      -- the first parts differ by a cent
      obtain ⟨r, hr⟩ := Nat.exists_eq_succ_of_ne_zero hne
      intro heq
      unfold shares at heq
      rw [hr, List.replicate_succ, List.replicate_succ, List.cons_append, List.cons_append,
        List.map_cons] at heq
      have hhead := (List.cons.inj heq).1
      omega

theorem sum_fixed (h : 1 ≤ n) :
    ((shares (t.natAbs / n) (leftOver t n) n.toNat).map fun p =>
      (if t < 0 then -1 else 1) * p).sum = t := by
  have habs := natAbs_eq (t := t) h
  rw [List.sum_map_mul_left, List.map_id', sum_shares (leftOver_le h),
    Int.toNat_of_nonneg (by omega), ← habs]
  split
  · omega
  · omega

theorem even_fixed (h : 1 ≤ n) :
    Even ((shares (t.natAbs / n) (leftOver t n) n.toNat).map fun p =>
      (if t < 0 then -1 else 1) * p) n where
  length := by
    rw [List.length_map, length_shares (leftOver_le h)]
    omega
  close a ha b hb := by
    obtain ⟨p, hp, rfl⟩ := List.mem_map.mp ha
    obtain ⟨q, hq, rfl⟩ := List.mem_map.mp hb
    rcases mem_shares hp with rfl | rfl <;> rcases mem_shares hq with rfl | rfl <;> split <;> omega

/-- **Where the split of a total conserves it.**  Both functions return `n` parts that are at
most a cent apart; those of the second one add up to the total, and the first one changes
refunds, unless they split without a rest or leave half a cent over for each part. -/
theorem splitEvenly_conserves_iff (t n : ℤ) (h : 1 ≤ n) :
    ∃ parts fixed, splitEvenly t n = .ok parts ∧ splitEvenlyFixed t n = .ok fixed ∧
      Even fixed n ∧ fixed.sum = t ∧ Even parts n ∧
      (parts.sum = t ↔ 0 ≤ t ∨ n ∣ t ∨ 2 * ((t.natAbs : ℤ) % n) = n) ∧
      (parts = fixed ↔ 0 ≤ t ∨ n ∣ t) := by
  have heven : Even (shares (t / n) (leftOver t n) n.toNat) n.toNat :=
    even_shares (leftOver_le h)
  rw [Int.toNat_of_nonneg (by omega)] at heven
  exact ⟨_, _, splitEvenly_eq h, splitEvenlyFixed_eq h, even_fixed h, sum_fixed h, heven,
    sum_splitEvenly_iff h, splitEvenly_eq_fixed_iff h⟩

/-- A refund of one cent in three parts, which the first function turns into two. -/
theorem splitEvenly_conserves_refund : ∃ parts fixed, splitEvenly (-1) 3 = .ok parts ∧
    splitEvenlyFixed (-1) 3 = .ok fixed ∧ fixed.sum = -1 ∧ parts.sum ≠ -1 := by
  obtain ⟨parts, fixed, hparts, hfixed, -, hsum, -, hiff, -⟩ :=
    splitEvenly_conserves_iff (-1) 3 (by decide)
  exact ⟨parts, fixed, hparts, hfixed, hsum, fun heq => absurd (hiff.mp heq) (by decide)⟩

end Money
end SepLab
