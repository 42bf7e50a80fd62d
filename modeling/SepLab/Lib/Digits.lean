import Mathlib.Data.Nat.Digits.Defs

/-!
# Numerals in a text

A number written as the list of its digits, most significant first, and as a
text in some base.  The same notion serves for the digits of a text, for the
octets of an address and for its groups.

## Main definitions

* `value b ds` — the number whose digits in base `b` are `ds`.
* `toDigit b c`, `isDigit b c` — the value of a character as a digit.
* `Numeral b cs v` — the text `cs` is `v` in base `b`.
* `Ends b rest` — the text `rest` does not start with a digit.

## Main results

* `value_lt` — digits below the base give a number below the power of the base.
* `numeral_toDigits` — the decimal digits of a number are a numeral of it.
* `toLower_eq_digitChar` — a hexadecimal digit in lower case.
* `takeWhile_of_ends`, `dropWhile_of_ends` — cutting a text after its first digits.
-/

namespace SepLab
namespace Digits

/-! ### Positions -/

/-- The number whose digits in base `b` are `ds`, most significant first. -/
def value (b : ℕ) (ds : List ℕ) : ℕ := Nat.ofDigits b ds.reverse

@[simp] theorem value_nil (b : ℕ) : value b [] = 0 := rfl

theorem value_append (b : ℕ) (ds es : List ℕ) :
    value b (ds ++ es) = value b ds * b ^ es.length + value b es := by
  unfold value
  rw [List.reverse_append, Nat.ofDigits_append, List.length_reverse]
  ring

@[simp] theorem value_singleton (b d : ℕ) : value b [d] = d := by simp [value]

theorem value_cons (b d : ℕ) (ds : List ℕ) :
    value b (d :: ds) = d * b ^ ds.length + value b ds := by
  rw [← List.singleton_append, value_append, value_singleton]

theorem value_lt {b : ℕ} (hb : 1 < b) {ds : List ℕ} (h : ∀ d ∈ ds, d < b) :
    value b ds < b ^ ds.length := by
  have hlt := Nat.ofDigits_lt_base_pow_length hb (l := ds.reverse)
    fun d hd => h d (List.mem_reverse.mp hd)
  rwa [List.length_reverse] at hlt

/-! ### Characters -/

/-- What a character counts as a digit, `36` if it is none: letters follow the `9`. -/
def digitCode (c : Char) : ℕ :=
  if '0' ≤ c ∧ c ≤ '9' then c.toNat - 48
  else if 'a' ≤ c ∧ c ≤ 'z' then c.toNat - 87
  else if 'A' ≤ c ∧ c ≤ 'Z' then c.toNat - 55
  else 36

/-- The value of a digit in a base up to `36`. -/
def toDigit (b : ℕ) (c : Char) : Option ℕ := if digitCode c < b then some (digitCode c) else none

/-- A digit of base `b`. -/
def isDigit (b : ℕ) (c : Char) : Bool := (toDigit b c).isSome

theorem isDigit_iff {b : ℕ} {c : Char} : isDigit b c = true ↔ digitCode c < b := by
  unfold isDigit toDigit
  split
  · next hlt => exact iff_of_true rfl hlt
  · next hge => exact iff_of_false (by simp) hge

theorem isDigit_mono {b b' : ℕ} (hb : b ≤ b') {c : Char} (h : isDigit b c = true) :
    isDigit b' c = true := isDigit_iff.mpr ((isDigit_iff.mp h).trans_le hb)

theorem digitCode_of_isDigit {c : Char} (h : c.isDigit = true) : digitCode c = c.toNat - 48 := by
  unfold digitCode
  rw [if_pos]
  simpa [Char.isDigit, Char.le_def] using h

theorem lt_128_of_isDigit {c : Char} (h : isDigit 36 c = true) : c.toNat < 128 := by
  have hle : ∀ d : Char, c ≤ d → c.toNat ≤ d.toNat := fun d h => UInt32.le_iff_toNat_le.mp h
  rw [isDigit_iff, digitCode] at h
  split at h
  · next hc => exact (hle '9' hc.2).trans_lt (by decide)
  split at h
  · next hc => exact (hle 'z' hc.2).trans_lt (by decide)
  split at h
  · next hc => exact (hle 'Z' hc.2).trans_lt (by decide)
  · exact absurd h (by decide)

/-- What holds of the digits below code `128` holds of every digit. -/
theorem forall_of_isDigit {b : ℕ} (hb : b ≤ 36) {P : Char → Prop}
    (hall : ∀ k < 128, isDigit b (Char.ofNat k) = true → P (Char.ofNat k)) {c : Char}
    (h : isDigit b c = true) : P c := by
  have hc := hall c.toNat (lt_128_of_isDigit (isDigit_mono hb h))
  rw [Char.ofNat_toNat] at hc
  exact hc h

/-- **A hexadecimal digit in lower case** is the character of its value. -/
theorem toLower_eq_digitChar {c : Char} (h : isDigit 16 c = true) :
    c.toLower = Nat.digitChar (digitCode c) :=
  forall_of_isDigit (P := fun c => c.toLower = Nat.digitChar (digitCode c)) (by decide)
    (by decide) h

/-! ### Texts -/

/-- The number that a text of digits spells. -/
def number (b : ℕ) (cs : List Char) : ℕ := value b (cs.map digitCode)

/-- The text `cs` is `v` in base `b`. -/
structure Numeral (b : ℕ) (cs : List Char) (v : ℕ) : Prop where
  ne_nil : cs ≠ []
  digits : ∀ c ∈ cs, isDigit b c = true
  number : number b cs = v

instance {b v : ℕ} {cs : List Char} : Decidable (Numeral b cs v) :=
  decidable_of_iff (cs ≠ [] ∧ cs.all (isDigit b) = true ∧ number b cs = v)
    ⟨fun h => ⟨h.1, List.all_eq_true.mp h.2.1, h.2.2⟩,
      fun h => ⟨h.ne_nil, List.all_eq_true.mpr h.digits, h.number⟩⟩

theorem Numeral.lt {b v : ℕ} (hb : 1 < b) {cs : List Char} (h : Numeral b cs v) :
    v < b ^ cs.length := by
  have hlen : (cs.map digitCode).length = cs.length := List.length_map digitCode
  rw [← h.number, ← hlen]
  refine value_lt hb ?_
  intro d hd
  obtain ⟨c, hc, rfl⟩ := List.mem_map.mp hd
  exact isDigit_iff.mp (h.digits c hc)

/-- In base ten, the number is the one that the core library reads. -/
theorem number_eq_ofDigitChars {cs : List Char} (h : ∀ c ∈ cs, c.isDigit = true) :
    number 10 cs = Nat.ofDigitChars 10 cs 0 := by
  unfold number
  induction cs with
  | nil => rfl
  | cons c cs ih =>
    have hc := digitCode_of_isDigit (h c List.mem_cons_self)
    rw [List.map_cons, value_cons, ih fun d hd => h d (List.mem_cons_of_mem c hd),
      Nat.ofDigitChars_cons, hc, List.length_map]
    have hcore := @Nat.ofDigitChars_eq_ofDigitChars_zero cs (c.toNat - 48)
    simpa [Nat.mul_comm] using hcore.symm

/-- **The decimal digits of a number** are a numeral of it. -/
theorem numeral_toDigits (n : ℕ) : Numeral 10 (Nat.toDigits 10 n) n where
  ne_nil := Nat.toDigits_ne_nil
  digits c hc := by
    have hd := Nat.isDigit_of_mem_toDigits (by decide) (by decide) hc
    rw [isDigit_iff, digitCode_of_isDigit hd]
    simp only [Char.isDigit, Bool.and_eq_true, decide_eq_true_eq] at hd
    have hle : c.toNat ≤ 57 := UInt32.le_iff_toNat_le.mp hd.2
    omega
  number := by
    have hall : ∀ c ∈ Nat.toDigits 10 n, c.isDigit = true := fun c hc =>
      Nat.isDigit_of_mem_toDigits (by decide) (by decide) hc
    rw [number_eq_ofDigitChars hall]
    exact Nat.ofDigitChars_ten_toDigits

/-- The digits of a number are the characters of numbers below the base. -/
theorem exists_digitChar_of_mem_toDigits {b : ℕ} (hb : 1 < b) {n : ℕ} {c : Char}
    (h : c ∈ Nat.toDigits b n) : ∃ d < b, c = Nat.digitChar d := by
  induction n using Nat.strong_induction_on with
  | _ n ih =>
    rw [Nat.toDigits_eq_if hb] at h
    split at h
    · next hlt => exact ⟨n, hlt, List.mem_singleton.mp h⟩
    · next hge =>
      rcases List.mem_append.mp h with h | h
      · exact ih (n / b) (Nat.div_lt_self (by omega) hb) h
      · exact ⟨n % b, Nat.mod_lt n (by omega), List.mem_singleton.mp h⟩

/-- Only zero starts with a zero. -/
theorem head_toDigits {n : ℕ} (h : n ≠ 0) : (Nat.toDigits 10 n).head? ≠ some '0' := by
  induction n using Nat.strong_induction_on with
  | _ n ih =>
    rw [Nat.toDigits_eq_if (by decide)]
    split
    · next hlt =>
      have hall : ∀ k < 10, k ≠ 0 → [Nat.digitChar k].head? ≠ some '0' := by decide
      exact hall n hlt h
    · next hge =>
      have hdiv : n / 10 ≠ 0 := by omega
      obtain ⟨c, cs, hcs⟩ :=
        List.exists_cons_of_ne_nil (Nat.toDigits_ne_nil (n := n / 10) (b := 10))
      have hhead := ih (n / 10) (by omega) hdiv
      rw [hcs] at hhead ⊢
      exact hhead

/-! ### Runs of digits -/

/-- What follows does not go on with a digit. -/
def Ends (b : ℕ) (rest : List Char) : Prop := ∀ c ∈ rest.head?, isDigit b c = false

theorem ends_nil (b : ℕ) : Ends b [] := fun c hc => by cases hc

theorem ends_cons {b : ℕ} {c : Char} (h : isDigit b c = false) (rest : List Char) :
    Ends b (c :: rest) := by
  intro d hd
  obtain rfl := Option.some_inj.mp hd
  exact h

theorem takeWhile_of_ends {b : ℕ} {ds rest : List Char} (h : ∀ c ∈ ds, isDigit b c = true)
    (hrest : Ends b rest) : (ds ++ rest).takeWhile (isDigit b) = ds := by
  rw [List.takeWhile_append_of_pos h]
  cases rest with
  | nil => exact List.append_nil ds
  | cons c rest => simp [hrest c rfl]

theorem dropWhile_of_ends {b : ℕ} {ds rest : List Char} (h : ∀ c ∈ ds, isDigit b c = true)
    (hrest : Ends b rest) : (ds ++ rest).dropWhile (isDigit b) = rest := by
  rw [List.dropWhile_append_of_pos h]
  cases rest with
  | nil => rfl
  | cons c rest => simp [hrest c rfl]

end Digits
end SepLab
