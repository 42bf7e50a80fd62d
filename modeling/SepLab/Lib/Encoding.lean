import SepLab.Lib.Delimited

/-!
# Encodings that leave the ASCII characters alone

A text in the letters of an encoding: bytes, UTF-16 units, or the characters themselves. An ASCII
character has one letter, which is no part of another character, so a text can be cut at an ASCII
character before or after it is encoded.

## Main definitions

* `Encoding α` — an encoding of the characters by letters `α`.
* `utf8`, `utf16`, `points` — the usual ones.

## Main results

* `Encoding.splitOn_encode` — **splitting and encoding commute**.
* `Encoding.encode_eq_append_cons_iff` — a cut of the letters at an ASCII character is one of the
  text.
* `ascii_of_length_utf8` — a text with as many bytes as characters is an ASCII text.
-/

namespace SepLab

/-- The character has a code below `128`. -/
def IsAscii (c : Char) : Prop := c.toNat < 128

instance (c : Char) : Decidable (IsAscii c) := inferInstanceAs (Decidable (c.toNat < 128))

/-- An encoding of the characters in which an ASCII character is one letter, its code, and all
letters of any other are larger. -/
structure Encoding (α : Type*) where
  letters : Char → List α
  letter : Char → α
  code : α → ℕ
  letters_ascii : ∀ c, IsAscii c → letters c = [letter c]
  code_letter : ∀ c, IsAscii c → code (letter c) = c.toNat
  letters_ne_nil : ∀ c, letters c ≠ []
  le_code : ∀ c, ¬ IsAscii c → ∀ a ∈ letters c, 128 ≤ code a

namespace Encoding

variable {α : Type*} (E : Encoding α)

/-- The letters of a text. -/
def encode (s : List Char) : List α := s.flatMap E.letters

@[simp] theorem encode_nil : E.encode [] = [] := rfl

@[simp] theorem encode_cons (c : Char) (s : List Char) :
    E.encode (c :: s) = E.letters c ++ E.encode s := List.flatMap_cons

@[simp] theorem encode_append (s t : List Char) : E.encode (s ++ t) = E.encode s ++ E.encode t :=
  List.flatMap_append

variable {E}

theorem encode_eq_nil_iff {s : List Char} : E.encode s = [] ↔ s = [] := by
  constructor
  · intro h
    cases s with
    | nil => rfl
    | cons c s =>
      rw [encode_cons, List.append_eq_nil_iff] at h
      exact absurd h.1 (E.letters_ne_nil c)
  · rintro rfl
    rfl

/-- No character is shorter than a letter. -/
theorem length_le_length_encode (s : List Char) : s.length ≤ (E.encode s).length := by
  induction s with
  | nil => exact le_rfl
  | cons c s ih =>
    have hpos := List.length_pos_iff.mpr (E.letters_ne_nil c)
    rw [encode_cons, List.length_append, List.length_cons]
    omega

/-- A text is cut in one way after a given number of letters. -/
theorem append_inj {s₁ s₂ t₁ t₂ : List Char} (h : s₁ ++ t₁ = s₂ ++ t₂)
    (hlen : (E.encode s₁).length = (E.encode s₂).length) : s₁ = s₂ ∧ t₁ = t₂ := by
  have hnil : ∀ {s u : List Char}, (E.encode (s ++ u)).length = (E.encode s).length → u = [] := by
    intro s u hu
    rw [encode_append, List.length_append] at hu
    have hzero : (E.encode u).length = 0 := by omega
    exact encode_eq_nil_iff.mp (List.length_eq_zero_iff.mp hzero)
  rcases List.append_eq_append_iff.mp h with ⟨u, rfl, rfl⟩ | ⟨u, rfl, rfl⟩
  · obtain rfl := hnil hlen.symm
    simp
  · obtain rfl := hnil hlen
    simp

/-! ### ASCII characters -/

theorem encode_cons_ascii {c : Char} (hc : IsAscii c) (s : List Char) :
    E.encode (c :: s) = E.letter c :: E.encode s := by
  rw [encode_cons, E.letters_ascii c hc, List.singleton_append]

/-- An ASCII text has its characters' letters. -/
theorem encode_ascii {s : List Char} (h : ∀ c ∈ s, IsAscii c) : E.encode s = s.map E.letter := by
  induction s with
  | nil => rfl
  | cons c s ih =>
    rw [encode_cons_ascii (h c List.mem_cons_self), ih fun d hd => h d (List.mem_cons_of_mem c hd),
      List.map_cons]

theorem length_encode_ascii {s : List Char} (h : ∀ c ∈ s, IsAscii c) :
    (E.encode s).length = s.length := by
  rw [encode_ascii h, List.length_map]

theorem letter_inj {c d : Char} (hc : IsAscii c) (hd : IsAscii d) (h : E.letter c = E.letter d) :
    c = d := by
  apply Char.toNat_inj.mp
  rw [← E.code_letter c hc, h, E.code_letter d hd]

/-- The letter of an ASCII character is no part of another character. -/
theorem letter_mem_letters_iff {c d : Char} (hd : IsAscii d) :
    E.letter d ∈ E.letters c ↔ c = d := by
  constructor
  · intro h
    by_cases hc : IsAscii c
    · rw [E.letters_ascii c hc, List.mem_singleton] at h
      exact (letter_inj hd hc h).symm
    · have hle := E.le_code c hc _ h
      rw [E.code_letter d hd] at hle
      exact absurd hd hle.not_gt
  · rintro rfl
    rw [E.letters_ascii c hd]
    exact List.mem_singleton_self _

theorem letter_mem_encode_iff {d : Char} (hd : IsAscii d) {s : List Char} :
    E.letter d ∈ E.encode s ↔ d ∈ s := by
  unfold encode
  rw [List.mem_flatMap]
  constructor
  · rintro ⟨c, hc, h⟩
    rwa [← (letter_mem_letters_iff hd).mp h]
  · intro h
    exact ⟨d, h, (letter_mem_letters_iff hd).mpr rfl⟩

/-- A text of small letters is an ASCII text. -/
theorem ascii_of_code_lt {s : List Char} (h : ∀ a ∈ E.encode s, E.code a < 128) :
    ∀ c ∈ s, IsAscii c := by
  intro c hc
  by_contra hbig
  obtain ⟨a, ha⟩ := List.exists_mem_of_ne_nil _ (E.letters_ne_nil c)
  exact (h a (List.mem_flatMap.mpr ⟨c, hc, ha⟩)).not_ge (E.le_code c hbig a ha)

/-- An ASCII text is read off its letters. -/
theorem encode_eq_encode_ascii {s t : List Char} (ht : ∀ c ∈ t, IsAscii c) :
    E.encode s = E.encode t ↔ s = t := by
  constructor
  · intro h
    have hs : ∀ c ∈ s, IsAscii c := by
      refine ascii_of_code_lt (E := E) fun a ha => ?_
      rw [h, encode_ascii ht] at ha
      obtain ⟨c, hc, rfl⟩ := List.mem_map.mp ha
      rw [E.code_letter c (ht c hc)]
      exact ht c hc
    rw [encode_ascii hs, encode_ascii ht] at h
    have hlen : s.length = t.length := by simpa using congrArg List.length h
    refine List.ext_getElem hlen fun i hi hi' => ?_
    have hget := List.getElem_of_eq h (by rwa [List.length_map])
    rw [List.getElem_map, List.getElem_map] at hget
    exact letter_inj (hs _ (List.getElem_mem hi)) (ht _ (List.getElem_mem hi')) hget
  · rintro rfl
    rfl

/-! ### Cuts -/

/-- **A cut of the letters** at an ASCII character is a cut of the text. -/
theorem encode_eq_append_cons_iff {d : Char} (hd : IsAscii d) {s : List Char} {as bs : List α} :
    E.encode s = as ++ E.letter d :: bs ↔
      ∃ s₁ s₂, s = s₁ ++ d :: s₂ ∧ E.encode s₁ = as ∧ E.encode s₂ = bs := by
  constructor
  · intro h
    induction s generalizing as with
    | nil => simp at h
    | cons c s ih =>
      rw [encode_cons] at h
      rcases List.append_eq_append_iff.mp h with ⟨as', rfl, h'⟩ | ⟨bs', hc, h'⟩
      · obtain ⟨s₁, s₂, rfl, rfl, rfl⟩ := ih h'
        exact ⟨c :: s₁, s₂, rfl, encode_cons E c s₁, rfl⟩
      · cases bs' with
        | nil =>
          have hrest : E.encode s = [] ++ E.letter d :: bs := h'.symm
          obtain ⟨s₁, s₂, rfl, hs₁, rfl⟩ := ih hrest
          refine ⟨c :: s₁, s₂, rfl, ?_, rfl⟩
          rw [encode_cons, hs₁, hc]
          simp
        | cons b bs' =>
          rw [List.cons_append] at h'
          obtain ⟨rfl, rfl⟩ := List.cons.inj h'
          -- the letter is one of `c`, which then has no other
          have hmem : E.letter d ∈ E.letters c := by
            rw [hc]
            exact List.mem_append_right _ List.mem_cons_self
          obtain rfl := (letter_mem_letters_iff hd).mp hmem
          rw [E.letters_ascii c hd] at hc
          cases as with
          | nil =>
            obtain ⟨-, rfl⟩ := List.cons.inj hc
            exact ⟨[], s, rfl, rfl, rfl⟩
          | cons a as => simp at hc
  · rintro ⟨s₁, s₂, rfl, rfl, rfl⟩
    rw [encode_append, encode_cons_ascii hd]

/-- An ASCII character is found where its letter is. -/
theorem exists_of_getElem?_encode {d : Char} (hd : IsAscii d) {s : List Char} {i : ℕ}
    (h : (E.encode s)[i]? = some (E.letter d)) :
    ∃ s₁ s₂, s = s₁ ++ d :: s₂ ∧ E.encode s₁ = (E.encode s).take i ∧
      E.encode s₂ = (E.encode s).drop (i + 1) := by
  obtain ⟨hi, hget⟩ := List.getElem?_eq_some_iff.mp h
  refine (encode_eq_append_cons_iff hd).mp ?_
  rw [← hget, ← List.drop_eq_getElem_cons hi, List.take_append_drop]

/-- **Splitting and encoding commute.** -/
theorem splitOn_encode [DecidableEq α] {d : Char} (hd : IsAscii d) (s : List Char) :
    (E.encode s).splitOn (E.letter d) = (s.splitOn d).map E.encode := by
  induction hn : s.length using Nat.strong_induction_on generalizing s with
  | _ n ih =>
    rcases Delimited.splitOn_cases d s with ⟨hs, heq⟩ | ⟨p, s', rfl, hp, heq⟩
    · rw [heq, List.splitOn_eq_singleton fun h => hs ((letter_mem_encode_iff hd).mp h)]
      rfl
    · have hp' : E.letter d ∉ E.encode p := fun h => hp ((letter_mem_encode_iff hd).mp h)
      rw [heq, List.map_cons, ← ih s'.length (by simp [← hn]; omega) s' rfl, encode_append,
        encode_cons_ascii hd, List.splitOn_append_cons_self_of_not_mem hp']

end Encoding

/-! ### The usual ones -/

/-- Bytes. -/
def utf8 : Encoding UInt8 where
  letters := String.utf8EncodeChar
  letter c := UInt8.ofNat c.toNat
  code := UInt8.toNat
  letters_ascii c hc := by
    unfold String.utf8EncodeChar
    exact if_pos (Nat.le_of_lt_succ hc)
  code_letter c hc := by
    have hc : c.toNat < 128 := hc
    rw [UInt8.toNat_ofNat']
    omega
  letters_ne_nil _ := String.utf8EncodeChar_ne_nil
  le_code c hc a ha := by
    have hc : ¬ c.val.toNat < 128 := hc
    unfold String.utf8EncodeChar at ha
    dsimp only at ha
    rw [if_neg (by omega)] at ha
    split at ha
    · simp only [List.mem_cons, List.not_mem_nil, or_false] at ha
      rcases ha with rfl | rfl <;> rw [UInt8.toNat_ofNat'] <;> omega
    split at ha
    · simp only [List.mem_cons, List.not_mem_nil, or_false] at ha
      rcases ha with rfl | rfl | rfl <;> rw [UInt8.toNat_ofNat'] <;> omega
    · simp only [List.mem_cons, List.not_mem_nil, or_false] at ha
      rcases ha with rfl | rfl | rfl | rfl <;> rw [UInt8.toNat_ofNat'] <;> omega

/-- **A text with as many bytes as characters** is an ASCII text. -/
theorem ascii_of_length_utf8 {s : List Char} (h : (utf8.encode s).length = s.length) :
    ∀ c ∈ s, IsAscii c := by
  induction s with
  | nil => simp
  | cons c s ih =>
    rw [Encoding.encode_cons, List.length_append, List.length_cons] at h
    have hle := Encoding.length_le_length_encode (E := utf8) s
    have hone : (utf8.letters c).length = c.utf8Size := String.length_utf8EncodeChar c
    have hpos := Char.utf8Size_pos c
    have hc : IsAscii c := by
      have hsize : c.utf8Size = 1 := by omega
      exact Nat.lt_succ_of_le (Char.utf8Size_eq_one_iff.mp hsize)
    intro d hd
    rcases List.mem_cons.mp hd with rfl | hd
    · exact hc
    · exact ih (by omega) d hd

/-- A character beyond the first plane has two units. -/
def utf16Letters (c : Char) : List UInt16 :=
  if c.toNat < 0x10000 then [UInt16.ofNat c.toNat]
  else
    [UInt16.ofNat (0xD800 + (c.toNat - 0x10000) / 0x400),
      UInt16.ofNat (0xDC00 + (c.toNat - 0x10000) % 0x400)]

/-- UTF-16 units. -/
def utf16 : Encoding UInt16 where
  letters := utf16Letters
  letter c := UInt16.ofNat c.toNat
  code := UInt16.toNat
  letters_ascii c hc := by
    have hc : c.toNat < 128 := hc
    exact if_pos (by omega)
  code_letter c hc := by
    have hc : c.toNat < 128 := hc
    rw [UInt16.toNat_ofNat']
    omega
  letters_ne_nil c := by
    unfold utf16Letters
    split <;> simp
  le_code c hc a ha := by
    have hc : ¬ c.toNat < 128 := hc
    have hmax : c.toNat < 0x110000 := by
      have hvalid := c.valid
      simp only [UInt32.isValidChar, Nat.isValidChar] at hvalid
      exact hvalid.elim (fun h => h.trans (by decide)) (fun h => h.2)
    unfold utf16Letters at ha
    split at ha
    · obtain rfl := List.mem_singleton.mp ha
      rw [UInt16.toNat_ofNat']
      omega
    · simp only [List.mem_cons, List.not_mem_nil, or_false] at ha
      rcases ha with rfl | rfl <;> rw [UInt16.toNat_ofNat'] <;> omega

/-- The characters themselves. -/
def points : Encoding Char where
  letters c := [c]
  letter c := c
  code := Char.toNat
  letters_ascii _ _ := rfl
  code_letter _ _ := rfl
  letters_ne_nil _ := List.cons_ne_nil _ _
  le_code c hc a ha := by
    obtain rfl := List.mem_singleton.mp ha
    exact not_lt.mp hc

@[simp] theorem encode_points (s : List Char) : points.encode s = s := by
  induction s with
  | nil => rfl
  | cons c s ih =>
    rw [Encoding.encode_cons, ih]
    rfl

end SepLab
