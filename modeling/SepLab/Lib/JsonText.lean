import Mathlib.Data.Fin.Basic
import Mathlib.Data.List.Basic
import Mathlib.Data.Option.Basic
import Mathlib.Tactic.Common

/-!
# The text of a JSON value

JSON values over strings of 16-bit code units, and the text that ECMAScript prints of one: no
blanks, the members of an object in their order, and in strings the two-letter escapes, the
escapes of control characters and those of surrogates that are not part of a pair.  A number is
given by its text.

## Main definitions

* `Json`, `Json.Distinct` — the values, and those of which no object has a key twice.
* `Json.ind` — induction over a value.
* `quote`, `readString` — a string in quotes, and how it is read back.
* `Json.print` — the text of a value.

## Main results

* `quote_append_inj` — a quoted string says where it ends.
* `Json.print_append_inj` — so does the text of a value, before a delimiter.
* `Json.print_injective` — **different values have different texts.**
-/

namespace SepLab
namespace JsonText

/-- A code unit of UTF-16. -/
abbrev CodeUnit := Fin 65536

/-- A string, as its code units. -/
abbrev Text := List CodeUnit

/-- The code unit of an ASCII character. -/
def unit (c : Char) : CodeUnit := Fin.ofNat 65536 c.toNat

/-! ### Strings -/

/-- The quotation mark. -/
def quoteMark : CodeUnit := 34

/-- The backslash. -/
def backslash : CodeUnit := 92

/-- The code units with an escape of two letters, and the second letter. -/
def shortEscapes : List (CodeUnit × CodeUnit) :=
  [(8, unit 'b'), (9, unit 't'), (10, unit 'n'), (12, unit 'f'), (13, unit 'r'),
    (quoteMark, quoteMark), (backslash, backslash)]

/-- The hexadecimal digit of a number below sixteen, in lower case. -/
def hexDigit (n : ℕ) : CodeUnit := Fin.ofNat 65536 (if n < 10 then 48 + n else 87 + n)

/-- The number of a hexadecimal digit. -/
def hexValue (c : CodeUnit) : ℕ := if c.val < 58 then c.val - 48 else c.val - 87

/-- Four digits. -/
def hex4 (c : CodeUnit) : Text :=
  [hexDigit (c.val / 4096), hexDigit (c.val / 256 % 16), hexDigit (c.val / 16 % 16),
    hexDigit (c.val % 16)]

/-- The code unit that four hexadecimal digits spell. -/
def ofHex (a b c d : CodeUnit) : CodeUnit :=
  Fin.ofNat 65536 (hexValue a * 4096 + hexValue b * 256 + hexValue c * 16 + hexValue d)

/-- The first half of a surrogate pair. -/
def isHigh (c : CodeUnit) : Bool := 0xD800 ≤ c.val && c.val < 0xDC00

/-- The second half of a surrogate pair. -/
def isLow (c : CodeUnit) : Bool := 0xDC00 ≤ c.val && c.val < 0xE000

/-- A code unit that is no part of a surrogate pair, in a string. -/
def escape (c : CodeUnit) : Text :=
  match shortEscapes.lookup c with
  | some x => [backslash, x]
  | none =>
    if c.val < 32 || isHigh c || isLow c then backslash :: unit 'u' :: hex4 c
    else [c]

/-- The text with its escapes; a surrogate is escaped unless it is in a pair. -/
def escapeAll : Text → Text
  | [] => []
  | [c] => escape c
  | c :: d :: s =>
    if isHigh c && isLow d then c :: d :: escapeAll s else escape c ++ escapeAll (d :: s)

/-- The text as a JSON string. -/
def quote (s : Text) : Text := quoteMark :: (escapeAll s ++ [quoteMark])

/-- What an escape of two letters stands for. -/
def unescape (x : CodeUnit) : CodeUnit :=
  ((shortEscapes.map Prod.swap).lookup x).getD x

/-- The string up to the closing quote, and what follows. -/
def readString : Text → Text × Text
  | [] => ([], [])
  | c :: r =>
    if c = quoteMark then ([], r)
    else if c = backslash then
      match r with
      | [] => ([], [])
      | x :: r =>
        if x = unit 'u' then
          match r with
          | h₁ :: h₂ :: h₃ :: h₄ :: r => (readString r).map (ofHex h₁ h₂ h₃ h₄ :: ·) id
          | _ => ([], [])
        else (readString r).map (unescape x :: ·) id
    else (readString r).map (c :: ·) id

theorem hexValue_hexDigit {n : ℕ} (h : n < 16) : hexValue (hexDigit n) = n := by
  revert n
  decide

theorem ofHex_hex4 (c : CodeUnit) :
    ofHex (hexDigit (c.val / 4096)) (hexDigit (c.val / 256 % 16)) (hexDigit (c.val / 16 % 16))
      (hexDigit (c.val % 16)) = c := by
  have hc := c.isLt
  apply Fin.ext
  rw [ofHex, hexValue_hexDigit (by omega), hexValue_hexDigit (by omega),
    hexValue_hexDigit (by omega), hexValue_hexDigit (by omega)]
  show _ % 65536 = _
  omega

/-- A code unit that stands for itself. -/
theorem readString_cons {c : CodeUnit} (hquote : c ≠ quoteMark) (hback : c ≠ backslash)
    (r : Text) : readString (c :: r) = (readString r).map (c :: ·) id := by
  rw [readString.eq_def]
  show (if c = quoteMark then _ else _) = _
  rw [if_neg hquote, if_neg hback]

/-- An escape of two letters. -/
theorem readString_short {x : CodeUnit} (hx : x ≠ unit 'u') (r : Text) :
    readString (backslash :: x :: r) = (readString r).map (unescape x :: ·) id := by
  rw [readString.eq_def]
  show (if backslash = quoteMark then _ else _) = _
  rw [if_neg (by decide), if_pos rfl]
  exact if_neg hx

/-- An escape of four digits. -/
theorem readString_hex (h₁ h₂ h₃ h₄ : CodeUnit) (r : Text) :
    readString (backslash :: unit 'u' :: h₁ :: h₂ :: h₃ :: h₄ :: r) =
      (readString r).map (ofHex h₁ h₂ h₃ h₄ :: ·) id := by
  rw [readString.eq_def]
  show (if backslash = quoteMark then _ else _) = _
  rw [if_neg (by decide), if_pos rfl]
  exact if_pos rfl

theorem mem_of_lookup {κ ν : Type*} [BEq κ] [LawfulBEq κ] {k : κ} {v : ν} {l : List (κ × ν)}
    (h : l.lookup k = some v) : (k, v) ∈ l := by
  obtain ⟨l₁, l₂, rfl, -⟩ := List.lookup_eq_some_iff.mp h
  exact List.mem_append_right _ List.mem_cons_self

/-- An escape is read back. -/
theorem readString_escape (c : CodeUnit) (r : Text) :
    readString (escape c ++ r) = (readString r).map (c :: ·) id := by
  unfold escape
  split
  · next x hx =>
    have hall : shortEscapes.all (fun p => p.2 ≠ unit 'u' ∧ unescape p.2 = p.1) = true := by
      decide
    obtain ⟨hne, heq⟩ := of_decide_eq_true (List.all_eq_true.mp hall _ (mem_of_lookup hx))
    exact (readString_short hne r).trans (by rw [heq])
  · next hnone =>
    split
    · exact (readString_hex _ _ _ _ r).trans (by rw [ofHex_hex4])
    · have hnot := List.lookup_eq_none_iff.mp hnone
      refine readString_cons (fun hc => ?_) (fun hc => ?_) r
      · exact absurd (hnot (quoteMark, quoteMark) (by decide)) (by simp [hc])
      · exact absurd (hnot (backslash, backslash) (by decide)) (by simp [hc])

theorem ne_of_isHigh {c : CodeUnit} (h : isHigh c = true) : c ≠ quoteMark ∧ c ≠ backslash := by
  constructor <;> (rintro rfl; revert h; decide)

theorem ne_of_isLow {c : CodeUnit} (h : isLow c = true) : c ≠ quoteMark ∧ c ≠ backslash := by
  constructor <;> (rintro rfl; revert h; decide)

/-- **A string is read back**, up to its closing quote. -/
theorem readString_escapeAll (s r : Text) :
    readString (escapeAll s ++ quoteMark :: r) = (s, r) := by
  induction s using escapeAll.induct with
  | case1 =>
    rw [readString.eq_def]
    exact if_pos rfl
  | case2 c =>
    rw [escapeAll, readString_escape, readString.eq_def]
    exact congrArg (Prod.map (c :: ·) id) (if_pos rfl)
  | case3 c d s hpair ih =>
    obtain ⟨hc, hd⟩ := Bool.and_eq_true_iff.mp hpair
    rw [escapeAll, if_pos hpair, List.cons_append, List.cons_append,
      readString_cons (ne_of_isHigh hc).1 (ne_of_isHigh hc).2,
      readString_cons (ne_of_isLow hd).1 (ne_of_isLow hd).2, ih]
    rfl
  | case4 c d s hpair ih =>
    rw [escapeAll, if_neg hpair, List.append_assoc, readString_escape, ih]
    rfl

/-- **A quoted string says where it ends.** -/
theorem quote_append_inj {s s' r r' : Text} (h : quote s ++ r = quote s' ++ r') :
    s = s' ∧ r = r' := by
  have hread : ∀ t u : Text, readString ((quote t ++ u).tail) = (t, u) := fun t u => by
    rw [quote, List.cons_append, List.tail_cons, List.append_assoc]
    exact readString_escapeAll t u
  rw [← Prod.mk.injEq, ← hread, h, hread]

/-! ### Words -/

/-- The code units of numbers and of the three names. -/
def isWord (c : CodeUnit) : Bool :=
  (unit '0' ≤ c && c ≤ unit '9') || (unit 'a' ≤ c && c ≤ unit 'z') ||
    c == unit '-' || c == unit '+' || c == unit '.'

/-- The code units with which a number begins. -/
def isNumeral (c : CodeUnit) : Bool := (unit '0' ≤ c && c ≤ unit '9') || c == unit '-'

/-- A number, by the text that is printed of it. -/
structure Number where
  text : Text
  head : ∃ c ∈ text.head?, isNumeral c = true
  word : ∀ c ∈ text, isWord c = true

/-- A value without parts that is not a string. -/
inductive Scalar
  | null
  | bool (b : Bool)
  | number (n : Number)

/-- How a scalar is written. -/
def Scalar.text : Scalar → Text
  | .null => [unit 'n', unit 'u', unit 'l', unit 'l']
  | .bool true => [unit 't', unit 'r', unit 'u', unit 'e']
  | .bool false => [unit 'f', unit 'a', unit 'l', unit 's', unit 'e']
  | .number n => n.text

/-- No word goes on with the text. -/
def Ends (r : Text) : Prop := ∀ c ∈ r.head?, isWord c = false

theorem ends_cons {c : CodeUnit} (h : isWord c = false) (r : Text) : Ends (c :: r) := by
  intro d hd
  obtain rfl := Option.some_inj.mp hd
  exact h

theorem word_append_inj {w w' r r' : Text} (hw : ∀ c ∈ w, isWord c = true)
    (hw' : ∀ c ∈ w', isWord c = true) (hr : Ends r) (hr' : Ends r')
    (h : w ++ r = w' ++ r') : w = w' ∧ r = r' := by
  have htake : ∀ {w r : Text}, (∀ c ∈ w, isWord c = true) → Ends r →
      (w ++ r).takeWhile isWord = w := by
    intro w r hw hr
    rw [List.takeWhile_append_of_pos hw]
    cases r with
    | nil => exact List.append_nil w
    | cons c r => rw [List.takeWhile_cons_of_neg (by simp [hr c rfl]), List.append_nil]
  have hsame : w = w' := by
    rw [← htake hw hr, h, htake hw' hr']
  subst hsame
  exact ⟨rfl, List.append_cancel_left h⟩

theorem Scalar.word (x : Scalar) : ∀ c ∈ x.text, isWord c = true := by
  cases x with
  | null => exact List.all_eq_true.mp (by decide)
  | bool b => cases b <;> exact List.all_eq_true.mp (by decide)
  | number n => exact n.word

/-- A number is none of the names. -/
theorem Number.text_ne (n : Number) {c : CodeUnit} {t : Text} (hc : isNumeral c = false) :
    n.text ≠ c :: t := by
  obtain ⟨d, hd, hnumeral⟩ := n.head
  intro h
  rw [h] at hd
  obtain rfl := Option.some_inj.mp hd
  rw [hc] at hnumeral
  cases hnumeral

theorem Scalar.text_ne_nil (x : Scalar) : x.text ≠ [] := by
  cases x with
  | null => exact List.cons_ne_nil _ _
  | bool b => cases b <;> exact List.cons_ne_nil _ _
  | number n =>
    obtain ⟨d, hd, -⟩ := n.head
    intro h
    rw [show n.text = [] from h] at hd
    cases hd

theorem Scalar.text_injective : Function.Injective Scalar.text := by
  -- a number is no word of the others
  have hnumber : ∀ (n : Number) (x : Scalar), n.text = x.text → x = .number n := by
    intro n x h
    cases x with
    | null => exact absurd h (n.text_ne (by decide))
    | bool b => cases b <;> exact absurd h (n.text_ne (by decide))
    | number m =>
      obtain ⟨text, _, _⟩ := n
      obtain ⟨text', _, _⟩ := m
      obtain rfl : text = text' := h
      rfl
  intro x y h
  cases x with
  | number n => exact (hnumber n y h).symm
  | null =>
    cases y with
    | number m => exact hnumber m .null h.symm
    | null => rfl
    | bool b => cases b <;> exact absurd h (by decide)
  | bool b =>
    cases y with
    | number m => exact hnumber m (.bool b) h.symm
    | null => cases b <;> exact absurd h (by decide)
    | bool b' => cases b <;> cases b' <;> first | rfl | exact absurd h (by decide)

/-! ### Values -/

/-- A JSON value; the members of an object are in order. -/
inductive Json
  | scalar (x : Scalar)
  | str (s : Text)
  | arr (xs : List Json)
  | obj (ms : List (Text × Json))

namespace Json

/-- Induction over the elements and the members of a value. -/
@[elab_as_elim]
theorem ind {P : Json → Prop} (scalar : ∀ x, P (.scalar x)) (str : ∀ s, P (.str s))
    (arr : ∀ xs, (∀ x ∈ xs, P x) → P (.arr xs))
    (obj : ∀ ms, (∀ m ∈ ms, P m.2) → P (.obj ms)) : ∀ j, P j :=
  @Json.rec P (fun xs => ∀ x ∈ xs, P x) (fun ms => ∀ m ∈ ms, P m.2) (fun m => P m.2)
    scalar str arr obj (fun _ hx => absurd hx List.not_mem_nil)
    (fun _ _ hx hxs => List.forall_mem_cons.mpr ⟨hx, hxs⟩)
    (fun _ hm => absurd hm List.not_mem_nil)
    (fun _ _ hm hms => List.forall_mem_cons.mpr ⟨hm, hms⟩) fun _ _ hv => hv

/-- No object has a key twice. -/
inductive Distinct : Json → Prop
  | scalar (x : Scalar) : Distinct (.scalar x)
  | str (s : Text) : Distinct (.str s)
  | arr {xs : List Json} (h : ∀ x ∈ xs, Distinct x) : Distinct (.arr xs)
  | obj {ms : List (Text × Json)} (hkeys : (ms.map Prod.fst).Nodup)
      (h : ∀ m ∈ ms, Distinct m.2) : Distinct (.obj ms)

/-- What separates an element or a member from the one before it. -/
def comma (first : Bool) : Text := if first then [] else [unit ',']

mutual

/-- The text of a value, without spaces. -/
def print : Json → Text
  | .scalar x => x.text
  | .str s => quote s
  | .arr xs => unit '[' :: elements true xs
  | .obj ms => unit '\x7b' :: members true ms

/-- The elements of an array and its end. -/
def elements (first : Bool) : List Json → Text
  | [] => [unit ']']
  | x :: xs => comma first ++ (print x ++ elements false xs)

/-- The members of an object and its end. -/
def members (first : Bool) : List (Text × Json) → Text
  | [] => [unit '\x7d']
  | (k, v) :: ms => comma first ++ (quote k ++ unit ':' :: (print v ++ members false ms))

end

/-- A value does not begin like the end of an array, nor like what follows an element. -/
theorem print_head (j : Json) : ∃ c t, j.print = c :: t ∧ c ≠ unit ']' := by
  cases j with
  | scalar x =>
    obtain ⟨c, t, h⟩ := List.exists_cons_of_ne_nil x.text_ne_nil
    refine ⟨c, t, h, ?_⟩
    rintro rfl
    have := x.word (unit ']') (h ▸ List.mem_cons_self)
    revert this
    decide
  | str s => exact ⟨quoteMark, _, rfl, by decide⟩
  | arr xs => exact ⟨unit '[', _, rfl, by decide⟩
  | obj ms => exact ⟨unit '\x7b', _, rfl, by decide⟩

theorem ends_elements (xs : List Json) (r : Text) : Ends (elements false xs ++ r) := by
  cases xs with
  | nil => exact ends_cons (by decide) _
  | cons x xs => exact ends_cons (by decide) _

theorem ends_members (ms : List (Text × Json)) (r : Text) : Ends (members false ms ++ r) := by
  cases ms with
  | nil => exact ends_cons (by decide) _
  | cons m ms => exact ends_cons (by decide) _

/-- The text of the value is that of no other, and says where it ends. -/
def Delimits (x : Json) : Prop :=
  ∀ y r r', Ends r → Ends r' → x.print ++ r = y.print ++ r' → x = y ∧ r = r'

/-- What follows the last element is not an element. -/
theorem elements_ne (first : Bool) (x : Json) (xs : List Json) (r r' : Text) :
    elements first (x :: xs) ++ r ≠ elements first [] ++ r' := by
  intro h
  cases first with
  | true =>
    obtain ⟨c, t, hx, hc⟩ := x.print_head
    have htext : x.print ++ elements false xs ++ r = unit ']' :: r' := h
    rw [hx] at htext
    exact hc (List.cons.inj htext).1
  | false => exact absurd (List.cons.inj h).1 (by decide)

theorem elements_append_inj {xs : List Json} (hxs : ∀ x ∈ xs, x.Delimits) :
    ∀ (first : Bool) (ys : List Json) (r r' : Text),
      elements first xs ++ r = elements first ys ++ r' → xs = ys ∧ r = r' := by
  induction xs with
  | nil =>
    intro first ys r r' h
    cases ys with
    | nil => exact ⟨rfl, List.append_cancel_left h⟩
    | cons y ys => exact absurd h.symm (elements_ne first y ys r' r)
  | cons x xs ih =>
    intro first ys r r' h
    cases ys with
    | nil => exact absurd h (elements_ne first x xs r r')
    -- the text of the first element ends where the next comma or the bracket begins
    | cons y ys =>
      rw [elements, elements, List.append_assoc, List.append_assoc, List.append_assoc,
        List.append_assoc] at h
      obtain ⟨rfl, hrest⟩ := hxs x List.mem_cons_self y _ _ (ends_elements xs r)
        (ends_elements ys r') (List.append_cancel_left h)
      obtain ⟨rfl, hr⟩ := ih (fun x hx => hxs x (List.mem_cons_of_mem _ hx)) false ys r r' hrest
      exact ⟨rfl, hr⟩

/-- What follows the last member is not a member. -/
theorem members_ne (first : Bool) (m : Text × Json) (ms : List (Text × Json)) (r r' : Text) :
    members first (m :: ms) ++ r ≠ members first [] ++ r' := by
  intro h
  cases first with
  | true => exact absurd (List.cons.inj h).1 (by decide)
  | false => exact absurd (List.cons.inj h).1 (by decide)

theorem members_append_inj {ms : List (Text × Json)} (hms : ∀ m ∈ ms, m.2.Delimits) :
    ∀ (first : Bool) (ms' : List (Text × Json)) (r r' : Text),
      members first ms ++ r = members first ms' ++ r' → ms = ms' ∧ r = r' := by
  induction ms with
  | nil =>
    intro first ms' r r' h
    cases ms' with
    | nil => exact ⟨rfl, List.append_cancel_left h⟩
    | cons m ms' => exact absurd h.symm (members_ne first m ms' r' r)
  | cons m ms ih =>
    intro first ms' r r' h
    cases ms' with
    | nil => exact absurd h (members_ne first m ms r r')
    | cons m' ms' =>
      obtain ⟨k, v⟩ := m
      obtain ⟨k', v'⟩ := m'
      -- a key ends with its quote, and its value where the next member begins
      rw [members, members] at h
      simp only [List.append_assoc, List.cons_append] at h
      obtain ⟨rfl, hvalue⟩ := quote_append_inj (List.append_cancel_left h)
      obtain ⟨rfl, hrest⟩ := hms (k, v) List.mem_cons_self v' _ _ (ends_members ms r)
        (ends_members ms' r') (List.cons.inj hvalue).2
      obtain ⟨rfl, hr⟩ := ih (fun m hm => hms m (List.mem_cons_of_mem _ hm)) false ms' r r' hrest
      exact ⟨rfl, hr⟩

/-- A scalar is not the beginning of a text that begins with no word. -/
theorem scalar_append_ne (x : Scalar) {r t : Text} (hr : Ends r) (ht : Ends t) :
    x.text ++ r ≠ t := by
  intro h
  have hnone : ∀ c ∈ ([] : Text), isWord c = true := fun c hc => absurd hc List.not_mem_nil
  exact x.text_ne_nil (word_append_inj x.word hnone hr ht h).1

/-- **The text of a value says where it ends**, if a delimiter follows. -/
theorem print_append_inj (x : Json) : x.Delimits := by
  -- the first character tells the kinds apart, and each kind ends by itself
  induction x using Json.ind with
  | scalar x =>
    intro y r r' hr hr' h
    cases y with
    | scalar y =>
      obtain ⟨htext, hrest⟩ := word_append_inj x.word y.word hr hr' h
      exact ⟨congrArg _ (Scalar.text_injective htext), hrest⟩
    | str s => exact absurd h (scalar_append_ne x hr (ends_cons (by decide) _))
    | arr ys => exact absurd h (scalar_append_ne x hr (ends_cons (by decide) _))
    | obj ms => exact absurd h (scalar_append_ne x hr (ends_cons (by decide) _))
  | str s =>
    intro y r r' hr hr' h
    cases y with
    | scalar y => exact absurd h.symm (scalar_append_ne y hr' (ends_cons (by decide) _))
    | str s' =>
      obtain ⟨rfl, hrest⟩ := quote_append_inj h
      exact ⟨rfl, hrest⟩
    | arr ys => exact absurd (List.cons.inj h).1 (by decide)
    | obj ms => exact absurd (List.cons.inj h).1 (by decide)
  | arr xs ih =>
    intro y r r' hr hr' h
    cases y with
    | scalar y => exact absurd h.symm (scalar_append_ne y hr' (ends_cons (by decide) _))
    | str s' => exact absurd (List.cons.inj h).1 (by decide)
    | arr ys =>
      obtain ⟨rfl, hrest⟩ := elements_append_inj ih true ys r r' (List.cons.inj h).2
      exact ⟨rfl, hrest⟩
    | obj ms => exact absurd (List.cons.inj h).1 (by decide)
  | obj ms ih =>
    intro y r r' hr hr' h
    cases y with
    | scalar y => exact absurd h.symm (scalar_append_ne y hr' (ends_cons (by decide) _))
    | str s' => exact absurd (List.cons.inj h).1 (by decide)
    | arr ys => exact absurd (List.cons.inj h).1 (by decide)
    | obj ms' =>
      obtain ⟨rfl, hrest⟩ := members_append_inj ih true ms' r r' (List.cons.inj h).2
      exact ⟨rfl, hrest⟩

/-- **Different values have different texts.** -/
theorem print_injective : Function.Injective print := by
  intro x y h
  have hends : Ends [] := fun c hc => by cases hc
  exact (x.print_append_inj y [] [] hends hends (by rw [h])).1

end Json

end JsonText
end SepLab
