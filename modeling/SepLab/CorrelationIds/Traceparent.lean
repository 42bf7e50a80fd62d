import SepLab.Lib.Encoding
import SepLab.Pricing.Traceparent

/-!
# One header, four codecs

The `traceparent` codecs of the `lose_the_context` programs. The strings of the C++ and the Go
program are bytes, those of the Java program UTF-16 units, and those of the Python program
characters, so the four measure and cut a header in different letters.

## Main definitions

* `Span α` — a span whose strings have letters `α`.
* `Cpp`, `Go`, `Python`, `Java` — the four codecs.
* `Reads`, `Agree` — all four read this from a header; they reject it, or read the same.
* `Plain`, `Common` — ASCII ids and flags of one byte; and the flags are `00`, or odd.
* `Readable` — the four grammars.

## Main results

* `Cpp.spanFromTraceparent_eq_some_iff`, `readParts_splitOn_eq_some_iff`,
  `Java.readParts_split_eq_some_iff` — **what each parser accepts**.
* `Plain.reads`, `Reads.common`, `rejected_iff` — what all of them read alike, and what none reads.
* `codecs_agree_iff` — the four agree just when a header is common or in no grammar; and what any
  of them writes, all of them read back.
-/

namespace SepLab
namespace CorrelationIds

open Digits Delimited
open Pricing (joined)

/-- A span whose strings have letters `α`. -/
structure Span (α : Type) where
  name : List α
  traceId : List α
  spanId : List α
  sampled : Bool

/-- What the Unicode tables of Python and of Java say of a letter beyond ASCII. -/
structure UnicodeTables where
  /-- `str.isspace` -/
  isspace : Char → Bool
  /-- `unicodedata.decimal` -/
  decimal : Char → Option (Fin 10)
  /-- `Character.digit`, in base 16 -/
  digit : UInt16 → Option (Fin 16)

section
variable {α : Type} [DecidableEq α] (E : Encoding α)

/-- A string literal. -/
def lit (s : String) : List α := E.encode s.toList

/-- What the four encoders put together. -/
def writeHeader (s : Span α) (flags : List α) : List α :=
  lit E "00-" ++ s.traceId ++ lit E "-" ++ s.spanId ++ lit E "-" ++ flags

/-- A signed number of 32 bits in base 16, as `strconv.ParseInt` and `Integer.parseInt` read it. -/
def parseSigned (digit : α → Option ℕ) (s : List α) : Option ℤ :=
  let magnitude (ds : List α) : Option ℤ :=
    if ds ≠ [] ∧ ∀ a ∈ ds, (digit a).isSome then some (value 16 (ds.filterMap digit)) else none
  let signed : Option ℤ :=
    match s with
    | [] => none
    | a :: ds =>
      if a = E.letter '+' then magnitude ds
      else if a = E.letter '-' then (magnitude ds).map Neg.neg
      else magnitude s
  signed.filter fun v => -2 ^ 31 ≤ v ∧ v < 2 ^ 31

/-- What three of the parsers do with the parts of a header: the trace id, the span id and bit 0 of
the flags. -/
def readParts (number : List α → Option ℤ) : List (List α) → Option (List α × List α × Bool)
  | [version, traceId, spanId, flags] =>
    if version ≠ lit E "00" ∨ traceId.length ≠ 32 ∨ spanId.length ≠ 16 then none
    else (number flags).map fun v => (traceId, spanId, decide (v % 2 = 1))
  | _ => none

end

/-! ### C++ -/

namespace Cpp

/-- `traceparent_of` -/
def traceparentOf (s : Span UInt8) : List UInt8 :=
  writeHeader utf8 s (if s.sampled then lit utf8 "01" else lit utf8 "00")

/-- `span_from_traceparent`, which answers nothing for a header it does not take. -/
def spanFromTraceparent (header name : List UInt8) : Option (Span UInt8) :=
  if header.length ≠ 55 ∨ substr header 0 (some 3) ≠ lit utf8 "00-" then none
  else
    let s : Span UInt8 :=
      { name := name
        traceId := substr header 3 (some 32)
        spanId := substr header 36 (some 16)
        sampled := decide (substr header 53 (some 2) ≠ lit utf8 "00") }
    if header[35]? ≠ some (utf8.letter '-') ∨ header[52]? ≠ some (utf8.letter '-') then none
    else some s

end Cpp

/-! ### Go -/

namespace Go

/-- `newSpan`, with the ids it draws. -/
def newSpan (drawn : List UInt8 × List UInt8) (name : List UInt8) : Span UInt8 :=
  ⟨name, drawn.1, drawn.2, true⟩

/-- `Traceparent` -/
def traceparent (s : Span UInt8) : List UInt8 :=
  writeHeader utf8 s (if s.sampled then lit utf8 "01" else lit utf8 "00")

/-- The digit that a byte is. -/
def digit (b : UInt8) : Option ℕ := toDigit 16 (Char.ofNat b.toNat)

/-- `strconv.ParseInt(s, 16, 32)` -/
def parseInt (s : List UInt8) : Option ℤ := parseSigned utf8 digit s

/-- `spanFromTraceparent`, with the ids that `newSpan` has drawn. -/
def spanFromTraceparent (drawn : List UInt8 × List UInt8) (header name : List UInt8) :
    Option (Span UInt8) :=
  (readParts utf8 parseInt (header.splitOn (utf8.letter '-'))).map fun (traceId, _, sampled) =>
    { newSpan drawn name with
      traceId := traceId
      sampled := sampled }

end Go

/-! ### Python -/

namespace Python

/-- `Span.__init__`, with the ids it draws. -/
def Span.init (drawn : List Char × List Char) (name traceId : List Char) (sampled : Bool) :
    Span Char :=
  ⟨name, if traceId = [] then drawn.1 else traceId, drawn.2, sampled⟩

/-- `Span.traceparent` -/
def traceparent (s : Span Char) : List Char :=
  writeHeader points s (Pricing.hexPadded 2 (if s.sampled then 1 else 0))

/-- White space of ASCII. -/
def isSpace (c : Char) : Bool := (decide (9 ≤ c.toNat) && decide (c.toNat ≤ 13)) || c == ' '

/-- What `int` makes of a character before it reads the number. -/
def asciiOf (U : UnicodeTables) (c : Char) : Char :=
  if c.toNat < 127 then c
  else if U.isspace c then ' '
  else
    match U.decimal c with
    | some d => Nat.digitChar d
    | none => '?'

/-- The sign of a number, and what follows it. -/
def signOf : List Char → Bool × List Char
  | '-' :: s => (true, s)
  | '+' :: s => (false, s)
  | s => (false, s)

/-- What follows the prefix of a number in base 16, and an underscore after that. -/
def afterPrefix : List Char → List Char
  | '0' :: x :: s =>
    if x = 'x' ∨ x = 'X' then
      match s with
      | '_' :: s => s
      | s => s
    else '0' :: x :: s
  | s => s

/-- `int(s, 16)` -/
def int (U : UnicodeTables) (s : List Char) : Option ℤ :=
  let s := ((s.map (asciiOf U)).dropWhile isSpace).rdropWhile isSpace
  let groups := (afterPrefix (signOf s).2).splitOn '_'
  if groups.all fun ds => decide (ds ≠ []) && ds.all (isDigit 16) then
    some (if (signOf s).1 then -(number 16 groups.flatten : ℤ) else number 16 groups.flatten)
  else none

/-- `Span.from_traceparent`, with the ids that `Span` has drawn. -/
def fromTraceparent (U : UnicodeTables) (drawn : List Char × List Char)
    (header name : List Char) : Option (Span Char) :=
  (readParts points (int U) (header.splitOn '-')).map fun (traceId, _, sampled) =>
    Span.init drawn name traceId sampled

end Python

/-! ### Java -/

namespace Java

/-- `traceparent` -/
def traceparent (s : Span UInt16) : List UInt16 :=
  writeHeader utf16 s (if s.sampled then lit utf16 "01" else lit utf16 "00")

/-- `String.split`: a string without a separator is its one part, and empty parts at the end are
left out. -/
def split {α : Type} [DecidableEq α] (s : List α) (sep : α) : List (List α) :=
  if sep ∈ s then (s.splitOn sep).rdropWhile List.isEmpty else [s]

/-- `Character.digit(u, 16)` -/
def digit (U : UnicodeTables) (u : UInt16) : Option ℕ :=
  if u.toNat < 128 then toDigit 16 (Char.ofNat u.toNat) else (U.digit u).map Fin.val

/-- `Integer.parseInt(s, 16)` -/
def parseInt (U : UnicodeTables) (s : List UInt16) : Option ℤ := parseSigned utf16 (digit U) s

/-- `fromTraceparent` -/
def fromTraceparent (U : UnicodeTables) (header name : List UInt16) : Option (Span UInt16) :=
  (readParts utf16 (parseInt U) (split header (utf16.letter '-'))).map
    fun (traceId, spanId, sampled) => ⟨name, traceId, spanId, sampled⟩

end Java

/-! ### What is compared -/

/-- What a caller goes on with: the trace id and the decision. -/
def Span.context {α : Type} (s : Span α) : List α × Bool := (s.traceId, s.sampled)

/-- All four read this trace id and this decision from the header. -/
def Reads (U : UnicodeTables) (drawnGo : List UInt8 × List UInt8)
    (drawnPy : List Char × List Char) (header name traceId : List Char) (sampled : Bool) : Prop :=
  (Cpp.spanFromTraceparent (utf8.encode header) (utf8.encode name)).map Span.context =
    some (utf8.encode traceId, sampled) ∧
  (Go.spanFromTraceparent drawnGo (utf8.encode header) (utf8.encode name)).map Span.context =
    some (utf8.encode traceId, sampled) ∧
  (Python.fromTraceparent U drawnPy header name).map Span.context = some (traceId, sampled) ∧
  (Java.fromTraceparent U (utf16.encode header) (utf16.encode name)).map Span.context =
    some (utf16.encode traceId, sampled)

/-- All four reject the header, or read the same trace id and decision from it. -/
def Agree (U : UnicodeTables) (drawnGo : List UInt8 × List UInt8)
    (drawnPy : List Char × List Char) (header name : List Char) : Prop :=
  (Cpp.spanFromTraceparent (utf8.encode header) (utf8.encode name) = none ∧
    Go.spanFromTraceparent drawnGo (utf8.encode header) (utf8.encode name) = none ∧
    Python.fromTraceparent U drawnPy header name = none ∧
    Java.fromTraceparent U (utf16.encode header) (utf16.encode name) = none) ∨
  ∃ traceId sampled, Reads U drawnGo drawnPy header name traceId sampled

/-- The header has the version and the parts, with as many bytes as the C++ parser counts, dashes
or not. -/
structure CppForm (header traceId spanId flags : List Char) : Prop where
  header : header = joined ['0', '0'] traceId spanId flags
  traceId : (utf8.encode traceId).length = 32
  spanId : (utf8.encode spanId).length = 16
  flags : (utf8.encode flags).length = 2

/-- The header has four parts, of which the ids have as many letters as they should, and the last
reads as a number. -/
structure Form {α : Type} (E : Encoding α) (number : List α → Option ℤ)
    (header traceId spanId flags : List Char) : Prop where
  header : header = joined ['0', '0'] traceId spanId flags
  traceId : '-' ∉ traceId ∧ (E.encode traceId).length = 32
  spanId : '-' ∉ spanId ∧ (E.encode spanId).length = 16
  flags : '-' ∉ flags ∧ (number (E.encode flags)).isSome

/-- The header has one of the four forms; that of the Java program ends in any number of dashes. -/
def Readable (U : UnicodeTables) (header : List Char) : Prop :=
  ∃ traceId spanId flags, CppForm header traceId spanId flags ∨
    Form utf8 Go.parseInt header traceId spanId flags ∨
    Form points (Python.int U) header traceId spanId flags ∨
    ∃ h k, header = h ++ List.replicate k '-' ∧
      Form utf16 (Java.parseInt U) h traceId spanId flags

/-- Two digits, or a plus sign and one. -/
structure IsByte (flags : List Char) (v : ℕ) : Prop where
  length : flags.length = 2
  numeral : Numeral 16 flags v ∨ ∃ ds, flags = '+' :: ds ∧ Numeral 16 ds v

/-- The header is made of ASCII ids without dashes and of flags that are a byte. -/
structure Plain (header traceId spanId flags : List Char) (v : ℕ) : Prop where
  header : header = joined ['0', '0'] traceId spanId flags
  traceId : (∀ c ∈ traceId, IsAscii c ∧ c ≠ '-') ∧ traceId.length = 32
  spanId : (∀ c ∈ spanId, IsAscii c ∧ c ≠ '-') ∧ spanId.length = 16
  flags : IsByte flags v

/-- The header is a plain one with flags that are `00`, or odd. -/
def Common (header : List Char) : Prop :=
  ∃ traceId spanId flags v, Plain header traceId spanId flags v ∧
    (flags = ['0', '0'] ∨ v % 2 = 1)

/-- A span in the letters of a program. -/
def Span.encode {α : Type} (E : Encoding α) (s : Span Char) : Span α :=
  ⟨E.encode s.name, E.encode s.traceId, E.encode s.spanId, s.sampled⟩

/-- The text is `n` hexadecimal digits. -/
def IsHex (n : ℕ) (s : List Char) : Prop := s.length = n ∧ ∀ c ∈ s, isDigit 16 c = true

/-! ### Numbers -/

theorem ascii_of_isDigit {c : Char} (h : isDigit 16 c = true) : IsAscii c :=
  lt_128_of_isDigit (isDigit_mono (by decide) h)

theorem ascii_zeros : ∀ c ∈ ['0', '0'], IsAscii c := by
  intro c hc
  obtain rfl := List.eq_of_mem_replicate (n := 2) hc
  decide

/-- A numeral is an ASCII text, and so is one with a plus sign. -/
theorem ascii_of_numeral {flags : List Char} {v : ℕ}
    (h : Numeral 16 flags v ∨ ∃ ds, flags = '+' :: ds ∧ Numeral 16 ds v) :
    ∀ c ∈ flags, IsAscii c := by
  intro c hc
  rcases h with hn | ⟨ds, rfl, hn⟩
  · exact ascii_of_isDigit (hn.digits c hc)
  · rcases List.mem_cons.mp hc with rfl | hc
    · decide
    · exact ascii_of_isDigit (hn.digits c hc)

theorem IsByte.dash_notMem {flags : List Char} {v : ℕ} (h : IsByte flags v) : '-' ∉ flags := by
  rcases h.numeral with hn | ⟨ds, rfl, hn⟩
  · exact Pricing.dash_notMem hn.digits
  · simp [Pricing.dash_notMem hn.digits]

theorem IsByte.eq_zero {v : ℕ} (h : IsByte ['0', '0'] v) : v = 0 := by
  rcases h.numeral with hn | ⟨ds, hds, -⟩
  · exact hn.number.symm
  · exact absurd (List.cons.inj hds).1 (by decide)

theorem IsByte.lt {flags : List Char} {v : ℕ} (h : IsByte flags v) : v < 256 := by
  have hlen := h.length
  rcases h.numeral with hn | ⟨ds, rfl, hn⟩
  · simpa [hlen] using hn.lt (by decide)
  · have hone : ds.length = 1 := by simpa using hlen
    have hlt := hn.lt (by decide)
    rw [hone] at hlt
    omega

section
variable {α : Type} [DecidableEq α] {E : Encoding α} {digit : α → Option ℕ}

omit [DecidableEq α] in
/-- The digits of an ASCII numeral, read by its letters. -/
theorem filterMap_letter
    (hdigit : ∀ c, isDigit 16 c = true → digit (E.letter c) = some (digitCode c))
    {ds : List Char} (h : ∀ c ∈ ds, isDigit 16 c = true) :
    (∀ a ∈ E.encode ds, (digit a).isSome) ∧
      value 16 ((E.encode ds).filterMap digit) = number 16 ds := by
  rw [Encoding.encode_ascii fun c hc => ascii_of_isDigit (h c hc)]
  constructor
  · intro a ha
    obtain ⟨c, hc, rfl⟩ := List.mem_map.mp ha
    rw [hdigit c (h c hc)]
    rfl
  · unfold number
    congr 1
    induction ds with
    | nil => rfl
    | cons c ds ih =>
      rw [List.map_cons, List.filterMap_cons, hdigit c (h c List.mem_cons_self),
        ih fun d hd => h d (List.mem_cons_of_mem c hd), List.map_cons]

/-- A text that reads as a number is digits after a sign, if there is one. -/
theorem digits_of_parseSigned {s : List α} (h : (parseSigned E digit s).isSome) :
    ∃ ds, (s = ds ∨ s = E.letter '+' :: ds ∨ s = E.letter '-' :: ds) ∧ ds ≠ [] ∧
      ∀ a ∈ ds, (digit a).isSome := by
  obtain ⟨v, hv⟩ := Option.isSome_iff_exists.mp h
  obtain ⟨hv, -⟩ := Option.filter_eq_some_iff.mp hv
  cases s with
  | nil => cases hv
  | cons a ds =>
    dsimp only at hv
    split at hv
    -- a plus, a minus, or neither: what follows are digits
    · next hplus =>
      obtain ⟨hds, -⟩ := Option.ite_none_right_eq_some.mp hv
      exact ⟨ds, Or.inr (Or.inl (by rw [hplus])), hds.1, hds.2⟩
    split at hv
    · next hminus =>
      obtain ⟨w, hw, -⟩ := Option.map_eq_some_iff.mp hv
      obtain ⟨hds, -⟩ := Option.ite_none_right_eq_some.mp hw
      exact ⟨ds, Or.inr (Or.inr (by rw [hminus])), hds.1, hds.2⟩
    · obtain ⟨hds, -⟩ := Option.ite_none_right_eq_some.mp hv
      exact ⟨a :: ds, Or.inl rfl, hds.1, hds.2⟩

/-- A byte reads as its value. -/
theorem parseSigned_byte
    (hdigit : ∀ c, isDigit 16 c = true → digit (E.letter c) = some (digitCode c))
    {flags : List Char} {v : ℕ} (h : IsByte flags v) :
    parseSigned E digit (E.encode flags) = some v := by
  have hlt := h.lt
  -- the number of a byte is within an `int`
  have hrange : ((some (v : ℤ)).filter fun w => -2 ^ 31 ≤ w ∧ w < 2 ^ 31) = some (v : ℤ) := by
    rw [Option.filter_some, if_pos (by simp; omega)]
  rcases h.numeral with hn | ⟨ds, rfl, hn⟩
  · obtain ⟨hsome, hval⟩ := filterMap_letter hdigit hn.digits
    cases flags with
    | nil => exact absurd rfl hn.ne_nil
    | cons c cs =>
      have hc := hn.digits c List.mem_cons_self
      -- a hexadecimal digit is no sign
      have hplus : E.letter c ≠ E.letter '+' := fun heq => by
        rw [Encoding.letter_inj (ascii_of_isDigit hc) (by decide) heq] at hc
        exact absurd hc (by decide)
      have hminus : E.letter c ≠ E.letter '-' := fun heq => by
        rw [Encoding.letter_inj (ascii_of_isDigit hc) (by decide) heq] at hc
        exact absurd hc (by decide)
      rw [Encoding.encode_cons_ascii (ascii_of_isDigit hc)] at hsome hval ⊢
      unfold parseSigned
      dsimp only
      rw [if_neg hplus, if_neg hminus, if_pos ⟨List.cons_ne_nil _ _, hsome⟩, hval, hn.number]
      exact hrange
  -- with a plus the parser goes on behind it
  · obtain ⟨hsome, hval⟩ := filterMap_letter hdigit hn.digits
    rw [Encoding.encode_cons_ascii (by decide)]
    unfold parseSigned
    dsimp only
    rw [if_pos rfl, if_pos ⟨fun hnil => hn.ne_nil (Encoding.encode_eq_nil_iff.mp hnil), hsome⟩,
      hval, hn.number]
    exact hrange

end

theorem toDigit_of_isDigit {c : Char} (h : isDigit 16 c = true) :
    toDigit 16 c = some (digitCode c) := if_pos (isDigit_iff.mp h)

/-- The digit of an ASCII character is read off its byte. -/
theorem Go.digit_letter {c : Char} (hc : IsAscii c) : Go.digit (utf8.letter c) = toDigit 16 c := by
  have hcode : (utf8.letter c).toNat = c.toNat := utf8.code_letter c hc
  unfold Go.digit
  rw [hcode, Char.ofNat_toNat]

theorem Go.parseInt_byte {flags : List Char} {v : ℕ} (h : IsByte flags v) :
    Go.parseInt (utf8.encode flags) = some v :=
  parseSigned_byte (fun _ hc => by rw [Go.digit_letter (ascii_of_isDigit hc),
    toDigit_of_isDigit hc]) h

theorem Java.parseInt_byte (U : UnicodeTables) {flags : List Char} {v : ℕ} (h : IsByte flags v) :
    Java.parseInt U (utf16.encode flags) = some v := by
  refine parseSigned_byte (fun c hc => ?_) h
  have hcode : (utf16.letter c).toNat = c.toNat := utf16.code_letter c (ascii_of_isDigit hc)
  unfold Java.digit
  rw [if_pos (hcode.symm ▸ ascii_of_isDigit hc), hcode, Char.ofNat_toNat, toDigit_of_isDigit hc]

/-- Bytes that are digits are those of a numeral. -/
theorem Go.numeral_of_digits {ds : List Char} (hne : utf8.encode ds ≠ [])
    (h : ∀ b ∈ utf8.encode ds, (Go.digit b).isSome) : Numeral 16 ds (number 16 ds) := by
  have hascii : ∀ c ∈ ds, IsAscii c := by
    refine Encoding.ascii_of_code_lt (E := utf8) fun b hb => ?_
    have hsmall : ∀ k < 256, isDigit 16 (Char.ofNat k) = true → k < 128 := by
      decide +kernel
    exact hsmall b.toNat b.toNat_lt (h b hb)
  refine ⟨fun hnil => hne (by rw [hnil]; rfl), fun c hc => ?_, rfl⟩
  have hsome := h _ ((Encoding.letter_mem_encode_iff (E := utf8) (hascii c hc)).mpr hc)
  rwa [Go.digit_letter (hascii c hc)] at hsome

/-- **Flags of two bytes that Go reads** are a byte. -/
theorem Go.isByte_of_parseInt {flags : List Char} (hdash : '-' ∉ flags)
    (hlen : (utf8.encode flags).length = 2) (h : (Go.parseInt (utf8.encode flags)).isSome) :
    ∃ v, IsByte flags v := by
  have hnumeral : ∃ v, Numeral 16 flags v ∨ ∃ ds, flags = '+' :: ds ∧ Numeral 16 ds v := by
    obtain ⟨ds, hs, hne, hdigits⟩ := digits_of_parseSigned h
    rcases hs with hs | hs | hs
    · subst hs
      exact ⟨_, Or.inl (Go.numeral_of_digits hne hdigits)⟩
    · -- the sign is a character of its own
      have hcut : utf8.encode flags = [] ++ utf8.letter '+' :: ds := hs
      obtain ⟨s₁, s₂, rfl, hs₁, rfl⟩ := (Encoding.encode_eq_append_cons_iff (by decide)).mp hcut
      obtain rfl := Encoding.encode_eq_nil_iff.mp hs₁
      exact ⟨_, Or.inr ⟨s₂, rfl, Go.numeral_of_digits hne hdigits⟩⟩
    · have hdash' := Encoding.letter_mem_encode_iff (E := utf8) (d := '-') (s := flags) (by decide)
      refine absurd (hdash'.mp ?_) hdash
      rw [hs]
      exact List.mem_cons_self
  obtain ⟨v, hv⟩ := hnumeral
  refine ⟨v, ?_, hv⟩
  rwa [Encoding.length_encode_ascii (ascii_of_numeral hv)] at hlen

/-- What `int` leaves alone before it reads the number. -/
theorem Python.trim_ascii (U : UnicodeTables) {s : List Char}
    (h : ∀ c ∈ s, IsAscii c ∧ Python.isSpace c = false ∧ c.toNat ≠ 127) :
    ((s.map (Python.asciiOf U)).dropWhile Python.isSpace).rdropWhile Python.isSpace = s := by
  -- without characters beyond ASCII the tables of Unicode do not matter
  have hmap : s.map (Python.asciiOf U) = s := by
    refine (List.map_congr_left fun c hc => ?_).trans (List.map_id s)
    obtain ⟨hascii, -, hdel⟩ := h c hc
    have hlt : c.toNat < 127 := by
      have hlt : c.toNat < 128 := hascii
      omega
    exact if_pos hlt
  rw [hmap]
  -- and there is nothing to trim at either end
  have hdrop : s.dropWhile Python.isSpace = s := by
    cases s with
    | nil => rfl
    | cons c s => rw [List.dropWhile_cons, if_neg (by simp [(h c List.mem_cons_self).2.1])]
  rw [hdrop, List.rdropWhile_eq_self_iff]
  intro hne
  rw [(h _ (List.getLast_mem hne)).2.1]
  simp

/-- Digits read as their value. -/
theorem Python.groups_of_numeral {ds : List Char} {v : ℕ} (h : Numeral 16 ds v) :
    (Python.afterPrefix ds).splitOn '_' = [ds] := by
  have hplain : Python.afterPrefix ds = ds := by
    unfold Python.afterPrefix
    split
    · next x s =>
      -- an `x` is no digit
      have hx : isDigit 16 x = true := h.digits x (by simp)
      rw [if_neg]
      rintro (rfl | rfl)
      · exact absurd hx (by decide)
      · exact absurd hx (by decide)
    · rfl
  rw [hplain]
  exact List.splitOn_eq_singleton fun hmem => absurd (h.digits '_' hmem) (by decide)

theorem Python.int_byte (U : UnicodeTables) {flags : List Char} {v : ℕ} (h : IsByte flags v) :
    Python.int U flags = some v := by
  -- the same for each character of the number of a byte, its sign included
  have hplain : ∀ c ∈ flags, IsAscii c ∧ Python.isSpace c = false ∧ c.toNat ≠ 127 := by
    have hdigit : ∀ c, isDigit 16 c = true →
        IsAscii c ∧ Python.isSpace c = false ∧ c.toNat ≠ 127 := fun c hc =>
      forall_of_isDigit (P := fun c => IsAscii c ∧ Python.isSpace c = false ∧ c.toNat ≠ 127)
        (by decide) (by decide +kernel) hc
    intro c hc
    rcases h.numeral with hn | ⟨ds, rfl, hn⟩
    · exact hdigit c (hn.digits c hc)
    · rcases List.mem_cons.mp hc with rfl | hc
      · decide
      · exact hdigit c (hn.digits c hc)
  have hresult : ∀ ds, Numeral 16 ds v → Python.signOf flags = (false, ds) →
      Python.int U flags = some v := by
    intro ds hn hsign
    have hall : [ds].all (fun ds => decide (ds ≠ []) && ds.all (isDigit 16)) = true := by
      simpa [hn.ne_nil] using hn.digits
    unfold Python.int
    rw [Python.trim_ascii U hplain]
    dsimp only
    rw [hsign, Python.groups_of_numeral hn, if_pos hall]
    simp [hn.number]
  rcases h.numeral with hn | ⟨ds, rfl, hn⟩
  · refine hresult flags hn ?_
    -- a digit is no sign
    unfold Python.signOf
    split
    · exact absurd (hn.digits '-' (by simp)) (by decide)
    · exact absurd (hn.digits '+' (by simp)) (by decide)
    · rfl
  · exact hresult ds hn rfl

/-! ### What each parser accepts -/

section
variable {α : Type} {E : Encoding α} {number : List α → Option ℤ}

/-- What is read from the parts of a header. -/
theorem readParts_map_eq_some_iff [DecidableEq α] {parts : List (List Char)}
    {r : List α × List α × Bool} :
    readParts E number (parts.map E.encode) = some r ↔
      ∃ t p f v, parts = [['0', '0'], t, p, f] ∧ (E.encode t).length = 32 ∧
        (E.encode p).length = 16 ∧ number (E.encode f) = some v ∧
        r = (E.encode t, E.encode p, decide (v % 2 = 1)) := by
  constructor
  · intro h
    unfold readParts at h
    split at h
    · next version traceId spanId flags hparts =>
      split at h
      · cases h
      next hcond =>
      obtain ⟨v, hv, rfl⟩ := Option.map_eq_some_iff.mp h
      simp only [not_or, not_not] at hcond
      obtain ⟨hversion, ht, hp⟩ := hcond
      -- encoding keeps the parts apart, so each part of the encoded list is an encoded part
      obtain ⟨x, xs, rfl, rfl, hxs⟩ := List.map_eq_cons_iff.mp hparts
      obtain ⟨t, ts, rfl, rfl, hts⟩ := List.map_eq_cons_iff.mp hxs
      obtain ⟨p, ps, rfl, rfl, hps⟩ := List.map_eq_cons_iff.mp hts
      obtain ⟨f, fs, rfl, rfl, hfs⟩ := List.map_eq_cons_iff.mp hps
      obtain rfl := List.map_eq_nil_iff.mp hfs
      obtain rfl : x = ['0', '0'] := (Encoding.encode_eq_encode_ascii ascii_zeros).mp hversion
      exact ⟨t, p, f, v, rfl, ht, hp, hv, rfl⟩
    · cases h
  · rintro ⟨t, p, f, v, rfl, ht, hp, hv, rfl⟩
    have hcond : ¬ (E.encode ['0', '0'] ≠ lit E "00" ∨ (E.encode t).length ≠ 32 ∨
        (E.encode p).length ≠ 16) := by
      simp only [not_or, not_not]
      exact ⟨rfl, ht, hp⟩
    simp only [List.map_cons, List.map_nil, readParts]
    rw [if_neg hcond, hv]
    rfl

/-- **What Go and Python accept.** -/
theorem readParts_splitOn_eq_some_iff [DecidableEq α] {header : List Char}
    {r : List α × List α × Bool} :
    readParts E number ((E.encode header).splitOn (E.letter '-')) = some r ↔
      ∃ t p f v, Form E number header t p f ∧ number (E.encode f) = some v ∧
        r = (E.encode t, E.encode p, decide (v % 2 = 1)) := by
  rw [Encoding.splitOn_encode (by decide), readParts_map_eq_some_iff]
  constructor
  · rintro ⟨t, p, f, v, hparts, ht, hp, hv, rfl⟩
    obtain ⟨hheader, -, ht', hp', hf'⟩ := Pricing.splitOn_eq_four_iff.mp hparts
    exact ⟨t, p, f, v, ⟨hheader, ⟨ht', ht⟩, ⟨hp', hp⟩, hf', by rw [hv]; rfl⟩, hv, rfl⟩
  · rintro ⟨t, p, f, v, h, hv, rfl⟩
    exact ⟨t, p, f, v, Pricing.splitOn_eq_four_iff.mpr
      ⟨h.header, by decide, h.traceId.1, h.spanId.1, h.flags.1⟩, h.traceId.2, h.spanId.2, hv, rfl⟩

end

/-- The parts of a header that is followed by dashes. -/
theorem splitOn_eq_four_replicate_iff {header version t p f : List Char} {k : ℕ} :
    header.splitOn '-' = [version, t, p, f] ++ List.replicate k [] ↔
      header = joined version t p f ++ List.replicate k '-' ∧
        '-' ∉ version ∧ '-' ∉ t ∧ '-' ∉ p ∧ '-' ∉ f := by
  simp only [List.cons_append, List.nil_append]
  rw [splitOn_eq_cons_iff (by simp)]
  constructor
  · rintro ⟨s₁, rfl, hv, h₁⟩
    obtain ⟨s₂, rfl, ht, h₂⟩ := (splitOn_eq_cons_iff (by simp)).mp h₁
    obtain ⟨s₃, rfl, hp, h₃⟩ := (splitOn_eq_cons_iff (by simp)).mp h₂
    obtain ⟨rfl, hf⟩ := splitOn_eq_cons_replicate_iff.mp h₃
    exact ⟨by simp [joined], hv, ht, hp, hf⟩
  · rintro ⟨rfl, hv, ht, hp, hf⟩
    refine ⟨t ++ '-' :: (p ++ '-' :: (f ++ List.replicate k '-')), by simp [joined], hv, ?_⟩
    refine (splitOn_eq_cons_iff (by simp)).mpr ⟨_, rfl, ht, ?_⟩
    exact (splitOn_eq_cons_iff (by simp)).mpr
      ⟨_, rfl, hp, splitOn_eq_cons_replicate_iff.mpr ⟨rfl, hf⟩⟩

namespace Java

theorem split_encode (header : List Char) :
    split (utf16.encode header) (utf16.letter '-') = (split header '-').map utf16.encode := by
  have hempty : List.isEmpty ∘ utf16.encode = List.isEmpty := by
    funext s
    rw [Bool.eq_iff_iff, Function.comp_apply, List.isEmpty_iff, List.isEmpty_iff,
      Encoding.encode_eq_nil_iff]
  unfold split
  by_cases h : '-' ∈ header
  · rw [if_pos h, if_pos ((Encoding.letter_mem_encode_iff (by decide)).mpr h),
      Encoding.splitOn_encode (by decide)]
    unfold List.rdropWhile
    rw [← List.map_reverse, List.dropWhile_map, hempty, List.map_reverse]
  · rw [if_neg h, if_neg fun hmem => h ((Encoding.letter_mem_encode_iff (by decide)).mp hmem)]
    rfl

/-- Empty parts at the end are left out. -/
theorem rdropWhile_isEmpty_iff (parts init : List (List Char)) {f : List Char} (hf : f ≠ []) :
    parts.rdropWhile List.isEmpty = init ++ [f] ↔
      ∃ k, parts = init ++ [f] ++ List.replicate k [] := by
  constructor
  · intro h
    refine ⟨(parts.rtakeWhile List.isEmpty).length, ?_⟩
    have hall : ∀ x ∈ parts.rtakeWhile List.isEmpty, x = [] := by
      intro x hx
      unfold List.rtakeWhile at hx
      exact List.isEmpty_iff.mp (List.mem_takeWhile_imp (List.mem_reverse.mp hx))
    rw [← List.eq_replicate_length.mpr hall, ← h, List.rdropWhile_append_rtakeWhile]
  · rintro ⟨k, rfl⟩
    induction k with
    | zero =>
      rw [List.replicate_zero, List.append_nil]
      exact List.rdropWhile_concat_neg _ _ _ (by simpa using hf)
    | succ k ih =>
      rw [List.replicate_succ', ← List.append_assoc, List.rdropWhile_concat_pos _ _ _ rfl, ih]

/-- **What Java accepts.** -/
theorem readParts_split_eq_some_iff (U : UnicodeTables) {header : List Char}
    {r : List UInt16 × List UInt16 × Bool} :
    readParts utf16 (parseInt U) (split (utf16.encode header) (utf16.letter '-')) = some r ↔
      ∃ h k t p f v, header = h ++ List.replicate k '-' ∧ Form utf16 (parseInt U) h t p f ∧
        parseInt U (utf16.encode f) = some v ∧
        r = (utf16.encode t, utf16.encode p, decide (v % 2 = 1)) := by
  -- `parseInt` accepts no empty text, so the flags are not empty
  have hne : ∀ {f : List Char} {v : ℤ}, parseInt U (utf16.encode f) = some v → f ≠ [] := by
    rintro f v hv rfl
    cases hv
  have hsplit : ∀ {t p f : List Char}, f ≠ [] → (split header '-' = [['0', '0'], t, p, f] ↔
      ∃ k, header.splitOn '-' = [['0', '0'], t, p, f] ++ List.replicate k []) := by
    intro t p f hf
    have hdrop := rdropWhile_isEmpty_iff (header.splitOn '-') [['0', '0'], t, p] hf
    -- Java's `split` drops the empty parts at the end, however many there are
    unfold split
    by_cases hdash : '-' ∈ header
    · rw [if_pos hdash]
      exact hdrop
    · rw [if_neg hdash, List.splitOn_eq_singleton hdash]
      simp
  rw [split_encode, readParts_map_eq_some_iff]
  constructor
  · rintro ⟨t, p, f, v, hparts, ht, hp, hv, rfl⟩
    obtain ⟨k, hk⟩ := (hsplit (hne hv)).mp hparts
    obtain ⟨hheader, -, ht', hp', hf'⟩ := splitOn_eq_four_replicate_iff.mp hk
    exact ⟨_, k, t, p, f, v, hheader, ⟨rfl, ⟨ht', ht⟩, ⟨hp', hp⟩, hf', by rw [hv]; rfl⟩, hv, rfl⟩
  · rintro ⟨h, k, t, p, f, v, rfl, hform, hv, rfl⟩
    refine ⟨t, p, f, v, (hsplit (hne hv)).mpr ⟨k, splitOn_eq_four_replicate_iff.mpr ?_⟩,
      hform.traceId.2, hform.spanId.2, hv, rfl⟩
    exact ⟨by rw [hform.header], by decide, hform.traceId.1, hform.spanId.1, hform.flags.1⟩

end Java

/-- The letters of a header are those of its parts. -/
theorem encode_joined {α : Type} (E : Encoding α) (t p f : List Char) :
    E.encode (joined ['0', '0'] t p f) =
      lit E "00-" ++ E.encode t ++ lit E "-" ++ E.encode p ++ lit E "-" ++ E.encode f := by
  simp [joined, lit]

namespace Cpp

/-- Where the parts of a header stand in its bytes. -/
theorem substr_of_form {header t p f : List Char} (h : CppForm header t p f) :
    (utf8.encode header).length = 55 ∧
      substr (utf8.encode header) 0 (some 3) = lit utf8 "00-" ∧
      substr (utf8.encode header) 3 (some 32) = utf8.encode t ∧
      (utf8.encode header)[35]? = some (utf8.letter '-') ∧
      substr (utf8.encode header) 36 (some 16) = utf8.encode p ∧
      (utf8.encode header)[52]? = some (utf8.letter '-') ∧
      substr (utf8.encode header) 53 (some 2) = utf8.encode f := by
  have hthree : (lit utf8 "00-").length = 3 := rfl
  have hdash : lit utf8 "-" = [utf8.letter '-'] := rfl
  -- the six pieces, with their lengths, place every substring
  have hencode : utf8.encode header = lit utf8 "00-" ++ utf8.encode t ++ [utf8.letter '-'] ++
      utf8.encode p ++ [utf8.letter '-'] ++ utf8.encode f := by
    rw [h.header, encode_joined, hdash]
  refine ⟨?_, ?_, ?_, ?_, ?_, ?_, ?_⟩
  · simp [hencode, h.traceId, h.spanId, h.flags, hthree]
  · rw [hencode]
    simpa using substr_append (s := []) (t := lit utf8 "00-") (u := utf8.encode t ++
      [utf8.letter '-'] ++ utf8.encode p ++ [utf8.letter '-'] ++ utf8.encode f) rfl hthree
  · rw [hencode]
    simpa using substr_append (s := lit utf8 "00-") (t := utf8.encode t) (u :=
      [utf8.letter '-'] ++ utf8.encode p ++ [utf8.letter '-'] ++ utf8.encode f) hthree h.traceId
  · simp [hencode, List.getElem?_append, hthree, h.traceId]
  · rw [hencode]
    simpa using substr_append (s := lit utf8 "00-" ++ utf8.encode t ++ [utf8.letter '-'])
      (t := utf8.encode p) (u := [utf8.letter '-'] ++ utf8.encode f)
      (by simp [h.traceId, hthree]) h.spanId
  · simp [hencode, List.getElem?_append, hthree, h.traceId, h.spanId]
  · rw [hencode]
    simpa using substr_append (s := lit utf8 "00-" ++ utf8.encode t ++ [utf8.letter '-'] ++
      utf8.encode p ++ [utf8.letter '-']) (t := utf8.encode f) (u := [])
      (by simp [h.traceId, h.spanId, hthree]) h.flags

/-- A header with the bytes that the parser looks at has the form. -/
theorem exists_form {header : List Char} (hlen : (utf8.encode header).length = 55)
    (hversion : substr (utf8.encode header) 0 (some 3) = lit utf8 "00-")
    (h35 : (utf8.encode header)[35]? = some (utf8.letter '-'))
    (h52 : (utf8.encode header)[52]? = some (utf8.letter '-')) :
    ∃ t p f, CppForm header t p f := by
  -- the dashes are characters of the header, from the last to the first
  obtain ⟨s₁, f, hheader, hs₁, hf⟩ := Encoding.exists_of_getElem?_encode (by decide) h52
  have h35' : (utf8.encode s₁)[35]? = some (utf8.letter '-') := by
    rw [hs₁, List.getElem?_take_of_lt (by decide), h35]
  obtain ⟨s₂, p, rfl, hs₂, hp⟩ := Encoding.exists_of_getElem?_encode (by decide) h35'
  have htake : utf8.encode s₂ = (utf8.encode header).take 35 := by
    rw [hs₂, hs₁, List.take_take]
    rfl
  have h2 : (utf8.encode s₂)[2]? = some (utf8.letter '-') := by
    have hthird : ((utf8.encode header).take 3)[2]? = some (utf8.letter '-') := by
      change (substr (utf8.encode header) 0 (some 3))[2]? = _
      rw [hversion]
      rfl
    rw [htake, List.getElem?_take_of_lt (by decide)]
    rwa [List.getElem?_take_of_lt (by decide)] at hthird
  obtain ⟨version, t, rfl, hv, ht⟩ := Encoding.exists_of_getElem?_encode (by decide) h2
  have hzero : version = ['0', '0'] := by
    refine (Encoding.encode_eq_encode_ascii (E := utf8) ascii_zeros).mp ?_
    have htwo : ((utf8.encode header).take 3).take 2 = utf8.encode ['0', '0'] := by
      change (substr (utf8.encode header) 0 (some 3)).take 2 = _
      rw [hversion]
      rfl
    rw [hv, htake, List.take_take, ← htwo, List.take_take]
    rfl
  subst hzero
  refine ⟨t, p, f, ?_, ?_, ?_, ?_⟩
  · rw [hheader, joined]
    simp
  · rw [ht, htake, List.length_drop, List.length_take, hlen]
    rfl
  · rw [hp, hs₁, List.length_drop, List.length_take, hlen]
    rfl
  · rw [hf, List.length_drop, hlen]

/-- **What C++ accepts.** -/
theorem spanFromTraceparent_eq_some_iff {header : List Char} {name : List UInt8}
    {s : Span UInt8} :
    spanFromTraceparent (utf8.encode header) name = some s ↔
      ∃ t p f, CppForm header t p f ∧
        s = ⟨name, utf8.encode t, utf8.encode p, decide (f ≠ ['0', '0'])⟩ := by
  have hflags : ∀ f : List Char, utf8.encode f ≠ lit utf8 "00" ↔ f ≠ ['0', '0'] := fun f =>
    not_congr (Encoding.encode_eq_encode_ascii ascii_zeros)
  have hread : ∀ {t p f}, CppForm header t p f →
      spanFromTraceparent (utf8.encode header) name =
        some ⟨name, utf8.encode t, utf8.encode p, decide (f ≠ ['0', '0'])⟩ := by
    -- whatever has the form is read as what it says
    intro t p f hform
    obtain ⟨hlen, hversion, htrace, h35, hspan, h52, hsampled⟩ := substr_of_form hform
    unfold spanFromTraceparent
    rw [if_neg (by simp [hlen, hversion]), htrace, hspan, hsampled, h35, h52]
    simp [hflags]
  constructor
  · intro h
    -- and what is read has the form, since every test of the source has passed
    have hform : ∃ t p f, CppForm header t p f := by
      unfold spanFromTraceparent at h
      split at h
      · cases h
      next hcond =>
      dsimp only at h
      split at h
      · cases h
      next hdashes =>
      simp only [not_or, not_not] at hcond hdashes
      exact exists_form hcond.1 hcond.2 hdashes.1 hdashes.2
    obtain ⟨t, p, f, hform⟩ := hform
    rw [hread hform, Option.some_inj] at h
    exact ⟨t, p, f, hform, h.symm⟩
  · rintro ⟨t, p, f, hform, rfl⟩
    exact hread hform

end Cpp

/-! ### What they agree on -/

section
variable {U : UnicodeTables} {drawnGo : List UInt8 × List UInt8} {drawnPy : List Char × List Char}
  {header name : List Char}

theorem Go.context_eq_some_iff {r : List UInt8 × Bool} :
    (Go.spanFromTraceparent drawnGo (utf8.encode header) (utf8.encode name)).map Span.context =
      some r ↔ ∃ t p f v, Form utf8 Go.parseInt header t p f ∧
        Go.parseInt (utf8.encode f) = some v ∧ r = (utf8.encode t, decide (v % 2 = 1)) := by
  unfold Go.spanFromTraceparent
  rw [Option.map_map, Option.map_eq_some_iff]
  simp only [readParts_splitOn_eq_some_iff]
  constructor
  · rintro ⟨_, ⟨t, p, f, v, hform, hv, rfl⟩, rfl⟩
    exact ⟨t, p, f, v, hform, hv, rfl⟩
  · rintro ⟨t, p, f, v, hform, hv, rfl⟩
    exact ⟨_, ⟨t, p, f, v, hform, hv, rfl⟩, rfl⟩

theorem Python.context_eq_some_iff {r : List Char × Bool} :
    (Python.fromTraceparent U drawnPy header name).map Span.context = some r ↔
      ∃ t p f v, Form points (Python.int U) header t p f ∧ Python.int U f = some v ∧
        r = (t, decide (v % 2 = 1)) := by
  have hread : ∀ r : List Char × List Char × Bool,
      readParts points (Python.int U) ((points.encode header).splitOn '-') = some r ↔
        ∃ t p f v, Form points (Python.int U) header t p f ∧
          Python.int U (points.encode f) = some v ∧
          r = (points.encode t, points.encode p, decide (v % 2 = 1)) := fun r =>
    readParts_splitOn_eq_some_iff
  simp only [encode_points] at hread
  -- a trace id that is read is not empty, so none is drawn
  have hid : ∀ {t p f : List Char} (sampled : Bool), Form points (Python.int U) header t p f →
      (Python.Span.init drawnPy name t sampled).traceId = t := by
    intro t p f sampled hform
    refine if_neg fun hnil => ?_
    have hlen := hform.traceId.2
    rw [hnil] at hlen
    cases hlen
  unfold Python.fromTraceparent
  rw [Option.map_map, Option.map_eq_some_iff]
  simp only [hread]
  constructor
  · rintro ⟨_, ⟨t, p, f, v, hform, hv, rfl⟩, rfl⟩
    exact ⟨t, p, f, v, hform, hv, Prod.ext (hid (decide (v % 2 = 1)) hform) rfl⟩
  · rintro ⟨t, p, f, v, hform, hv, rfl⟩
    exact ⟨_, ⟨t, p, f, v, hform, hv, rfl⟩, Prod.ext (hid (decide (v % 2 = 1)) hform) rfl⟩

theorem Java.context_eq_some_iff {r : List UInt16 × Bool} :
    (Java.fromTraceparent U (utf16.encode header) (utf16.encode name)).map Span.context = some r ↔
      ∃ h k t p f v, header = h ++ List.replicate k '-' ∧ Form utf16 (Java.parseInt U) h t p f ∧
        Java.parseInt U (utf16.encode f) = some v ∧
        r = (utf16.encode t, decide (v % 2 = 1)) := by
  unfold Java.fromTraceparent
  rw [Option.map_map, Option.map_eq_some_iff]
  simp only [Java.readParts_split_eq_some_iff]
  constructor
  · rintro ⟨_, ⟨h, k, t, p, f, v, hheader, hform, hv, rfl⟩, rfl⟩
    exact ⟨h, k, t, p, f, v, hheader, hform, hv, rfl⟩
  · rintro ⟨h, k, t, p, f, v, hheader, hform, hv, rfl⟩
    exact ⟨_, ⟨h, k, t, p, f, v, hheader, hform, hv, rfl⟩, rfl⟩

theorem Cpp.context_eq_some_iff {r : List UInt8 × Bool} :
    (Cpp.spanFromTraceparent (utf8.encode header) (utf8.encode name)).map Span.context = some r ↔
      ∃ t p f, CppForm header t p f ∧ r = (utf8.encode t, decide (f ≠ ['0', '0'])) := by
  rw [Option.map_eq_some_iff]
  simp only [Cpp.spanFromTraceparent_eq_some_iff]
  constructor
  · rintro ⟨_, ⟨t, p, f, hform, rfl⟩, rfl⟩
    exact ⟨t, p, f, hform, rfl⟩
  · rintro ⟨t, p, f, hform, rfl⟩
    exact ⟨_, ⟨t, p, f, hform, rfl⟩, rfl⟩

/-! ### Where they agree -/

/-- **A plain header is read by all**, and the decision is the same if the flags are `00` or odd. -/
theorem Plain.reads {t p f : List Char} {v : ℕ} (h : Plain header t p f v)
    (hflags : f = ['0', '0'] ∨ v % 2 = 1) :
    Reads U drawnGo drawnPy header name t (decide (v % 2 = 1)) := by
  have hsize : ∀ {α : Type} (E : Encoding α) {s : List Char}, (∀ c ∈ s, IsAscii c ∧ c ≠ '-') →
      (E.encode s).length = s.length := fun E s hs =>
    Encoding.length_encode_ascii fun c hc => (hs c hc).1
  -- digits are ASCII, so encoded lengths are lengths, in each of the four encodings
  have hform : ∀ {α : Type} (E : Encoding α) (number : List α → Option ℤ),
      number (E.encode f) = some (v : ℤ) → Form E number header t p f := fun E number hv =>
    ⟨h.header, ⟨fun hmem => (h.traceId.1 _ hmem).2 rfl, (hsize E h.traceId.1).trans h.traceId.2⟩,
      ⟨fun hmem => (h.spanId.1 _ hmem).2 rfl, (hsize E h.spanId.1).trans h.spanId.2⟩,
      h.flags.dash_notMem, by rw [hv]; rfl⟩
  have hcpp : CppForm header t p f :=
    ⟨h.header, (hsize utf8 h.traceId.1).trans h.traceId.2,
      (hsize utf8 h.spanId.1).trans h.spanId.2,
      (Encoding.length_encode_ascii (ascii_of_numeral h.flags.numeral)).trans h.flags.length⟩
  have hparity : decide ((v : ℤ) % 2 = 1) = decide (v % 2 = 1) := by
    rw [decide_eq_decide]
    omega
  -- the C++ test of the flags agrees with the others on these
  have hsampled : decide (f ≠ ['0', '0']) = decide (v % 2 = 1) := by
    rw [decide_eq_decide]
    constructor
    · exact hflags.resolve_left
    · rintro hodd rfl
      rw [h.flags.eq_zero] at hodd
      cases hodd
  refine ⟨Cpp.context_eq_some_iff.mpr ⟨t, p, f, hcpp, by rw [hsampled]⟩,
    Go.context_eq_some_iff.mpr ⟨t, p, f, v, hform utf8 _ (Go.parseInt_byte h.flags),
      Go.parseInt_byte h.flags, by rw [hparity]⟩,
    Python.context_eq_some_iff.mpr ⟨t, p, f, v, hform points _ ?_, Python.int_byte U h.flags,
      by rw [hparity]⟩,
    Java.context_eq_some_iff.mpr ⟨header, 0, t, p, f, v, by simp,
      hform utf16 _ (Java.parseInt_byte U h.flags), Java.parseInt_byte U h.flags,
      by rw [hparity]⟩⟩
  rw [encode_points]
  exact Python.int_byte U h.flags

/-- A header that all four accept is a plain one. -/
theorem plain_of_forms {t p f t' p' f' t'' p'' f'' : List Char} (hcpp : CppForm header t p f)
    (hgo : Form utf8 Go.parseInt header t' p' f')
    (hpy : Form points (Python.int U) header t'' p'' f'') :
    f = f' ∧ ∃ v, Plain header t p f v := by
  have hparts : [['0', '0'], t', p', f'] = [['0', '0'], t'', p'', f''] := by
    rw [← Pricing.splitOn_eq_four_iff.mpr
        ⟨hgo.header, by decide, hgo.traceId.1, hgo.spanId.1, hgo.flags.1⟩,
      ← Pricing.splitOn_eq_four_iff.mpr
        ⟨hpy.header, by decide, hpy.traceId.1, hpy.spanId.1, hpy.flags.1⟩]
  simp only [List.cons.injEq, and_true, true_and] at hparts
  obtain ⟨rfl, rfl, rfl⟩ := hparts
  -- the C++ parser cuts at the same places
  have hjoined := hcpp.header.symm.trans hgo.header
  simp only [joined, List.cons_append, List.nil_append, List.cons.injEq, true_and] at hjoined
  obtain ⟨rfl, hrest⟩ := Encoding.append_inj (E := utf8) hjoined
    (hcpp.traceId.trans hgo.traceId.2.symm)
  obtain ⟨rfl, hlast⟩ := Encoding.append_inj (E := utf8) (List.cons.inj hrest).2
    (hcpp.spanId.trans hgo.spanId.2.symm)
  obtain rfl := (List.cons.inj hlast).2
  have htlen := hpy.traceId.2
  have hplen := hpy.spanId.2
  rw [encode_points] at htlen hplen
  obtain ⟨v, hv⟩ := Go.isByte_of_parseInt hgo.flags.1 hcpp.flags hgo.flags.2
  refine ⟨rfl, v, hcpp.header, ⟨fun c hc => ⟨?_, ?_⟩, htlen⟩, ⟨fun c hc => ⟨?_, ?_⟩, hplen⟩, hv⟩
  · exact ascii_of_length_utf8 (hcpp.traceId.trans htlen.symm) c hc
  · exact ne_of_mem_of_not_mem hc hgo.traceId.1
  · exact ascii_of_length_utf8 (hcpp.spanId.trans hplen.symm) c hc
  · exact ne_of_mem_of_not_mem hc hgo.spanId.1

/-- What all four read alike is common. -/
theorem Reads.common {t : List Char} {sampled : Bool}
    (h : Reads U drawnGo drawnPy header name t sampled) : Common header := by
  obtain ⟨hcpp, hgo, hpy, -⟩ := h
  obtain ⟨t₁, p, f, hcpp, hr₁⟩ := Cpp.context_eq_some_iff.mp hcpp
  obtain ⟨t₂, p₂, f₂, w, hgo, hw, hr₂⟩ := Go.context_eq_some_iff.mp hgo
  obtain ⟨t₃, p₃, f₃, x, hpy, -, -⟩ := Python.context_eq_some_iff.mp hpy
  obtain ⟨rfl, v, hplain⟩ := plain_of_forms hcpp hgo hpy
  obtain rfl : (v : ℤ) = w := Option.some_inj.mp ((Go.parseInt_byte hplain.flags).symm.trans hw)
  refine ⟨t₁, p, f, v, hplain, ?_⟩
  have hsampled : decide (f ≠ ['0', '0']) = decide ((v : ℤ) % 2 = 1) :=
    (Prod.ext_iff.mp hr₁).2.symm.trans (Prod.ext_iff.mp hr₂).2
  rw [decide_eq_decide] at hsampled
  by_cases hf : f = ['0', '0']
  · exact Or.inl hf
  · have hodd := hsampled.mp hf
    exact Or.inr (by omega)

/-- All four reject just what is in no grammar. -/
theorem rejected_iff :
    (Cpp.spanFromTraceparent (utf8.encode header) (utf8.encode name) = none ∧
      Go.spanFromTraceparent drawnGo (utf8.encode header) (utf8.encode name) = none ∧
      Python.fromTraceparent U drawnPy header name = none ∧
      Java.fromTraceparent U (utf16.encode header) (utf16.encode name) = none) ↔
    ¬ Readable U header := by
  have hread : ∀ {α : Type} {x : Option (Span α)}, x ≠ none →
      ∃ r, x.map Span.context = some r := by
    intro α x hx
    obtain ⟨s, rfl⟩ := Option.ne_none_iff_exists'.mp hx
    exact ⟨s.context, rfl⟩
  constructor
  -- whoever could read the header would have read it
  · rintro ⟨hcpp, hgo, hpy, hjava⟩ ⟨t, p, f, h | h | h | ⟨h', k, hheader, h⟩⟩
    · have hr : (Cpp.spanFromTraceparent (utf8.encode header) (utf8.encode name)).map
          Span.context = some _ := Cpp.context_eq_some_iff.mpr ⟨t, p, f, h, rfl⟩
      rw [hcpp] at hr
      cases hr
    · obtain ⟨v, hv⟩ := Option.isSome_iff_exists.mp h.flags.2
      have hr : (Go.spanFromTraceparent drawnGo (utf8.encode header) (utf8.encode name)).map
          Span.context = some _ := Go.context_eq_some_iff.mpr ⟨t, p, f, v, h, hv, rfl⟩
      rw [hgo] at hr
      cases hr
    · obtain ⟨v, hv⟩ := Option.isSome_iff_exists.mp h.flags.2
      rw [encode_points] at hv
      have hr : (Python.fromTraceparent U drawnPy header name).map Span.context = some _ :=
        Python.context_eq_some_iff.mpr ⟨t, p, f, v, h, hv, rfl⟩
      rw [hpy] at hr
      cases hr
    · obtain ⟨v, hv⟩ := Option.isSome_iff_exists.mp h.flags.2
      have hr : (Java.fromTraceparent U (utf16.encode header) (utf16.encode name)).map
          Span.context = some _ :=
        Java.context_eq_some_iff.mpr ⟨h', k, t, p, f, v, hheader, h, hv, rfl⟩
      rw [hjava] at hr
      cases hr
  · intro hno
    -- and whoever reads it makes it readable
    refine ⟨?_, ?_, ?_, ?_⟩
    · by_contra hne
      obtain ⟨r, hr⟩ := hread hne
      obtain ⟨t, p, f, h, -⟩ := Cpp.context_eq_some_iff.mp hr
      exact hno ⟨t, p, f, Or.inl h⟩
    · by_contra hne
      obtain ⟨r, hr⟩ := hread hne
      obtain ⟨t, p, f, v, h, -⟩ := Go.context_eq_some_iff.mp hr
      exact hno ⟨t, p, f, Or.inr (Or.inl h)⟩
    · by_contra hne
      obtain ⟨r, hr⟩ := hread hne
      obtain ⟨t, p, f, v, h, -⟩ := Python.context_eq_some_iff.mp hr
      exact hno ⟨t, p, f, Or.inr (Or.inr (Or.inl h))⟩
    · by_contra hne
      obtain ⟨r, hr⟩ := hread hne
      obtain ⟨h', k, t, p, f, v, hheader, h, -⟩ := Java.context_eq_some_iff.mp hr
      exact hno ⟨t, p, f, Or.inr (Or.inr (Or.inr ⟨h', k, hheader, h⟩))⟩

end

/-! ### What they write -/

theorem writeHeader_encode {α : Type} [DecidableEq α] (E : Encoding α) (s : Span Char)
    (flags : List Char) : writeHeader E (s.encode E) (E.encode flags) =
      E.encode (joined ['0', '0'] s.traceId s.spanId flags) := (encode_joined E _ _ _).symm

/-- The Python encoder formats a number. -/
theorem Python.traceparent_eq (s : Span Char) : Python.traceparent s =
    joined ['0', '0'] s.traceId s.spanId (if s.sampled then ['0', '1'] else ['0', '0']) := by
  have hflags : Pricing.hexPadded 2 (if s.sampled then 1 else 0) =
      if s.sampled then ['0', '1'] else ['0', '0'] := by
    cases s.sampled with
    | true => decide
    | false => decide
  have hencode := writeHeader_encode points s (if s.sampled then ['0', '1'] else ['0', '0'])
  simp only [Span.encode, encode_points] at hencode
  rw [Python.traceparent, hflags]
  exact hencode

/-- A span with identifiers of digits is written as a plain header. -/
theorem plain_written {s : Span Char} (ht : IsHex 32 s.traceId) (hp : IsHex 16 s.spanId)
    {flags : List Char} {v : ℕ} (hflags : IsByte flags v) :
    Plain (joined ['0', '0'] s.traceId s.spanId flags) s.traceId s.spanId flags v := by
  have hplain : ∀ {n : ℕ} {x : List Char}, IsHex n x → ∀ c ∈ x, IsAscii c ∧ c ≠ '-' :=
    fun hx c hc => ⟨ascii_of_isDigit (hx.2 c hc),
      ne_of_mem_of_not_mem hc (Pricing.dash_notMem hx.2)⟩
  exact ⟨rfl, ⟨hplain ht, ht.1⟩, ⟨hplain hp, hp.1⟩, hflags⟩

/-- **Where the codecs are one.** For every header: all four parsers reject it, or read the same
trace id and decision from it, if and only if it is common or in none of the four grammars. And
the four encoders write the same header for a span with identifiers of digits, from which all four
parsers read its trace id and decision. -/
theorem codecs_agree_iff (U : UnicodeTables) (drawnGo : List UInt8 × List UInt8)
    (drawnPy : List Char × List Char) (header name : List Char) :
    (Agree U drawnGo drawnPy header name ↔ Common header ∨ ¬ Readable U header) ∧
      ∀ s : Span Char, IsHex 32 s.traceId → IsHex 16 s.spanId → ∃ written,
        Cpp.traceparentOf (s.encode utf8) = utf8.encode written ∧
        Go.traceparent (s.encode utf8) = utf8.encode written ∧
        Python.traceparent s = written ∧
        Java.traceparent (s.encode utf16) = utf16.encode written ∧
        Reads U drawnGo drawnPy written name s.traceId s.sampled := by
  refine ⟨⟨?_, ?_⟩, fun s ht hp => ?_⟩
  · rintro (hnone | ⟨t, sampled, h⟩)
    · exact Or.inr (rejected_iff.mp hnone)
    · exact Or.inl h.common
  -- a header in the common form is read alike, and one that nobody reads is rejected by all
  · rintro (⟨t, p, f, v, h, hflags⟩ | hno)
    · exact Or.inr ⟨t, _, h.reads hflags⟩
    · exact Or.inl (rejected_iff.mpr hno)
  · obtain ⟨name', t, p, sampled⟩ := s
    -- the flags are written as `01` or as `00`, either of which every parser reads back
    cases sampled with
    | true =>
      have hbyte : IsByte ['0', '1'] 1 := ⟨rfl, Or.inl (by decide)⟩
      exact ⟨joined ['0', '0'] t p ['0', '1'], writeHeader_encode utf8 _ _,
        writeHeader_encode utf8 _ _, Python.traceparent_eq _, writeHeader_encode utf16 _ _,
        (plain_written ht hp hbyte).reads (Or.inr rfl)⟩
    | false =>
      have hbyte : IsByte ['0', '0'] 0 := ⟨rfl, Or.inl (by decide)⟩
      exact ⟨joined ['0', '0'] t p ['0', '0'], writeHeader_encode utf8 _ _,
        writeHeader_encode utf8 _ _, Python.traceparent_eq _, writeHeader_encode utf16 _ _,
        (plain_written ht hp hbyte).reads (Or.inl rfl)⟩

/-- A header with one flag set, and not that of sampling. -/
def flagsTwo : List Char :=
  joined ['0', '0'] (List.replicate 32 'a') (List.replicate 16 'b') ['0', '2']

/-- The C++ program samples the trace, the Go program does not. -/
theorem not_codecs_agree : ¬ ∀ (U : UnicodeTables) (drawnGo : List UInt8 × List UInt8)
    (drawnPy : List Char × List Char) (header name : List Char),
    Agree U drawnGo drawnPy header name := by
  intro h
  have hcpp : ((Cpp.spanFromTraceparent (utf8.encode flagsTwo) []).map Span.context).map Prod.snd =
      some true := by decide +kernel
  have hgo : ((Go.spanFromTraceparent ([], []) (utf8.encode flagsTwo) []).map Span.context).map
      Prod.snd = some false := by decide +kernel
  rcases h ⟨fun _ => false, fun _ => none, fun _ => none⟩ ([], []) ([], []) flagsTwo [] with
    ⟨hnone, -⟩ | ⟨t, sampled, hcpp', hgo', -⟩
  · rw [Encoding.encode_nil] at hnone
    rw [hnone] at hcpp
    cases hcpp
  · rw [Encoding.encode_nil] at hcpp' hgo'
    rw [hcpp', Option.map_some, Option.some_inj] at hcpp
    rw [hgo', Option.map_some, Option.some_inj] at hgo
    exact absurd (hcpp.symm.trans hgo) (by decide)

end CorrelationIds
end SepLab
