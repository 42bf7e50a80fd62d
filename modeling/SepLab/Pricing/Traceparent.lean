import Mathlib.Data.Nat.Digits.Defs
import SepLab.Lib.Delimited
import SepLab.Lib.Digits

/-!
# The trace context of the pricing service

The observability lab's `parseTraceparent`, which reads the header of a request, and the header
that `handlePrice` writes on its response.  Texts are lists of characters; for a byte string
these are the characters of its bytes.

## Main definitions

* `parseTraceparent`, `continueTrace`, `responseHeader` — the functions.
* `IsId n s`, `W3C header span` — the grammar of version `00`.
* `Shaped header t p f` — what the parser looks at: the parts and their lengths.

## Main results

* `parseTraceparent_eq_some_iff` — **what the parser accepts**.
* `traceparent_iff` — where it follows the grammar, and the response reads back as what was
  chosen.
-/

namespace SepLab
namespace Pricing

open Digits Delimited

/-- `spanContext` -/
structure SpanContext where
  traceId : List Char
  spanId : List Char
  sampled : Bool
deriving DecidableEq

/-! ### The functions -/

/-- `strconv.ParseUint` with a base and a size in bits. -/
def parseUint (base bits : ℕ) (s : List Char) : Option ℕ :=
  if s = [] then none
  else if s.all (isDigit base) && decide (number base s < 2 ^ bits) then some (number base s)
  else none

/-- `parseTraceparent` -/
def parseTraceparent (header : List Char) : Option SpanContext :=
  match header.splitOn '-' with
  | [version, traceId, spanId, flagsText] =>
    if version = ['0', '0'] ∧ traceId.length = 32 ∧ spanId.length = 16 then
      (parseUint 16 8 flagsText).map fun flags =>
        ⟨traceId, spanId, decide (flags &&& 1 = 1)⟩
    else none
  | _ => none

/-- The verb `%0wx`. -/
def hexPadded (w n : ℕ) : List Char :=
  List.replicate (w - (Nat.toDigits 16 n).length) '0' ++ Nat.toDigits 16 n

/-- `continueTrace`; `n₁` and `n₂` are what the span counter returns to this request. -/
def continueTrace (breakMode : String) (header : List Char) (n₁ n₂ : UInt64) :
    SpanContext × List Char × Bool :=
  let fresh : SpanContext × List Char × Bool :=
    (⟨hexPadded 32 n₁.toNat, hexPadded 16 n₂.toNat, true⟩, [], false)
  if breakMode = "pricing_fresh_ctx" then fresh
  else
    match parseTraceparent header with
    | some parent => (⟨parent.traceId, hexPadded 16 n₁.toNat, parent.sampled⟩, parent.spanId, true)
    | none => fresh

/-- The four parts of a header. -/
def joined (version traceId spanId flags : List Char) : List Char :=
  version ++ '-' :: (traceId ++ '-' :: (spanId ++ '-' :: flags))

/-- The `traceparent` that `handlePrice` writes. -/
def responseHeader (span : SpanContext) : List Char :=
  joined ['0', '0'] span.traceId span.spanId ['0', '1']

/-! ### The grammar -/

/-- A hexadecimal digit in lower case. -/
def isLowerHex (c : Char) : Bool :=
  (decide ('0' ≤ c) && decide (c ≤ '9')) || (decide ('a' ≤ c) && decide (c ≤ 'f'))

/-- An identifier: digits that are not all zero. -/
structure IsId (n : ℕ) (s : List Char) : Prop where
  length : s.length = n
  digits : ∀ c ∈ s, isLowerHex c = true
  nonzero : ∃ c ∈ s, c ≠ '0'

/-- The header is one of version `00`, and says what is in `span`. -/
def W3C (header : List Char) (span : SpanContext) : Prop :=
  ∃ flags, header = joined ['0', '0'] span.traceId span.spanId flags ∧
    IsId 32 span.traceId ∧ IsId 16 span.spanId ∧
    flags.length = 2 ∧ (∀ c ∈ flags, isLowerHex c = true) ∧
    span.sampled = (number 16 flags).testBit 0

/-- The parser accepts just what the grammar does, and returns what the header says. -/
def FollowsGrammar (header : List Char) : Prop :=
  ∀ span, parseTraceparent header = some span ↔ W3C header span

/-- The response reads back as the span that was chosen. -/
def ReadsBack (breakMode : String) (header : List Char) (n₁ n₂ : UInt64) : Prop :=
  parseTraceparent (responseHeader (continueTrace breakMode header n₁ n₂).1) =
    some (continueTrace breakMode header n₁ n₂).1

/-- What the parser looks at: four parts, of which the second and the third have the length of
an identifier and the last is a hexadecimal number of a byte. -/
structure Shaped (header traceId spanId flags : List Char) : Prop where
  header : header = joined ['0', '0'] traceId spanId flags
  traceId : '-' ∉ traceId ∧ traceId.length = 32
  spanId : '-' ∉ spanId ∧ spanId.length = 16
  flags : flags ≠ [] ∧ (∀ c ∈ flags, isDigit 16 c = true) ∧ number 16 flags < 256

/-! ### What the parser accepts -/

theorem parseUint_eq_some_iff {base bits n : ℕ} {s : List Char} :
    parseUint base bits s = some n ↔
      s ≠ [] ∧ (∀ c ∈ s, isDigit base c = true) ∧ number base s < 2 ^ bits ∧ number base s = n := by
  unfold parseUint
  split
  · next hs => simp [hs]
  · next hs =>
    rw [Option.ite_none_right_eq_some, Bool.and_eq_true, List.all_eq_true, decide_eq_true_iff,
      Option.some_inj]
    tauto

/-- Where there are four parts and no dash in any of them. -/
theorem splitOn_eq_four_iff {header version traceId spanId flags : List Char} :
    header.splitOn '-' = [version, traceId, spanId, flags] ↔
      header = joined version traceId spanId flags ∧
        '-' ∉ version ∧ '-' ∉ traceId ∧ '-' ∉ spanId ∧ '-' ∉ flags := by
  rw [splitOn_eq_cons_iff (by simp)]
  constructor
  · rintro ⟨s₁, rfl, hv, h₁⟩
    obtain ⟨s₂, rfl, ht, h₂⟩ := (splitOn_eq_cons_iff (by simp)).mp h₁
    obtain ⟨s₃, rfl, hp, h₃⟩ := (splitOn_eq_cons_iff (by simp)).mp h₂
    obtain ⟨rfl, hf⟩ := splitOn_eq_singleton_iff.mp h₃
    exact ⟨rfl, hv, ht, hp, hf⟩
  · rintro ⟨rfl, hv, ht, hp, hf⟩
    refine ⟨_, rfl, hv, (splitOn_eq_cons_iff (by simp)).mpr ⟨_, rfl, ht, ?_⟩⟩
    exact (splitOn_eq_cons_iff (by simp)).mpr ⟨_, rfl, hp, List.splitOn_eq_singleton hf⟩

/-- A dash is no digit. -/
theorem dash_notMem {s : List Char} (h : ∀ c ∈ s, isDigit 16 c = true) : '-' ∉ s := fun hmem =>
  absurd (h '-' hmem) (by decide)

/-- **What the parser accepts**, and what it makes of it. -/
theorem parseTraceparent_eq_some_iff {header : List Char} {span : SpanContext} :
    parseTraceparent header = some span ↔
      ∃ flags, Shaped header span.traceId span.spanId flags ∧
        span.sampled = (number 16 flags).testBit 0 := by
  have hbit : ∀ n : ℕ, decide (n &&& 1 = 1) = n.testBit 0 := by
    intro n
    rw [Nat.and_one_is_mod, Nat.testBit_zero]
  constructor
  · intro h
    unfold parseTraceparent at h
    split at h
    · next version traceId spanId flags hsplit =>
      -- the four fields join to the header again
      obtain ⟨hheader, -, ht, hp, -⟩ := splitOn_eq_four_iff.mp hsplit
      split at h
      · next hcond =>
        obtain ⟨rfl, hlt, hlp⟩ := hcond
        obtain ⟨n, hn, rfl⟩ := Option.map_eq_some_iff.mp h
        obtain ⟨hne, hdigits, hlt8, rfl⟩ := parseUint_eq_some_iff.mp hn
        exact ⟨flags, ⟨hheader, ⟨ht, hlt⟩, ⟨hp, hlp⟩, ⟨hne, hdigits, hlt8⟩⟩, hbit _⟩
      · simp at h
    · simp at h
  · rintro ⟨flags, hshaped, hsampled⟩
    obtain ⟨traceId, spanId, sampled⟩ := span
    obtain ⟨hheader, ⟨ht, hlt⟩, ⟨hp, hlp⟩, hne, hdigits, hlt8⟩ := hshaped
    -- none of the fields contains a dash
    have hsplit : header.splitOn '-' = [['0', '0'], traceId, spanId, flags] :=
      splitOn_eq_four_iff.mpr ⟨hheader, by decide, ht, hp, dash_notMem hdigits⟩
    have huint : parseUint 16 8 flags = some (number 16 flags) :=
      parseUint_eq_some_iff.mpr ⟨hne, hdigits, hlt8, rfl⟩
    unfold parseTraceparent
    rw [hsplit]
    simp only
    rw [if_pos ⟨trivial, hlt, hlp⟩, huint, Option.map_some, hbit, ← hsampled]

/-! ### Against the grammar -/

theorem isDigit_of_isLowerHex {c : Char} (h : isLowerHex c = true) : isDigit 16 c = true := by
  rw [isDigit_iff]
  unfold isLowerHex at h
  rw [Bool.or_eq_true, Bool.and_eq_true, Bool.and_eq_true, decide_eq_true_iff, decide_eq_true_iff,
    decide_eq_true_iff, decide_eq_true_iff] at h
  have hle : ∀ d e : Char, d ≤ e → d.toNat ≤ e.toNat := fun d e h => UInt32.le_iff_toNat_le.mp h
  unfold digitCode
  rcases h with h | h
  · rw [if_pos h]
    have h₉ : c.toNat ≤ 57 := hle c '9' h.2
    omega
  -- a letter from a to f is no digit, and among the lower-case letters
  · have ha : 97 ≤ c.toNat := hle 'a' c h.1
    have hf : c.toNat ≤ 102 := hle c 'f' h.2
    have hfz : 'f' ≤ 'z' := by decide
    have hz : 'a' ≤ c ∧ c ≤ 'z' := ⟨h.1, Char.le_trans h.2 hfz⟩
    have hno : ¬('0' ≤ c ∧ c ≤ '9') := by
      rintro ⟨-, h₉⟩
      have : c.toNat ≤ 57 := hle c '9' h₉
      omega
    rw [if_neg hno, if_pos hz]
    omega

/-- What the grammar accepts has the shape that the parser looks at. -/
theorem shaped_of_W3C {header flags : List Char} {traceId spanId : List Char}
    (hheader : header = joined ['0', '0'] traceId spanId flags) (ht : IsId 32 traceId)
    (hp : IsId 16 spanId) (hlen : flags.length = 2) (hf : ∀ c ∈ flags, isLowerHex c = true) :
    Shaped header traceId spanId flags := by
  have hdigits : ∀ c ∈ flags, isDigit 16 c = true := fun c hc => isDigit_of_isLowerHex (hf c hc)
  have hne : flags ≠ [] := List.ne_nil_of_length_pos (by omega)
  have hlt : number 16 flags < 256 := by
    have hnumeral : Numeral 16 flags (number 16 flags) := ⟨hne, hdigits, rfl⟩
    have hpow := hnumeral.lt (by decide)
    rwa [hlen] at hpow
  exact ⟨hheader, ⟨dash_notMem fun c hc => isDigit_of_isLowerHex (ht.digits c hc), ht.length⟩,
    ⟨dash_notMem fun c hc => isDigit_of_isLowerHex (hp.digits c hc), hp.length⟩, hne, hdigits, hlt⟩

/-- **Where the parser follows the grammar**: what it looks at is all that is to be looked at. -/
theorem followsGrammar_iff {header : List Char} :
    FollowsGrammar header ↔ ∀ traceId spanId flags, Shaped header traceId spanId flags →
      IsId 32 traceId ∧ IsId 16 spanId ∧ flags.length = 2 ∧ ∀ c ∈ flags, isLowerHex c = true := by
  constructor
  · intro h traceId spanId flags hshaped
    have hparse : parseTraceparent header =
        some ⟨traceId, spanId, (number 16 flags).testBit 0⟩ :=
      parseTraceparent_eq_some_iff.mpr ⟨flags, hshaped, rfl⟩
    obtain ⟨flags', hheader, ht, hp, hlen, hf, -⟩ := (h _).mp hparse
    -- the ids are the same, and so the rest of the header is
    have heq : flags' = flags := by
      have hjoined := hheader.symm.trans hshaped.header
      unfold joined at hjoined
      simpa using hjoined
    rw [heq] at hlen hf
    exact ⟨ht, hp, hlen, hf⟩
  · intro h span
    rw [parseTraceparent_eq_some_iff]
    constructor
    · rintro ⟨flags, hshaped, hsampled⟩
      obtain ⟨ht, hp, hlen, hf⟩ := h _ _ _ hshaped
      exact ⟨flags, hshaped.header, ht, hp, hlen, hf, hsampled⟩
    · rintro ⟨flags, hheader, ht, hp, hlen, hf, hsampled⟩
      exact ⟨flags, shaped_of_W3C hheader ht hp hlen hf, hsampled⟩

/-! ### The response -/

theorem length_hexPadded {w n : ℕ} (hw : 0 < w) (h : n < 16 ^ w) : (hexPadded w n).length = w := by
  have hle := (Nat.length_toDigits_le_iff (by decide) hw).mpr h
  unfold hexPadded
  rw [List.length_append, List.length_replicate]
  omega

theorem dash_notMem_hexPadded (w n : ℕ) : '-' ∉ hexPadded w n := by
  intro hmem
  rcases List.mem_append.mp hmem with h | h
  · exact absurd (List.eq_of_mem_replicate h) (by decide)
  · obtain ⟨d, hd, heq⟩ := exists_digitChar_of_mem_toDigits (by decide) h
    have hall : ∀ d < 16, '-' ≠ Nat.digitChar d := by decide
    exact hall d hd heq

theorem hexPadded_counter {w : ℕ} (hw : 16 ≤ w) (n : UInt64) :
    '-' ∉ hexPadded w n.toNat ∧ (hexPadded w n.toNat).length = w := by
  refine ⟨dash_notMem_hexPadded w n.toNat, length_hexPadded (by omega) ?_⟩
  calc n.toNat < 2 ^ 64 := n.toNat_lt
    _ = 16 ^ 16 := by decide
    _ ≤ 16 ^ w := Nat.pow_le_pow_right (by decide) hw

/-- A response with ids of the right lengths reads back, but always as sampled. -/
theorem parse_responseHeader {span : SpanContext}
    (ht : '-' ∉ span.traceId ∧ span.traceId.length = 32)
    (hp : '-' ∉ span.spanId ∧ span.spanId.length = 16) :
    parseTraceparent (responseHeader span) = some span ↔ span.sampled = true := by
  have hshaped : Shaped (responseHeader span) span.traceId span.spanId ['0', '1'] :=
    ⟨rfl, ht, hp, by decide, List.all_eq_true.mp (by decide), by decide⟩
  have hparse : parseTraceparent (responseHeader span) = some ⟨span.traceId, span.spanId, true⟩ :=
    parseTraceparent_eq_some_iff.mpr ⟨_, hshaped, rfl⟩
  rw [hparse, Option.some_inj]
  obtain ⟨traceId, spanId, sampled⟩ := span
  simp [eq_comm]

/-- **Where the response reads back**: unless the caller's trace is joined and not sampled. -/
theorem readsBack_iff {breakMode : String} {header : List Char} {n₁ n₂ : UInt64} :
    ReadsBack breakMode header n₁ n₂ ↔ breakMode = "pricing_fresh_ctx" ∨
      ∀ traceId spanId flags, Shaped header traceId spanId flags →
        (number 16 flags).testBit 0 = true := by
  have hfresh : parseTraceparent (responseHeader
      ⟨hexPadded 32 n₁.toNat, hexPadded 16 n₂.toNat, true⟩) =
      some ⟨hexPadded 32 n₁.toNat, hexPadded 16 n₂.toNat, true⟩ :=
    (parse_responseHeader (hexPadded_counter (by decide) n₁)
      (hexPadded_counter (by decide) n₂)).mpr rfl
  unfold ReadsBack continueTrace
  -- with the break the response gets an identity of its own
  by_cases hbreak : breakMode = "pricing_fresh_ctx"
  · simp only [if_pos hbreak]
    exact iff_of_true hfresh (Or.inl hbreak)
  · simp only [if_neg hbreak]
    rw [or_iff_right hbreak]
    cases hparse : parseTraceparent header with
    | none =>
      refine iff_of_true hfresh fun traceId spanId flags hshaped => ?_
      have hsome : parseTraceparent header = some ⟨traceId, spanId, _⟩ :=
        parseTraceparent_eq_some_iff.mpr ⟨flags, hshaped, rfl⟩
      rw [hparse] at hsome
      simp at hsome
    | some parent =>
      obtain ⟨flags, hshaped, hsampled⟩ := parseTraceparent_eq_some_iff.mp hparse
      refine (@parse_responseHeader ⟨parent.traceId, hexPadded 16 n₁.toNat, parent.sampled⟩
        hshaped.traceId (hexPadded_counter (by decide) n₁)).trans ?_
      constructor
      · intro hparent traceId spanId flags' hshaped'
        have hsome : parseTraceparent header =
            some ⟨traceId, spanId, (number 16 flags').testBit 0⟩ :=
          parseTraceparent_eq_some_iff.mpr ⟨flags', hshaped', rfl⟩
        rw [hparse, Option.some_inj] at hsome
        rw [← hparent, hsome]
      · intro h
        exact hsampled.trans (h _ _ _ hshaped)

/-- **Where the parser follows the grammar and the response reads back**: where whatever has the
shape of a header has ids and flags of the grammar, and a caller's trace that is joined is
sampled. -/
theorem traceparent_iff (breakMode : String) (header : List Char) (n₁ n₂ : UInt64) :
    FollowsGrammar header ∧ ReadsBack breakMode header n₁ n₂ ↔
      ∀ traceId spanId flags, Shaped header traceId spanId flags →
        (IsId 32 traceId ∧ IsId 16 spanId ∧ flags.length = 2 ∧
          ∀ c ∈ flags, isLowerHex c = true) ∧
        (breakMode = "pricing_fresh_ctx" ∨ (number 16 flags).testBit 0 = true) := by
  rw [followsGrammar_iff, readsBack_iff]
  constructor
  · rintro ⟨hgrammar, hback⟩ traceId spanId flags hshaped
    exact ⟨hgrammar _ _ _ hshaped, hback.imp_right fun h => h _ _ _ hshaped⟩
  · intro h
    refine ⟨fun traceId spanId flags hshaped => (h _ _ _ hshaped).1, ?_⟩
    by_cases hbreak : breakMode = "pricing_fresh_ctx"
    · exact Or.inl hbreak
    · exact Or.inr fun traceId spanId flags hshaped =>
        (h _ _ _ hshaped).2.resolve_left hbreak

/-- **Both ways to fail**: ids that are no hexadecimal numbers are accepted, and a trace that is
not sampled is answered as if it were. -/
theorem not_traceparent :
    ¬ FollowsGrammar
      (joined ['0', '0'] (List.replicate 32 'Z') (List.replicate 16 'Z') ['1']) ∧
    ∀ n₁ n₂, ¬ ReadsBack ""
      "00-4bf92f3577b34da6a3ce929d0e0e4736-00f067aa0ba902b7-00".toList n₁ n₂ := by
  constructor
  · rw [followsGrammar_iff]
    intro h
    obtain ⟨hid, -⟩ := h (List.replicate 32 'Z') (List.replicate 16 'Z') ['1']
      ⟨rfl, by decide, by decide, by decide, List.all_eq_true.mp (by decide), by decide⟩
    exact absurd (hid.digits 'Z' (by decide)) (by decide)
  · intro n₁ n₂
    rw [readsBack_iff, or_iff_right (by decide)]
    intro h
    have hbit := h "4bf92f3577b34da6a3ce929d0e0e4736".toList "00f067aa0ba902b7".toList
      ['0', '0']
      ⟨by decide, by decide, by decide, by decide, List.all_eq_true.mp (by decide), by decide⟩
    exact absurd hbit (by decide)

end Pricing
end SepLab
