import SepLab.Lib.IpText

/-!
# Reading an address off a text

The recursive-descent parser for addresses of Rust's standard library: each
reader takes a prefix of the text or leaves it alone.  It accepts every text of
an address and gives that address.

## Main definitions

* `readGivenChar`, `readSeparator`, `readNumber` — the readers below the addresses.
* `readIpv4Addr`, `readGroups`, `readIpv6Addr` — the addresses.
* `parseIpv4`, `parseIpv6` — an address that is the whole text.

## Main results

* `parseIpv4_dotted`, `parseIpv4_quad` — a dotted quad is read as its address; with zeros in
  front of an octet it is not read.
* `parseIpv4_chars` — what is read as an IPv4 address has digits and dots only.
* `readGroups_groups` — groups are read up to the end or to `::`.
* `parseIpv6_text` — **every text of an IPv6 address is read as that address.**
* `parseIpv4_text` — no text of an IPv6 address is read as an IPv4 address.
-/

namespace SepLab
namespace Ip

open Digits

/-! ### Readers -/

/-- Reads one character that is given. -/
def readGivenChar (c : Char) : List Char → Option (List Char)
  | [] => none
  | x :: s => if x = c then some s else none

/-- A reader after a separator, which the first element of a sequence does not have. -/
def readSeparator {α : Type} (sep : Char) (first : Bool)
    (inner : List Char → Option (α × List Char)) (s : List Char) : Option (α × List Char) :=
  if first then inner s else (readGivenChar sep s).bind inner

/-- A number of at most `maxDigits` digits that fits below `bound`. -/
def readNumber (radix maxDigits : ℕ) (allowZeroPrefix : Bool) (bound : ℕ) (s : List Char) :
    Option (ℕ × List Char) :=
  let ds := s.takeWhile (isDigit radix)
  if maxDigits < ds.length then none
  else if ds.length = 0 then none
  else if allowZeroPrefix = false ∧ ds.head? = some '0' ∧ 1 < ds.length then none
  else if number radix ds < bound then some (number radix ds, s.dropWhile (isDigit radix))
  else none

/-- An octet: up to three decimal digits, and no zero in front. -/
def readOctet : List Char → Option (ℕ × List Char) := readNumber 10 3 false 256

/-- A group: up to four hexadecimal digits. -/
def readHextet : List Char → Option (ℕ × List Char) := readNumber 16 4 true 65536

/-- Reads a dotted quad. -/
def readIpv4Addr (s : List Char) : Option (Ipv4Addr × List Char) := do
  let (a, s) ← readSeparator '.' true readOctet s
  let (b, s) ← readSeparator '.' false readOctet s
  let (c, s) ← readSeparator '.' false readOctet s
  let (d, s) ← readSeparator '.' false readOctet s
  return (.ofOctets [a, b, c, d], s)

/-- Up to `limit` groups, and whether a dotted quad has ended them. -/
def readGroups : ℕ → Bool → List Char → List ℕ × Bool × List Char
  | 0, _, s => ([], false, s)
  | limit + 1, first, s =>
    -- a dotted quad needs room for two groups
    match if 0 < limit then readSeparator ':' first readIpv4Addr s else none with
    | some (a, s) => ([a.toNat / 65536, a.toNat % 65536], true, s)
    | none =>
      match readSeparator ':' first readHextet s with
      | some (g, s) =>
        let (gs, quad, s) := readGroups limit false s
        (g :: gs, quad, s)
      | none => ([], false, s)

/-- Reads the groups before and after `::`, or all eight. -/
def readIpv6Addr (s : List Char) : Option (Ipv6Addr × List Char) :=
  let (head, headIpv4, s) := readGroups 8 true s
  if head.length = 8 then some (.ofGroups head, s)
  -- a dotted quad is not allowed before `::`
  else if headIpv4 then none
  else do
    let s ← readGivenChar ':' s
    let s ← readGivenChar ':' s
    let limit := 8 - (head.length + 1)
    let (tail, _, s) := readGroups limit true s
    return (.ofGroups (head ++ List.replicate (8 - head.length - tail.length) 0 ++ tail), s)

/-- A reader that has to read the whole text. -/
def parseWith {α : Type} (inner : List Char → Option (α × List Char)) (s : List Char) : Option α :=
  (inner s).bind fun (a, rest) => if rest = [] then some a else none

/-- A text that is an IPv4 address as a whole; none is longer than fifteen characters. -/
def parseIpv4 (s : List Char) : Option Ipv4Addr :=
  if s.length > 15 then none else parseWith readIpv4Addr s

/-- A text that is an IPv6 address as a whole. -/
def parseIpv6 (s : List Char) : Option Ipv6Addr := parseWith readIpv6Addr s

example : parseIpv6 "::ffff:10.7.0.10".toList =
    some (.ofGroups [0, 0, 0, 0, 0, 65535, 2567, 10]) := by decide

/-! ### Numbers -/

theorem readNumber_numeral {radix maxDigits bound v : ℕ} {zero : Bool} {ds rest : List Char}
    (h : Numeral radix ds v) (hlen : ds.length ≤ maxDigits)
    (hzero : zero = true ∨ ds.head? ≠ some '0' ∨ ds.length ≤ 1) (hv : v < bound)
    (hrest : Ends radix rest) :
    readNumber radix maxDigits zero bound (ds ++ rest) = some (v, rest) := by
  have hpos : ds.length ≠ 0 := fun hlen => h.ne_nil (List.length_eq_zero_iff.mp hlen)
  have hz : ¬ (zero = false ∧ ds.head? = some '0' ∧ 1 < ds.length) := by
    rintro ⟨hz, hhead, hone⟩
    rcases hzero with hzero | hzero | hzero
    · rw [hz] at hzero
      cases hzero
    · exact hzero hhead
    · omega
  unfold readNumber
  dsimp only
  rw [takeWhile_of_ends h.digits hrest, dropWhile_of_ends h.digits hrest, if_neg (by omega),
    if_neg hpos, if_neg hz, h.number, if_pos hv]

/-- What is left starts after the digits. -/
theorem readNumber_rest {radix maxDigits bound v : ℕ} {zero : Bool} {s rest : List Char}
    (h : readNumber radix maxDigits zero bound s = some (v, rest)) :
    rest = s.dropWhile (isDigit radix) := by
  unfold readNumber at h
  dsimp only at h
  split at h
  · cases h
  split at h
  · cases h
  split at h
  · cases h
  split at h
  · simp only [Option.some_inj, Prod.mk.injEq] at h
    exact h.2.symm
  · cases h

/-- There is no number where there is no digit. -/
theorem readNumber_of_ends {radix maxDigits bound : ℕ} {zero : Bool} {s : List Char}
    (h : Ends radix s) : readNumber radix maxDigits zero bound s = none := by
  have htake := @takeWhile_of_ends radix [] s (fun c hc => by cases hc) h
  rw [List.nil_append] at htake
  unfold readNumber
  dsimp only
  rw [htake]
  rfl

theorem readHextet_hextet {t rest : List Char} {g : ℕ} (h : Hextet t g) (hrest : Ends 16 rest) :
    readHextet (t ++ rest) = some (g, rest) :=
  readNumber_numeral h.numeral h.length (Or.inl rfl) h.lt hrest

theorem readOctet_toDigits (a : Ipv4Addr) (i : ℕ) {rest : List Char} (hrest : Ends 10 rest) :
    readOctet (Nat.toDigits 10 (a.octet i) ++ rest) = some (a.octet i, rest) := by
  refine readNumber_numeral (numeral_toDigits _) (a.length_octet_le i) (Or.inr ?_) (a.octet_lt i)
    hrest
  by_cases hzero : a.octet i = 0
  · right
    rw [hzero]
    decide
  · exact Or.inl (head_toDigits hzero)

/-! ### Dotted quads -/

@[simp] theorem readGivenChar_self (c : Char) (s : List Char) : readGivenChar c (c :: s) = some s :=
  if_pos rfl

/-- A dotted quad is read up to where its last digits end. -/
theorem readIpv4Addr_dotted (a : Ipv4Addr) {rest : List Char} (hrest : Ends 10 rest) :
    readIpv4Addr (a.dotted ++ rest) = some (a, rest) := by
  have hdot : ∀ s : List Char, Ends 10 ('.' :: s) := fun s => ends_cons (by decide) s
  unfold readIpv4Addr Ipv4Addr.dotted readSeparator
  simp [readOctet_toDigits, hdot, hrest, a.ofOctets_octets]

/-- The text ends here, or a colon follows. -/
def Stops (rest : List Char) : Prop := rest = [] ∨ ∃ r, rest = ':' :: r

theorem Stops.ends {rest : List Char} (h : Stops rest) {b : ℕ} (hb : b ≤ 36) : Ends b rest := by
  rcases h with rfl | ⟨r, rfl⟩
  · exact ends_nil b
  · refine ends_cons ?_ r
    have hcode : ¬ isDigit b ':' = true := fun hd => by
      have := isDigit_iff.mp hd
      have hcolon : digitCode ':' = 36 := by decide
      omega
    simpa using hcode

/-- Hexadecimal digits are no dotted quad. -/
theorem readIpv4Addr_hextet {t rest : List Char} (h : ∀ c ∈ t, isDigit 16 c = true)
    (hrest : Stops rest) : readIpv4Addr (t ++ rest) = none := by
  -- after the decimal digits there is no dot
  have hdot : readGivenChar '.' ((t ++ rest).dropWhile (isDigit 10)) = none := by
    induction t with
    | nil =>
      rcases hrest with rfl | ⟨r, rfl⟩
      · rfl
      · rfl
    | cons c t ih =>
      rw [List.cons_append, List.dropWhile_cons]
      split
      · exact ih fun d hd => h d (List.mem_cons_of_mem c hd)
      · refine if_neg ?_
        rintro rfl
        exact absurd (h '.' List.mem_cons_self) (by decide)
  unfold readIpv4Addr readSeparator
  cases hread : readOctet (t ++ rest) with
  | none => rfl
  | some p =>
    obtain ⟨v, r⟩ := p
    rw [← readNumber_rest hread] at hdot
    simp [hdot]

theorem parseIpv4_dotted (a : Ipv4Addr) : parseIpv4 a.dotted = some a := by
  have hlen : a.dotted.length ≤ 15 := by
    have h₀ := a.length_octet_le 0
    have h₁ := a.length_octet_le 1
    have h₂ := a.length_octet_le 2
    have h₃ := a.length_octet_le 3
    unfold Ipv4Addr.dotted
    simp only [List.length_append, List.length_cons]
    omega
  unfold parseIpv4 parseWith
  rw [if_neg (by omega)]
  have hread := readIpv4Addr_dotted a (ends_nil 10)
  rw [List.append_nil] at hread
  rw [hread]
  rfl

/-- What a parser gives was read with nothing left. -/
theorem parseIpv4_some {s : List Char} {a : Ipv4Addr} (h : parseIpv4 s = some a) :
    readIpv4Addr s = some (a, []) := by
  unfold parseIpv4 parseWith at h
  split at h
  · cases h
  obtain ⟨⟨b, rest⟩, hread, hrest⟩ := Option.bind_eq_some_iff.mp h
  dsimp only at hrest
  split at hrest
  · next hnil =>
    obtain rfl := Option.some_inj.mp hrest
    rw [hread, hnil]
  · cases hrest

theorem readGivenChar_some {c : Char} {s r : List Char} (h : readGivenChar c s = some r) :
    s = c :: r := by
  cases s with
  | nil => cases h
  | cons x s =>
    rw [readGivenChar] at h
    split at h
    · next hx =>
      obtain rfl := Option.some_inj.mp h
      rw [hx]
    · cases h

/-- **An IPv4 address is read as four octets** with dots between them. -/
theorem readIpv4Addr_some {s rest : List Char} {a : Ipv4Addr}
    (h : readIpv4Addr s = some (a, rest)) :
    ∃ v₀ v₁ v₂ v₃ r₀ r₁ r₂, a = .ofOctets [v₀, v₁, v₂, v₃] ∧
      readOctet s = some (v₀, '.' :: r₀) ∧ readOctet r₀ = some (v₁, '.' :: r₁) ∧
      readOctet r₁ = some (v₂, '.' :: r₂) ∧ readOctet r₂ = some (v₃, rest) := by
  unfold readIpv4Addr readSeparator at h
  simp only [Option.bind_eq_bind, Option.bind_eq_some_iff, if_true, Bool.false_eq_true,
    if_false, Prod.exists] at h
  obtain ⟨v₀, r₀, h₀, v₁, r₁, ⟨s₁, hs₁, h₁⟩, v₂, r₂, ⟨s₂, hs₂, h₂⟩, v₃, r₃, ⟨s₃, hs₃, h₃⟩,
    hret⟩ := h
  obtain rfl := readGivenChar_some hs₁
  obtain rfl := readGivenChar_some hs₂
  obtain rfl := readGivenChar_some hs₃
  cases hret
  exact ⟨v₀, v₁, v₂, v₃, s₁, s₂, s₃, rfl, h₀, h₁, h₂, h₃⟩

/-- What is read from digits is the number that they spell. -/
theorem readOctet_numeral {ds rest r : List Char} {v w : ℕ} (h : Numeral 10 ds v)
    (hrest : Ends 10 rest) (hread : readOctet (ds ++ rest) = some (w, r)) : w = v ∧ r = rest := by
  have hr := readNumber_rest hread
  rw [dropWhile_of_ends h.digits hrest] at hr
  unfold readOctet readNumber at hread
  dsimp only at hread
  rw [takeWhile_of_ends h.digits hrest, h.number] at hread
  split at hread
  · cases hread
  split at hread
  · cases hread
  split at hread
  · cases hread
  split at hread
  · simp only [Option.some_inj, Prod.mk.injEq] at hread
    exact ⟨hread.1.symm, hr⟩
  · cases hread

/-- **A quad is read as its address or not at all**: zeros in front are not read. -/
theorem parseIpv4_quad {a b : Ipv4Addr} {t : List Char} (h : a.Quad t)
    (hparse : parseIpv4 t = some b) : b = a := by
  have hdot : ∀ s : List Char, Ends 10 ('.' :: s) := fun s => ends_cons (by decide) s
  obtain ⟨v₀, v₁, v₂, v₃, r₀, r₁, r₂, rfl, h₀, h₁, h₂, h₃⟩ :=
    readIpv4Addr_some (parseIpv4_some hparse)
  cases h with
  | @mk p q r s hp hq hr hs =>
    obtain ⟨rfl, heq₀⟩ := readOctet_numeral hp (hdot _) h₀
    obtain rfl := (List.cons.inj heq₀).2
    obtain ⟨rfl, heq₁⟩ := readOctet_numeral hq (hdot _) h₁
    obtain rfl := (List.cons.inj heq₁).2
    obtain ⟨rfl, heq₂⟩ := readOctet_numeral hr (hdot _) h₂
    obtain rfl := (List.cons.inj heq₂).2
    rw [← List.append_nil r₂] at h₃
    obtain ⟨rfl, -⟩ := readOctet_numeral hs (ends_nil 10) h₃
    exact a.ofOctets_octets

/-- Digits are read, and what is left is the rest of the text. -/
theorem readOctet_some {s r : List Char} {v : ℕ} (h : readOctet s = some (v, r)) :
    ∃ ds, s = ds ++ r ∧ ∀ c ∈ ds, isDigit 10 c = true := by
  obtain rfl := readNumber_rest h
  refine ⟨s.takeWhile (isDigit 10), List.takeWhile_append_dropWhile.symm, ?_⟩
  exact fun c hc => List.all_eq_true.mp List.all_takeWhile c hc

/-- **What is read as an IPv4 address has digits and dots only.** -/
theorem parseIpv4_chars {s : List Char} {a : Ipv4Addr} (h : parseIpv4 s = some a) :
    ∀ c ∈ s, isDigit 10 c = true ∨ c = '.' := by
  obtain ⟨v₀, v₁, v₂, v₃, r₀, r₁, r₂, -, h₀, h₁, h₂, h₃⟩ := readIpv4Addr_some (parseIpv4_some h)
  obtain ⟨p, rfl, hp⟩ := readOctet_some h₀
  obtain ⟨q, rfl, hq⟩ := readOctet_some h₁
  obtain ⟨r, rfl, hr⟩ := readOctet_some h₂
  obtain ⟨t, rfl, ht⟩ := readOctet_some h₃
  intro c hc
  simp only [List.append_nil, List.mem_append, List.mem_cons] at hc
  rcases hc with hc | rfl | hc | rfl | hc | rfl | hc
  · exact Or.inl (hp c hc)
  · exact Or.inr rfl
  · exact Or.inl (hq c hc)
  · exact Or.inr rfl
  · exact Or.inl (hr c hc)
  · exact Or.inr rfl
  · exact Or.inl (ht c hc)

/-! ### Groups -/

/-- The separator in front of a reading, which the first one does not have. -/
def separator (first : Bool) : List Char := if first then [] else [':']

theorem readSeparator_separator {α : Type} (first : Bool)
    (inner : List Char → Option (α × List Char)) (s : List Char) :
    readSeparator ':' first inner (separator first ++ s) = inner s := by
  cases first with
  | true => rfl
  | false => rfl

/-- Reading ends at the end of the text and at `::`; in front of `::` a first group
would start with a colon. -/
theorem readGroups_stop (limit : ℕ) (first : Bool) {rest : List Char}
    (h : rest = [] ∨ ∃ r, rest = ':' :: ':' :: r) :
    readGroups limit first rest = ([], false, rest) := by
  have hnumber : ∀ r : List Char, readHextet (':' :: r) = none := fun r =>
    readNumber_of_ends (ends_cons (by decide) r)
  have hquad : ∀ r : List Char, readIpv4Addr (':' :: r) = none := fun r =>
    readIpv4Addr_hextet (t := []) (fun c hc => by cases hc) (Or.inr ⟨r, rfl⟩)
  -- neither an address nor a group begins at a colon or at the end
  have hseparator : ∀ {α : Type} (inner : List Char → Option (α × List Char)),
      inner [] = none → (∀ r, inner (':' :: r) = none) →
        readSeparator ':' first inner rest = none := by
    intro α inner hnil hcolon
    unfold readSeparator
    rcases h with rfl | ⟨r, rfl⟩
    · cases first with
      | true => exact hnil
      | false => rfl
    · cases first with
      | true => exact hcolon _
      | false => exact hcolon _
  cases limit with
  | zero => rfl
  | succ limit =>
    unfold readGroups
    rw [hseparator readIpv4Addr rfl hquad, hseparator readHextet rfl hnumber, ite_self]

/-- **Groups are read** up to the end of the text or to `::`. -/
theorem readGroups_groups {last : Bool} {t : List Char} {gs : List ℕ} (h : Groups last t gs)
    {limit : ℕ} (hlen : gs.length ≤ limit) {rest : List Char}
    (hrest : rest = [] ∨ ∃ r, rest = ':' :: ':' :: r) (first : Bool) :
    ∃ quad, (last = false → quad = false) ∧
      readGroups limit first (separator first ++ (t ++ rest)) = (gs, quad, rest) := by
  have hstops : Stops rest := by
    rcases hrest with rfl | ⟨r, rfl⟩
    · exact Or.inl rfl
    · exact Or.inr ⟨_, rfl⟩
  induction h generalizing limit first with
  | @one last t g h =>
    -- one group: the limit leaves room for it
    obtain ⟨limit, rfl⟩ : ∃ k, limit = k + 1 := ⟨limit - 1, by simp at hlen; omega⟩
    refine ⟨false, fun _ => rfl, ?_⟩
    unfold readGroups
    rw [readSeparator_separator, readSeparator_separator,
      readIpv4Addr_hextet h.numeral.digits hstops, ite_self,
      readHextet_hextet h (hstops.ends (by decide))]
    simp [readGroups_stop limit false hrest]
  | @cons last t r g gs h _ ih =>
    obtain ⟨limit, rfl⟩ : ∃ k, limit = k + 1 := ⟨limit - 1, by simp at hlen; omega⟩
    have hlen' : gs.length ≤ limit := by simpa using hlen
    obtain ⟨quad, hquad, hread⟩ := ih hlen' false
    refine ⟨quad, hquad, ?_⟩
    -- the colon after a group ends it, so the dotted form is not read here
    have hcolon : Stops (':' :: (r ++ rest)) := Or.inr ⟨_, rfl⟩
    unfold readGroups
    rw [List.append_assoc, List.cons_append, readSeparator_separator, readSeparator_separator,
      readIpv4Addr_hextet h.numeral.digits hcolon, ite_self,
      readHextet_hextet h (hcolon.ends (by decide))]
    dsimp only
    rw [show ':' :: (r ++ rest) = separator false ++ (r ++ rest) from rfl, hread]
  | quad a =>
    -- the dotted form takes the room of two groups
    obtain ⟨limit, rfl⟩ : ∃ k, limit = k + 2 := ⟨limit - 2, by simp at hlen; omega⟩
    refine ⟨true, fun h => h, ?_⟩
    unfold readGroups
    rw [readSeparator_separator, readSeparator_separator,
      readIpv4Addr_dotted a (hstops.ends (by decide)), if_pos (Nat.succ_pos limit)]

theorem readGroups_side {last : Bool} {t : List Char} {gs : List ℕ} (h : Side last t gs)
    {limit : ℕ} (hlen : gs.length ≤ limit) {rest : List Char}
    (hrest : rest = [] ∨ ∃ r, rest = ':' :: ':' :: r) :
    ∃ quad, (last = false → quad = false) ∧
      readGroups limit true (t ++ rest) = (gs, quad, rest) := by
  cases h with
  | none => exact ⟨false, fun _ => rfl, readGroups_stop limit true hrest⟩
  | some h => exact readGroups_groups h hlen hrest true

/-! ### Whole texts -/

/-- **Every text of an IPv6 address is read as that address.** -/
theorem parseIpv6_text {t : List Char} {a : Ipv6Addr} (h : Ipv6Addr.Text t a) :
    parseIpv6 t = some a := by
  unfold parseIpv6 parseWith
  cases h with
  -- eight groups without a compression
  | @full t gs h hlen =>
    obtain ⟨quad, -, hread⟩ := readGroups_groups h hlen.le (Or.inl rfl) true
    have hread' : readGroups 8 true t = (gs, quad, []) := by
      simpa [separator] using hread
    have haddr : readIpv6Addr t = some (.ofGroups gs, []) := by
      unfold readIpv6Addr
      rw [hread']
      exact if_pos hlen
    rw [haddr]
    rfl
  | @compressed p q gs hs hp hq hlen =>
    have hgs : gs.length ≤ 8 := by omega
    -- what follows a compression has at most the groups that are left
    have hhs : hs.length ≤ 8 - (gs.length + 1) := by omega
    obtain ⟨quad, hquad, hhead⟩ := readGroups_side hp hgs (Or.inr ⟨q, rfl⟩)
    obtain rfl := hquad rfl
    obtain ⟨quad, -, htail⟩ := readGroups_side hq hhs (Or.inl rfl)
    rw [List.append_nil] at htail
    have haddr : readIpv6Addr (p ++ ':' :: ':' :: q) =
        some (.ofGroups (gs ++ List.replicate (8 - gs.length - hs.length) 0 ++ hs), []) := by
      unfold readIpv6Addr
      rw [hhead]
      dsimp only
      rw [if_neg (by omega), if_neg (by simp)]
      simp only [readGivenChar_self, Option.bind_eq_bind, Option.bind_some, htail,
        Option.pure_def]
    rw [haddr]
    rfl

/-- **No text of an IPv6 address is read as an IPv4 address**: the first thing in it
is a colon, or hexadecimal digits before one. -/
theorem parseIpv4_text {t : List Char} {a : Ipv6Addr} (h : Ipv6Addr.Text t a) :
    parseIpv4 t = none := by
  have hread : readIpv4Addr t = none := by
    rcases h.head with ⟨q, rfl, -⟩ | ⟨p, r, rfl, hp⟩
    · exact readIpv4Addr_hextet (t := []) (fun c hc => by cases hc) (Or.inr ⟨_, rfl⟩)
    · exact readIpv4Addr_hextet hp.numeral.digits (Or.inr ⟨r, rfl⟩)
  unfold parseIpv4 parseWith
  rw [hread, Option.bind_none, ite_self]

end Ip
end SepLab
