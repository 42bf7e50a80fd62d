import SepLab.Lib.Digits

/-!
# Internet addresses and their texts

Addresses as bit vectors, and the texts that stand for them: a dotted quad or a
decimal number for an IPv4 address, and for an IPv6 address eight groups of up to
four hexadecimal digits of either case, where `::` may stand once for one or more
groups of zeros and a dotted quad for the last two groups.

## Main definitions

* `Ipv4Addr`, `Ipv6Addr` — the addresses, with their octets and segments.
* `Ipv4Addr.dotted` — the dotted quad; `Ipv4Addr.Quad` allows zeros in front of an octet.
* `Ipv6Addr.toIpv4Mapped` — the address inside `::ffff:0:0/96`.
* `Ipv4Addr.Text`, `Ipv6Addr.Text` — the texts of an address.
* `isAddrChar c` — a character that such a text may have.

## Main results

* `Ipv4Addr.ofOctets_octets` — an address is its octets.
* `Ipv6Addr.Text.head` — a text of an IPv6 address starts with `::` or with its first group.
-/

namespace SepLab
namespace Ip

open Digits

/-- A 32-bit address. -/
structure Ipv4Addr where
  bits : BitVec 32
  deriving DecidableEq, Repr

/-- A 128-bit address. -/
structure Ipv6Addr where
  bits : BitVec 128
  deriving DecidableEq, Repr

/-! ### IPv4 -/

namespace Ipv4Addr

/-- The address as a number. -/
def toNat (a : Ipv4Addr) : ℕ := a.bits.toNat

/-- The address of a number. -/
def ofNat (n : ℕ) : Ipv4Addr := ⟨BitVec.ofNat 32 n⟩

/-- The address with these octets. -/
def ofOctets (os : List ℕ) : Ipv4Addr := ofNat (value 256 os)

/-- The octets, the highest first. -/
def octet (a : Ipv4Addr) (i : ℕ) : ℕ := a.toNat / 256 ^ (3 - i) % 256

/-- The dotted quad. -/
def dotted (a : Ipv4Addr) : List Char :=
  Nat.toDigits 10 (a.octet 0) ++ '.' :: (Nat.toDigits 10 (a.octet 1) ++ '.' ::
    (Nat.toDigits 10 (a.octet 2) ++ '.' :: Nat.toDigits 10 (a.octet 3)))

/-- The four octets with dots between them, any of them with zeros in front. -/
inductive Quad (a : Ipv4Addr) : List Char → Prop
  | mk {p q r s : List Char} (hp : Numeral 10 p (a.octet 0)) (hq : Numeral 10 q (a.octet 1))
      (hr : Numeral 10 r (a.octet 2)) (hs : Numeral 10 s (a.octet 3)) :
      Quad a (p ++ '.' :: (q ++ '.' :: (r ++ '.' :: s)))

/-- The texts of an IPv4 address: its octets, and its number. -/
inductive Text (a : Ipv4Addr) : List Char → Prop
  | quad {t : List Char} (h : a.Quad t) : Text a t
  | decimal {t : List Char} (h : Numeral 10 t a.toNat) : Text a t

theorem quad_dotted (a : Ipv4Addr) : a.Quad a.dotted :=
  .mk (numeral_toDigits _) (numeral_toDigits _) (numeral_toDigits _) (numeral_toDigits _)

theorem toNat_lt (a : Ipv4Addr) : a.toNat < 2 ^ 32 := a.bits.isLt

theorem ofNat_toNat (a : Ipv4Addr) : ofNat a.toNat = a := by
  unfold ofNat toNat
  rw [BitVec.ofNat_toNat, BitVec.setWidth_eq]

theorem octet_lt (a : Ipv4Addr) (i : ℕ) : a.octet i < 256 := Nat.mod_lt _ (by decide)

theorem value_four (a b c d : ℕ) :
    value 256 [a, b, c, d] = a * 256 ^ 3 + b * 256 ^ 2 + c * 256 + d := by
  simp [value_cons]
  ring

/-- **An address is its octets.** -/
theorem ofOctets_octets (a : Ipv4Addr) :
    ofOctets [a.octet 0, a.octet 1, a.octet 2, a.octet 3] = a := by
  have hlt := a.toNat_lt
  have hvalue : value 256 [a.octet 0, a.octet 1, a.octet 2, a.octet 3] = a.toNat := by
    rw [value_four]
    unfold octet
    omega
  unfold ofOctets
  rw [hvalue, ofNat_toNat]

/-- The digits of an octet. -/
theorem length_octet_le (a : Ipv4Addr) (i : ℕ) : (Nat.toDigits 10 (a.octet i)).length ≤ 3 := by
  have := a.octet_lt i
  exact (Nat.length_toDigits_le_iff (by decide) (by decide)).mpr (by omega)

end Ipv4Addr

/-! ### IPv6 -/

namespace Ipv6Addr

/-- The address as a number. -/
def toNat (a : Ipv6Addr) : ℕ := a.bits.toNat

/-- The address with these groups. -/
def ofGroups (gs : List ℕ) : Ipv6Addr := ⟨BitVec.ofNat 128 (value 65536 gs)⟩

/-- The groups of sixteen bits, the highest first. -/
def segment (a : Ipv6Addr) (i : ℕ) : ℕ := a.toNat / 65536 ^ (7 - i) % 65536

/-- The IPv4 address inside an IPv4-mapped one. -/
def toIpv4Mapped (a : Ipv6Addr) : Option Ipv4Addr :=
  if a.toNat / 2 ^ 32 = 0xffff then some (.ofNat (a.toNat % 2 ^ 32)) else none

end Ipv6Addr

/-- A group: one to four hexadecimal digits. -/
structure Hextet (t : List Char) (g : ℕ) : Prop where
  numeral : Numeral 16 t g
  length : t.length ≤ 4

instance {t : List Char} {g : ℕ} : Decidable (Hextet t g) :=
  decidable_of_iff (Numeral 16 t g ∧ t.length ≤ 4)
    ⟨fun h => ⟨h.1, h.2⟩, fun h => ⟨h.numeral, h.length⟩⟩

/-- Groups with colons between them, at the end of the address possibly a dotted
quad for two of them. -/
inductive Groups : Bool → List Char → List ℕ → Prop
  | one {last : Bool} {t : List Char} {g : ℕ} (h : Hextet t g) : Groups last t [g]
  | cons {last : Bool} {t r : List Char} {g : ℕ} {gs : List ℕ} (h : Hextet t g)
      (hr : Groups last r gs) : Groups last (t ++ ':' :: r) (g :: gs)
  | quad (a : Ipv4Addr) : Groups true a.dotted [a.toNat / 65536, a.toNat % 65536]

/-- The groups on one side of `::`, possibly none. -/
inductive Side (last : Bool) : List Char → List ℕ → Prop
  | none : Side last [] []
  | some {t : List Char} {gs : List ℕ} (h : Groups last t gs) : Side last t gs

/-- The texts of an IPv6 address. -/
inductive Ipv6Addr.Text : List Char → Ipv6Addr → Prop
  | full {t : List Char} {gs : List ℕ} (h : Groups true t gs) (hlen : gs.length = 8) :
      Text t (.ofGroups gs)
  | compressed {p q : List Char} {gs hs : List ℕ} (hp : Side false p gs) (hq : Side true q hs)
      (hlen : gs.length + hs.length ≤ 7) :
      Text (p ++ ':' :: ':' :: q)
        (.ofGroups (gs ++ List.replicate (8 - gs.length - hs.length) 0 ++ hs))

/-! ### Characters and bounds -/

theorem Ipv4Addr.Quad.ne_nil {a : Ipv4Addr} {t : List Char} (h : a.Quad t) : t ≠ [] := by
  cases h with
  | mk => simp

theorem Ipv4Addr.Text.ne_nil {a : Ipv4Addr} {t : List Char} (h : a.Text t) : t ≠ [] := by
  cases h with
  | quad h => exact h.ne_nil
  | decimal h => exact h.ne_nil

/-- A hexadecimal digit, a dot or a colon. -/
def isAddrChar (c : Char) : Bool := isDigit 16 c || c == '.' || c == ':'

theorem isAddrChar_of_isDigit {c : Char} (h : isDigit 16 c = true) : isAddrChar c = true := by
  simp [isAddrChar, h]

/-- A dotted quad has decimal digits and dots. -/
theorem Ipv4Addr.Quad.chars {a : Ipv4Addr} {t : List Char} (h : a.Quad t) :
    ∀ c ∈ t, isDigit 10 c = true ∨ c = '.' := by
  cases h with
  | mk hp hq hr hs =>
    intro c hc
    simp only [List.mem_append, List.mem_cons] at hc
    rcases hc with hc | rfl | hc | rfl | hc | rfl | hc
    · exact Or.inl (hp.digits c hc)
    · exact Or.inr rfl
    · exact Or.inl (hq.digits c hc)
    · exact Or.inr rfl
    · exact Or.inl (hr.digits c hc)
    · exact Or.inr rfl
    · exact Or.inl (hs.digits c hc)

theorem Ipv4Addr.Text.chars {a : Ipv4Addr} {t : List Char} (h : a.Text t) :
    ∀ c ∈ t, isDigit 10 c = true ∨ c = '.' := by
  cases h with
  | quad h => exact h.chars
  | decimal h => exact fun c hc => Or.inl (h.digits c hc)

theorem isAddrChar_of_dotted {c : Char} (h : isDigit 10 c = true ∨ c = '.') :
    isAddrChar c = true := by
  rcases h with h | rfl
  · exact isAddrChar_of_isDigit (isDigit_mono (by decide) h)
  · decide

theorem Groups.chars {last : Bool} {t : List Char} {gs : List ℕ} (h : Groups last t gs) :
    ∀ c ∈ t, isAddrChar c = true := by
  induction h with
  | one h => exact fun c hc => isAddrChar_of_isDigit (h.numeral.digits c hc)
  | cons h _ ih =>
    intro c hc
    rcases List.mem_append.mp hc with hc | hc
    · exact isAddrChar_of_isDigit (h.numeral.digits c hc)
    · rcases List.mem_cons.mp hc with rfl | hc
      · decide
      · exact ih c hc
  | quad a => exact fun c hc => isAddrChar_of_dotted (a.quad_dotted.chars c hc)

theorem Side.chars {last : Bool} {t : List Char} {gs : List ℕ} (h : Side last t gs) :
    ∀ c ∈ t, isAddrChar c = true := by
  cases h with
  | none => exact fun c hc => by cases hc
  | some h => exact h.chars

theorem Ipv6Addr.Text.chars {t : List Char} {a : Ipv6Addr} (h : Text t a) :
    ∀ c ∈ t, isAddrChar c = true := by
  cases h with
  | full h _ => exact h.chars
  | compressed hp hq _ =>
    intro c hc
    simp only [List.mem_append, List.mem_cons] at hc
    rcases hc with hc | rfl | rfl | hc
    · exact hp.chars c hc
    · decide
    · decide
    · exact hq.chars c hc

theorem Hextet.lt {t : List Char} {g : ℕ} (h : Hextet t g) : g < 65536 := by
  have hlt := h.numeral.lt (by decide)
  have hle : 16 ^ t.length ≤ 16 ^ 4 := Nat.pow_le_pow_right (by decide) h.length
  omega

theorem Groups.lt {last : Bool} {t : List Char} {gs : List ℕ} (h : Groups last t gs) :
    ∀ g ∈ gs, g < 65536 := by
  induction h with
  | one h => simpa using h.lt
  | cons h _ ih => simpa using ⟨h.lt, ih⟩
  | quad a =>
    have := a.toNat_lt
    simp only [List.mem_cons, List.not_mem_nil, or_false, forall_eq_or_imp, forall_eq]
    omega

theorem Side.lt {last : Bool} {t : List Char} {gs : List ℕ} (h : Side last t gs) :
    ∀ g ∈ gs, g < 65536 := by
  cases h with
  | none => exact fun g hg => by cases hg
  | some h => exact h.lt

namespace Ipv6Addr

theorem toNat_lt (a : Ipv6Addr) : a.toNat < 2 ^ 128 := a.bits.isLt

theorem toNat_ofGroups {gs : List ℕ} (hlen : gs.length = 8) (h : ∀ g ∈ gs, g < 65536) :
    (ofGroups gs).toNat = value 65536 gs := by
  have hlt := value_lt (by decide) h
  rw [hlen] at hlt
  unfold ofGroups toNat
  rw [BitVec.toNat_ofNat, Nat.mod_eq_of_lt (by simpa using hlt)]

/-- The first group is the first segment. -/
theorem segment_ofGroups {g : ℕ} {gs : List ℕ} (hlen : gs.length = 7) (hg : g < 65536)
    (h : ∀ g ∈ gs, g < 65536) : (ofGroups (g :: gs)).segment 0 = g := by
  have hall : ∀ x ∈ g :: gs, x < 65536 := by
    intro x hx
    rcases List.mem_cons.mp hx with rfl | hx
    · exact hg
    · exact h x hx
  have hlt := value_lt (by decide) h
  rw [hlen] at hlt
  unfold segment
  rw [toNat_ofGroups (by simp [hlen]) hall, value_cons, hlen]
  omega

/-- **A text starts with `::` or with its first group**, and a colon follows. -/
theorem Text.head {t : List Char} {a : Ipv6Addr} (h : Text t a) :
    (∃ q, t = ':' :: ':' :: q ∧ a.segment 0 = 0) ∨
      ∃ p r, t = p ++ ':' :: r ∧ Hextet p (a.segment 0) := by
  cases h with
  -- a text without a compression begins with a group
  | full h hlen =>
    cases h with
    | one h => cases hlen
    | quad a => cases hlen
    | cons h hr =>
      rw [segment_ofGroups (Nat.succ_inj.mp hlen) h.lt hr.lt]
      exact Or.inr ⟨_, _, rfl, h⟩
  | @compressed p q gs hs hp hq hlen =>
    have hzeros : ∀ k, ∀ g ∈ List.replicate k 0, g < 65536 := by
      intro k g hg
      rw [List.eq_of_mem_replicate hg]
      decide
    -- one that begins with a compression has zero first
    cases hp with
    | none =>
      refine Or.inl ⟨q, rfl, ?_⟩
      have hlen' : hs.length ≤ 7 := by simpa using hlen
      obtain ⟨k, hk⟩ : ∃ k, 8 - hs.length = k + 1 := ⟨7 - hs.length, by omega⟩
      simp only [List.nil_append, List.length_nil, Nat.sub_zero, hk, List.replicate_succ,
        List.cons_append]
      refine segment_ofGroups ?_ (by decide) ?_
      · rw [List.length_append, List.length_replicate]
        omega
      · intro g hg
        rcases List.mem_append.mp hg with hg | hg
        · exact hzeros k g hg
        · exact hq.lt g hg
    | some hp =>
      -- otherwise the groups before the compression come first
      have hsegment : ∀ {g : ℕ} {gs : List ℕ}, g < 65536 → (∀ x ∈ gs, x < 65536) →
          (g :: gs).length + hs.length ≤ 7 →
          (ofGroups (g :: gs ++ List.replicate (8 - (g :: gs).length - hs.length) 0 ++
            hs)).segment 0 = g := by
        intro g gs hg hgs hlen
        rw [List.length_cons] at hlen
        rw [List.cons_append, List.cons_append]
        refine segment_ofGroups ?_ hg ?_
        · rw [List.length_append, List.length_append, List.length_replicate, List.length_cons]
          omega
        · intro x hx
          rcases List.mem_append.mp hx with hx | hx
          · rcases List.mem_append.mp hx with hx | hx
            · exact hgs x hx
            · exact hzeros _ x hx
          · exact hq.lt x hx
      cases hp with
      | one h =>
        rw [hsegment h.lt (fun x hx => by cases hx) hlen]
        exact Or.inr ⟨_, _, rfl, h⟩
      | cons h hr =>
        rw [hsegment h.lt hr.lt hlen]
        exact Or.inr ⟨_, _, List.append_assoc _ _ _, h⟩

end Ipv6Addr
end Ip
end SepLab
