import SepLab.Ssrf.Address

/-!
# Which internal addresses the check recognises

An address that must not be reached from outside: loopback, private, link-local,
unique-local or unspecified, also when it is an IPv4 address mapped into IPv6.
The three programs refuse every text of such an IPv4 address.  Among the texts of
IPv6 addresses the Rust program overlooks the mapped addresses, and the other two,
which compare texts, most spellings.

## Main definitions

* `IpAddr.Internal` — the addresses to be refused.
* `AllDenied t` — every program that lets the text `t` through refuses its address.
* `Recognised addr t` — the texts that all programs recognise.

## Main results

* `Rust.isDenied_text`, `Cpp.isDenied_text`, `Node.isDenied_text` — what each program refuses.
* `isDenied_sound_iff` — **all programs refuse an internal address exactly when its text
  is recognised.**
-/

namespace SepLab
namespace Ssrf

open Digits Ip

/-! ### Internal addresses -/

/-- The address agrees with `net` on its first `len` bits. -/
def InRange4 (a : Ipv4Addr) (net : List ℕ) (len : ℕ) : Prop :=
  a.toNat / 2 ^ (32 - len) = value 256 net / 2 ^ (32 - len)

/-- The address is in the range of a prefix. -/
def InRange6 (a : Ipv6Addr) (net : List ℕ) (len : ℕ) : Prop :=
  a.toNat / 2 ^ (128 - len) = value 65536 net / 2 ^ (128 - len)

/-- Loopback, private, link-local, or unspecified. -/
def Internal4 (a : Ipv4Addr) : Prop :=
  InRange4 a [127, 0, 0, 0] 8 ∨ InRange4 a [10, 0, 0, 0] 8 ∨ InRange4 a [172, 16, 0, 0] 12 ∨
    InRange4 a [192, 168, 0, 0] 16 ∨ InRange4 a [169, 254, 0, 0] 16 ∨ InRange4 a [0, 0, 0, 0] 8

/-- Loopback, link-local, unique-local, or unspecified. -/
def Internal6 (a : Ipv6Addr) : Prop :=
  InRange6 a [0, 0, 0, 0, 0, 0, 0, 1] 128 ∨ InRange6 a [0xfe80, 0, 0, 0, 0, 0, 0, 0] 10 ∨
    InRange6 a [0xfc00, 0, 0, 0, 0, 0, 0, 0] 7 ∨ InRange6 a [0, 0, 0, 0, 0, 0, 0, 0] 128

/-- An address of either kind. -/
inductive IpAddr
  | v4 (a : Ipv4Addr)
  | v6 (a : Ipv6Addr)

namespace IpAddr

/-- The texts of an address. -/
def Text : IpAddr → List Char → Prop
  | v4 a, t => a.Text t
  | v6 a, t => Ipv6Addr.Text t a

/-- The address must not be reached; a mapped address is the IPv4 address in it. -/
def Internal : IpAddr → Prop
  | v4 a => Internal4 a
  | v6 a =>
    match a.toIpv4Mapped with
    | some m => Internal4 m
    | none => Internal6 a

end IpAddr

/-- The internal IPv4 addresses by their octets. -/
theorem internal4_iff (a : Ipv4Addr) :
    Internal4 a ↔ a.octet 0 = 127 ∨ a.octet 0 = 10 ∨ a.octet 0 = 0 ∨
      (a.octet 0 = 172 ∧ 16 ≤ a.octet 1 ∧ a.octet 1 ≤ 31) ∨
      (a.octet 0 = 192 ∧ a.octet 1 = 168) ∨ (a.octet 0 = 169 ∧ a.octet 1 = 254) := by
  have hlt := a.toNat_lt
  have h8 : ∀ o, InRange4 a [o, 0, 0, 0] 8 ↔ a.octet 0 = o := by
    intro o
    unfold InRange4 Ipv4Addr.octet
    rw [Ipv4Addr.value_four]
    omega
  have h12 : InRange4 a [172, 16, 0, 0] 12 ↔
      a.octet 0 = 172 ∧ 16 ≤ a.octet 1 ∧ a.octet 1 ≤ 31 := by
    unfold InRange4 Ipv4Addr.octet
    rw [Ipv4Addr.value_four]
    omega
  have h16 : ∀ o p, p < 256 →
      (InRange4 a [o, p, 0, 0] 16 ↔ a.octet 0 = o ∧ a.octet 1 = p) := by
    intro o p hp
    unfold InRange4 Ipv4Addr.octet
    rw [Ipv4Addr.value_four]
    omega
  unfold Internal4
  rw [h8, h8, h8, h12, h16 192 168 (by decide), h16 169 254 (by decide)]
  simp only [or_assoc, or_comm, or_left_comm]

/-- A range is one of first segments, when it fixes no more than these. -/
theorem inRange6_iff (a : Ipv6Addr) (g len : ℕ) (hlen : len ≤ 16) :
    InRange6 a [g, 0, 0, 0, 0, 0, 0, 0] len ↔
      a.segment 0 / 2 ^ (16 - len) = g / 2 ^ (16 - len) := by
  have hlt := a.toNat_lt
  have hsegment : a.segment 0 = a.toNat / 2 ^ 112 := by
    unfold Ipv6Addr.segment
    omega
  have hnet : value 65536 [g, 0, 0, 0, 0, 0, 0, 0] / 2 ^ 112 = g := by
    simp [value_cons]
  have hpow : (2 : ℕ) ^ (128 - len) = 2 ^ 112 * 2 ^ (16 - len) := by
    rw [← pow_add]
    congr 1
    omega
  unfold InRange6
  rw [hpow, ← Nat.div_div_eq_div_mul, ← Nat.div_div_eq_div_mul, hnet, hsegment]

/-- The internal IPv6 addresses by their first segment. -/
theorem internal6_iff (a : Ipv6Addr) :
    Internal6 a ↔ a.toNat = 1 ∨ (0xfe80 ≤ a.segment 0 ∧ a.segment 0 < 0xfec0) ∨
      (0xfc00 ≤ a.segment 0 ∧ a.segment 0 < 0xfe00) ∨ a.toNat = 0 := by
  have hloopback : InRange6 a [0, 0, 0, 0, 0, 0, 0, 1] 128 ↔ a.toNat = 1 := by
    simp [InRange6, value_cons]
  have hunspecified : InRange6 a [0, 0, 0, 0, 0, 0, 0, 0] 128 ↔ a.toNat = 0 := by
    simp [InRange6, value_cons]
  unfold Internal6
  rw [hloopback, hunspecified, inRange6_iff a 0xfe80 10 (by decide),
    inRange6_iff a 0xfc00 7 (by decide)]
  omega

/-! ### The texts of an address as hosts -/

theorem resolve_of_ne {t : List Char} (h : ∀ p ∈ fakeDns, t ≠ p.1) : resolve t = t := by
  have hnone : fakeDns.lookup t = none := by
    rw [List.lookup_eq_none_iff]
    exact fun p hp => bne_iff_ne.mpr (h p hp)
  unfold resolve
  rw [hnone, Option.getD_none]

/-- No name of the lab is the text of an address. -/
theorem resolve_of_chars {t : List Char} (h : ∀ c ∈ t, isAddrChar c = true) : resolve t = t := by
  have hkeys : fakeDns.all (fun p => p.1.any fun c => !isAddrChar c) = true := by decide
  refine resolve_of_ne fun p hp => ?_
  obtain ⟨c, hc, hno⟩ := List.any_eq_true.mp (List.all_eq_true.mp hkeys p hp)
  rintro rfl
  rw [h c hc] at hno
  cases hno

theorem allDigits_numeral {t : List Char} {v : ℕ} (h : Numeral 10 t v) : allDigits t = true := by
  unfold allDigits
  simpa [h.ne_nil] using h.digits

theorem allDigits_eq_false {t : List Char} {c : Char} (hc : c ∈ t) (h : isDigit 10 c = false) :
    allDigits t = false := by
  unfold allDigits
  rw [Bool.and_eq_false_iff]
  exact Or.inr (List.all_eq_false.mpr ⟨c, hc, by simp [h]⟩)

theorem allDigits_quad {a : Ipv4Addr} {t : List Char} (h : a.Quad t) : allDigits t = false := by
  have hdot : '.' ∈ t := by
    cases h with
    | mk hp hq hr hs => simp
  exact allDigits_eq_false hdot (by decide)

theorem colon_notMem_quad {a : Ipv4Addr} {t : List Char} (h : a.Quad t) : ':' ∉ t := by
  intro hc
  rcases h.chars ':' hc with hc | hc
  · exact absurd hc (by decide)
  · exact absurd hc (by decide)

theorem resolve_v4 {a : Ipv4Addr} {t : List Char} (h : a.Text t) : resolve t = t :=
  resolve_of_chars fun c hc => isAddrChar_of_dotted (h.chars c hc)

theorem colon_mem_text {t : List Char} {a : Ipv6Addr} (h : Ipv6Addr.Text t a) : ':' ∈ t := by
  rcases h.head with ⟨q, rfl, -⟩ | ⟨p, r, rfl, -⟩
  · exact List.mem_cons_self
  · simp

/-! ### Rust -/

theorem and_mask (x k i : ℕ) : x &&& (2 ^ k - 1) * 2 ^ i = x / 2 ^ i % 2 ^ k * 2 ^ i := by
  apply Nat.eq_of_testBit_eq
  intro j
  rw [Nat.testBit_and, ← Nat.shiftLeft_eq, ← Nat.shiftLeft_eq, Nat.testBit_shiftLeft,
    Nat.testBit_shiftLeft, Nat.testBit_two_pow_sub_one, Nat.testBit_mod_two_pow,
    ← Nat.shiftRight_eq_div_pow, Nat.testBit_shiftRight]
  by_cases h : i ≤ j
  · rw [Nat.add_sub_cancel' h]
    simp [h, Bool.and_comm]
  · simp [h]

namespace Rust

/-- Of an IPv4 address the program keeps a text that it reads as this address. -/
theorem canonicalIp_v4 {a : Ipv4Addr} {t ip : List Char} (h : a.Text t)
    (hip : canonicalIp t = some ip) : parseIpv4 ip = some a := by
  unfold canonicalIp at hip
  dsimp only at hip
  rw [resolve_v4 h] at hip
  cases h with
  | quad h =>
    rw [allDigits_quad h, if_neg (by simp)] at hip
    split at hip
    · next hsome =>
      obtain rfl := Option.some_inj.mp hip
      rcases hsome with hsome | hcolon
      · obtain ⟨b, hb⟩ := Option.isSome_iff_exists.mp hsome
        rw [hb, parseIpv4_quad h hb]
      · exact absurd hcolon (colon_notMem_quad h)
    · cases hip
  | decimal h =>
    have hlt := a.toNat_lt
    rw [allDigits_numeral h, if_pos rfl, h.number, if_pos hlt, a.ofNat_toNat] at hip
    obtain rfl := Option.some_inj.mp hip
    exact parseIpv4_dotted a

theorem canonicalIp_v6 {a : Ipv6Addr} {t : List Char} (h : Ipv6Addr.Text t a) :
    canonicalIp t = some t := by
  have hcolon := colon_mem_text h
  unfold canonicalIp
  dsimp only
  rw [resolve_of_chars h.chars, allDigits_eq_false hcolon (by decide), if_neg (by simp),
    if_pos (Or.inr hcolon)]

/-- **Every internal IPv4 address is refused**, and no other one. -/
theorem isDenied_quad {a : Ipv4Addr} {ip : List Char} (h : parseIpv4 ip = some a) :
    isDenied ip = true ↔ Internal4 a := by
  have hzero : a.toNat = 0 ∨ a.octet 0 = 0 ↔ a.octet 0 = 0 := by
    refine or_iff_right_of_imp fun h => ?_
    unfold Ipv4Addr.octet
    rw [h]
    rfl
  unfold isDenied isPrivate isLinkLocal
  rw [h, internal4_iff]
  simp only [Bool.or_eq_true, Bool.and_eq_true, beq_iff_eq, decide_eq_true_eq, or_assoc, and_assoc,
    hzero]
  simp only [or_assoc, or_comm, or_left_comm]

/-- **An IPv6 address is refused when it is in a range of its own**: the IPv4
address in a mapped one is not looked at. -/
theorem isDenied_text {a : Ipv6Addr} {t : List Char} (h : Ipv6Addr.Text t a) :
    isDenied t = true ↔ Internal6 a := by
  have hlt : a.segment 0 < 65536 := Nat.mod_lt _ (by decide)
  have h₁ : a.segment 0 &&& 0xffc0 = a.segment 0 / 64 % 1024 * 64 := and_mask (a.segment 0) 10 6
  have h₂ : a.segment 0 &&& 0xfe00 = a.segment 0 / 512 % 128 * 512 := and_mask (a.segment 0) 7 9
  unfold isDenied
  rw [parseIpv4_text h, parseIpv6_text h, internal6_iff]
  dsimp only
  rw [h₁, h₂]
  simp only [Bool.or_eq_true, beq_iff_eq]
  split
  · next hloop => exact iff_of_true rfl (by omega)
  · next hloop =>
    simp only [Bool.or_eq_true, beq_iff_eq]
    omega

end Rust

/-! ### Comparing texts -/

/-- The first segment of an internal address; that of a mapped one is zero. -/
theorem segment_of_internal {a : Ipv6Addr} (h : (IpAddr.v6 a).Internal) :
    a.segment 0 = 0 ∨ (0xfe80 ≤ a.segment 0 ∧ a.segment 0 < 0xfec0) ∨
      (0xfc00 ≤ a.segment 0 ∧ a.segment 0 < 0xfe00) := by
  have hsmall : a.toNat < 65536 ^ 7 → a.segment 0 = 0 := by
    intro hlt
    unfold Ipv6Addr.segment
    rw [Nat.div_eq_of_lt hlt]
  by_cases hmapped : a.toNat / 2 ^ 32 = 0xffff
  · exact Or.inl (hsmall (by omega))
  · have hi : Internal6 a := by
      unfold IpAddr.Internal Ipv6Addr.toIpv4Mapped at h
      dsimp only at h
      rwa [if_neg hmapped] at h
    rcases (internal6_iff a).mp hi with h | h | h | h
    · exact Or.inl (hsmall (by omega))
    · exact Or.inr (Or.inl h)
    · exact Or.inr (Or.inr h)
    · exact Or.inl (hsmall (by omega))

/-- What the programs that compare texts look for at the start of one. -/
def hasDeniedPrefix (l : List Char) : Bool :=
  "fe80".toList.isPrefixOf l || "fc".toList.isPrefixOf l || "fd".toList.isPrefixOf l

/-- The first group of an internal address has one of the prefixes when it is
`fe80`, the first of the `64` link-local groups, or unique-local: only a group of
four digits is that large. -/
theorem hasDeniedPrefix_hextet {p r : List Char} {g : ℕ} (h : Hextet p g)
    (hg : g = 0 ∨ (0xfe80 ≤ g ∧ g < 0xfec0) ∨ (0xfc00 ≤ g ∧ g < 0xfe00)) :
    hasDeniedPrefix ((p ++ ':' :: r).map Char.toLower) = true ↔
      g = 0xfe80 ∨ (0xfc00 ≤ g ∧ g < 0xfe00) := by
  have hf : ∀ d < 16, ('f' == Nat.digitChar d) = decide (d = 15) := by decide
  have he : ∀ d < 16, ('e' == Nat.digitChar d) = decide (d = 14) := by decide
  have hd : ∀ d < 16, ('d' == Nat.digitChar d) = decide (d = 13) := by decide
  have hc : ∀ d < 16, ('c' == Nat.digitChar d) = decide (d = 12) := by decide
  have h8 : ∀ d < 16, ('8' == Nat.digitChar d) = decide (d = 8) := by decide
  have h0 : ∀ d < 16, ('0' == Nat.digitChar d) = decide (d = 0) := by decide
  have hcode : ∀ x ∈ p, digitCode x < 16 := fun x hx => isDigit_iff.mp (h.numeral.digits x hx)
  have hlower : p.map Char.toLower = (p.map digitCode).map Nat.digitChar := by
    rw [List.map_map]
    exact List.map_congr_left fun x hx => toLower_eq_digitChar (h.numeral.digits x hx)
  have hvalue : value 16 (p.map digitCode) = g := h.numeral.number
  have hlen : (p.map digitCode).length ≤ 4 := by simpa using h.length
  have hne : p.map digitCode ≠ [] := by simpa using h.numeral.ne_nil
  have hlt : ∀ d ∈ p.map digitCode, d < 16 := by simpa using hcode
  rw [List.map_append, hlower]
  generalize p.map digitCode = ds at hvalue hlen hne hlt
  unfold hasDeniedPrefix
  subst hvalue
  match ds, hlen with
  | [], _ => exact absurd rfl hne
  | [d₀], _ =>
    have hlt : d₀ < 16 := by simpa using hlt
    rw [value_singleton] at hg ⊢
    simp [List.isPrefixOf]
    omega
  | [d₀, d₁], _ =>
    have hlt : d₀ < 16 ∧ d₁ < 16 := by simpa using hlt
    have hvalue : value 16 [d₀, d₁] = d₀ * 16 + d₁ := by simp [value_cons]
    rw [hvalue] at hg ⊢
    simp [List.isPrefixOf, hlt, hf, he, hc, hd]
    omega
  | [d₀, d₁, d₂], _ =>
    have hlt : d₀ < 16 ∧ d₁ < 16 ∧ d₂ < 16 := by simpa using hlt
    have hvalue : value 16 [d₀, d₁, d₂] = d₀ * 256 + (d₁ * 16 + d₂) := by simp [value_cons]
    rw [hvalue] at hg ⊢
    simp [List.isPrefixOf, hlt, hf, he, hc, hd, h8]
    omega
  | [d₀, d₁, d₂, d₃], _ =>
    have hlt : d₀ < 16 ∧ d₁ < 16 ∧ d₂ < 16 ∧ d₃ < 16 := by simpa using hlt
    have hvalue : value 16 [d₀, d₁, d₂, d₃] = d₀ * 4096 + (d₁ * 256 + (d₂ * 16 + d₃)) := by
      simp [value_cons]
    rw [hvalue] at hg ⊢
    simp [List.isPrefixOf, hlt, hf, he, hc, hd, h8, h0]
    omega

/-- The texts that all programs recognise: every text of an IPv4 address, the groups
`fe80` and `fc00` to `fdff` in front, and one spelling of loopback and unspecified. -/
def Recognised : IpAddr → List Char → Prop
  | .v4 _, _ => True
  | .v6 a, t =>
    a.segment 0 = 0xfe80 ∨ (0xfc00 ≤ a.segment 0 ∧ a.segment 0 < 0xfe00) ∨ t = "::1".toList ∨
      t = "::".toList

/-- **Comparing the text of an internal address** recognises these. -/
theorem recognised_iff {a : Ipv6Addr} {t : List Char} (h : Ipv6Addr.Text t a)
    (hi : (IpAddr.v6 a).Internal) :
    (t.map Char.toLower = "::1".toList ∨ t.map Char.toLower = "::".toList ∨
      hasDeniedPrefix (t.map Char.toLower) = true) ↔ Recognised (.v6 a) t := by
  have hone : ∀ c, isAddrChar c = true → (c.toLower = '1' ↔ c = '1') := by
    intro c hc
    simp only [isAddrChar, Bool.or_eq_true, beq_iff_eq] at hc
    rcases hc with (hc | rfl) | rfl
    · exact forall_of_isDigit (P := fun c => c.toLower = '1' ↔ c = '1') (by decide) (by decide) hc
    · decide
    · decide
  unfold Recognised
  rcases h.head with ⟨q, rfl, hzero⟩ | ⟨p, r, rfl, hp⟩
  · -- no prefix starts with a colon
    have hnone : hasDeniedPrefix ((':' :: ':' :: q).map Char.toLower) = false := rfl
    have hloop : (':' :: ':' :: q).map Char.toLower = "::1".toList ↔
        ':' :: ':' :: q = "::1".toList := by
      refine ⟨fun heq => ?_, fun heq => by rw [heq]; rfl⟩
      have hq : q.map Char.toLower = ['1'] := by simpa using heq
      obtain ⟨c, rfl, hc⟩ := List.map_eq_singleton_iff.mp hq
      obtain rfl := (hone c (h.chars c (by simp))).mp hc
      rfl
    dsimp only
    rw [hnone, hzero, hloop]
    simp
  · -- neither of the two spellings starts with a digit
    obtain ⟨c, cs, rfl⟩ := List.exists_cons_of_ne_nil hp.numeral.ne_nil
    have hne : ∀ d, isDigit 16 d = true → d.toLower ≠ ':' ∧ d ≠ ':' := fun d hd =>
      forall_of_isDigit (P := fun d => d.toLower ≠ ':' ∧ d ≠ ':') (by decide) (by decide) hd
    obtain ⟨hlower, hcolon⟩ := hne c (hp.numeral.digits c List.mem_cons_self)
    rw [hasDeniedPrefix_hextet hp (segment_of_internal hi)]
    simp [hlower, hcolon]

/-! ### C++ -/

namespace Cpp

theorem toInt_natCast {v : ℕ} (h : v < 2 ^ 31) : toInt v = v := by
  unfold toInt
  rw [Int.bmod_def]
  omega

/-- What is neither a space nor a sign is left for the digits. -/
theorem scanSign_of_plain {c : Char} (h : isSpace c = false ∧ c ≠ '-' ∧ c ≠ '+')
    (s : List Char) : scanSign ((c :: s).dropWhile isSpace) = (false, c :: s) := by
  rw [List.dropWhile_cons_of_neg (by simp [h.1])]
  unfold scanSign
  split
  · next heq => exact absurd (List.cons.inj heq).1 h.2.1
  · next heq => exact absurd (List.cons.inj heq).1 h.2.2
  · rfl

theorem scanInt_numeral {ds rest : List Char} {v : ℕ} (h : Numeral 10 ds v)
    (hrest : Ends 10 rest) : scanInt (ds ++ rest) = some (toInt v, rest) := by
  have hplain : ∀ {c : Char}, isDigit 10 c = true → isSpace c = false ∧ c ≠ '-' ∧ c ≠ '+' :=
    forall_of_isDigit (P := fun c => isSpace c = false ∧ c ≠ '-' ∧ c ≠ '+') (by decide) (by decide)
  obtain ⟨c, cs, rfl⟩ := List.exists_cons_of_ne_nil h.ne_nil
  have hsign := scanSign_of_plain (hplain (h.digits c List.mem_cons_self)) (cs ++ rest)
  unfold scanInt
  rw [List.cons_append, hsign]
  dsimp only
  rw [← List.cons_append, takeWhile_of_ends h.digits hrest, dropWhile_of_ends h.digits hrest,
    h.number]
  simp

/-- There is no number in front of a text that starts with a letter. -/
theorem scanInt_of_plain {c : Char} (h : isSpace c = false ∧ c ≠ '-' ∧ c ≠ '+')
    (hdigit : isDigit 10 c = false) (s : List Char) : scanInt (c :: s) = none := by
  unfold scanInt
  rw [scanSign_of_plain h]
  simp [hdigit]

/-- A quad has its octets as numbers, whatever follows them. -/
theorem scanDotted_quad {a : Ipv4Addr} {t rest : List Char} (h : a.Quad t) (hrest : Ends 10 rest) :
    scanDotted 4 (t ++ rest) = [(a.octet 0 : ℤ), a.octet 1, a.octet 2, a.octet 3] := by
  have hdot : ∀ s : List Char, Ends 10 ('.' :: s) := fun s => ends_cons (by decide) s
  have hint : ∀ i, toInt (a.octet i) = a.octet i := fun i =>
    toInt_natCast ((a.octet_lt i).trans (by decide))
  cases h with
  | @mk p q r s hp hq hr hs =>
    simp only [List.append_assoc, List.cons_append, scanDotted, scanInt_numeral hp (hdot _),
      scanInt_numeral hq (hdot _), scanInt_numeral hr (hdot _), scanInt_numeral hs hrest, hint]
    cases rest with
    | nil => rfl
    | cons c rest => split <;> rfl

theorem count_dot_quad {a : Ipv4Addr} {t : List Char} (h : a.Quad t) : t.count '.' = 3 := by
  have hcount : ∀ {ds : List Char} {v : ℕ}, Numeral 10 ds v → ds.count '.' = 0 := by
    intro ds v hds
    rw [List.count_eq_zero]
    exact fun hdot => absurd (hds.digits '.' hdot) (by decide)
  cases h with
  | mk hp hq hr hs => simp [hcount hp, hcount hq, hcount hr, hcount hs]

/-- Of an IPv4 address the program keeps a quad. -/
theorem canonicalIp_v4 {a : Ipv4Addr} {t : List Char} (h : a.Text t) :
    a.Quad (canonicalIp t) := by
  unfold canonicalIp
  dsimp only
  rw [resolve_v4 h]
  cases h with
  | quad h =>
    rw [allDigits_quad h, if_neg (by simp), if_neg (colon_notMem_quad h),
      if_pos (count_dot_quad h)]
    exact h
  | decimal h =>
    have hlt := a.toNat_lt
    have hlong : strtoul t = a.toNat := by
      unfold strtoul
      rw [h.number]
      omega
    rw [allDigits_numeral h, if_pos rfl, hlong, Nat.mod_eq_of_lt hlt, a.ofNat_toNat]
    exact a.quad_dotted

theorem canonicalIp_v6 {a : Ipv6Addr} {t : List Char} (h : Ipv6Addr.Text t a) :
    canonicalIp t = t := by
  have hcolon := colon_mem_text h
  unfold canonicalIp
  dsimp only
  rw [resolve_of_chars h.chars, allDigits_eq_false hcolon (by decide), if_neg (by simp),
    if_pos hcolon]

/-- **An address is judged by its octets**, also when more text follows them. -/
theorem isDenied_quad {a : Ipv4Addr} {ip rest : List Char} (h : a.Quad ip)
    (hrest : Ends 10 rest) (hcolon : ':' ∉ rest) :
    isDenied (ip ++ rest) = true ↔ Internal4 a := by
  have hno : ':' ∉ ip ++ rest := by simp [colon_notMem_quad h, hcolon]
  unfold isDenied
  rw [if_neg hno, scanDotted_quad h hrest, internal4_iff]
  simp only [Bool.or_eq_true, Bool.and_eq_true, beq_iff_eq, decide_eq_true_eq, or_assoc, and_assoc]
  norm_cast

/-- **An internal IPv6 address is refused when its text is recognised.** -/
theorem isDenied_text {a : Ipv6Addr} {t : List Char} (h : Ipv6Addr.Text t a)
    (hi : (IpAddr.v6 a).Internal) : isDenied t = true ↔ Recognised (.v6 a) t := by
  rw [← recognised_iff h hi]
  unfold isDenied toLower
  rw [if_pos (colon_mem_text h)]
  simp [hasDeniedPrefix, or_assoc]

end Cpp

/-! ### Node.js -/

namespace Node

theorem toNumber_numeral {ds : List Char} {v : ℕ} (h : Numeral 10 ds v) (hv : v < 2 ^ 53) :
    toNumber ds = some v := by
  unfold toNumber toDouble
  rw [if_neg (by simpa using h.ne_nil), if_pos (allDigits_numeral h), h.number, if_pos hv]

/-- Splitting a quad at its dots gives its numbers. -/
theorem splitOn_quad {a : Ipv4Addr} {t : List Char} (h : a.Quad t) :
    ∃ p q r s, t.splitOn '.' = [p, q, r, s] ∧ Numeral 10 p (a.octet 0) ∧
      Numeral 10 q (a.octet 1) ∧ Numeral 10 r (a.octet 2) ∧ Numeral 10 s (a.octet 3) := by
  have hno : ∀ {ds : List Char} {v : ℕ}, Numeral 10 ds v → '.' ∉ ds := fun hds hdot =>
    absurd (hds.digits '.' hdot) (by decide)
  cases h with
  | @mk p q r s hp hq hr hs =>
    refine ⟨p, q, r, s, ?_, hp, hq, hr, hs⟩
    have hsplit : (['.'].intercalate [p, q, r, s]).splitOn '.' = [p, q, r, s] :=
      List.splitOn_intercalate '.' (by simp [hno hp, hno hq, hno hr, hno hs]) (by simp)
    simpa [List.intercalate] using hsplit

/-- Of an IPv4 address the program keeps a quad. -/
theorem canonicalIP_v4 {a : Ipv4Addr} {t : List Char} (h : a.Text t) :
    ∃ ip, canonicalIP t = some ip ∧ a.Quad ip := by
  unfold canonicalIP
  dsimp only
  rw [resolve_v4 h]
  cases h with
  | quad h =>
    obtain ⟨p, q, r, s, hsplit, hp, hq, hr, hs⟩ := splitOn_quad h
    have hdotted : isDotted t = true := by
      unfold isDotted
      rw [hsplit]
      simp [allDigits_numeral hp, allDigits_numeral hq, allDigits_numeral hr, allDigits_numeral hs]
    refine ⟨t, ?_, h⟩
    rw [allDigits_quad h, if_neg (by simp), if_pos (Or.inl hdotted)]
  | decimal h =>
    have hlt := a.toNat_lt
    refine ⟨a.dotted, ?_, a.quad_dotted⟩
    rw [allDigits_numeral h, if_pos rfl, toNumber_numeral h (hlt.trans (by decide)),
      Option.getD_some, Nat.mod_eq_of_lt hlt, a.ofNat_toNat]

theorem canonicalIP_v6 {a : Ipv6Addr} {t : List Char} (h : Ipv6Addr.Text t a) :
    canonicalIP t = some t := by
  have hcolon := colon_mem_text h
  unfold canonicalIP
  dsimp only
  rw [resolve_of_chars h.chars, allDigits_eq_false hcolon (by decide), if_neg (by simp),
    if_pos (Or.inr hcolon)]

theorem isDenied_quad {a : Ipv4Addr} {ip : List Char} (h : a.Quad ip) :
    isDenied ip = true ↔ Internal4 a := by
  have hlt : ∀ i, a.octet i < 2 ^ 53 := fun i => (a.octet_lt i).trans (by decide)
  obtain ⟨p, q, r, s, hsplit, hp, hq, hr, hs⟩ := splitOn_quad h
  unfold isDenied
  rw [if_neg (colon_notMem_quad h), hsplit, internal4_iff]
  simp only [List.map_cons, List.map_nil, toNumber_numeral hp (hlt 0),
    toNumber_numeral hq (hlt 1), Bool.or_eq_true, Bool.and_eq_true, beq_iff_eq, decide_eq_true_eq,
    or_assoc, and_assoc]

/-- **An internal IPv6 address is refused when its text is recognised.** -/
theorem isDenied_text {a : Ipv6Addr} {t : List Char} (h : Ipv6Addr.Text t a)
    (hi : (IpAddr.v6 a).Internal) : isDenied t = true ↔ Recognised (.v6 a) t := by
  rw [← recognised_iff h hi]
  unfold isDenied
  rw [if_pos (colon_mem_text h)]
  simp [hasDeniedPrefix, or_assoc]

end Node

/-! ### Every program -/

/-- Every program that lets the text through refuses its address. -/
structure AllDenied (t : List Char) : Prop where
  rust : ∀ ip, Rust.canonicalIp t = some ip → Rust.isDenied ip = true
  cpp : Cpp.canonicalIp t ≠ [] → Cpp.isDenied (Cpp.canonicalIp t) = true
  node : ∀ ip, Node.canonicalIP t = some ip → Node.isDenied ip = true

/-- What is recognised is in a range of its own. -/
theorem internal6_of_recognised {a : Ipv6Addr} {t : List Char} (h : Ipv6Addr.Text t a)
    (hr : Recognised (.v6 a) t) : Internal6 a := by
  have hparse := parseIpv6_text h
  rw [internal6_iff]
  rcases hr with hr | hr | rfl | rfl
  · omega
  · omega
  · have hone : parseIpv6 "::1".toList = some (.ofGroups [0, 0, 0, 0, 0, 0, 0, 1]) := by decide
    obtain rfl := Option.some_inj.mp (hone.symm.trans hparse)
    exact Or.inl (by decide)
  · have hzero : parseIpv6 "::".toList = some (.ofGroups [0, 0, 0, 0, 0, 0, 0, 0]) := by decide
    obtain rfl := Option.some_inj.mp (hzero.symm.trans hparse)
    exact Or.inr (Or.inr (Or.inr (by decide)))

theorem allDenied_v4 {a : Ipv4Addr} {t : List Char} (h : a.Text t) (hi : Internal4 a) :
    AllDenied t where
  rust ip hip := (Rust.isDenied_quad (Rust.canonicalIp_v4 h hip)).mpr hi
  cpp _ := by
    have hdenied := (Cpp.isDenied_quad (Cpp.canonicalIp_v4 h) (ends_nil 10) (by simp)).mpr hi
    rwa [List.append_nil] at hdenied
  node ip hip := by
    obtain ⟨ip', hip', hquad⟩ := Node.canonicalIP_v4 h
    obtain rfl := Option.some_inj.mp (hip'.symm.trans hip)
    exact (Node.isDenied_quad hquad).mpr hi

/-- **All programs refuse an internal address exactly when its text is recognised.** -/
theorem isDenied_sound_iff {addr : IpAddr} {t : List Char} (h : addr.Text t)
    (hi : addr.Internal) : AllDenied t ↔ Recognised addr t := by
  cases addr with
  | v4 a => exact iff_of_true (allDenied_v4 h hi) trivial
  | v6 a =>
    have hne : t ≠ [] := List.ne_nil_of_mem (colon_mem_text h)
    constructor
    · intro hall
      have hcpp := hall.cpp
      rw [Cpp.canonicalIp_v6 h] at hcpp
      exact (Cpp.isDenied_text h hi).mp (hcpp hne)
    · intro hr
      refine ⟨?_, ?_, ?_⟩
      · intro ip hip
        obtain rfl := Option.some_inj.mp ((Rust.canonicalIp_v6 h).symm.trans hip)
        exact (Rust.isDenied_text h).mpr (internal6_of_recognised h hr)
      · rw [Cpp.canonicalIp_v6 h]
        exact fun _ => (Cpp.isDenied_text h hi).mpr hr
      · intro ip hip
        obtain rfl := Option.some_inj.mp ((Node.canonicalIP_v6 h).symm.trans hip)
        exact (Node.isDenied_text h hi).mpr hr

/-- A link-local address. -/
theorem isDenied_sound_link_local : AllDenied "FE80::1".toList := by
  have htext : (IpAddr.v6 (.ofGroups [0xfe80, 0, 0, 0, 0, 0, 0, 1])).Text "FE80::1".toList :=
    .compressed (p := "FE80".toList) (q := ['1'])
      (.some (.one (by decide)))
      (.some (.one (by decide))) (by decide)
  have hinternal : (IpAddr.v6 (.ofGroups [0xfe80, 0, 0, 0, 0, 0, 0, 1])).Internal :=
    (internal6_iff _).mpr (by decide)
  exact (isDenied_sound_iff htext hinternal).mpr (Or.inl (by decide))

/-- The loopback address `127.0.0.1` mapped into IPv6 passes every program, and the
programs disagree on `::1` written out. -/
theorem isDenied_mapped_loopback :
    let mapped := IpAddr.v6 (.ofGroups [0, 0, 0, 0, 0, 0xffff, 0x7f00, 1])
    let loopback := IpAddr.v6 (.ofGroups [0, 0, 0, 0, 0, 0, 0, 1])
    (mapped.Text "::ffff:127.0.0.1".toList ∧ mapped.Internal ∧
      Rust.canonicalIp "::ffff:127.0.0.1".toList = some "::ffff:127.0.0.1".toList ∧
      Rust.isDenied "::ffff:127.0.0.1".toList = false ∧
      Cpp.canonicalIp "::ffff:127.0.0.1".toList = "::ffff:127.0.0.1".toList ∧
      Cpp.isDenied "::ffff:127.0.0.1".toList = false ∧
      Node.canonicalIP "::ffff:127.0.0.1".toList = some "::ffff:127.0.0.1".toList ∧
      Node.isDenied "::ffff:127.0.0.1".toList = false) ∧
    loopback.Text "0:0:0:0:0:0:0:1".toList ∧ loopback.Internal ∧
      Rust.isDenied "0:0:0:0:0:0:0:1".toList = true ∧
      Cpp.isDenied "0:0:0:0:0:0:0:1".toList = false ∧
      Node.isDenied "0:0:0:0:0:0:0:1".toList = false := by
  have hzero : Hextet ['0'] 0 := by decide
  have hone : Hextet ['1'] 1 := by decide
  have hmark : Hextet "ffff".toList 0xffff := by decide
  have hdotted : (Ipv4Addr.ofOctets [127, 0, 0, 1]).dotted = "127.0.0.1".toList := by decide
  have hgroups : [(Ipv4Addr.ofOctets [127, 0, 0, 1]).toNat / 65536,
      (Ipv4Addr.ofOctets [127, 0, 0, 1]).toNat % 65536] = [0x7f00, 1] := by decide
  have hquad : Groups true "127.0.0.1".toList [0x7f00, 1] := by
    rw [← hdotted, ← hgroups]
    exact .quad _
  have hmapped : Internal4 (.ofNat 0x7f000001) := (internal4_iff _).mpr (by decide)
  refine ⟨⟨.compressed .none (.some (.cons hmark hquad)) (by decide), hmapped, by decide,
    by decide, by decide, by decide, by decide, by decide⟩, ?_, ?_, by decide, by decide, by decide⟩
  · exact .full (.cons hzero (.cons hzero (.cons hzero (.cons hzero (.cons hzero (.cons hzero
      (.cons hzero (.one hone)))))))) (by decide)
  · exact (internal6_iff _).mpr (by decide)

end Ssrf
end SepLab
