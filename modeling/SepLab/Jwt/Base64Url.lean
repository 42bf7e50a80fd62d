import Mathlib.Data.List.Basic
import Mathlib.Tactic.SplitIfs
import SepLab.Lib.BitString

/-!
# Decoding base64url with a shift register

The decoder shifts six bits at a time into a register of 32 bits and takes a byte off whenever
there are eight. From the sixth character on the register overflows; only its low bits, as many
as are counted, are ever looked at again.

## Main definitions

* `base64UrlDecode` — the loop over the bytes of the text, and its register.
* `sextet` — the value of a byte of the alphabet, by the ranges the alphabet consists of.
* `encode` — the encoding of a byte string in groups of three, padded or not.

## Main results

* `Inv.push` — what one character does to the bits shifted in so far.
* `base64UrlDecode_exact` — **the decoder is exact at every length**: the first whole bytes of the
  bits of the characters, with fewer than eight bits left over; it undoes the encoding.
-/

namespace SepLab
namespace Jwt

/-! ### The decoder -/

/-- The alphabet. -/
def alphabet : List UInt8 :=
  "ABCDEFGHIJKLMNOPQRSTUVWXYZabcdefghijklmnopqrstuvwxyz0123456789-_".toList.map fun c =>
    c.toNat.toUInt8

/-- The register, the number of its bits that are still to be written, and the bytes written. -/
structure Register where
  buf : UInt32 := 0
  bits : UInt8 := 0
  out : List UInt8 := []

/-- Shift six bits in, and write a byte once there are eight. -/
def Register.push (r : Register) (v : ℕ) : Register :=
  let buf := (r.buf <<< 6) ||| v.toUInt32
  let bits := r.bits + 6
  if 8 ≤ bits then
    let bits := bits - 8
    ⟨buf, bits, r.out ++ [(buf >>> bits.toUInt32).toUInt8]⟩
  else
    ⟨buf, bits, r.out⟩

/-- One byte of the text: what is not in the alphabet is skipped. -/
def Register.read (r : Register) (c : UInt8) : Register :=
  match alphabet.findIdx? (· == c) with
  | some v => r.push v
  | none => r

/-- `base64_url_decode` -/
def base64UrlDecode (s : List UInt8) : List UInt8 := (s.foldl Register.read {}).out

/-! ### The encoding -/

/-- The value of a byte of the alphabet: letters, digits, minus and underscore. -/
def sextet (c : UInt8) : Option ℕ :=
  let n := c.toNat
  if 65 ≤ n ∧ n ≤ 90 then some (n - 65)
  else if 97 ≤ n ∧ n ≤ 122 then some (n - 97 + 26)
  else if 48 ≤ n ∧ n ≤ 57 then some (n - 48 + 52)
  else if n = 45 then some 62
  else if n = 95 then some 63
  else none

/-- The byte of the alphabet that stands for a value. -/
def letter (v : ℕ) : UInt8 :=
  if v < 26 then (v + 65).toUInt8
  else if v < 52 then (v - 26 + 97).toUInt8
  else if v < 62 then (v - 52 + 48).toUInt8
  else if v = 62 then 45
  else 95

/-- A group of bytes as one number, cut into values of six bits: a last group that is short is
filled up with zero bits. -/
def sextets : List UInt8 → List ℕ
  | [] => []
  | [a] =>
    let x := a.toNat * 2 ^ 4
    [x / 2 ^ 6, x % 2 ^ 6]
  | [a, b] =>
    let x := (a.toNat * 2 ^ 8 + b.toNat) * 2 ^ 2
    [x / 2 ^ 12, x / 2 ^ 6 % 2 ^ 6, x % 2 ^ 6]
  | a :: b :: c :: data =>
    let x := (a.toNat * 2 ^ 8 + b.toNat) * 2 ^ 8 + c.toNat
    x / 2 ^ 18 :: x / 2 ^ 12 % 2 ^ 6 :: x / 2 ^ 6 % 2 ^ 6 :: x % 2 ^ 6 :: sextets data

/-- As many `=` as make the length a multiple of four. -/
def padding (n : ℕ) : List UInt8 := List.replicate ((4 - n % 4) % 4) 61

/-- The base64url encoding, with padding or without. -/
def encode (padded : Bool) (data : List UInt8) : List UInt8 :=
  let text := (sextets data).map letter
  if padded then text ++ padding text.length else text

/-! ### The alphabet -/

/-- A byte has the place in the alphabet that the ranges give it. -/
theorem findIdx?_alphabet (c : UInt8) : alphabet.findIdx? (· == c) = sextet c := by
  have hall : ∀ n < 256, alphabet.findIdx? (· == n.toUInt8) = sextet n.toUInt8 := by
    decide +kernel
  have hc : c.toNat.toUInt8 = c := UInt8.ofNat_toNat
  rw [← hc]
  exact hall c.toNat c.toNat_lt

theorem sextet_lt {c : UInt8} {v : ℕ} (h : sextet c = some v) : v < 64 := by
  simp only [sextet] at h
  split_ifs at h <;> grind

theorem sextet_letter {v : ℕ} (hv : v < 64) : sextet (letter v) = some v := by
  have hall : ∀ v < 64, sextet (letter v) = some v := by decide +kernel
  exact hall v hv

/-- The values of the bytes that belong to the alphabet. -/
def values (s : List UInt8) : List ℕ := s.filterMap sextet

theorem lt_of_mem_values {s : List UInt8} {v : ℕ} (hv : v ∈ values s) : v < 64 := by
  obtain ⟨c, -, hc⟩ := List.mem_filterMap.mp hv
  exact sextet_lt hc

/-- The loop pushes the values one by one. -/
theorem foldl_read (r : Register) (s : List UInt8) :
    s.foldl Register.read r = (values s).foldl Register.push r := by
  induction s generalizing r with
  | nil => rfl
  | cons c s ih =>
    rw [List.foldl_cons, ih, Register.read, findIdx?_alphabet]
    cases hc : sextet c with
    | none => rw [values, values, List.filterMap_cons_none hc]
    | some v => rw [values, values, List.filterMap_cons_some hc, List.foldl_cons]

/-! ### The register -/

/-- The bits of the bytes written and of the low end of the register are all that were shifted
in, and the register holds fewer than eight of them. -/
structure Inv (vs : List ℕ) (r : Register) : Prop where
  /-- Less than a byte is left. -/
  bits_lt : r.bits.toNat < 8
  /-- Nothing is lost: what overflows has been written. -/
  flatMap_eq : vs.flatMap (bitString 6) =
    (r.out.map UInt8.toNat).flatMap (bitString 8) ++ bitString r.bits.toNat r.buf.toNat

/-- Shifting six bits in, up to what the register holds. -/
theorem toNat_shift (buf : UInt32) {v : ℕ} (hv : v < 64) :
    ((buf <<< 6) ||| v.toUInt32).toNat = (buf.toNat * 2 ^ 6 + v) % 2 ^ 32 := by
  have hlow : v.toUInt32.toNat = v := by
    rw [Nat.toUInt32, UInt32.toNat_ofNat']
    exact Nat.mod_eq_of_lt (by omega)
  have hhigh : (buf <<< 6).toNat = 2 ^ 6 * (buf.toNat % 2 ^ 26) := by
    rw [UInt32.toNat_shiftLeft, Nat.shiftLeft_eq]
    have hsix : (6 : UInt32).toNat % 32 = 6 := rfl
    rw [hsix]
    omega
  rw [UInt32.toNat_or, hlow, hhigh, ← Nat.two_pow_add_eq_or_of_lt hv]
  omega

/-- The byte that is taken off, when there are eight bits above the ones that stay. -/
theorem toNat_byte (buf : UInt32) {bits : UInt8} (hbits : bits.toNat < 8) :
    ((buf >>> bits.toUInt32).toUInt8).toNat = buf.toNat / 2 ^ bits.toNat % 2 ^ 8 := by
  rw [UInt32.toNat_toUInt8, UInt32.toNat_shiftRight, UInt8.toNat_toUInt32,
    Nat.mod_eq_of_lt (by omega : bits.toNat < 32), Nat.shiftRight_eq_div_pow]

theorem Inv.push {vs : List ℕ} {r : Register} (h : Inv vs r) {v : ℕ} (hv : v < 64) :
    Inv (vs ++ [v]) (r.push v) := by
  have hlt := h.bits_lt
  have hbits : (r.bits + 6).toNat = r.bits.toNat + 6 := by
    rw [UInt8.toNat_add]
    exact Nat.mod_eq_of_lt (by have : (6 : UInt8).toNat = 6 := rfl; omega)
  -- the low bits, with the six new ones below them
  have hlow : bitString (r.bits.toNat + 6) ((r.buf <<< 6) ||| v.toUInt32).toNat =
      bitString r.bits.toNat r.buf.toNat ++ bitString 6 v := by
    rw [toNat_shift r.buf hv, bitString_mod (by omega), bitString_mul_add hv]
  have hall : (vs ++ [v]).flatMap (bitString 6) = (r.out.map UInt8.toNat).flatMap (bitString 8) ++
      bitString (r.bits.toNat + 6) ((r.buf <<< 6) ||| v.toUInt32).toNat := by
    rw [List.flatMap_append, h.flatMap_eq, hlow, List.append_assoc, List.flatMap_singleton]
  unfold Register.push
  by_cases hbyte : 8 ≤ r.bits + 6
  · have hle : 8 ≤ r.bits.toNat + 6 := hbits ▸ UInt8.le_iff_toNat_le.mp hbyte
    have hleft : (r.bits + 6 - 8).toNat = r.bits.toNat + 6 - 8 := by
      rw [UInt8.toNat_sub_of_le _ _ hbyte, hbits]
      rfl
    have hleft_lt : (r.bits + 6 - 8).toNat < 8 := by omega
    rw [if_pos hbyte]
    refine ⟨hleft_lt, ?_⟩
    have hsplit : r.bits.toNat + 6 = 8 + (r.bits + 6 - 8).toNat := by omega
    rw [hall, hsplit, bitString_append, List.map_append, List.flatMap_append, List.map_singleton,
      List.flatMap_singleton, toNat_byte _ hleft_lt, bitString_mod le_rfl, List.append_assoc]
  · have hlt' : r.bits.toNat + 6 < 8 := by
      have hnot := mt UInt8.le_iff_toNat_le.mpr hbyte
      rw [hbits] at hnot
      exact not_le.mp hnot
    rw [if_neg hbyte]
    exact ⟨hbits ▸ hlt', by rw [hall, hbits]⟩

theorem Inv.foldl {vs : List ℕ} {r : Register} (h : Inv vs r) {ws : List ℕ}
    (hw : ∀ w ∈ ws, w < 64) : Inv (vs ++ ws) (ws.foldl Register.push r) := by
  induction ws generalizing vs r with
  | nil => rwa [List.append_nil]
  | cons w ws ih =>
    have hrest := ih (h.push (hw w List.mem_cons_self)) fun x hx =>
      hw x (List.mem_cons_of_mem w hx)
    rwa [List.append_assoc, List.singleton_append] at hrest

/-- The register after a text. -/
def register (s : List UInt8) : Register := s.foldl Register.read {}

theorem inv_register (s : List UInt8) : Inv (values s) (register s) := by
  have hstart : Inv [] ({} : Register) := ⟨by decide, rfl⟩
  rw [register, foldl_read]
  exact hstart.foldl fun v hv => lt_of_mem_values hv

/-- As many bytes as the bits fill. -/
theorem length_base64UrlDecode (s : List UInt8) :
    (base64UrlDecode s).length = 6 * (values s).length / 8 := by
  have hlen := congrArg List.length (inv_register s).flatMap_eq
  have hlt := (inv_register s).bits_lt
  rw [length_flatMap_bitString, List.length_append, length_flatMap_bitString, length_bitString,
    List.length_map] at hlen
  change (register s).out.length = _
  omega

/-- The bytes written are the first whole bytes of the bits shifted in. -/
theorem flatMap_base64UrlDecode (s : List UInt8) :
    ((base64UrlDecode s).map UInt8.toNat).flatMap (bitString 8) =
      ((values s).flatMap (bitString 6)).take (8 * (6 * (values s).length / 8)) := by
  have hlen : (((base64UrlDecode s).map UInt8.toNat).flatMap (bitString 8)).length =
      8 * (6 * (values s).length / 8) := by
    rw [length_flatMap_bitString, List.length_map, length_base64UrlDecode, Nat.mul_comm]
  rw [(inv_register s).flatMap_eq, ← hlen]
  exact (List.take_left' rfl).symm

/-! ### Undoing the encoding -/

theorem sextets_lt (data : List UInt8) : ∀ v ∈ sextets data, v < 64 := by
  fun_induction sextets data with
  | case1 => exact fun v hv => absurd hv List.not_mem_nil
  | case2 a =>
    have ha := a.toNat_lt
    simp only [List.forall_mem_cons, List.not_mem_nil, false_imp_iff, implies_true, and_true]
    omega
  | case3 a b =>
    have ha := a.toNat_lt
    have hb := b.toNat_lt
    simp only [List.forall_mem_cons, List.not_mem_nil, false_imp_iff, implies_true, and_true]
    omega
  | case4 a b c data x ih =>
    have ha := a.toNat_lt
    have hb := b.toNat_lt
    have hc := c.toNat_lt
    simp only [List.forall_mem_cons]
    exact ⟨by omega, by omega, by omega, by omega, ih⟩

/-- The encoding has the bits of the data, and fewer than eight more. -/
theorem flatMap_sextets (data : List UInt8) : ∃ fill : List Bool, fill.length < 8 ∧
    (sextets data).flatMap (bitString 6) =
      (data.map UInt8.toNat).flatMap (bitString 8) ++ fill := by
  fun_induction sextets data with
  | case1 => exact ⟨[], by decide, rfl⟩
  -- one byte left: two sextets, with four bits of filling
  | case2 a x =>
    refine ⟨bitString 4 0, by decide, ?_⟩
    have hx : bitString (6 + 6) x = bitString 8 a.toNat ++ bitString 4 0 :=
      bitString_mul_add (Nat.two_pow_pos 4) 8 a.toNat
    rw [bitString_append] at hx
    simpa only [List.flatMap_cons, List.flatMap_nil, List.map_cons, List.map_nil, List.append_nil,
      bitString_mod le_rfl] using hx
  -- two bytes left: three sextets, with two bits of filling
  | case3 a b x =>
    refine ⟨bitString 2 0, by decide, ?_⟩
    have hx : bitString (6 + (6 + 6)) x =
        (bitString 8 a.toNat ++ bitString 8 b.toNat) ++ bitString 2 0 := by
      rw [← bitString_mul_add b.toNat_lt 8 a.toNat]
      exact bitString_mul_add (Nat.two_pow_pos 2) 16 _
    rw [bitString_append, bitString_append] at hx
    simpa only [List.flatMap_cons, List.flatMap_nil, List.map_cons, List.map_nil, List.append_nil,
      bitString_mod le_rfl] using hx
  | case4 a b c data x ih =>
    obtain ⟨fill, hfill, ih⟩ := ih
    refine ⟨fill, hfill, ?_⟩
    -- three bytes are four sextets
    have hx : bitString (6 + (6 + (6 + 6))) x =
        (bitString 8 a.toNat ++ bitString 8 b.toNat) ++ bitString 8 c.toNat := by
      rw [← bitString_mul_add b.toNat_lt 8 a.toNat]
      exact bitString_mul_add c.toNat_lt 16 _
    rw [bitString_append, bitString_append, bitString_append] at hx
    simp only [List.flatMap_cons, List.map_cons, ih, bitString_mod le_rfl]
    simp only [← List.append_assoc] at hx ⊢
    rw [hx]

/-- Only the characters of the values are read back, not the padding. -/
theorem values_encode (padded : Bool) (data : List UInt8) :
    values (encode padded data) = sextets data := by
  have htext : values ((sextets data).map letter) = sextets data := by
    rw [values, List.filterMap_map]
    calc (sextets data).filterMap (sextet ∘ letter) = (sextets data).filterMap some :=
          List.filterMap_congr fun v hv => sextet_letter (sextets_lt data v hv)
      _ = sextets data := List.filterMap_some
  have hpadding : ∀ n, values (padding n) = [] := by
    intro n
    refine List.filterMap_eq_nil_iff.mpr fun c hc => ?_
    rw [List.eq_of_mem_replicate hc]
    decide
  unfold encode
  split
  · rw [values, List.filterMap_append, ← values, ← values, htext, hpadding, List.append_nil]
  · exact htext

/-- **Decoding undoes encoding**, padded or not. -/
theorem base64UrlDecode_encode (padded : Bool) (data : List UInt8) :
    base64UrlDecode (encode padded data) = data := by
  obtain ⟨fill, hfill, hbits⟩ := flatMap_sextets data
  have hlength := congrArg List.length hbits
  rw [List.length_append, length_flatMap_bitString, length_flatMap_bitString,
    List.length_map] at hlength
  -- the filling is less than a byte, so no byte is made of it
  have hcount : 6 * (values (encode padded data)).length / 8 = data.length := by
    rw [values_encode]
    omega
  have hlen : (base64UrlDecode (encode padded data)).length = data.length := by
    rw [length_base64UrlDecode, hcount]
  have hwhole : ((data.map UInt8.toNat).flatMap (bitString 8)).length = 8 * data.length := by
    rw [length_flatMap_bitString, List.length_map, Nat.mul_comm]
  -- and the bits that are left are those of the data
  have hsame : ((base64UrlDecode (encode padded data)).map UInt8.toNat).flatMap (bitString 8) =
      (data.map UInt8.toNat).flatMap (bitString 8) := by
    rw [flatMap_base64UrlDecode, hcount, values_encode, hbits, ← hwhole]
    exact List.take_left' rfl
  have hbyte : ∀ xs : List UInt8, ∀ n ∈ xs.map UInt8.toNat, n < 2 ^ 8 := by
    intro xs n hn
    obtain ⟨c, -, rfl⟩ := List.mem_map.mp hn
    exact c.toNat_lt
  refine List.map_injective_iff.mpr (fun _ _ => UInt8.toNat_inj.mp) ?_
  exact eq_of_flatMap_bitString (hbyte _) (hbyte _)
    (by rw [List.length_map, List.length_map, hlen]) hsame

/-- **The decoder is exact at every length.** It writes the first whole bytes of the bits of the
characters that belong to the alphabet, although its register overflows; between two characters
fewer than eight bits are left in it; and it undoes the encoding, padded or not. -/
theorem base64UrlDecode_exact (s : List UInt8) :
    (base64UrlDecode s).length = 6 * (values s).length / 8 ∧
      ((base64UrlDecode s).map UInt8.toNat).flatMap (bitString 8) =
        ((values s).flatMap (bitString 6)).take (8 * (6 * (values s).length / 8)) ∧
      (∀ n, (register (s.take n)).bits.toNat < 8) ∧
      ∀ padded data, base64UrlDecode (encode padded data) = data :=
  ⟨length_base64UrlDecode s, flatMap_base64UrlDecode s, fun n => (inv_register (s.take n)).bits_lt,
    base64UrlDecode_encode⟩

end Jwt
end SepLab
