import SepLab.Lib.IpParser

/-!
# Classifying an address before connecting to it

The resolve-and-pin check of the server-side request forgery lab, in Rust, C++
and Node.js: a host name is looked up and brought into one form, and the form is
judged.  The Rust program parses the address, the other two compare the text of an
IPv6 address.

A text is the list of its characters.

## Main definitions

* `fakeDns`, `resolve` — the names of the lab.
* `Rust.canonicalIp`, `Rust.isDenied` — `main.rs`.
* `Cpp.canonicalIp`, `Cpp.isDenied` — `ssrf.cpp`, with the conversions of the C library it uses.
* `Node.canonicalIP`, `Node.isDenied` — `ssrf.js`.
-/

namespace SepLab
namespace Ssrf

open Digits Ip

/-! ### Names -/

/-- `FAKE_DNS`, the same table in every program. -/
def fakeDns : List (List Char × List Char) :=
  [("internal-admin".toList, "10.7.0.10".toList), ("metadata".toList, "10.7.0.169".toList),
    ("allowed.test".toList, "93.184.216.34".toList),
    ("a.rebind.lab.test".toList, "10.7.0.10".toList), ("localhost".toList, "127.0.0.1".toList)]

/-- The address of a known name; another host stands for itself. -/
def resolve (host : List Char) : List Char := (fakeDns.lookup host).getD host

/-- A text of decimal digits. -/
def allDigits (s : List Char) : Bool := !s.isEmpty && s.all (isDigit 10)

/-! ### Rust -/

namespace Rust

/-- `Ipv4Addr::is_private`. -/
def isPrivate (a : Ipv4Addr) : Bool :=
  a.octet 0 == 10 || (a.octet 0 == 172 && 16 ≤ a.octet 1 && a.octet 1 ≤ 31) ||
    (a.octet 0 == 192 && a.octet 1 == 168)

/-- `Ipv4Addr::is_link_local`. -/
def isLinkLocal (a : Ipv4Addr) : Bool := a.octet 0 == 169 && a.octet 1 == 254

/-- The address of `host`, `none` when there is none: `parse::<u32>` fails beyond 32 bits. -/
def canonicalIp (host : List Char) : Option (List Char) :=
  let host := resolve host
  if allDigits host then
    if number 10 host < 2 ^ 32 then some (Ipv4Addr.ofNat (number 10 host)).dotted else none
  else if (parseIpv4 host).isSome ∨ ':' ∈ host then some host
  else none

/-- `is_denied` of Rust. -/
def isDenied (ip : List Char) : Bool :=
  match parseIpv4 ip with
  | some v4 =>
    isPrivate v4 || v4.octet 0 == 127 || isLinkLocal v4 || v4.toNat == 0 || v4.octet 0 == 0
  | none =>
    match parseIpv6 ip with
    | some v6 =>
      -- `is_loopback`, `is_unspecified`
      if v6.toNat == 1 || v6.toNat == 0 then true
      else
        let s := v6.segment 0
        s &&& 0xffc0 == 0xfe80 || s &&& 0xfe00 == 0xfc00
    | none => true

end Rust

/-! ### C++ -/

namespace Cpp

/-- `isspace` in the C locale. -/
def isSpace (c : Char) : Bool := c.toNat == 32 || (9 ≤ c.toNat && c.toNat ≤ 13)

/-- `strtoul` on digits: the largest `unsigned long` when the number is larger. -/
def strtoul (s : List Char) : ℕ := min (number 10 s) (2 ^ 64 - 1)

/-- The sign in front of a number. -/
def scanSign : List Char → Bool × List Char
  | '-' :: s => (true, s)
  | '+' :: s => (false, s)
  | s => (false, s)

/-- A `long`, as `strtol` gives it, put into an `int`. -/
def toInt (v : ℤ) : ℤ := Int.bmod (max (-2 ^ 63) (min v (2 ^ 63 - 1))) (2 ^ 32)

/-- The conversion `%d`: spaces, a sign and digits. -/
def scanInt (s : List Char) : Option (ℤ × List Char) :=
  let (negative, s) := scanSign (s.dropWhile isSpace)
  let ds := s.takeWhile (isDigit 10)
  if ds.isEmpty then none
  else
    let v : ℤ := number 10 ds
    some (toInt (if negative then -v else v), s.dropWhile (isDigit 10))

/-- `n` conversions with dots between them; what was converted before the text
stopped matching. -/
def scanDotted : ℕ → List Char → List ℤ
  | 0, _ => []
  | n + 1, s =>
    match scanInt s with
    | none => []
    | some (v, s) =>
      match s with
      | '.' :: s => v :: scanDotted n s
      | _ => [v]

/-- `tolower` on each character. -/
def toLower (s : List Char) : List Char := s.map Char.toLower

/-- The address of `host`, empty when there is none. -/
def canonicalIp (host : List Char) : List Char :=
  let host := resolve host
  if allDigits host then (Ipv4Addr.ofNat (strtoul host % 2 ^ 32)).dotted
  else if ':' ∈ host then host
  else if host.count '.' = 3 then host
  else []

/-- `is_denied` of C++. -/
def isDenied (ip : List Char) : Bool :=
  if ':' ∈ ip then
    let l := toLower ip
    l == "::1".toList || l == "::".toList || "fe80".toList.isPrefixOf l ||
      "fc".toList.isPrefixOf l || "fd".toList.isPrefixOf l
  else
    match scanDotted 4 ip with
    | [a, b, _, _] =>
      a == 127 || a == 10 || a == 0 || (a == 172 && 16 ≤ b && b ≤ 31) ||
        (a == 192 && b == 168) || (a == 169 && b == 254)
    | _ => true

end Cpp

/-! ### Node.js -/

namespace Node

/-- The number of type `double` nearest to `n`, ties to even; `none` is `Infinity`. -/
def toDouble (n : ℕ) : Option ℕ :=
  if n < 2 ^ 53 then some n
  else
    let ulp := 2 ^ (Nat.log2 n - 52)
    let down := n / ulp
    let up := if 2 * (n % ulp) > ulp ∨ (2 * (n % ulp) = ulp ∧ down % 2 = 1) then 1 else 0
    if (down + up) * ulp < 2 ^ 1024 then some ((down + up) * ulp) else none

/-- `Number` of a text that is empty or has digits only; `none` is `NaN` or `Infinity`. -/
def toNumber (s : List Char) : Option ℕ :=
  if s.isEmpty then some 0 else if allDigits s then toDouble (number 10 s) else none

/-- `/^\d+\.\d+\.\d+\.\d+$/`. -/
def isDotted (s : List Char) : Bool :=
  match s.splitOn '.' with
  | [a, b, c, d] => allDigits a && allDigits b && allDigits c && allDigits d
  | _ => false

/-- The address of `host`, `none` when there is none. -/
def canonicalIP (host : List Char) : Option (List Char) :=
  let host := resolve host
  if allDigits host then some (Ipv4Addr.ofNat ((toNumber host).getD 0 % 2 ^ 32)).dotted
  else if isDotted host ∨ ':' ∈ host then some host
  else none

/-- `isDenied` of what `canonicalIP` returns. -/
def isDenied (ip : List Char) : Bool :=
  if ':' ∈ ip then
    let l := ip.map Char.toLower
    l == "::1".toList || l == "::".toList || "fe80".toList.isPrefixOf l ||
      "fc".toList.isPrefixOf l || "fd".toList.isPrefixOf l
  else
    let numbers := (ip.splitOn '.').map toNumber
    match numbers with
    | some a :: some b :: _ =>
      a == 127 || a == 10 || a == 0 || (a == 172 && 16 ≤ b && b ≤ 31) ||
        (a == 192 && b == 168) || (a == 169 && b == 254)
    | some a :: _ => a == 127 || a == 10 || a == 0
    | _ => false

end Node

example : Rust.isDenied "127.0.0.1".toList = true := by decide

example : (Cpp.canonicalIp "2130706433".toList, Cpp.isDenied "127.0.0.1".toList) =
    ("127.0.0.1".toList, true) := by decide

example : Node.canonicalIP "0".toList = some "0.0.0.0".toList := by decide

end Ssrf
end SepLab
