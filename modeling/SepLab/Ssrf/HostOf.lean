import SepLab.Lib.Delimited
import SepLab.Ssrf.Classify

/-!
# The host that a URL names

`host_of` cuts the host out of the text of a URL, and the verdict of the
resolve-and-pin check is that of the host.  Both programs let the authority run up
to the next `/`, and cut the user before the last `@` in it; in a URL the authority
ends at a `?` or a `#` as well.

## Main definitions

* `Rust.hostOf`, `Rust.verdict` — `main.rs`.
* `Cpp.hostOf`, `Cpp.verdict` — `ssrf.cpp`.
* `UrlText`, `Authority` — a URL and the host of its authority.
* `NoDecoy` — no other host is named between the authority and the next `/`.

## Main results

* `Cpp.hostOf_eq` — the programs cut out the same host.
* `hostOf_of_decoy`, `hostOf_cases` — which host it is.
* `verdict_block_iff` — **a URL of a denied host is blocked exactly when it has no decoy.**
-/

namespace SepLab
namespace Ssrf

open Digits Ip Delimited

/-- What is said of a URL. -/
inductive Verdict
  | block
  | allow
  deriving DecidableEq, Repr

namespace Rust

/-- `host_of` of Rust. -/
def hostOf (url : List Char) : List Char :=
  let rest := (afterFirst "://".toList url).getD url
  let authority := before '/' rest
  let authority := afterLast '@' authority
  match authority with
  | '[' :: a => before ']' a
  | authority => before ':' authority

/-- The verdict on a host: one without an address is blocked. -/
def judge (host : List Char) : Verdict :=
  match canonicalIp host with
  | none => .block
  | some ip => if isDenied ip then .block else .allow

/-- `verdict` of Rust. -/
def verdict (url : List Char) : Verdict := judge (hostOf url)

end Rust

namespace Cpp

/-- `host_of` of C++. -/
def hostOf (url : List Char) : List Char :=
  let rest :=
    match findText "://".toList url with
    | none => url
    | some p => substr url (p + 3) none
  let authority := substr rest 0 (find '/' rest)
  let authority :=
    match rfind '@' authority with
    | some i => substr authority (i + 1) none
    | none => authority
  if authority.head? = some '[' then
    -- without a `]` this is `npos - 1`, which is beyond the end as well
    let close := find ']' authority
    substr authority 1 (close.map (· - 1))
  else substr authority 0 (find ':' authority)

/-- The verdict on a host: one without an address is blocked. -/
def judge (host : List Char) : Verdict :=
  let ip := canonicalIp host
  if ip.isEmpty then .block else if isDenied ip then .block else .allow

/-- `verdict` of C++. -/
def verdict (url : List Char) : Verdict := judge (hostOf url)

end Cpp

/-! ### URLs -/

/-- An IPv4 address or a name of the lab. -/
inductive PlainHost : List Char → Prop
  | address {t : List Char} {a : Ipv4Addr} (h : a.Text t) : PlainHost t
  | name {t ip : List Char} (h : (t, ip) ∈ fakeDns) : PlainHost t

/-- A host as it stands in an authority: an IPv6 address is in brackets. -/
inductive HostText : List Char → List Char → Prop
  | literal {t : List Char} {a : Ipv6Addr} (h : Ipv6Addr.Text t a) : HostText ('[' :: t ++ [']']) t
  | plain {t : List Char} (h : PlainHost t) : HostText t t

/-- The host of an authority: a user in front of the last `@` and a port after it are
left out. -/
inductive Authority : List Char → List Char → Prop
  | mk {user text host port : List Char} (huser : user = [] ∨ ∃ u, user = u ++ ['@'])
      (hhost : HostText text host)
      (hport : port = [] ∨ ∃ ds, port = ':' :: ds ∧ ∀ c ∈ ds, isDigit 10 c = true) :
      Authority (user ++ text ++ port) host

/-- A scheme, an authority, and what follows from the end of the authority on. -/
structure UrlText (scheme authority rest : List Char) : Prop where
  scheme : ':' ∉ scheme
  authority : '/' ∉ authority ∧ '?' ∉ authority ∧ '#' ∉ authority
  rest : ∀ c ∈ rest.head?, c = '/' ∨ c = '?' ∨ c = '#'

/-- A URL of its three parts. -/
def urlOf (scheme authority rest : List Char) : List Char :=
  scheme ++ ("://".toList ++ (authority ++ rest))

/-- The host part without brackets and port. -/
def bareHost : List Char → List Char
  | '[' :: a => before ']' a
  | authority => before ':' authority

/-- Between the authority and the next `/` there is no `@`, or what stands after the
last one there is blocked itself. -/
def NoDecoy (judge : List Char → Verdict) (rest : List Char) : Prop :=
  '@' ∈ before '/' rest → judge (bareHost (afterLast '@' (before '/' rest))) = .block

example : Rust.hostOf "http://ok.test@10.7.0.10:8000/secrets".toList = "10.7.0.10".toList := by
  decide

/-! ### The host that is cut out -/

theorem Rust.hostOf_eq (url : List Char) :
    hostOf url =
      bareHost (afterLast '@' (before '/' ((afterFirst "://".toList url).getD url))) := rfl

/-- **The programs cut out the same host.** -/
theorem Cpp.hostOf_eq (url : List Char) : hostOf url = Rust.hostOf url := by
  have hrest : (match findText "://".toList url with
      | none => url
      | some p => substr url (p + 3) none) = (afterFirst "://".toList url).getD url := by
    rw [← drop_findText]
    cases findText "://".toList url with
    | none => rfl
    | some p => rfl
  have hlast : ∀ s : List Char, (match rfind '@' s with
      | some i => substr s (i + 1) none
      | none => s) = afterLast '@' s := drop_rfind '@'
  unfold hostOf
  dsimp only
  rw [hrest, substr_find, hlast, Rust.hostOf_eq]
  generalize afterLast '@' (before '/' ((afterFirst "://".toList url).getD url)) = authority
  split
  · next hbracket =>
    obtain ⟨a, rfl⟩ : ∃ a, authority = '[' :: a := by
      cases authority with
      | nil => cases hbracket
      | cons c a => exact ⟨a, by rw [Option.some_inj.mp hbracket]⟩
    have hclose : ((find ']' ('[' :: a)).map (· - 1)) = find ']' a := by
      rw [find_cons_of_ne (by decide), Option.map_map]
      exact Option.map_id'
    rw [hclose, substr_cons, substr_find]
    rfl
  · next hbracket =>
    rw [substr_find]
    unfold bareHost
    split
    · next a => exact absurd rfl hbracket
    · rfl

/-- Both programs look at the authority and what follows up to the next `/`. -/
theorem hostOf_urlOf {scheme authority rest : List Char} (h : UrlText scheme authority rest) :
    Rust.hostOf (urlOf scheme authority rest) =
      bareHost (afterLast '@' (authority ++ before '/' rest)) := by
  have hfirst := afterFirst_append h.scheme "//".toList (authority ++ rest)
  have hurl : afterFirst "://".toList (urlOf scheme authority rest) = some (authority ++ rest) :=
    hfirst
  rw [Rust.hostOf_eq, hurl, Option.getD_some, before_append h.authority.1]

/-- **Behind an `@` stands the host**, wherever it is. -/
theorem hostOf_of_decoy {scheme authority rest : List Char} (h : UrlText scheme authority rest)
    (hat : '@' ∈ before '/' rest) :
    Rust.hostOf (urlOf scheme authority rest) =
      bareHost (afterLast '@' (before '/' rest)) := by
  rw [hostOf_urlOf h, afterLast_append hat]

theorem notMem_of_forall {P : Char → Bool} {s : List Char} {c : Char}
    (h : ∀ d ∈ s, P d = true) (hc : P c = false) : c ∉ s := by
  intro hmem
  rw [h c hmem] at hc
  cases hc

/-- A host that is not in brackets has no delimiter in it. -/
theorem PlainHost.delimiters {host : List Char} (h : PlainHost host) :
    host ≠ [] ∧ '[' ∉ host ∧ ':' ∉ host ∧ '@' ∉ host := by
  cases h with
  | address h =>
    have hchars : ∀ c ∈ host, (isDigit 10 c || c == '.') = true := by simpa using h.chars
    exact ⟨h.ne_nil, notMem_of_forall hchars (by decide), notMem_of_forall hchars (by decide),
      notMem_of_forall hchars (by decide)⟩
  | name h =>
    have hnames : fakeDns.all (fun p => !p.1.isEmpty &&
        p.1.all (fun c => !"[:@".toList.contains c)) = true := by decide
    have hp := List.all_eq_true.mp hnames _ h
    rw [Bool.and_eq_true, List.all_eq_true] at hp
    exact ⟨by simpa using hp.1, notMem_of_forall hp.2 (by decide),
      notMem_of_forall hp.2 (by decide), notMem_of_forall hp.2 (by decide)⟩

/-- What the programs take for more of the authority starts where the authority ends. -/
theorem overread_cases {rest : List Char} (h : ∀ c ∈ rest.head?, c = '/' ∨ c = '?' ∨ c = '#') :
    before '/' rest = [] ∨ ∃ c x, (c = '?' ∨ c = '#') ∧ before '/' rest = c :: x := by
  cases rest with
  | nil => exact Or.inl rfl
  | cons c r =>
    rcases h c rfl with rfl | hc
    · exact Or.inl (before_cons_self _ _)
    · have hslash : c ≠ '/' := by
        rintro rfl
        exact absurd hc (by decide)
      exact Or.inr ⟨c, before '/' r, hc, before_cons_of_ne hslash r⟩

/-- The user in front of an authority is cut off. -/
theorem afterLast_authority {user text : List Char} (huser : user = [] ∨ ∃ u, user = u ++ ['@'])
    (htext : '@' ∉ text) : afterLast '@' (user ++ text) = text := by
  rcases huser with rfl | ⟨u, rfl⟩
  · exact afterLast_of_notMem htext
  · rw [List.append_assoc, List.singleton_append, afterLast_append_cons htext]

/-- Brackets end the host, whatever follows them. -/
theorem bareHost_literal {t : List Char} (h : ']' ∉ t) (s : List Char) :
    bareHost ('[' :: t ++ [']'] ++ s) = t := by
  change before ']' (t ++ [']'] ++ s) = t
  rw [List.append_assoc, before_append h, List.singleton_append, before_cons_self,
    List.append_nil]

/-- Without brackets the host ends at a colon. -/
theorem PlainHost.bareHost_append {host : List Char} (h : PlainHost host) (s : List Char) :
    bareHost (host ++ s) = host ++ before ':' s := by
  obtain ⟨hne, hopen, hcolon, -⟩ := h.delimiters
  obtain ⟨c, cs, rfl⟩ := List.exists_cons_of_ne_nil hne
  rw [← before_append hcolon]
  unfold bareHost
  split
  · next hbracket =>
    rw [List.cons_append] at hbracket
    exact absurd (List.cons.inj hbracket).1 (ne_of_mem_of_not_mem List.mem_cons_self hopen)
  · rfl

theorem at_notMem_port {port : List Char}
    (h : port = [] ∨ ∃ ds, port = ':' :: ds ∧ ∀ c ∈ ds, isDigit 10 c = true) : '@' ∉ port := by
  rcases h with rfl | ⟨ds, rfl, hds⟩
  · simp
  · intro hmem
    rcases List.mem_cons.mp hmem with hmem | hmem
    · exact absurd hmem (by decide)
    · exact absurd (hds '@' hmem) (by decide)

/-- **Where no `@` follows the authority**, the host is that of the authority, or it goes
on with a `?` or a `#`. -/
theorem hostOf_cases {scheme authority rest host : List Char} (h : UrlText scheme authority rest)
    (ha : Authority authority host) (hat : '@' ∉ before '/' rest) :
    Rust.hostOf (urlOf scheme authority rest) = host ∨
      ∃ c x, (c = '?' ∨ c = '#') ∧ ':' ∉ c :: x ∧ PlainHost host ∧
        Rust.hostOf (urlOf scheme authority rest) = host ++ c :: x := by
  rw [hostOf_urlOf h]
  have hmore := overread_cases h.rest
  generalize before '/' rest = more at hat hmore ⊢
  cases ha with
  | @mk user text host port huser hhost hport =>
    have hportAt := at_notMem_port hport
    rw [List.append_assoc, List.append_assoc]
    cases hhost with
    | literal hv6 =>
      have hclose : ']' ∉ host := notMem_of_forall hv6.chars (by decide)
      have hhostAt : '@' ∉ host := notMem_of_forall hv6.chars (by decide)
      have htext : '@' ∉ '[' :: host ++ [']'] ++ (port ++ more) := by
        simp [hhostAt, hportAt, hat]
      left
      rw [afterLast_authority huser htext, bareHost_literal hclose]
    | plain hhost =>
      have htext : '@' ∉ host ++ (port ++ more) := by
        simp [hhost.delimiters.2.2.2, hportAt, hat]
      rw [afterLast_authority huser htext, hhost.bareHost_append]
      rcases hport with rfl | ⟨ds, rfl, -⟩
      · rcases hmore with rfl | ⟨c, x, hc, rfl⟩
        · exact Or.inl (List.append_nil host)
        · have hne : c ≠ ':' := by
            rintro rfl
            exact absurd hc (by decide)
          refine Or.inr ⟨c, before ':' x, hc, ?_, hhost, ?_⟩
          · rw [← before_cons_of_ne hne]
            exact notMem_before ':' (c :: x)
          · rw [List.nil_append, before_cons_of_ne hne]
      · left
        rw [List.cons_append, before_cons_self, List.append_nil]

/-! ### The verdict -/

theorem resolve_of_overread {c : Char} {t : List Char} (hc : c = '?' ∨ c = '#') (h : c ∈ t) :
    resolve t = t := by
  have hkeys : fakeDns.all (fun p => !p.1.contains '?' && !p.1.contains '#') = true := by decide
  refine resolve_of_ne fun p hp => ?_
  have hno := List.all_eq_true.mp hkeys p hp
  rintro rfl
  rcases hc with rfl | rfl
  · simp [h] at hno
  · simp [h] at hno

theorem not_isDigit_of_overread {c : Char} (hc : c = '?' ∨ c = '#') : isDigit 10 c = false := by
  rcases hc with rfl | rfl
  · decide
  · decide

/-- A host with a `?` or a `#` in it has no address. -/
theorem Rust.judge_overread {c : Char} {t : List Char} (hc : c = '?' ∨ c = '#') (h : c ∈ t)
    (hcolon : ':' ∉ t) : judge t = .block := by
  have hparse : parseIpv4 t = none := by
    cases hp : parseIpv4 t with
    | none => rfl
    | some a =>
      rcases parseIpv4_chars hp c h with hd | rfl
      · rw [not_isDigit_of_overread hc] at hd
        cases hd
      · exact absurd hc (by decide)
  unfold judge canonicalIp
  dsimp only
  rw [resolve_of_overread hc h, allDigits_eq_false h (not_isDigit_of_overread hc), hparse,
    if_neg (by simp), if_neg (by simpa using hcolon)]

theorem Cpp.judge_eq_block {host : List Char} :
    judge host = .block ↔ canonicalIp host = [] ∨ isDenied (canonicalIp host) = true := by
  unfold judge
  dsimp only
  split
  · next hnil => exact iff_of_true rfl (Or.inl (List.isEmpty_iff.mp hnil))
  · next hne =>
    rw [List.isEmpty_iff] at hne
    split
    · next hdenied => exact iff_of_true rfl (Or.inr hdenied)
    · next hdenied => exact iff_of_false (by simp) (by simp [hne, hdenied])

/-- A blocked IPv4 address is internal. -/
theorem Cpp.internal_of_judge {a : Ipv4Addr} {t : List Char} (h : a.Text t)
    (hjudge : judge t = .block) : Internal4 a := by
  have hquad := canonicalIp_v4 h
  rcases judge_eq_block.mp hjudge with hnil | hdenied
  · exact absurd hnil hquad.ne_nil
  · rw [← List.append_nil (canonicalIp t)] at hdenied
    exact (isDenied_quad hquad (ends_nil 10) (by simp)).mp hdenied

/-- Fewer than four numbers are denied. -/
theorem Cpp.isDenied_of_short {t : List Char} (hcolon : ':' ∉ t)
    (h : (scanDotted 4 t).length < 4) : isDenied t = true := by
  unfold isDenied
  rw [if_neg hcolon]
  split
  · next heq => simp [heq] at h
  · rfl

/-- A blocked host that goes on with a `?` or a `#` is denied: a quad still has its
numbers, and other hosts have fewer than four. -/
theorem Cpp.isDenied_overread {host x : List Char} {c : Char} (hhost : PlainHost host)
    (hc : c = '?' ∨ c = '#') (hcolon : ':' ∉ host ++ c :: x) (hjudge : judge host = .block) :
    isDenied (host ++ c :: x) = true := by
  have hends : Ends 10 (c :: x) := ends_cons (not_isDigit_of_overread hc) x
  have hx : ':' ∉ c :: x := fun hmem => hcolon (List.mem_append_right host hmem)
  cases hhost with
  | address h =>
    have hi := internal_of_judge h hjudge
    cases h with
    | quad h => exact (isDenied_quad h hends hx).mpr hi
    | decimal h =>
      refine isDenied_of_short hcolon ?_
      unfold scanDotted
      rw [scanInt_numeral h hends]
      rcases hc with rfl | rfl
      · simp
      · simp
  | name h =>
    -- every name starts with a letter
    have hnames : fakeDns.all (fun p => p.1.head?.any fun c =>
        !isSpace c && c != '-' && c != '+' && !isDigit 10 c) = true := by decide
    have hp := List.all_eq_true.mp hnames _ h
    refine isDenied_of_short hcolon ?_
    unfold scanDotted
    cases host with
    | nil => cases hp
    | cons d host =>
      simp only [List.head?_cons, Option.any_some, Bool.and_eq_true, Bool.not_eq_true',
        bne_iff_ne] at hp
      rw [List.cons_append, scanInt_of_plain ⟨hp.1.1.1, hp.1.1.2, hp.1.2⟩ hp.2]
      decide

theorem Cpp.judge_overread {host x : List Char} {c : Char} (hhost : PlainHost host)
    (hc : c = '?' ∨ c = '#') (hcolon : ':' ∉ host ++ c :: x) (hjudge : judge host = .block) :
    judge (host ++ c :: x) = .block := by
  have hmem : c ∈ host ++ c :: x := by simp
  have hcanonical : canonicalIp (host ++ c :: x) =
      if (host ++ c :: x).count '.' = 3 then host ++ c :: x else [] := by
    unfold canonicalIp
    dsimp only
    rw [resolve_of_overread hc hmem, allDigits_eq_false hmem (not_isDigit_of_overread hc),
      if_neg (by simp), if_neg hcolon]
  rw [judge_eq_block, hcanonical]
  split
  · exact Or.inr (isDenied_overread hhost hc hcolon hjudge)
  · exact Or.inl rfl

/-- **A URL of a denied host is blocked exactly when it has no decoy**, in either program. -/
theorem verdict_block_iff {scheme authority rest host : List Char}
    (h : UrlText scheme authority rest) (ha : Authority authority host) :
    (Rust.judge host = .block →
      (Rust.verdict (urlOf scheme authority rest) = .block ↔ NoDecoy Rust.judge rest)) ∧
    (Cpp.judge host = .block →
      (Cpp.verdict (urlOf scheme authority rest) = .block ↔ NoDecoy Cpp.judge rest)) := by
  unfold Rust.verdict Cpp.verdict NoDecoy
  rw [Cpp.hostOf_eq]
  by_cases hat : '@' ∈ before '/' rest
  · rw [hostOf_of_decoy h hat]
    exact ⟨fun _ => ⟨fun hv _ => hv, fun hv => hv hat⟩, fun _ => ⟨fun hv _ => hv, fun hv => hv hat⟩⟩
  · have hvacuous : ∀ {P Q : Prop}, P → (P ↔ ('@' ∈ before '/' rest → Q)) := fun hp =>
      iff_of_true hp fun hmem => absurd hmem hat
    rcases hostOf_cases h ha hat with heq | ⟨c, x, hc, hcolon, hhost, heq⟩
    · rw [heq]
      exact ⟨hvacuous, hvacuous⟩
    · have hmem : c ∈ host ++ c :: x := by simp
      have hno : ':' ∉ host ++ c :: x := by
        rw [List.mem_append]
        exact not_or.mpr ⟨hhost.delimiters.2.2.1, hcolon⟩
      rw [heq]
      exact ⟨fun _ => hvacuous (Rust.judge_overread hc hmem hno),
        fun hj => hvacuous (Cpp.judge_overread hhost hc hno hj)⟩

/-- The address of `internal-admin` as a host. -/
theorem hostText_internal_admin : HostText "10.7.0.10".toList "10.7.0.10".toList := by
  have hquad : (Ipv4Addr.ofOctets [10, 7, 0, 10]).Quad "10.7.0.10".toList :=
    .mk (p := ['1', '0']) (q := ['7']) (r := ['0']) (s := ['1', '0']) (by decide) (by decide)
      (by decide) (by decide)
  exact .plain (.address (.quad hquad))

/-- A user, a port, and a query with a path in it. -/
theorem verdict_block_query :
    Rust.verdict "http://ok.test@10.7.0.10:8000?next=/secrets".toList = .block ∧
      Cpp.verdict "http://ok.test@10.7.0.10:8000?next=/secrets".toList = .block := by
  have hurl : UrlText "http".toList "ok.test@10.7.0.10:8000".toList "?next=/secrets".toList :=
    ⟨by decide, by decide, fun c hc => Or.inr (Or.inl (Option.some_inj.mp hc).symm)⟩
  have hauth : Authority "ok.test@10.7.0.10:8000".toList "10.7.0.10".toList :=
    .mk (Or.inr ⟨"ok.test".toList, rfl⟩) hostText_internal_admin
      (Or.inr ⟨"8000".toList, rfl, List.all_eq_true.mp (by decide)⟩)
  have htext : urlOf "http".toList "ok.test@10.7.0.10:8000".toList "?next=/secrets".toList =
      "http://ok.test@10.7.0.10:8000?next=/secrets".toList := by decide
  obtain ⟨hrust, hcpp⟩ := verdict_block_iff hurl hauth
  rw [htext] at hrust hcpp
  have hno : ∀ judge, NoDecoy judge "?next=/secrets".toList := fun judge hat =>
    absurd hat (by decide)
  exact ⟨(hrust (by decide)).mpr (hno _), (hcpp (by decide)).mpr (hno _)⟩

/-- The programs judge `93.184.216.34`, which stands in the query; the host is `10.7.0.10`. -/
theorem verdict_allow_decoy :
    UrlText "http".toList "10.7.0.10".toList "?@93.184.216.34/".toList ∧
      Authority "10.7.0.10".toList "10.7.0.10".toList ∧
      Rust.judge "10.7.0.10".toList = .block ∧ Cpp.judge "10.7.0.10".toList = .block ∧
      Rust.verdict "http://10.7.0.10?@93.184.216.34/".toList = .allow ∧
      Cpp.verdict "http://10.7.0.10?@93.184.216.34/".toList = .allow := by
  refine ⟨⟨by decide, by decide, ?_⟩, ?_, by decide, by decide, by decide, by decide⟩
  · exact fun c hc => Or.inr (Or.inl (Option.some_inj.mp hc).symm)
  · have hauth : Authority ([] ++ "10.7.0.10".toList ++ []) "10.7.0.10".toList :=
      .mk (Or.inl rfl) hostText_internal_admin (Or.inl rfl)
    exact hauth

end Ssrf
end SepLab
