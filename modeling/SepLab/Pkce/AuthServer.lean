import Mathlib.Algebra.Order.Ring.Unbundled.Rat
import Mathlib.Logic.Function.Basic
import SepLab.Lib.Transition

/-!
# The authorization server of the PKCE lab

`AuthServer` of `pkce_flow.py`: `/authorize` stores a record under a fresh code, and
`/token` redeems a code after its checks, in the order of the source.  The clock is the
attribute `now`, which the runs move forward.  Around the server is the list of what it
answered to whom; the server itself does not see who calls.

`secrets.token_urlsafe`, `secrets.token_hex` and `s256` are parameters: the streams of
the strings drawn, and the hash.

## Main definitions

* `AuthServer.authorize`, `AuthServer.token` — the two endpoints.
* `Call`, `World`, `World.step` — calls of any parties and the answers given so far.
* `Accepts` — the checks a token call has to pass.
* `World.Inv` — what ties the answers to the stored records.

## Main results

* `AuthServer.token_cases` — a token call is accepted, or leaves the server as it is.
* `World.Inv.reach` — the invariant holds in every reachable world.
-/

namespace SepLab.Pkce

/-- `pkce_mode`. -/
inductive PkceMode
  | required
  | optional
  | off
deriving DecidableEq, Repr

/-- `redirect_match`: `"exact"`, or `"prefix"`. -/
inductive RedirectMatch
  | exact
  | startsWith
deriving DecidableEq, Repr

/-- The arguments of `AuthServer(...)` with their defaults, and the registered redirect. -/
structure Config where
  pkceMode : PkceMode := .required
  codeTtl : ℚ := 60
  singleUse : Bool := true
  redirectMatch : RedirectMatch := .exact
  registeredRedirect : String := "https://app.test/cb"

/-- The record stored under a code. -/
structure Rec where
  challenge : Option String
  method : String
  redirectUri : String
  issuedAt : ℚ
  used : Bool
deriving DecidableEq, Repr

/-- The state of the server: its codes and its clock, and how many strings it has drawn
from `secrets.token_urlsafe` and `secrets.token_hex`. -/
structure AuthServer (Code : Type*) where
  codes : Code → Option Rec
  now : ℚ
  codesDrawn : ℕ
  tokensDrawn : ℕ

/-- What an endpoint of the lab answers: a status and a token, or the exception it raises. -/
abbrev Answer := Except String (ℕ × Option String)

variable {ι Code : Type*} [DecidableEq Code]
variable (cfg : Config) (s256 : String → String)
variable (tokenUrlsafe : ℕ → Code) (tokenHex : ℕ → String)

/-- `AuthServer.__init__`. -/
def AuthServer.init : AuthServer Code :=
  { codes := fun _ => none, now := 0, codesDrawn := 0, tokensDrawn := 0 }

/-- `authorize`: the code and the state of the redirect. -/
def AuthServer.authorize (a : AuthServer Code) (redirectUri state : String)
    (codeChallenge : Option String := none) (method : String := "S256") :
    AuthServer Code × Code × String :=
  let code := tokenUrlsafe a.codesDrawn
  let rec' : Rec :=
    { challenge := codeChallenge, method := method, redirectUri := redirectUri,
      issuedAt := a.now, used := false }
  ({ a with codes := Function.update a.codes code (some rec'),
            codesDrawn := a.codesDrawn + 1 }, code, state)

/-- `_redirect_ok`; `startswith` of the default `None` raises. -/
def redirectOk (presented : Option String) : Except String Bool :=
  match cfg.redirectMatch, presented with
  | .exact, _ => .ok (presented == some cfg.registeredRedirect)
  | .startsWith, none => .error "AttributeError"
  | .startsWith, some uri => .ok (cfg.registeredRedirect.toList.isPrefixOf uri.toList)

/-- Whether Python takes an optional string for true. -/
def truthy (x : Option String) : Bool :=
  match x with
  | none => false
  | some v => v != ""

/-- The guard of the PKCE verification. -/
def verifiesPkce (r : Rec) : Bool :=
  cfg.pkceMode == .required || (cfg.pkceMode == .optional && truthy r.challenge)

/-- `got`: what is compared with the stored challenge. -/
def got (r : Rec) (codeVerifier : String) : String :=
  if r.method = "S256" then s256 codeVerifier else codeVerifier

/-- The PKCE verification: absent and empty verifiers are refused before the comparison. -/
def pkceOk (r : Rec) (codeVerifier : Option String) : Bool :=
  if verifiesPkce cfg r then
    match codeVerifier with
    | none => false
    | some v => if v = "" then false else some (got s256 r v) == r.challenge
  else
    true

/-- `token`: the checks in the order of the source, then the code is used. -/
def AuthServer.token (a : AuthServer Code) (code : Code) (codeVerifier : Option String := none)
    (redirectUri : Option String := none) : AuthServer Code × Answer :=
  match a.codes code with
  | none => (a, .ok (400, none))
  | some r =>
    if a.now - r.issuedAt > cfg.codeTtl then
      (a, .ok (400, none))
    else if r.used && cfg.singleUse then
      (a, .ok (400, none))
    else
      match redirectOk cfg redirectUri with
      | .error e => (a, .error e)
      | .ok false => (a, .ok (400, none))
      | .ok true =>
        if pkceOk cfg s256 r codeVerifier then
          ({ a with codes := Function.update a.codes code (some { r with used := true }),
                    tokensDrawn := a.tokensDrawn + 1 },
            .ok (200, some ("access-token-" ++ tokenHex a.tokensDrawn)))
        else
          (a, .ok (400, none))

/-! ### The checks of a token call -/

/-- The checks that a token call for the record `r` has to pass. -/
structure Accepts (now : ℚ) (r : Rec) (codeVerifier redirectUri : Option String) : Prop where
  ttl : now - r.issuedAt ≤ cfg.codeTtl
  unused : (r.used && cfg.singleUse) = false
  redirect : redirectOk cfg redirectUri = .ok true
  pkce : pkceOk cfg s256 r codeVerifier = true

/-- **A token call is accepted, or it leaves the server as it is.** -/
theorem AuthServer.token_cases (a : AuthServer Code) (code : Code)
    (codeVerifier redirectUri : Option String) :
    (∃ r, a.codes code = some r ∧ Accepts cfg s256 a.now r codeVerifier redirectUri ∧
      a.token cfg s256 tokenHex code codeVerifier redirectUri =
        ({ a with codes := Function.update a.codes code (some { r with used := true }),
                  tokensDrawn := a.tokensDrawn + 1 },
          .ok (200, some ("access-token-" ++ tokenHex a.tokensDrawn)))) ∨
    ((∀ r, a.codes code = some r → ¬ Accepts cfg s256 a.now r codeVerifier redirectUri) ∧
      (a.token cfg s256 tokenHex code codeVerifier redirectUri).1 = a ∧
      ∀ t, (a.token cfg s256 tokenHex code codeVerifier redirectUri).2 ≠ .ok (200, t)) := by
  unfold AuthServer.token
  split
  · next hnone => exact .inr ⟨by simp [hnone], rfl, by simp⟩
  · next r hr =>
    have hrefuse : ∀ x : Answer, (¬ Accepts cfg s256 a.now r codeVerifier redirectUri) →
        (∀ t, x ≠ .ok (200, t)) →
        (∀ r', a.codes code = some r' → ¬ Accepts cfg s256 a.now r' codeVerifier redirectUri) ∧
          (a, x).1 = a ∧ ∀ t, (a, x).2 ≠ .ok (200, t) := by
      intro x hnot hx
      refine ⟨?_, rfl, hx⟩
      intro r' hr'
      rw [hr, Option.some_inj] at hr'
      exact hr' ▸ hnot
    split
    · next hlate => exact .inr (hrefuse _ (fun h => absurd h.ttl (not_le.mpr hlate)) (by simp))
    · next hlate =>
      split
      · next hused => exact .inr (hrefuse _ (fun h => by simp [h.unused] at hused) (by simp))
      · next hused =>
        split
        · next e he => exact .inr (hrefuse _ (fun h => by simp [h.redirect] at he) (by simp))
        · next he => exact .inr (hrefuse _ (fun h => by simp [h.redirect] at he) (by simp))
        · next hredirect =>
          split
          · next hpkce =>
            exact .inl ⟨r, hr, ⟨not_lt.mp hlate, by simpa using hused, hredirect, hpkce⟩, rfl⟩
          · next hpkce => exact .inr (hrefuse _ (fun h => hpkce h.pkce) (by simp))

/-! ### Calls and answers -/

/-- A call of a party, or the clock going forward. -/
inductive Call (ι Code : Type*)
  | authorize (party : ι) (redirectUri state : String) (codeChallenge : Option String)
      (method : String)
  | token (party : ι) (code : Code) (codeVerifier redirectUri : Option String)
  | clock (now : ℚ)

/-- A token that was issued: to whom, for which call, and when. -/
structure Grant (ι Code : Type*) where
  party : ι
  code : Code
  codeVerifier : Option String
  redirectUri : Option String
  time : ℚ
  token : Option String

/-- What the server has answered: a code with the record stored for it, a token, or a
refusal. -/
inductive Event (ι Code : Type*)
  | authorized (party : ι) (code : Code) (state : String) (stored : Rec)
  | granted (g : Grant ι Code)
  | refused (party : ι) (code : Code) (answer : Answer)

/-- The server and its answers so far, in order. -/
structure World (ι Code : Type*) where
  server : AuthServer Code
  log : List (Event ι Code)

/-- The record that `authorize` stores. -/
def stored (now : ℚ) (redirectUri : String) (codeChallenge : Option String) (method : String) :
    Rec :=
  { challenge := codeChallenge, method := method, redirectUri := redirectUri, issuedAt := now,
    used := false }

/-- The entry of the log for the answer to a token call. -/
def Event.ofAnswer (party : ι) (code : Code) (codeVerifier redirectUri : Option String)
    (time : ℚ) (answer : Answer) : Event ι Code :=
  match answer with
  | .ok (200, token) => .granted ⟨party, code, codeVerifier, redirectUri, time, token⟩
  | answer => .refused party code answer

omit [DecidableEq Code] in
/-- An answer without a token is a refusal. -/
theorem Event.ofAnswer_of_ne (party : ι) (code : Code) (codeVerifier redirectUri : Option String)
    (time : ℚ) {answer : Answer} (h : ∀ t, answer ≠ .ok (200, t)) :
    Event.ofAnswer party code codeVerifier redirectUri time answer
      = .refused party code answer := by
  unfold Event.ofAnswer
  split
  · next t => exact absurd rfl (h t)
  · rfl

/-- One call. -/
def World.step (w : World ι Code) : Call ι Code → Option (World ι Code)
  | .authorize party redirectUri state codeChallenge method =>
    let r := w.server.authorize tokenUrlsafe redirectUri state codeChallenge method
    some { server := r.1
           log := w.log ++ [.authorized party r.2.1 r.2.2
             (stored w.server.now redirectUri codeChallenge method)] }
  | .token party code codeVerifier redirectUri =>
    let r := w.server.token cfg s256 tokenHex code codeVerifier redirectUri
    some { server := r.1
           log := w.log ++ [.ofAnswer party code codeVerifier redirectUri w.server.now r.2] }
  | .clock now =>
    if w.server.now ≤ now then some { w with server := { w.server with now := now } } else none

/-- Nobody has called yet. -/
def World.init : World ι Code := { server := .init, log := [] }

/-! ### The invariant -/

/-- The entry is a token for the code. -/
def Event.grantOf (code : Code) : Event ι Code → Bool
  | .granted g => g.code == code
  | _ => false

/-- How often a code has been used, as its record has it. -/
def AuthServer.uses (a : AuthServer Code) (code : Code) : ℕ :=
  match a.codes code with
  | none => 0
  | some r => r.used.toNat

/-- What ties the answers of the server to its records. -/
structure World.Inv (w : World ι Code) : Prop where
  drawn : ∀ code r, w.server.codes code = some r → ∃ i < w.server.codesDrawn, tokenUrlsafe i = code
  past : ∀ code r, w.server.codes code = some r → r.issuedAt ≤ w.server.now
  authorized : ∀ party code state r, .authorized party code state r ∈ w.log →
    r.used = false ∧ ∃ used, w.server.codes code = some { r with used := used }
  recorded : ∀ code r, w.server.codes code = some r →
    ∃ party state, .authorized party code state { r with used := false } ∈ w.log
  granted : ∀ before g after, w.log = before ++ .granted g :: after →
    ∃ party state r, .authorized party g.code state r ∈ before ∧ r.issuedAt ≤ g.time ∧
      Accepts cfg s256 g.time r g.codeVerifier g.redirectUri
  once : cfg.singleUse = true → ∀ code, w.log.countP (Event.grantOf code) ≤ w.server.uses code

namespace World.Inv

variable {cfg s256 tokenUrlsafe} {w : World ι Code}

theorem init : World.Inv cfg s256 tokenUrlsafe (World.init : World ι Code) where
  drawn _ _ h := by simp [World.init, AuthServer.init] at h
  past _ _ h := by simp [World.init, AuthServer.init] at h
  authorized _ _ _ _ h := by simp [World.init] at h
  recorded _ _ h := by simp [World.init, AuthServer.init] at h
  granted _ _ _ h := by simp [World.init] at h
  once _ _ := by simp [World.init]

omit [DecidableEq Code] in
/-- The tokens in a log with one more entry, where that entry is none. -/
private theorem granted_concat {log : List (Event ι Code)} {e : Event ι Code}
    {P : List (Event ι Code) → Grant ι Code → Prop}
    (h : ∀ before g after, log = before ++ .granted g :: after → P before g)
    (he : ∀ g, e = .granted g → P log g) :
    ∀ before g after, log ++ [e] = before ++ .granted g :: after → P before g := by
  intro before g after heq
  rcases List.eq_nil_or_concat after with rfl | ⟨after', x, rfl⟩
  · obtain ⟨rfl, hg⟩ := List.append_inj' heq rfl
    exact he g (List.singleton_inj.mp hg)
  · rw [List.concat_eq_append, ← List.cons_append, ← List.append_assoc] at heq
    exact h before g after' (List.append_inj' heq rfl).1

/-- A code drawn now is not among the codes yet. -/
theorem fresh (hfresh : Function.Injective tokenUrlsafe) (h : w.Inv cfg s256 tokenUrlsafe) :
    w.server.codes (tokenUrlsafe w.server.codesDrawn) = none := by
  cases hr : w.server.codes (tokenUrlsafe w.server.codesDrawn) with
  | none => rfl
  | some r =>
    obtain ⟨i, hi, heq⟩ := h.drawn _ r hr
    exact absurd (hfresh heq) (Nat.ne_of_lt hi)

theorem authorize (hfresh : Function.Injective tokenUrlsafe) (h : w.Inv cfg s256 tokenUrlsafe)
    (party : ι) (redirectUri state : String) (codeChallenge : Option String) (method : String) :
    World.Inv cfg s256 tokenUrlsafe
      { server := (w.server.authorize tokenUrlsafe redirectUri state codeChallenge method).1
        log := w.log ++ [.authorized party (tokenUrlsafe w.server.codesDrawn) state
          (stored w.server.now redirectUri codeChallenge method)] } := by
  have hnew := h.fresh hfresh
  constructor <;> dsimp only [AuthServer.authorize]
  · intro code r hr
    -- the new code, or one drawn before
    by_cases hcode : code = tokenUrlsafe w.server.codesDrawn
    · exact ⟨_, Nat.lt_succ_self _, hcode.symm⟩
    · rw [Function.update_of_ne hcode] at hr
      obtain ⟨i, hi, heq⟩ := h.drawn code r hr
      exact ⟨i, Nat.lt_succ_of_lt hi, heq⟩
  · intro code r hr
    by_cases hcode : code = tokenUrlsafe w.server.codesDrawn
    · rw [hcode, Function.update_self, Option.some_inj] at hr
      exact hr ▸ le_refl _
    · rw [Function.update_of_ne hcode] at hr
      exact h.past code r hr
  · intro p code st r hmem
    rcases List.mem_append.mp hmem with hmem | hmem
    · obtain ⟨hused, used, hr⟩ := h.authorized p code st r hmem
      refine ⟨hused, used, ?_⟩
      rw [Function.update_of_ne, hr]
      rintro rfl
      simp [hnew] at hr
    · rw [List.mem_singleton, Event.authorized.injEq] at hmem
      obtain ⟨-, rfl, -, rfl⟩ := hmem
      exact ⟨rfl, false, Function.update_self ..⟩
  · intro code r hr
    by_cases hcode : code = tokenUrlsafe w.server.codesDrawn
    · subst hcode
      rw [Function.update_self, Option.some_inj] at hr
      subst hr
      exact ⟨party, state, List.mem_append_right _ (List.mem_singleton.mpr rfl)⟩
    · rw [Function.update_of_ne hcode] at hr
      obtain ⟨p, st, hmem⟩ := h.recorded code r hr
      exact ⟨p, st, List.mem_append_left _ hmem⟩
  · exact granted_concat h.granted (by simp)
  · intro hsingle code
    rw [List.countP_append]
    have hold := h.once hsingle code
    -- the new code has not been redeemed, and the others' counts stay
    by_cases hcode : code = tokenUrlsafe w.server.codesDrawn
    · subst hcode
      rw [AuthServer.uses, hnew] at hold
      rw [Nat.le_zero.mp hold]
      simp [Event.grantOf]
    · simpa [Event.grantOf, AuthServer.uses, Function.update_of_ne hcode] using hold

/-- A refusal is only written down. -/
theorem refused (h : w.Inv cfg s256 tokenUrlsafe) (party : ι) (code : Code) (answer : Answer) :
    World.Inv cfg s256 tokenUrlsafe { w with log := w.log ++ [.refused party code answer] } where
  drawn := h.drawn
  past := h.past
  authorized p c st r hmem := by
    refine h.authorized p c st r ?_
    simpa using hmem
  recorded c r hr := by
    obtain ⟨p, st, hmem⟩ := h.recorded c r hr
    exact ⟨p, st, List.mem_append_left _ hmem⟩
  granted := granted_concat h.granted (by simp)
  once hsingle c := by
    simpa [Event.grantOf] using h.once hsingle c

/-- An accepted call uses its code. -/
theorem grant (h : w.Inv cfg s256 tokenUrlsafe) (party : ι) (code : Code)
    (codeVerifier redirectUri token : Option String) {r : Rec}
    (hr : w.server.codes code = some r)
    (hacc : Accepts cfg s256 w.server.now r codeVerifier redirectUri) (tokensDrawn : ℕ) :
    World.Inv cfg s256 tokenUrlsafe
      { server := { w.server with
          codes := Function.update w.server.codes code (some { r with used := true })
          tokensDrawn := tokensDrawn }
        log := w.log ++
          [.granted ⟨party, code, codeVerifier, redirectUri, w.server.now, token⟩] } := by
  -- only the mark of the record changes
  have hcodes : ∀ c r', Function.update w.server.codes code (some { r with used := true }) c
      = some r' → ∃ used, w.server.codes c = some { r' with used := used } := by
    intro c r' hr'
    by_cases hc : c = code
    · rw [hc, Function.update_self, Option.some_inj] at hr'
      exact ⟨r.used, by rw [hc, hr, ← hr']⟩
    · rw [Function.update_of_ne hc] at hr'
      exact ⟨r'.used, hr'⟩
  constructor <;> dsimp only
  · intro c r' hr'
    obtain ⟨used, hold⟩ := hcodes c r' hr'
    exact h.drawn c _ hold
  · intro c r' hr'
    obtain ⟨used, hold⟩ := hcodes c r' hr'
    have hpast := h.past c _ hold
    exact hpast
  · intro p c st r' hmem
    obtain ⟨hused, used, hold⟩ := h.authorized p c st r' (by simpa using hmem)
    refine ⟨hused, ?_⟩
    by_cases hc : c = code
    · subst hc
      rw [hr, Option.some_inj] at hold
      exact ⟨true, by rw [Function.update_self, hold]⟩
    · exact ⟨used, by rw [Function.update_of_ne hc, hold]⟩
  · intro c r' hr'
    obtain ⟨used, hold⟩ := hcodes c r' hr'
    obtain ⟨p, st, hmem⟩ := h.recorded c _ hold
    exact ⟨p, st, List.mem_append_left _ hmem⟩
  · apply granted_concat h.granted
    intro g hg
    obtain rfl := Event.granted.inj hg
    obtain ⟨p, st, hmem⟩ := h.recorded code r hr
    exact ⟨p, st, _, hmem, h.past code r hr, hacc.ttl, rfl, hacc.redirect, hacc.pkce⟩
  · intro hsingle c
    rw [List.countP_append]
    have hold := h.once hsingle c
    by_cases hc : c = code
    · subst hc
      -- the checks have seen the code unused
      have hused : r.used = false := by simpa [hsingle] using hacc.unused
      rw [AuthServer.uses, hr] at hold
      simp only [hused, Bool.toNat_false, Nat.le_zero] at hold
      rw [hold]
      simp [Event.grantOf, AuthServer.uses]
    · simpa [Event.grantOf, AuthServer.uses, Function.update_of_ne hc, Ne.symm hc] using hold

theorem clock (h : w.Inv cfg s256 tokenUrlsafe) {now : ℚ} (hnow : w.server.now ≤ now) :
    World.Inv cfg s256 tokenUrlsafe { w with server := { w.server with now := now } } :=
  { h with past := fun code r hr => (h.past code r hr).trans hnow }

/-- **Every call keeps the invariant.** -/
theorem step (hfresh : Function.Injective tokenUrlsafe) (h : w.Inv cfg s256 tokenUrlsafe)
    {c : Call ι Code} {w' : World ι Code}
    (hstep : w.step cfg s256 tokenUrlsafe tokenHex c = some w') :
    w'.Inv cfg s256 tokenUrlsafe := by
  cases c with
  | authorize party redirectUri state codeChallenge method =>
    obtain rfl := Option.some_inj.mp hstep
    exact h.authorize hfresh party redirectUri state codeChallenge method
  | token party code codeVerifier redirectUri =>
    obtain rfl := Option.some_inj.mp hstep
    -- the request passes every check, or is answered without a change
    rcases w.server.token_cases cfg s256 tokenHex code codeVerifier redirectUri with
      ⟨r, hr, hacc, heq⟩ | ⟨-, hsame, hans⟩
    · rw [heq]
      exact h.grant party code codeVerifier redirectUri _ hr hacc _
    · rw [hsame, Event.ofAnswer_of_ne _ _ _ _ _ hans]
      exact h.refused party code _
  | clock now =>
    simp only [World.step] at hstep
    split at hstep
    · next hnow =>
      obtain rfl := Option.some_inj.mp hstep
      exact h.clock hnow
    · simp at hstep

theorem reach (hfresh : Function.Injective tokenUrlsafe) {w : World ι Code}
    (h : Reach (World.step cfg s256 tokenUrlsafe tokenHex) World.init w) :
    w.Inv cfg s256 tokenUrlsafe :=
  h.invariant init fun _ _ _ hw hs => step tokenHex hfresh hw hs

end World.Inv

end SepLab.Pkce
