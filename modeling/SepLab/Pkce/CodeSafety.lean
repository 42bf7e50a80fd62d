import Mathlib.Logic.Equiv.Basic
import SepLab.Pkce.AuthServer

/-!
# The safety of authorization codes

A server that requires PKCE, takes each code once and compares the redirect URI exactly:
what its tokens have in common, over every run of calls by any parties.

## Main definitions

* `Strict cfg` — PKCE required, codes of a single use, exact redirects.
* `CodeSafety` — what is said about a run and the answers given in it.

## Main results

* `World.exec_of_server_eq` — the answers to later calls depend on the server alone.
* `codes_are_safe` — the codes of a strict server are safe in every run.
-/

namespace SepLab.Pkce

variable {ι Code : Type*} [DecidableEq Code]
variable (cfg : Config) (s256 : String → String)
variable (tokenUrlsafe : ℕ → Code) (tokenHex : ℕ → String)

/-- PKCE required, codes of a single use, exact redirects. -/
structure Strict : Prop where
  required : cfg.pkceMode = .required
  singleUse : cfg.singleUse = true
  exact : cfg.redirectMatch = .exact

/-! ### What an accepted call has presented -/

/-- An exact server accepts the registered redirect only. -/
theorem redirect_of_exact {cfg : Config} (h : cfg.redirectMatch = .exact)
    {presented : Option String} (hok : redirectOk cfg presented = .ok true) :
    presented = some cfg.registeredRedirect := by
  simp only [redirectOk, h, Except.ok.injEq, beq_iff_eq] at hok
  exact hok

/-- A server that requires PKCE accepts only a verifier that meets the stored challenge. -/
theorem verifier_of_required {cfg : Config} {s256 : String → String}
    (h : cfg.pkceMode = .required) {r : Rec} {codeVerifier : Option String}
    (hok : pkceOk cfg s256 r codeVerifier = true) :
    ∃ v, codeVerifier = some v ∧ r.challenge = some (got s256 r v) := by
  have hguard : verifiesPkce cfg r = true := by simp [verifiesPkce, h]
  unfold pkceOk at hok
  rw [if_pos hguard] at hok
  cases codeVerifier with
  | none => simp at hok
  | some v =>
    simp only at hok
    split at hok
    · simp at hok
    · exact ⟨v, rfl, (beq_iff_eq.mp hok).symm⟩

theorem got_s256 {r : Rec} (h : r.method = "S256") (v : String) : got s256 r v = s256 v :=
  if_pos h

/-! ### Refused calls -/

/-- The entry can be the answer to the call. -/
def Call.answeredBy : Call ι Code → Event ι Code → Prop
  | .authorize party redirectUri state codeChallenge method, .authorized p _ st r =>
    party = p ∧ redirectUri = r.redirectUri ∧ state = st ∧ codeChallenge = r.challenge ∧
      method = r.method
  | .token party code codeVerifier redirectUri, .granted g =>
    party = g.party ∧ code = g.code ∧ codeVerifier = g.codeVerifier ∧ redirectUri = g.redirectUri
  | .token party code _ _, .refused p c _ => party = p ∧ code = c
  | _, _ => False

namespace World

variable {cfg s256 tokenUrlsafe tokenHex}

/-- One call in two worlds with the same server: the same answer, and the same server after
it. -/
theorem step_of_server_eq {w w' v : World ι Code} (h : w.server = w'.server) {c : Call ι Code}
    (hstep : w.step cfg s256 tokenUrlsafe tokenHex c = some v) :
    ∃ v' es, w'.step cfg s256 tokenUrlsafe tokenHex c = some v' ∧ v.server = v'.server ∧
      v.log = w.log ++ es ∧ v'.log = w'.log ++ es := by
  cases c with
  | authorize party redirectUri state codeChallenge method =>
    obtain rfl := Option.some_inj.mp hstep
    exact ⟨_, _, rfl, by rw [h], rfl, by rw [h]⟩
  | token party code codeVerifier redirectUri =>
    obtain rfl := Option.some_inj.mp hstep
    exact ⟨_, _, rfl, by rw [h], rfl, by rw [h]⟩
  | clock now =>
    simp only [step] at hstep
    split at hstep
    · next hnow =>
      obtain rfl := Option.some_inj.mp hstep
      refine ⟨{ w' with server := { w'.server with now := now } }, [], ?_, by rw [h], by simp,
        by simp⟩
      rw [h] at hnow
      exact if_pos hnow
    · simp at hstep

/-- **The answers to later calls depend on the server alone.** -/
theorem exec_of_server_eq (cs : List (Call ι Code)) {w w' v : World ι Code}
    (h : w.server = w'.server) (hrun : exec (step cfg s256 tokenUrlsafe tokenHex) w cs = some v) :
    ∃ v' es, exec (step cfg s256 tokenUrlsafe tokenHex) w' cs = some v' ∧
      v.server = v'.server ∧ v.log = w.log ++ es ∧ v'.log = w'.log ++ es := by
  induction cs generalizing w w' with
  | nil =>
    obtain rfl := Option.some_inj.mp hrun
    exact ⟨w', [], rfl, h, by simp, by simp⟩
  | cons c cs ih =>
    obtain ⟨w₁, h₁, h₂⟩ := Option.bind_eq_some_iff.mp hrun
    obtain ⟨w₁', es, hstep, hserver, hlog, hlog'⟩ := step_of_server_eq h h₁
    obtain ⟨v', fs, hrun', hserver', hlogv, hlogv'⟩ := ih hserver h₂
    refine ⟨v', es ++ fs, ?_, hserver', ?_, ?_⟩
    · rw [exec_cons, hstep]
      exact hrun'
    · rw [hlogv, hlog, List.append_assoc]
    · rw [hlogv', hlog', List.append_assoc]

/-- A refused call leaves the server as it is. -/
theorem token_refused {a : AuthServer Code} {code : Code} {codeVerifier redirectUri : Option String}
    (h : ∀ t, (a.token cfg s256 tokenHex code codeVerifier redirectUri).2 ≠ .ok (200, t)) :
    (a.token cfg s256 tokenHex code codeVerifier redirectUri).1 = a := by
  rcases a.token_cases cfg s256 tokenHex code codeVerifier redirectUri with
    ⟨r, -, -, heq⟩ | ⟨-, hsame, -⟩
  · rw [heq] at h
    exact absurd rfl (h _)
  · exact hsame

/-! ### Where the answers come from -/

/-- The answer to a call, as far as the call fixes it. -/
theorem mem_of_step {w w' : World ι Code} {c : Call ι Code} {e : Event ι Code}
    (hstep : w.step cfg s256 tokenUrlsafe tokenHex c = some w') (hmem : e ∈ w'.log) :
    e ∈ w.log ∨ c.answeredBy e := by
  cases c with
  | authorize party redirectUri state codeChallenge method =>
    obtain rfl := Option.some_inj.mp hstep
    rcases List.mem_append.mp hmem with hmem | hmem
    · exact .inl hmem
    · rw [List.mem_singleton] at hmem
      subst hmem
      exact .inr ⟨rfl, rfl, rfl, rfl, rfl⟩
  | token party code codeVerifier redirectUri =>
    obtain rfl := Option.some_inj.mp hstep
    rcases List.mem_append.mp hmem with hmem | hmem
    · exact .inl hmem
    · rw [List.mem_singleton] at hmem
      subst hmem
      right
      unfold Event.ofAnswer
      split <;> simp [Call.answeredBy]
  | clock now =>
    simp only [step] at hstep
    split at hstep
    · obtain rfl := Option.some_inj.mp hstep
      exact .inl hmem
    · simp at hstep

/-- **What is in the log answers a call of the run.** -/
theorem answeredBy_of_mem {as : List (Call ι Code)} {w : World ι Code}
    (hrun : exec (step cfg s256 tokenUrlsafe tokenHex) World.init as = some w)
    {e : Event ι Code} (hmem : e ∈ w.log) : ∃ c ∈ as, c.answeredBy e := by
  induction as using List.reverseRecOn generalizing w with
  | nil =>
    obtain rfl := Option.some_inj.mp hrun
    simp [World.init] at hmem
  | append_singleton as c ih =>
    rw [exec_concat, Option.bind_eq_some_iff] at hrun
    obtain ⟨w₁, h₁, hstep⟩ := hrun
    rcases mem_of_step hstep hmem with hold | hnew
    · obtain ⟨c', hc', hans⟩ := ih h₁ hold
      exact ⟨c', List.mem_append_left _ hc', hans⟩
    · exact ⟨c, by simp, hnew⟩

end World

/-- A code in the log was asked for in the run. -/
theorem authorize_mem {as : List (Call ι Code)} {w : World ι Code}
    (hrun : exec (World.step cfg s256 tokenUrlsafe tokenHex) World.init as = some w)
    {party : ι} {code : Code} {state : String} {r : Rec}
    (hmem : .authorized party code state r ∈ w.log) :
    .authorize party r.redirectUri state r.challenge r.method ∈ as := by
  obtain ⟨c, hc, hans⟩ := World.answeredBy_of_mem hrun hmem
  cases c with
  | authorize p redirectUri st codeChallenge method =>
    obtain ⟨rfl, rfl, rfl, rfl, rfl⟩ := hans
    exact hc
  | token _ _ _ _ => exact hans.elim
  | clock _ => exact hans.elim

/-- A token in the log was asked for in the run. -/
theorem token_mem {as : List (Call ι Code)} {w : World ι Code}
    (hrun : exec (World.step cfg s256 tokenUrlsafe tokenHex) World.init as = some w)
    {g : Grant ι Code} (hmem : .granted g ∈ w.log) :
    .token g.party g.code g.codeVerifier g.redirectUri ∈ as := by
  obtain ⟨c, hc, hans⟩ := World.answeredBy_of_mem hrun hmem
  cases c with
  | token p c codeVerifier redirectUri =>
    obtain ⟨rfl, rfl, rfl, rfl⟩ := hans
    exact hc
  | authorize _ _ _ _ _ => exact hans.elim
  | clock _ => exact hans.elim

/-! ### Safety -/

/-- Where the log has a code, its record is the one stored under it, but for the mark. -/
theorem stored_unique {w : World ι Code} (h : w.Inv cfg s256 tokenUrlsafe) {p q : ι} {code : Code}
    {st st' : String} {r r' : Rec} (hr : .authorized p code st r ∈ w.log)
    (hr' : .authorized q code st' r' ∈ w.log) : r = r' := by
  obtain ⟨hused, b, hb⟩ := h.authorized p code st r hr
  obtain ⟨hused', b', hb'⟩ := h.authorized q code st' r' hr'
  rw [hb, Option.some_inj] at hb'
  cases r
  cases r'
  simp_all

/-- What is said about a run `as` of calls and the world `w` after it. -/
structure CodeSafety (as : List (Call ι Code)) (w : World ι Code) : Prop where
  /-- Each code yields at most one token. -/
  once : ∀ code, w.log.countP (Event.grantOf code) ≤ 1
  /-- A token is issued for a code that was authorized before, in time, for the registered
  redirect, and with `S256` for a verifier of the challenge stored for that very code. -/
  bound : ∀ before g after, w.log = before ++ .granted g :: after →
    ∃ party state r, .authorized party g.code state r ∈ before ∧
      (∀ p st r', .authorized p g.code st r' ∈ w.log → r' = r) ∧
      r.issuedAt ≤ g.time ∧ g.time - r.issuedAt ≤ cfg.codeTtl ∧
      g.redirectUri = some cfg.registeredRedirect ∧
      (r.method = "S256" → ∃ v, g.codeVerifier = some v ∧ r.challenge = some (s256 v))
  /-- Without a refused call the others are answered as with it. -/
  refused : ∀ bs party code codeVerifier redirectUri cs w₁,
    as = bs ++ .token party code codeVerifier redirectUri :: cs →
    exec (World.step cfg s256 tokenUrlsafe tokenHex) World.init bs = some w₁ →
    (∀ t, (w₁.server.token cfg s256 tokenHex code codeVerifier redirectUri).2 ≠ .ok (200, t)) →
    ∃ w' answer es,
      exec (World.step cfg s256 tokenUrlsafe tokenHex) World.init (bs ++ cs) = some w' ∧
      w'.server = w.server ∧ w'.log = w₁.log ++ es ∧
      w.log = w₁.log ++ .refused party code answer :: es
  /-- A party that knows no verifier of the others gets no token for their `S256` codes,
  whatever else it knows: the codes and the challenges too. -/
  intercepted : ∀ (attacker : ι) (known : Set String),
    (∀ code v redirectUri, .token attacker code (some v) redirectUri ∈ as → v ∈ known) →
    (∀ party redirectUri state verifier, party ≠ attacker →
      .authorize party redirectUri state (some (s256 verifier)) "S256" ∈ as →
        verifier ∉ known) →
    ∀ party code state r, party ≠ attacker → .authorized party code state r ∈ w.log →
      r.method = "S256" → ∀ g, .granted g ∈ w.log → g.code = code → g.party ≠ attacker

variable {cfg s256 tokenUrlsafe}

/-- What a token of a strict server was issued for. -/
theorem grant_bound (hcfg : Strict cfg) {w : World ι Code} (h : w.Inv cfg s256 tokenUrlsafe)
    {before after : List (Event ι Code)} {g : Grant ι Code}
    (hlog : w.log = before ++ .granted g :: after) :
    ∃ party state r, .authorized party g.code state r ∈ before ∧
      (∀ p st r', .authorized p g.code st r' ∈ w.log → r' = r) ∧
      r.issuedAt ≤ g.time ∧ g.time - r.issuedAt ≤ cfg.codeTtl ∧
      g.redirectUri = some cfg.registeredRedirect ∧
      (r.method = "S256" → ∃ v, g.codeVerifier = some v ∧ r.challenge = some (s256 v)) := by
  -- the grant was made against a logged authorization, and passed the checks
  obtain ⟨party, state, r, hmem, hpast, hacc⟩ := h.granted before g after hlog
  refine ⟨party, state, r, hmem, ?_, hpast, hacc.ttl, redirect_of_exact hcfg.exact hacc.redirect,
    ?_⟩
  · intro p st r' hr'
    have hlogged : .authorized party g.code state r ∈ w.log := by
      rw [hlog]
      exact List.mem_append_left _ hmem
    exact stored_unique cfg s256 tokenUrlsafe h hr' hlogged
  · intro hmethod
    obtain ⟨v, hv, hch⟩ := verifier_of_required hcfg.required hacc.pkce
    rw [got_s256 s256 hmethod] at hch
    exact ⟨v, hv, hch⟩

/-- **Authorization codes are safe over whole runs.**  `secrets.token_urlsafe` is taken never
to repeat itself.  Nothing is asked of `s256`: a verifier of an authorization is any string
with its challenge for a hash. -/
theorem codes_are_safe (hcfg : Strict cfg) (hfresh : Function.Injective tokenUrlsafe)
    (as : List (Call ι Code)) (w : World ι Code)
    (hrun : exec (World.step cfg s256 tokenUrlsafe tokenHex) World.init as = some w) :
    CodeSafety cfg s256 tokenUrlsafe tokenHex as w := by
  have hinv : w.Inv cfg s256 tokenUrlsafe := World.Inv.reach tokenHex hfresh (Reach.of_exec as hrun)
  constructor
  · intro code
    refine (hinv.once hcfg.singleUse code).trans ?_
    unfold AuthServer.uses
    split
    · exact Nat.zero_le 1
    · exact Bool.toNat_le _
  · intro before g after hlog
    exact grant_bound hcfg hinv hlog
  · intro bs party code codeVerifier redirectUri cs w₁ has hbs hrefused
    rw [has, exec_append, hbs, Option.bind_some, exec_cons] at hrun
    obtain ⟨w', es, hrun', hserver, hlog, hlog'⟩ :=
      World.exec_of_server_eq cs (World.token_refused hrefused) hrun
    refine ⟨w', (w₁.server.token cfg s256 tokenHex code codeVerifier redirectUri).2, es, ?_,
      hserver.symm, hlog', ?_⟩
    · rw [exec_append, hbs]
      exact hrun'
    · rw [hlog, Event.ofAnswer_of_ne _ _ _ _ _ hrefused, List.append_assoc, List.singleton_append]
  · intro attacker known hknown hsecret party code state r hne hmem hmethod g hg hcode hattacker
    obtain ⟨before, after, hlog⟩ := List.append_of_mem hg
    obtain ⟨-, -, r', -, huniq, -, -, -, hverifier⟩ := grant_bound hcfg hinv hlog
    obtain rfl := huniq party state r (hcode ▸ hmem)
    obtain ⟨v, hv, hch⟩ := hverifier hmethod
    -- the verifier it has presented is the one of the authorization
    have hcall := token_mem cfg s256 tokenUrlsafe tokenHex hrun hg
    rw [hattacker, hv] at hcall
    have hauth := authorize_mem cfg s256 tokenUrlsafe tokenHex hrun hmem
    rw [hch, hmethod] at hauth
    exact hsecret party _ state v hne hauth (hknown _ v _ hcall)

/-- `s256` on the two verifiers of the run below, and one to one. -/
def sampleS256 : String → String := fun v =>
  Equiv.swap "guess" "8avhsIPRLRga4TbPx1uNGKjstDrE6dGjbWqcdbYBa2E"
    (Equiv.swap "dBjftJeZ4CVP-mB92K27uhbUJU1p1r_wW1gFWFOEjXk"
      "E9Melhoa2OwvFrEMTJguCHaoeK1t8URWbuGJSstw-cM" v)

/-- The client 0 asks for a code; the party 1 has intercepted it and tries a guess and
no verifier at all, then the client redeems it and is refused on the second time. -/
def interceptedRun : List (Call ℕ ℕ) :=
  [.authorize 0 "https://app.test/cb" "xyz" (some "E9Melhoa2OwvFrEMTJguCHaoeK1t8URWbuGJSstw-cM")
      "S256",
    .token 1 0 (some "guess") (some "https://app.test/cb"),
    .token 1 0 none (some "https://app.test/cb"),
    .clock 60,
    .token 0 0 (some "dBjftJeZ4CVP-mB92K27uhbUJU1p1r_wW1gFWFOEjXk") (some "https://app.test/cb"),
    .token 0 0 (some "dBjftJeZ4CVP-mB92K27uhbUJU1p1r_wW1gFWFOEjXk") (some "https://app.test/cb")]

theorem codes_are_safe_intercepted :
    ∃ w, exec (World.step {} sampleS256 id toString) World.init interceptedRun = some w ∧
      w.log.countP (Event.grantOf 0) = 1 ∧
      CodeSafety {} sampleS256 id toString interceptedRun w := by
  have hcount : ((exec (World.step {} sampleS256 id toString) World.init interceptedRun).map
      fun w => w.log.countP (Event.grantOf 0)) = some 1 := by decide +kernel
  obtain ⟨w, hw, hone⟩ := Option.map_eq_some_iff.mp hcount
  exact ⟨w, hw, hone, codes_are_safe toString ⟨rfl, rfl, rfl⟩ Function.injective_id _ w hw⟩

end SepLab.Pkce
