import SepLab.Pkce.CodeSafety

/-!
# Where a redeemed code was sent

`/authorize` sends the code to the redirect URI it is given and keeps that URI in the
record.  `/token` compares the URI presented to it with the registered one, and reads the
one in the record nowhere, so a code sent elsewhere is redeemed by whoever presents the
registered URI.

## Main definitions

* `RedirectBound cfg w` — every token is for a code that was sent to the registered
  redirect, and was asked for with that redirect.
* `RefusesMisdelivered` — the condition on a call: a code sent elsewhere meets another
  check that refuses it.

## Main results

* `redirect_bound_iff` — the redirects of a run are bound exactly when all its calls meet
  the condition.
* `redirect_bound_of_registered` — they are where all codes are sent to the registered
  redirect.
-/

namespace SepLab.Pkce

variable {ι Code : Type*} [DecidableEq Code]
variable (cfg : Config) (s256 : String → String)
variable (tokenUrlsafe : ℕ → Code) (tokenHex : ℕ → String)

/-- Every code a token is issued for was sent by `authorize` to the URI presented for the
token, which is the registered one. -/
def RedirectBound (w : World ι Code) : Prop :=
  ∀ g, .granted g ∈ w.log → ∃ party state r, .authorized party g.code state r ∈ w.log ∧
    g.redirectUri = some r.redirectUri ∧ r.redirectUri = cfg.registeredRedirect

/-- A token call for a code that was sent elsewhere presents another URI than the registered
one, or comes too late, or a second time, or does not pass the PKCE verification. -/
def RefusesMisdelivered (w : World ι Code) : Call ι Code → Prop
  | .token _ code codeVerifier redirectUri =>
    ∀ r, w.server.codes code = some r → r.redirectUri ≠ cfg.registeredRedirect →
      redirectUri ≠ some cfg.registeredRedirect ∨ w.server.now - r.issuedAt > cfg.codeTtl ∨
        (r.used && cfg.singleUse) = true ∨ pkceOk cfg s256 r codeVerifier = false
  | _ => True

variable {cfg s256 tokenUrlsafe}

/-- An exact server accepts a code exactly when the four checks pass. -/
theorem accepts_iff_of_exact (hexact : cfg.redirectMatch = .exact) {now : ℚ} {r : Rec}
    {codeVerifier redirectUri : Option String} :
    Accepts cfg s256 now r codeVerifier redirectUri ↔
      redirectUri = some cfg.registeredRedirect ∧ ¬ now - r.issuedAt > cfg.codeTtl ∧
        (r.used && cfg.singleUse) = false ∧ pkceOk cfg s256 r codeVerifier = true := by
  constructor
  · intro h
    exact ⟨redirect_of_exact hexact h.redirect, not_lt.mpr h.ttl, h.unused, h.pkce⟩
  · rintro ⟨rfl, httl, hused, hpkce⟩
    exact ⟨not_lt.mp httl, hused, by simp [redirectOk, hexact], hpkce⟩

omit [DecidableEq Code] in
/-- The condition on a token call, in terms of what the server accepts. -/
theorem refusesMisdelivered_token (hexact : cfg.redirectMatch = .exact) {w : World ι Code}
    {party : ι} {code : Code} {codeVerifier redirectUri : Option String} :
    RefusesMisdelivered cfg s256 w (.token party code codeVerifier redirectUri) ↔
      ∀ r, w.server.codes code = some r →
        Accepts cfg s256 w.server.now r codeVerifier redirectUri →
          r.redirectUri = cfg.registeredRedirect := by
  refine forall₂_congr fun r _ => ?_
  rw [accepts_iff_of_exact hexact]
  constructor
  · rintro h ⟨huri, httl, hused, hpkce⟩
    by_contra hne
    rcases h hne with h | h | h | h
    · exact h huri
    · exact httl h
    · rw [hused] at h
      cases h
    · rw [hpkce] at h
      cases h
  · intro h hne
    by_contra hnot
    simp only [not_or, ne_eq, Decidable.not_not, Bool.not_eq_true, Bool.not_eq_false] at hnot
    exact hne (h hnot)

omit [DecidableEq Code] in
/-- One more answer, which is no token or a bound one. -/
theorem RedirectBound.concat {w w' : World ι Code} (h : RedirectBound cfg w) {e : Event ι Code}
    (hlog : w'.log = w.log ++ [e])
    (he : ∀ g, e = .granted g → ∃ party state r, .authorized party g.code state r ∈ w.log ∧
      g.redirectUri = some r.redirectUri ∧ r.redirectUri = cfg.registeredRedirect) :
    RedirectBound cfg w' := by
  intro g hg
  rw [hlog] at hg ⊢
  have hbound : ∃ party state r, .authorized party g.code state r ∈ w.log ∧
      g.redirectUri = some r.redirectUri ∧ r.redirectUri = cfg.registeredRedirect := by
    rcases List.mem_append.mp hg with hg | hg
    · exact h g hg
    · exact he g (List.mem_singleton.mp hg).symm
  obtain ⟨party, state, r, hmem, hr⟩ := hbound
  exact ⟨party, state, r, List.mem_append_left _ hmem, hr⟩

/-- A call from a bound world meets the condition exactly when the world after it is bound. -/
theorem refusesMisdelivered_iff (hexact : cfg.redirectMatch = .exact) {w : World ι Code}
    (hinv : w.Inv cfg s256 tokenUrlsafe) (h : RedirectBound cfg w) (c : Call ι Code) :
    RefusesMisdelivered cfg s256 w c ↔
      ∀ w', w.step cfg s256 tokenUrlsafe tokenHex c = some w' → RedirectBound cfg w' := by
  cases c with
  | authorize party redirectUri state codeChallenge method =>
    refine iff_of_true trivial ?_
    rintro w' hstep
    obtain rfl := Option.some_inj.mp hstep
    exact h.concat rfl (by simp)
  | clock now =>
    refine iff_of_true trivial ?_
    intro w' hstep
    simp only [World.step] at hstep
    split at hstep
    · obtain rfl := Option.some_inj.mp hstep
      exact h
    · simp at hstep
  | token party code codeVerifier redirectUri =>
    rw [refusesMisdelivered_token hexact]
    simp only [World.step, Option.some.injEq, forall_eq']
    rcases w.server.token_cases cfg s256 tokenHex code codeVerifier redirectUri with
      ⟨r, hr, hacc, heq⟩ | ⟨hnot, hsame, hans⟩
    · rw [heq]
      -- the token endpoint compares with the stored URI, and the condition is about that one
      have huri := redirect_of_exact hexact hacc.redirect
      obtain ⟨p, st, hmem⟩ := hinv.recorded code r hr
      constructor
      · intro hok
        apply h.concat rfl
        intro g hg
        obtain rfl := Event.granted.inj hg
        have hreg := hok r hr hacc
        exact ⟨p, st, _, hmem, huri.trans (congrArg some hreg.symm), hreg⟩
      · intro hbound r' hr' _
        obtain ⟨p', st', r'', hmem', -, hreg⟩ := hbound _ (List.mem_append_right _
          (List.mem_singleton.mpr rfl))
        rw [hr, Option.some_inj] at hr'
        -- the authorization that the bound names is the one whose record the server has
        have hold : .authorized p' code st' r'' ∈ w.log := by simpa [Event.ofAnswer] using hmem'
        rw [← hr', ← hreg, ← stored_unique cfg s256 tokenUrlsafe hinv hmem hold]
    · refine iff_of_true (fun r hr hacc => absurd hacc (hnot r hr)) ?_
      rw [Event.ofAnswer_of_ne _ _ _ _ _ hans]
      exact h.concat rfl (by simp)

/-- **Redirects are bound exactly in the runs whose calls meet the condition.** -/
theorem redirect_bound_iff (hexact : cfg.redirectMatch = .exact)
    (hfresh : Function.Injective tokenUrlsafe) (as : List (Call ι Code)) :
    (∀ bs w, bs <+: as →
        exec (World.step cfg s256 tokenUrlsafe tokenHex) World.init bs = some w →
          RedirectBound cfg w) ↔
      ∀ bs c w, bs ++ [c] <+: as →
        exec (World.step cfg s256 tokenUrlsafe tokenHex) World.init bs = some w →
          RefusesMisdelivered cfg s256 w c := by
  apply exec_forall_iff (I := World.Inv cfg s256 tokenUrlsafe) World.Inv.init
  · intro w c w' hw hstep
    exact hw.step tokenHex hfresh hstep
  · intro g hg
    simp [World.init] at hg
  · intro w c hw hbound
    exact refusesMisdelivered_iff tokenHex hexact hw hbound c

theorem redirect_bound_iff_default :
    (∀ bs (w : World ℕ ℕ), bs <+: interceptedRun →
        exec (World.step {} sampleS256 id toString) World.init bs = some w →
          RedirectBound {} w) ↔
      ∀ bs c (w : World ℕ ℕ), bs ++ [c] <+: interceptedRun →
        exec (World.step {} sampleS256 id toString) World.init bs = some w →
          RefusesMisdelivered {} sampleS256 w c :=
  redirect_bound_iff toString rfl Function.injective_id interceptedRun

/-- An attacker asks for a code to be sent to its own URI, and presents the registered one when
it redeems the code. -/
def misdeliveredRun : List (Call ℕ ℕ) :=
  [.authorize 1 "https://app.test/cb.attacker.test" "xyz"
      (some "8avhsIPRLRga4TbPx1uNGKjstDrE6dGjbWqcdbYBa2E") "S256",
    .token 1 0 (some "guess") (some "https://app.test/cb")]

/-- The code that went to the attacker is redeemed. -/
theorem redirect_not_bound :
    ¬ ∀ w : World ℕ ℕ, exec (World.step {} sampleS256 id toString) World.init misdeliveredRun
      = some w → RedirectBound {} w := by
  intro h
  -- the code is issued to the attacker's URI, and redeemed there
  have hredeemed : ((exec (World.step {} sampleS256 id toString) World.init
      misdeliveredRun).map fun w => (w.log.countP (Event.grantOf 0),
        (w.server.codes 0).map Rec.redirectUri)) =
      some (1, some "https://app.test/cb.attacker.test") := by decide +kernel
  obtain ⟨w, hw, hcodes⟩ := Option.map_eq_some_iff.mp hredeemed
  rw [Prod.mk.injEq] at hcodes
  obtain ⟨hcount, huri⟩ := hcodes
  obtain ⟨r, hr, hruri⟩ := Option.map_eq_some_iff.mp huri
  obtain ⟨e, he, hgrant⟩ := List.countP_pos_iff.mp (hcount ▸ Nat.one_pos)
  have hinv : w.Inv {} sampleS256 id :=
    World.Inv.reach toString Function.injective_id (Reach.of_exec _ hw)
  cases e with
  | granted g =>
    -- the bound would have that URI registered
    obtain ⟨party, state, r', hmem, -, hreg⟩ := h w hw g he
    obtain ⟨-, used, hr'⟩ := hinv.authorized party g.code state r' hmem
    rw [beq_iff_eq.mp hgrant, hr, Option.some_inj] at hr'
    rw [hr'] at hruri
    have heq : r'.redirectUri = "https://app.test/cb.attacker.test" := hruri
    rw [hreg] at heq
    simp at heq
  | authorized _ _ _ _ => cases hgrant
  | refused _ _ _ => cases hgrant

/-- Where every code is sent to the registered redirect, redirects are bound. -/
theorem redirect_bound_of_registered (hexact : cfg.redirectMatch = .exact)
    (hfresh : Function.Injective tokenUrlsafe) {as : List (Call ι Code)} {w : World ι Code}
    (hrun : exec (World.step cfg s256 tokenUrlsafe tokenHex) World.init as = some w)
    (hregistered : ∀ party redirectUri state codeChallenge method,
      .authorize party redirectUri state codeChallenge method ∈ as →
        redirectUri = cfg.registeredRedirect) : RedirectBound cfg w := by
  have hinv : w.Inv cfg s256 tokenUrlsafe := World.Inv.reach tokenHex hfresh (Reach.of_exec as hrun)
  intro g hg
  obtain ⟨before, after, hlog⟩ := List.append_of_mem hg
  obtain ⟨party, state, r, hmem, -, hacc⟩ := hinv.granted before g after hlog
  have hlogged : .authorized party g.code state r ∈ w.log := by
    rw [hlog]
    exact List.mem_append_left _ hmem
  have hreg : r.redirectUri = cfg.registeredRedirect :=
    hregistered _ _ _ _ _ (authorize_mem cfg s256 tokenUrlsafe tokenHex hrun hlogged)
  refine ⟨party, state, r, hlogged, ?_, hreg⟩
  rw [hreg]
  exact redirect_of_exact hexact hacc.redirect

end SepLab.Pkce
