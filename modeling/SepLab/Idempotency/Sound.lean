import SepLab.Idempotency.ChargeCorrect

/-!
# What every run of `charge_correct` keeps

Whatever the calls do, a finished key stores the response of a charge of that
key, every charged key is finished, and a successful answer names a charge of
its call's key.  This does not say that there is one charge: a call that lost its
claim to another one finishes all the same.

## Main definitions

* `State.Charged s k id`, `State.Done s k` — the key has that charge, is finished.
* `State.CallOk s i p` — what holds of call `i` in phase `p`.
* `State.Inv` — the invariant of the two tables.
* `State.Effect s a s'` — all that a statement can do to a state with the invariant.

## Main results

* `State.Inv.effect` — every step has such an effect.
* `State.Inv.step` — every step keeps the invariant.
* `State.Inv.done_step` — a finished key stays finished, with the same fingerprint.
-/

namespace SepLab
namespace Idempotency

variable {K Body F P ι : Type} [DecidableEq ι] [DecidableEq K] [DecidableEq F]

namespace State

variable (e : Endpoint K Body F P) (ttl : ℕ) (req : ι → Request K Body)

/-- Key `k` has been charged with the charge `id`. -/
def Charged (s : State ι K F P) (k : K) (id : ℕ) : Prop :=
  ∃ j c, (j, c) ∈ s.charges ∧ c.idemKey = k ∧ c.id = id

/-- Key `k` is finished. -/
def Done (s : State ι K F P) (k : K) : Prop :=
  ∃ row, (s.keys k).committed = some row ∧ row.state = .done

/-- What holds of call `i` in the phase `p`. -/
def CallOk (s : State ι K F P) (i : ι) : Phase K P → Prop
  | .holding => (s.keys (req i).key).committed ≠ none
  | .charged c => c.idemKey = (req i).key ∧ (s.keys (req i).key).committed ≠ none
  | .published c => c.idemKey = (req i).key ∧ ∃ row, (s.keys (req i).key).committed = some row ∧
      (s.keys (req i).key).pending =
        some (i, some { row with state := .done, response := some (e.payload c) })
  | .committed c => c.idemKey = (req i).key ∧ (i, c) ∈ s.charges
  | .responded (.charged _ p) => ∃ q, p = some q ∧ s.Charged (req i).key (e.chargeId q)
  | _ => True

/-- The invariant of the two tables. -/
structure Inv (s : State ι K F P) : Prop where
  call : ∀ i, s.CallOk e req i (s.phase i)
  pending : ∀ {k i v}, (s.keys k).pending = some (i, v) →
    (req i).key = k ∧ ∃ c, s.phase i = .published c
  done : ∀ {k row}, (s.keys k).committed = some row → row.state = .done →
    ∃ p, row.response = some p ∧ s.Charged k (e.chargeId p)
  charges : ∀ {j c}, (j, c) ∈ s.charges → c.idemKey = (req j).key ∧ s.Done c.idemKey

variable {e ttl req} {s s' : State ι K F P}

omit [DecidableEq ι] [DecidableEq K] [DecidableEq F] in
theorem Charged.mono {k : K} {id : ℕ} (h : s.Charged k id) (hc : s.charges ⊆ s'.charges) :
    s'.Charged k id := by
  obtain ⟨j, c, hmem, hrest⟩ := h
  exact ⟨j, c, hc hmem, hrest⟩

omit [DecidableEq ι] [DecidableEq K] [DecidableEq F] in
/-- What others do leaves a call as it is, if they leave the rows it has locked alone. -/
theorem CallOk.mono {i : ι} {p : Phase K P} (h : s.CallOk e req i p)
    (hrow : ∀ k, (s.keys k).committed ≠ none → (s'.keys k).committed ≠ none)
    (hpub : ∀ c, p = .published c → s'.keys (req i).key = s.keys (req i).key)
    (hcharges : s.charges ⊆ s'.charges) : s'.CallOk e req i p := by
  -- a call speaks of the committed row of its key, of the row it has published, or of charges
  cases p with
  | holding => exact hrow _ h
  | charged c => exact ⟨h.1, hrow _ h.2⟩
  | published c =>
    unfold CallOk at h ⊢
    rw [hpub c rfl]
    exact h
  | committed c => exact ⟨h.1, hcharges h.2⟩
  | responded r =>
    cases r with
    | charged st p =>
      obtain ⟨q, hq, hch⟩ := h
      exact ⟨q, hq, hch.mono hcharges⟩
    | refused st error => trivial
  | _ => trivial

omit [DecidableEq ι] [DecidableEq K] [DecidableEq F] in
theorem Inv.init : (init : State ι K F P).Inv e req where
  call _ := trivial
  pending h := by cases h
  done h := by cases h
  charges h := by cases h

omit [DecidableEq ι] [DecidableEq K] [DecidableEq F] in
/-- A call that has not published has locked nothing. -/
theorem Inv.pending_ne (h : s.Inv e req) {i : ι} (hold : ∀ c, s.phase i ≠ .published c) {k : K} :
    ∀ v, (s.keys k).pending ≠ some (i, v) := by
  intro v hp
  obtain ⟨-, c, hc⟩ := h.pending hp
  exact hold c hc

omit [DecidableEq K] [DecidableEq F] in
/-- A row that is free for a call which has not published is locked by nobody. -/
theorem Inv.pending_eq_none (h : s.Inv e req) {k : K} {i : ι} (hfree : (s.keys k).free i = true)
    (hold : ∀ c, s.phase i ≠ .published c) : (s.keys k).pending = none := by
  cases hp : (s.keys k).pending with
  | none => rfl
  | some p =>
    obtain ⟨j, v⟩ := p
    obtain rfl := Row.free_iff.mp hfree j v hp
    exact absurd hp (h.pending_ne hold v)

/-! ### What a statement can do -/

variable (e ttl req)

/-- All that the statement `a` can do to a state with the invariant. -/
inductive Effect (s : State ι K F P) : Action ι → State ι K F P → Prop
  | tick (d : ℕ) : Effect s (.tick d) { s with clock := s.clock + d }
  | begin {i : ι} (h : s.phase i = .idle) : Effect s (.begin i) (s.enter i (.claiming s.clock))
  /-- The claim inserts the row, or takes it over while it is in progress. -/
  | win {i : ι} {now : ℕ} {row : KeyRow F P} (h : s.phase i = .claiming now)
      (hnone : (s.keys (req i).key).pending = none) (hrow : row.state = .inProgress)
      (hdone : ¬ s.Done (req i).key)
      (htake : ∀ row₀, (s.keys (req i).key).committed = some row₀ →
        e.onConflict (e.excluded ttl (req i).body now) row₀ now = some row) : Effect s (.claim i)
        ({ s with keys := Function.update s.keys (req i).key ⟨some row, none⟩ }.enter i .holding)
  | lose {i : ι} {now : ℕ} (h : s.phase i = .claiming now) :
      Effect s (.claim i) (s.enter i .replaying)
  | wait {i : ι} {deadline : Bool} (h : s.phase i = .replaying) : Effect s (.replay i deadline) s
  | answer {i : ι} {deadline : Bool} {r : Response P} (h : s.phase i = .replaying)
      (hr : e.replay (e.fingerprint (req i).body) deadline (s.keys (req i).key).committed =
        some r) : Effect s (.replay i deadline) (s.enter i (.responded r))
  | insertCharge {i : ι} {c : Charge K} (h : s.phase i = .holding) (hid : c.id = s.nextId)
      (hkey : c.idemKey = (req i).key) : Effect s (.insertCharge i)
        ({ s with nextId := s.nextId + 1 }.enter i (.charged c))
  | publish {i : ι} {c : Charge K} {row : KeyRow F P} (h : s.phase i = .charged c)
      (hnone : (s.keys (req i).key).pending = none)
      (hrow : (s.keys (req i).key).committed = some row) : Effect s (.publish i)
        ({ s with
            keys := s.keys.put (req i).key i
              (some { row with state := .done, response := some (e.payload c) }) }.enter i
          (.published c))
  /-- The work commits over whatever row is there. -/
  | commit {i : ι} {c : Charge K} {row : KeyRow F P} (h : s.phase i = .published c)
      (hrow : (s.keys (req i).key).committed = some row)
      (hpending : ∃ v, (s.keys (req i).key).pending = some (i, v)) : Effect s (.commit i)
        ({ s with
            keys := Function.update s.keys (req i).key
              ⟨some { row with state := .done, response := some (e.payload c) }, none⟩
            charges := s.charges ++ [(i, c)] }.enter i (.committed c))
  | respond {i : ι} {c : Charge K} (h : s.phase i = .committed c) : Effect s (.respond i)
      (s.enter i (.responded (.charged e.created (some (e.payload c)))))
  | crash {i : ι} : Effect s (.crash i) ({ s with keys := s.keys.rollback i }.enter i .crashed)

variable {e ttl req}

/-- **Every step has one of these effects.** -/
theorem Inv.effect (h : s.Inv e req) {a : Action ι} (hs : s.step e ttl req a = some s') :
    Effect e ttl req s a s' := by
  cases a with
  | tick d =>
    rw [State.step, Option.some_inj] at hs
    exact hs ▸ .tick d
  | begin i =>
    simp only [State.step, State.begin] at hs
    split at hs
    case h_2 => cases hs
    next hphase =>
    rw [Option.some_inj] at hs
    exact hs ▸ .begin hphase
  | claim i =>
    simp only [State.step, State.claim] at hs
    split at hs
    case h_2 => cases hs
    next now hphase =>
    have hold : ∀ c, s.phase i ≠ .published c := by simp [hphase]
    split at hs
    case isFalse => cases hs
    next hfree =>
    have hnone := h.pending_eq_none hfree hold
    rw [Row.seen_of_none hnone] at hs
    split at hs
    case h_2 =>
      rw [Option.some_inj] at hs
      exact hs ▸ .lose hphase
    next row hret =>
    rw [Option.some_inj] at hs
    subst hs
    have hkeys : (s.keys.put (req i).key i (some row)).commit i =
        Function.update s.keys (req i).key ⟨some row, none⟩ := by
      funext k
      unfold Table.commit
      by_cases hk : k = (req i).key
      · rw [hk, Table.put_self, Row.commit_of_pending Row.pending_put, Function.update_self]
      · rw [Table.put_of_ne hk, Row.commit_of_ne (h.pending_ne hold), Function.update_of_ne hk]
    -- the row is new, or it was in progress; either way it is in progress now
    rw [hkeys]
    split at hret
    · next hno =>
      rw [Option.some_inj] at hret
      refine .win hphase hnone (hret ▸ rfl) ?_ ?_
      · rintro ⟨row', hrow', -⟩
        rw [hno] at hrow'
        cases hrow'
      · intro row₀ hrow₀
        rw [hno] at hrow₀
        cases hrow₀
    · next row₀ hrow₀ =>
      obtain ⟨h₁, h₂⟩ := e.onConflict_some hret
      refine .win hphase hnone h₂ ?_ ?_
      · rintro ⟨row', hrow', hd⟩
        rw [hrow₀, Option.some_inj] at hrow'
        rw [← hrow', h₁] at hd
        cases hd
      · intro row₁ hrow₁
        rw [hrow₀, Option.some_inj] at hrow₁
        exact hrow₁ ▸ hret
  | replay i deadline =>
    simp only [State.step, State.replay] at hs
    split at hs
    case h_2 => cases hs
    next hphase =>
    rw [Row.seen_of_ne (h.pending_ne (by simp [hphase]))] at hs
    split at hs
    · next r hr =>
      rw [Option.some_inj] at hs
      exact hs ▸ .answer hphase hr
    · rw [Option.some_inj] at hs
      exact hs ▸ .wait hphase
  | insertCharge i =>
    simp only [State.step, State.insertCharge] at hs
    split at hs
    case h_2 => cases hs
    next hphase =>
    obtain ⟨c, hc, rfl⟩ := Option.map_eq_some_iff.mp hs
    exact .insertCharge hphase (e.insertCharge_some hc).1 (e.insertCharge_some hc).2
  | publish i =>
    simp only [State.step, State.publish] at hs
    split at hs
    case h_2 => cases hs
    next c hphase =>
    have hcall := h.call i
    rw [hphase] at hcall
    split at hs
    case isFalse => cases hs
    next hfree =>
    have hnone := h.pending_eq_none hfree (by simp [hphase])
    rw [Row.seen_of_none hnone] at hs
    split at hs
    case h_2 hno => exact absurd hno hcall.2
    next row hrow =>
    rw [Option.some_inj] at hs
    exact hs ▸ .publish hphase hnone hrow
  | commit i =>
    simp only [State.step, State.commit] at hs
    split at hs
    case h_2 => cases hs
    next c hphase =>
    rw [Option.some_inj] at hs
    have hcall := h.call i
    rw [hphase] at hcall
    obtain ⟨-, row, hrow, hpend⟩ := hcall
    have hkeys : s.keys.commit i = Function.update s.keys (req i).key
        ⟨some { row with state := .done, response := some (e.payload c) }, none⟩ := by
      funext k
      unfold Table.commit
      by_cases hk : k = (req i).key
      · rw [hk, Row.commit_of_pending hpend, Function.update_self]
      · rw [Row.commit_of_ne fun v hv => hk (h.pending hv).1.symm, Function.update_of_ne hk]
    rw [hkeys] at hs
    exact hs ▸ .commit hphase hrow ⟨_, hpend⟩
  | respond i =>
    simp only [State.step, State.respond] at hs
    split at hs
    case h_2 => cases hs
    next c hphase =>
    rw [Option.some_inj] at hs
    exact hs ▸ .respond hphase
  | crash i =>
    simp only [State.step, State.crash] at hs
    split at hs
    · cases hs
    · cases hs
    · cases hs
    · rw [Option.some_inj] at hs
      exact hs ▸ .crash

/-! ### The invariant -/

omit [DecidableEq K] [DecidableEq F] in
/-- **A call acts.**  It goes to phase `p`, rows come and stay, and what it does
not hold the lock of stays locked as it was. -/
theorem Inv.act (h : s.Inv e req) {i : ι} {p : Phase K P}
    (hphase : s'.phase = Function.update s.phase i p) (hcall : s'.CallOk e req i p)
    (hrow : ∀ k, (s.keys k).committed ≠ none → (s'.keys k).committed ≠ none)
    (hpub : ∀ j c, j ≠ i → s.phase j = .published c →
      s'.keys (req j).key = s.keys (req j).key)
    (hcharges : s.charges ⊆ s'.charges)
    (hpending : ∀ k j v, (s'.keys k).pending = some (j, v) →
      j ≠ i ∧ (s.keys k).pending = some (j, v) ∨
        j = i ∧ (req i).key = k ∧ ∃ c, p = .published c)
    (hdone : ∀ k row, (s'.keys k).committed = some row → row.state = .done →
      ∃ q, row.response = some q ∧ s'.Charged k (e.chargeId q))
    (hch : ∀ j c, (j, c) ∈ s'.charges → c.idemKey = (req j).key ∧ s'.Done c.idemKey) :
    s'.Inv e req := by
  refine ⟨fun j => ?_, fun {k j v} hp => ?_, fun hr => hdone _ _ hr, fun hc => hch _ _ hc⟩
  -- the call that acts; the others keep what they say
  · by_cases hj : j = i
    · subst hj
      rw [hphase, Function.update_self]
      exact hcall
    · rw [hphase, Function.update_of_ne hj]
      exact (h.call j).mono hrow (fun c hc => hpub j c hj hc) hcharges
  · rw [hphase]
    rcases hpending k j v hp with ⟨hj, hp⟩ | ⟨rfl, hk, hc⟩
    · rw [Function.update_of_ne hj]
      exact h.pending hp
    · rw [Function.update_self]
      exact ⟨hk, hc⟩

omit [DecidableEq K] [DecidableEq F] in
/-- A call that touches neither table. -/
theorem Inv.enter (h : s.Inv e req) {i : ι} {p : Phase K P}
    (hold : ∀ c, s.phase i ≠ .published c) (hcall : s.CallOk e req i p) :
    (s.enter i p).Inv e req := by
  refine h.act rfl (hcall.mono (fun _ => id) (fun _ _ => rfl) (List.Subset.refl _))
    (fun _ => id) (fun _ _ _ _ => rfl) (List.Subset.refl _) ?_ (fun _ _ => h.done)
    fun _ _ => h.charges
  intro k j v hp
  refine Or.inl ⟨?_, hp⟩
  rintro rfl
  exact h.pending_ne hold v hp

omit [DecidableEq ι] [DecidableEq K] [DecidableEq F] in
/-- Two calls that have published have different keys, for each has locked its row. -/
theorem Inv.key_ne (h : s.Inv e req) {i j : ι} {c : Charge K} (hj : s.phase j = .published c)
    (hi : ∀ v, (s.keys (req i).key).pending ≠ some (j, v)) : (req j).key ≠ (req i).key := by
  intro hk
  have hcall := h.call j
  rw [hj] at hcall
  obtain ⟨-, row, -, hp⟩ := hcall
  rw [hk] at hp
  exact hi _ hp

omit [DecidableEq K] [DecidableEq F] in
/-- A call that leaves the committed rows as they are. -/
theorem Inv.act_pending (h : s.Inv e req) {i : ι} {p : Phase K P}
    (hphase : s'.phase = Function.update s.phase i p) (hcall : s'.CallOk e req i p)
    (hcommitted : ∀ k, (s'.keys k).committed = (s.keys k).committed)
    (hcharges : s'.charges = s.charges)
    (hpub : ∀ j c, j ≠ i → s.phase j = .published c →
      s'.keys (req j).key = s.keys (req j).key)
    (hpending : ∀ k j v, (s'.keys k).pending = some (j, v) →
      j ≠ i ∧ (s.keys k).pending = some (j, v) ∨
        j = i ∧ (req i).key = k ∧ ∃ c, p = .published c) : s'.Inv e req := by
  have hsub : s.charges ⊆ s'.charges := hcharges ▸ List.Subset.refl _
  refine h.act hphase hcall (fun k hk => (hcommitted k).trans_ne hk) hpub hsub hpending ?_ ?_
  · intro k row hr hd
    obtain ⟨q, hq, hch⟩ := h.done ((hcommitted k).symm.trans hr) hd
    exact ⟨q, hq, hch.mono hsub⟩
  · intro j c hc
    obtain ⟨hkey, row, hr, hd⟩ := h.charges (hcharges ▸ hc)
    exact ⟨hkey, row, (hcommitted _).trans hr, hd⟩

omit [DecidableEq F] in
/-- A call that commits a row for its key, which nobody else has locked. -/
theorem Inv.act_row (h : s.Inv e req) {i : ι} {p : Phase K P} {row : KeyRow F P}
    (hphase : s'.phase = Function.update s.phase i p) (hcall : s'.CallOk e req i p)
    (hkeys : s'.keys = Function.update s.keys (req i).key ⟨some row, none⟩)
    (hcharges : s.charges ⊆ s'.charges)
    (hothers : ∀ j c, j ≠ i → s.phase j = .published c → (req j).key ≠ (req i).key)
    (hown : ∀ k v, k ≠ (req i).key → (s.keys k).pending ≠ some (i, v))
    (hdone : row.state = .done →
      ∃ q, row.response = some q ∧ s'.Charged (req i).key (e.chargeId q))
    (hch : ∀ j c, (j, c) ∈ s'.charges → c.idemKey = (req j).key ∧
      (c.idemKey = (req i).key ∧ row.state = .done ∨
        c.idemKey ≠ (req i).key ∧ s.Done c.idemKey)) : s'.Inv e req := by
  have hself : s'.keys (req i).key = ⟨some row, none⟩ := by rw [hkeys, Function.update_self]
  -- the key's own row is `row` now, and no other has changed
  have hne : ∀ {k}, k ≠ (req i).key → s'.keys k = s.keys k := by
    intro k hk
    rw [hkeys, Function.update_of_ne hk]
  refine h.act hphase hcall ?_ (fun j c hj hc => hne (hothers j c hj hc)) hcharges ?_ ?_ ?_
  · intro k hk
    by_cases hki : k = (req i).key
    · rw [hki, hself]
      exact Option.some_ne_none row
    · rwa [hne hki]
  · intro k j v hp
    by_cases hki : k = (req i).key
    · rw [hki, hself] at hp
      cases hp
    -- another key's pending row was somebody else's
    · rw [hne hki] at hp
      refine Or.inl ⟨?_, hp⟩
      rintro rfl
      exact hown k v hki hp
  · intro k row' hr hd
    by_cases hki : k = (req i).key
    · rw [hki, hself, Option.some_inj] at hr
      subst hr
      exact hki ▸ hdone hd
    · rw [hne hki] at hr
      obtain ⟨q, hq, hch⟩ := h.done hr hd
      exact ⟨q, hq, hch.mono hcharges⟩
  · intro j c hc
    -- each charge is for this key, which is `done`, or for one that was done before
    obtain ⟨hkey, ⟨hk, hd⟩ | ⟨hk, row', hr, hd⟩⟩ := hch j c hc
    · exact ⟨hkey, row, by rw [hk, hself], hd⟩
    · exact ⟨hkey, row', by rw [hne hk, hr], hd⟩

/-- **Every step keeps the invariant.** -/
theorem Inv.step (h : s.Inv e req) {a : Action ι} (hs : s.step e ttl req a = some s') :
    s'.Inv e req := by
  cases h.effect hs with
  | tick d => exact ⟨h.call, h.pending, h.done, h.charges⟩
  | begin hphase => exact h.enter (by simp [hphase]) trivial
  | lose hphase => exact h.enter (by simp [hphase]) trivial
  | wait hphase => exact h
  | @win i now row hphase hnone hrow hdone htake =>
    have hpub : ∀ c, s.phase i ≠ .published c := by simp [hphase]
    refine h.act_row rfl ?_ rfl (List.Subset.refl _) ?_ (fun k v _ => h.pending_ne hpub v) ?_ ?_
    · show (Function.update s.keys _ _ (req i).key).committed ≠ none
      rw [Function.update_self]
      exact Option.some_ne_none row
    · exact fun j c _ hc => h.key_ne hc (by simp [hnone])
    · intro hd
      rw [hrow] at hd
      cases hd
    · intro j c hc
      obtain ⟨hkey, hd⟩ := h.charges hc
      exact ⟨hkey, Or.inr ⟨fun hk => hdone (hk ▸ hd), hd⟩⟩
  | @answer i deadline r hphase hr =>
    refine h.enter (by simp [hphase]) ?_
    cases r with
    | refused st error => trivial
    | charged st p =>
      -- only a finished row answers with a charge
      obtain ⟨row, hrow, -, hans⟩ := Endpoint.replay_charged hr
      obtain ⟨hd, hp⟩ := e.answer_some hans
      obtain ⟨q, hq, hch⟩ := h.done hrow hd
      obtain ⟨st', q', hst, hid⟩ := hp hq
      rw [Response.charged.injEq] at hst
      exact ⟨q', hst.2, hid ▸ hch⟩
  | @insertCharge i c hphase hid hkey =>
    have hcall := h.call i
    rw [hphase] at hcall
    have h' : ({ s with nextId := s.nextId + 1 } : State ι K F P).Inv e req :=
      ⟨h.call, h.pending, h.done, h.charges⟩
    exact h'.enter (by simp [hphase]) ⟨hkey, hcall⟩
  | @publish i c row hphase hnone hrow =>
    have hcall := h.call i
    rw [hphase] at hcall
    refine h.act_pending rfl ?_ (fun k => Table.committed_put k _) rfl ?_ ?_
    · refine ⟨hcall.1, row, (Table.committed_put _ _).trans hrow, ?_⟩
      show (s.keys.put _ i _ (req i).key).pending = _
      rw [Table.put_self, Row.pending_put]
    · intro j c' hj hc'
      exact Table.put_of_ne (h.key_ne hc' (by simp [hnone]))
    · intro k j v hp
      rcases Table.pending_of_put hp with ⟨rfl, heq⟩ | ⟨-, hold⟩
      · exact Or.inr ⟨(Prod.mk.inj heq).1, rfl, c, rfl⟩
      · refine Or.inl ⟨?_, hold⟩
        rintro rfl
        exact h.pending_ne (by simp [hphase]) v hold
  | @commit i c row hphase hrow hpending =>
    have hcall := h.call i
    rw [hphase] at hcall
    obtain ⟨hkey, -⟩ := hcall
    obtain ⟨v₀, hv₀⟩ := hpending
    have hmem : (i, c) ∈ s.charges ++ [(i, c)] :=
      List.mem_append_right _ (List.mem_singleton_self _)
    refine h.act_row rfl ⟨hkey, hmem⟩ rfl (List.subset_append_left _ _) ?_ ?_ ?_ ?_
    · intro j c' hj hc'
      refine h.key_ne hc' fun v hv => ?_
      rw [hv₀, Option.some_inj, Prod.mk.injEq] at hv
      exact hj hv.1.symm
    · exact fun k v hk hp => hk (h.pending hp).1.symm
    · exact fun _ => ⟨e.payload c, rfl, i, c, hmem, hkey, (e.chargeId_payload c).symm⟩
    · intro j c' hc'
      rcases List.mem_append.mp hc' with hc' | hc'
      · obtain ⟨hk, hd⟩ := h.charges hc'
        refine ⟨hk, ?_⟩
        by_cases hki : c'.idemKey = (req i).key
        · exact Or.inl ⟨hki, rfl⟩
        · exact Or.inr ⟨hki, hd⟩
      · rw [List.mem_singleton, Prod.mk.injEq] at hc'
        obtain ⟨rfl, rfl⟩ := hc'
        exact ⟨hkey, Or.inl ⟨hkey, rfl⟩⟩
  | @respond i c hphase =>
    have hcall := h.call i
    rw [hphase] at hcall
    refine h.enter (by simp [hphase]) ⟨e.payload c, rfl, i, c, hcall.2, hcall.1, ?_⟩
    exact (e.chargeId_payload c).symm
  | @crash i =>
    refine h.act_pending rfl trivial (fun k => Row.committed_rollback) rfl ?_ ?_
    · intro j c hj hc
      have hcall := h.call j
      rw [hc] at hcall
      obtain ⟨-, row, -, hp⟩ := hcall
      refine Row.rollback_of_ne fun v hv => ?_
      rw [hp, Option.some_inj, Prod.mk.injEq] at hv
      exact hj hv.1
    · intro k j v hp
      obtain ⟨hp, hj⟩ := Row.pending_of_rollback hp
      exact Or.inl ⟨hj, hp⟩

/-- **A finished key stays finished**, and keeps its fingerprint: only a row in
progress is taken over. -/
theorem Inv.done_step (h : s.Inv e req) {a : Action ι} (hs : s.step e ttl req a = some s') {k : K}
    {row : KeyRow F P} (hrow : (s.keys k).committed = some row) (hd : row.state = .done) :
    ∃ row', (s'.keys k).committed = some row' ∧ row'.state = .done ∧
      row'.fingerprint = row.fingerprint := by
  have hsame : ∀ {r : Row ι (KeyRow F P)}, r.committed = (s.keys k).committed →
      ∃ row', r.committed = some row' ∧ row'.state = .done ∧ row'.fingerprint = row.fingerprint :=
    fun hr => ⟨row, hr.trans hrow, hd, rfl⟩
  cases h.effect hs with
  | @win i now row₀ hphase hnone hstate hdone htake =>
    -- a key that is done is not claimed any more
    have hne : k ≠ (req i).key := by
      rintro rfl
      exact hdone ⟨row, hrow, hd⟩
    exact hsame (congrArg Row.committed (Function.update_of_ne hne _ _))
  | publish _ _ _ => exact hsame (Table.committed_put k _)
  | @commit i c row₀ hphase hrow₀ hpending =>
    by_cases hk : k = (req i).key
    · subst hk
      rw [hrow, Option.some_inj] at hrow₀
      have hself : (Function.update s.keys (req i).key (⟨some { row₀ with
          state := .done, response := some (e.payload c) }, none⟩ : Row ι (KeyRow F P))
          (req i).key).committed = _ := congrArg Row.committed (Function.update_self _ _ _)
      -- a call that commits leaves the fingerprint in its row
      exact ⟨_, hself, rfl, by rw [hrow₀]⟩
    · exact hsame (congrArg Row.committed (Function.update_of_ne hk _ _))
  | crash => exact hsame Row.committed_rollback
  | _ => exact hsame rfl

end State
end Idempotency
end SepLab
