import SepLab.Idempotency.ChargedOnce

/-!
# When `charge_correct` answers with the right money

A claim that is taken over rewrites the fingerprint of the row.  The holder that
has lost it still stores its own response over the row when it finishes, so that
the row may pair the response of one body with the fingerprint of another.

## Main definitions

* `State.ownFingerprint e req s a` — `a` does not commit a call's work over a row with
  the fingerprint of another body.
* `State.Money` — every charge, and every answer that reports one, has the
  fingerprint of its key.
* `State.Ids` — the ids of charges are unique.

## Main results

* `charge_correct_same_money` — **answers report the right charge as long as no
  call commits its work over a row with another fingerprint.**
-/

namespace SepLab
namespace Idempotency

variable {K Body F P ι : Type} [DecidableEq ι] [DecidableEq K] [DecidableEq F]

namespace State

variable (e : Endpoint K Body F P) (ttl : ℕ) (req : ι → Request K Body)
variable {s s' : State ι K F P} {a : Action ι}

/-! ### Fingerprints -/

/-- A call does not commit its work over a row with the fingerprint of another body. -/
def ownFingerprint (s : State ι K F P) : Action ι → Bool
  | .commit i =>
    match (s.keys (req i).key).committed with
    | some row => row.fingerprint = e.fingerprint (req i).body
    | none => true
  | _ => true

/-- Key `k` is finished, for a body with the fingerprint `fp`. -/
def Fixed (s : State ι K F P) (k : K) (fp : F) : Prop :=
  ∃ row, (s.keys k).committed = some row ∧ row.state = .done ∧ row.fingerprint = fp

/-- Every charge, and every answer that reports one, has the fingerprint of its key. -/
structure Money (s : State ι K F P) : Prop where
  charges : ∀ {j c}, (j, c) ∈ s.charges → s.Fixed c.idemKey (e.fingerprint (req j).body)
  responded : ∀ {i st p}, s.phase i = .responded (.charged st p) →
    s.Fixed (req i).key (e.fingerprint (req i).body)

variable {e ttl req}

omit [DecidableEq ι] [DecidableEq K] [DecidableEq F] in
theorem Money.init : (init : State ι K F P).Money e req where
  charges hc := by cases hc
  responded hi := by cases hi

theorem Fixed.step {k : K} {fp : F} (hf : s.Fixed k fp) (h : s.Inv e req)
    (hs : s.step e ttl req a = some s') : s'.Fixed k fp := by
  obtain ⟨row, hrow, hd, rfl⟩ := hf
  exact h.done_step hs hrow hd

theorem Money.step (hm : s.Money e req) (h : s.Inv e req) (hs : s.step e ttl req a = some s')
    (hok : s.ownFingerprint e req a = true) : s'.Money e req := by
  -- calls that had responded, and the one that responds now
  have hresponded : ∀ {i : ι} {p : Phase K P}, s'.phase = Function.update s.phase i p →
      (∀ st q, p = .responded (.charged st q) →
        s'.Fixed (req i).key (e.fingerprint (req i).body)) →
      ∀ {j st q}, s'.phase j = .responded (.charged st q) →
        s'.Fixed (req j).key (e.fingerprint (req j).body) := by
    intro i p hphase hp j st q hj
    rw [hphase, Function.update_apply] at hj
    split at hj
    · next hji => exact hji ▸ hp st q hj
    · exact (hm.responded hj).step h hs
  have hcharges : s'.charges = s.charges → ∀ {j c}, (j, c) ∈ s'.charges →
      s'.Fixed c.idemKey (e.fingerprint (req j).body) := by
    intro hsame j c hc
    exact (hm.charges (hsame ▸ hc)).step h hs
  have heff := h.effect hs
  cases heff with
  | tick d => exact ⟨fun hc => hcharges rfl hc, fun hj => (hm.responded hj).step h hs⟩
  | wait hphase => exact hm
  | begin hphase => exact ⟨hcharges rfl, hresponded rfl (fun _ _ hp => by cases hp)⟩
  | win hphase => exact ⟨hcharges rfl, hresponded rfl (fun _ _ hp => by cases hp)⟩
  | lose hphase => exact ⟨hcharges rfl, hresponded rfl (fun _ _ hp => by cases hp)⟩
  | insertCharge hphase => exact ⟨hcharges rfl, hresponded rfl (fun _ _ hp => by cases hp)⟩
  | publish hphase => exact ⟨hcharges rfl, hresponded rfl (fun _ _ hp => by cases hp)⟩
  | crash => exact ⟨hcharges rfl, hresponded rfl (fun _ _ hp => by cases hp)⟩
  | @answer i deadline r hphase hr =>
    refine ⟨hcharges rfl, hresponded rfl fun st q hp => ?_⟩
    rw [Phase.responded.injEq] at hp
    subst hp
    obtain ⟨row, hrow, hfp, hans⟩ := Endpoint.replay_charged hr
    exact ⟨row, hrow, (e.answer_some hans).1, hfp⟩
  | @respond i c hphase =>
    refine ⟨hcharges rfl, hresponded rfl fun st q hp => ?_⟩
    have hcall := h.call i
    rw [hphase] at hcall
    exact hcall.1 ▸ (hm.charges hcall.2).step h hs
  | @commit i c row hphase hrow hpending =>
    have hcall := h.call i
    rw [hphase] at hcall
    refine ⟨fun {j c'} hc' => ?_, hresponded rfl (fun _ _ hp => by cases hp)⟩
    rcases List.mem_append.mp hc' with hc' | hc'
    · exact (hm.charges hc').step h hs
    · rw [List.mem_singleton, Prod.mk.injEq] at hc'
      obtain ⟨rfl, rfl⟩ := hc'
      simp only [ownFingerprint, hrow, decide_eq_true_eq] at hok
      have hself : ∀ r : Row ι (KeyRow F P),
          (Function.update s.keys (req j).key r c'.idemKey).committed = r.committed := by
        intro r
        rw [hcall.1, Function.update_self]
      exact ⟨_, hself _, rfl, hok⟩

/-! ### Ids -/

/-- The charge that call `i` has inserted and not committed. -/
def uncommitted (s : State ι K F P) (i : ι) : Option (Charge K) :=
  match s.phase i with
  | .charged c | .published c => some c
  | _ => none

/-- No two charges, committed or not, have the same id. -/
structure Ids (s : State ι K F P) : Prop where
  lt : ∀ {i c}, s.uncommitted i = some c → c.id < s.nextId
  charges_lt : ∀ {x}, x ∈ s.charges → x.2.id < s.nextId
  ne : ∀ {i j c c'}, i ≠ j → s.uncommitted i = some c → s.uncommitted j = some c' → c.id ≠ c'.id
  charges_ne : ∀ {i c x}, s.uncommitted i = some c → x ∈ s.charges → x.2.id ≠ c.id
  nodup : (s.charges.map fun x => x.2.id).Nodup

omit [DecidableEq ι] [DecidableEq K] [DecidableEq F] in
theorem Ids.init : (init : State ι K F P).Ids where
  lt hc := by cases hc
  charges_lt hx := by cases hx
  ne _ hc := by cases hc
  charges_ne hc := by cases hc
  nodup := List.nodup_nil

omit [DecidableEq ι] [DecidableEq K] [DecidableEq F] in
/-- Charges that were there before, in a state that has given out no fewer ids. -/
theorem Ids.of_subset (hid : s.Ids) (hlt : s.nextId ≤ s'.nextId) (hch : s'.charges = s.charges)
    (h : ∀ i c, s'.uncommitted i = some c → s.uncommitted i = some c) : s'.Ids where
  lt hc := Nat.lt_of_lt_of_le (hid.lt (h _ _ hc)) hlt
  charges_lt hx := Nat.lt_of_lt_of_le (hid.charges_lt (hch ▸ hx)) hlt
  ne hij hc hc' := hid.ne hij (h _ _ hc) (h _ _ hc')
  charges_ne hc hx := hid.charges_ne (h _ _ hc) (hch ▸ hx)
  nodup := hch ▸ hid.nodup

omit [DecidableEq K] [DecidableEq F] in
theorem uncommitted_enter_of_ne {i j : ι} {p : Phase K P} (hj : j ≠ i) :
    (s.enter i p).uncommitted j = s.uncommitted j := by
  simp [uncommitted, enter, Function.update_of_ne hj]

omit [DecidableEq K] [DecidableEq F] in
theorem uncommitted_enter_self {i : ι} {p : Phase K P} : (s.enter i p).uncommitted i =
    match p with
    | .charged c | .published c => some c
    | _ => none := by
  simp [uncommitted, enter]

omit [DecidableEq K] [DecidableEq F] in
/-- A call that goes to a phase without an uncommitted charge. -/
theorem Ids.leave (hid : s.Ids) {i : ι} {p : Phase K P}
    (hphase : s'.phase = Function.update s.phase i p) (hlt : s.nextId ≤ s'.nextId)
    (hch : s'.charges = s.charges) (hp : ∀ c, p ≠ .charged c ∧ p ≠ .published c) : s'.Ids := by
  refine hid.of_subset hlt hch fun j c hj => ?_
  unfold uncommitted at hj ⊢
  rw [hphase, Function.update_apply] at hj
  split at hj
  · next c' hc' =>
    split at hc'
    · exact absurd hc' (hp c').1
    · rwa [hc']
  · next c' hc' =>
    split at hc'
    · exact absurd hc' (hp c').2
    · rwa [hc']
  · cases hj

/-- **Ids stay unique.** -/
theorem Ids.step (hid : s.Ids) (h : s.Inv e req) (hs : s.step e ttl req a = some s') :
    s'.Ids := by
  cases h.effect hs with
  | tick d => exact hid.of_subset Nat.le.refl rfl fun _ _ => id
  | wait hphase => exact hid
  | begin hphase => exact hid.leave rfl Nat.le.refl rfl (by simp)
  | win hphase => exact hid.leave rfl Nat.le.refl rfl (by simp)
  | lose hphase => exact hid.leave rfl Nat.le.refl rfl (by simp)
  | answer hphase => exact hid.leave rfl Nat.le.refl rfl (by simp)
  | respond hphase => exact hid.leave rfl Nat.le.refl rfl (by simp)
  | crash => exact hid.leave rfl Nat.le.refl rfl (by simp)
  | @insertCharge i c hphase hnew hkey =>
    -- the new id is larger than all others
    have hold : ∀ {j c'}, j ≠ i → ({ s with nextId := s.nextId + 1 }.enter i
        (.charged c)).uncommitted j = some c' → s.uncommitted j = some c' :=
      fun hj hc' => by rwa [uncommitted_enter_of_ne hj] at hc'
    have hself : ∀ {c'}, ({ s with nextId := s.nextId + 1 }.enter i
        (.charged c)).uncommitted i = some c' → c'.id = s.nextId := by
      intro c' hc'
      rw [uncommitted_enter_self, Option.some_inj] at hc'
      rw [← hc', hnew]
    refine ⟨fun {j c'} hc' => ?_, fun hx => Nat.lt_succ_of_lt (hid.charges_lt hx),
      fun {j j' c' c''} hj hc' hc'' => ?_, fun {j c' x} hc' hx => ?_, hid.nodup⟩
    · by_cases hji : j = i
      · subst hji
        rw [hself hc']
        exact Nat.lt_succ_self _
      · exact Nat.lt_succ_of_lt (hid.lt (hold hji hc'))
    · by_cases hji : j = i
      · subst hji
        rw [hself hc']
        exact (Nat.ne_of_lt (hid.lt (hold (Ne.symm hj) hc''))).symm
      · by_cases hji' : j' = i
        · subst hji'
          rw [hself hc'']
          exact Nat.ne_of_lt (hid.lt (hold hji hc'))
        · exact hid.ne hj (hold hji hc') (hold hji' hc'')
    · by_cases hji : j = i
      · subst hji
        rw [hself hc']
        exact Nat.ne_of_lt (hid.charges_lt hx)
      · exact hid.charges_ne (hold hji hc') hx
  | @publish i c row hphase hnone hrow =>
    refine hid.of_subset Nat.le.refl rfl fun j c' hj => ?_
    by_cases hji : j = i
    · subst hji
      rw [uncommitted_enter_self, Option.some_inj] at hj
      rw [uncommitted, hphase, hj]
    · rwa [uncommitted_enter_of_ne hji] at hj
  | @commit i c row hphase hrow hpending =>
    have hi : s.uncommitted i = some c := by rw [uncommitted, hphase]
    have hold : ∀ {j c'}, ({ s with
        keys := Function.update s.keys (req i).key
          ⟨some { row with state := .done, response := some (e.payload c) }, none⟩
        charges := s.charges ++ [(i, c)] }.enter i (.committed c)).uncommitted j = some c' →
        j ≠ i ∧ s.uncommitted j = some c' := by
      intro j c' hc'
      by_cases hji : j = i
      · subst hji
        rw [uncommitted_enter_self] at hc'
        cases hc'
      · rw [uncommitted_enter_of_ne hji] at hc'
        exact ⟨hji, hc'⟩
    refine ⟨fun hc' => hid.lt (hold hc').2, fun {x} hx => ?_,
      fun hj hc' hc'' => hid.ne hj (hold hc').2 (hold hc'').2, fun {j c' x} hc' hx => ?_, ?_⟩
    · rcases List.mem_append.mp hx with hx | hx
      · exact hid.charges_lt hx
      · rw [List.mem_singleton.mp hx]
        exact hid.lt hi
    · obtain ⟨hji, hc'⟩ := hold hc'
      rcases List.mem_append.mp hx with hx | hx
      · exact hid.charges_ne hc' hx
      · rw [List.mem_singleton.mp hx]
        exact hid.ne (Ne.symm hji) hi hc'
    · show ((s.charges ++ [(i, c)]).map fun x => x.2.id).Nodup
      rw [List.map_append, List.nodup_append]
      refine ⟨hid.nodup, by simp, ?_⟩
      intro x hx y hy
      obtain ⟨z, hz, rfl⟩ := List.mem_map.mp hx
      rw [List.mem_singleton.mp hy]
      exact hid.charges_ne hi hz

omit [DecidableEq ι] [DecidableEq K] [DecidableEq F] in
/-- With the fingerprints in order, answers report the right money. -/
theorem Money.sameMoney (hm : s.Money e req) (h : s.Inv e req) (hid : s.Ids) :
    s.SameMoney e req := by
  refine ⟨hid.nodup, fun i st p hi => ?_⟩
  obtain ⟨row, hrow, -, hfp⟩ := hm.responded hi
  have hsame : ∀ j c, (j, c) ∈ s.charges → c.idemKey = (req i).key →
      e.fingerprint (req j).body = e.fingerprint (req i).body := by
    intro j c hc hk
    obtain ⟨row', hrow', -, hfp'⟩ := hm.charges hc
    rw [hk, hrow, Option.some_inj] at hrow'
    rw [← hfp', ← hfp, hrow']
  refine ⟨?_, hsame⟩
  have hcall := h.call i
  rw [hi] at hcall
  obtain ⟨q, hq, j, c, hmem, hkey, hcid⟩ := hcall
  exact ⟨q, j, c, hq, hmem, hcid, hkey, hsame j c hmem hkey⟩

end State

open State

/-- **Same key, same money.**  In every run of the lab's `charge_correct` in which
no call commits its work over a row with the fingerprint of another body, every
answer reports a charge that was made from a body with the call's fingerprint. -/
theorem charge_correct_same_money (b : Bodies Body F) (ttl : ℕ) (req : ι → Request K Body)
    {s : State ι K F LabPayload}
    (h : Reach (guarded (ownFingerprint (lab b) req) (State.step (lab b) ttl req)) init s) :
    s.SameMoney (lab b) req := by
  have hP := h.invariant (P := fun s => s.Inv (lab b) req ∧ s.Money (lab b) req ∧ s.Ids)
    ⟨.init, .init, .init⟩ ?_
  · exact hP.2.1.sameMoney hP.1 hP.2.2
  · rintro s a s' ⟨hinv, hm, hid⟩ hs
    obtain ⟨hok, hs⟩ := step_of_guarded hs
    exact ⟨hinv.step hs, hm.step hinv hs hok, hid.step hinv hs⟩

/-- Four calls with one key, of which two share a body and two another. -/
def fourCalls (i : Fin 4) : Request ℕ ℤ := if i = 0 ∨ i = 2 then ⟨7, 100⟩ else ⟨7, 250⟩

/-- Call `0` is charged, call `1` is refused, and call `2` gets the answer of call `0`. -/
theorem charge_correct_same_money_fourCalls : ∃ s : State (Fin 4) ℕ ℤ LabPayload,
    s.phase 2 = .responded (.charged 200 (some ⟨1, true, "correct"⟩)) ∧
    s.phase 1 = .responded (.refused 422 (some "key_reused_with_different_body")) ∧
    s.SameMoney (lab amounts) fourCalls := by
  have hrun : ((exec (guarded (ownFingerprint (lab amounts) fourCalls)
      (State.step (lab amounts) 60 fourCalls)) init
      [.begin 0, .claim 0, .insertCharge 0, .publish 0, .commit 0, .respond 0, .begin 1, .claim 1,
        .replay 1 false, .begin 2, .claim 2, .replay 2 false]).map fun s =>
      (s.phase 2, s.phase 1)) = some (.responded (.charged 200 (some ⟨1, true, "correct"⟩)),
        .responded (.refused 422 (some "key_reused_with_different_body"))) := by decide
  obtain ⟨s, hs, hobs⟩ := Option.map_eq_some_iff.mp hrun
  rw [Prod.mk.injEq] at hobs
  exact ⟨s, hobs.1, hobs.2, charge_correct_same_money amounts 60 fourCalls (.of_exec _ hs)⟩

/-- Call `1` takes over the expired claim of call `0`, and with it the fingerprint
of the row; call `0` finishes, and call `3`, with the body of call `1`, is told
that the charge of the other body is its own. -/
theorem charge_correct_other_money : ¬ ∀ s : State (Fin 4) ℕ ℤ LabPayload,
    Reach (State.step (lab amounts) 60 fourCalls) init s → s.SameMoney (lab amounts) fourCalls := by
  intro h
  have hrun : ((exec (State.step (lab amounts) 60 fourCalls) init
      [.begin 0, .claim 0, .tick 61, .begin 1, .claim 1, .insertCharge 0, .publish 0, .commit 0,
        .begin 3, .claim 3, .replay 3 false]).map fun s => (s.phase 3, s.charges)) =
      some (.responded (.charged 200 (some ⟨1, true, "correct"⟩)),
        [(0, ⟨1, 7, 100, "usd"⟩)]) := by decide
  obtain ⟨s, hs, hobs⟩ := Option.map_eq_some_iff.mp hrun
  rw [Prod.mk.injEq] at hobs
  have hsame := ((h s (.of_exec _ hs)).2 3 _ _ hobs.1).2 0 ⟨1, 7, 100, "usd"⟩ (by simp [hobs.2]) rfl
  exact absurd hsame (by decide)

end Idempotency
end SepLab
