import SepLab.Idempotency.ChargeCorrect

/-!
# `charge_correct_single_txn`: claim and work in one transaction

The idempotency topic's third implementation.  The key's row is inserted and
finished by one transaction, so that nobody ever sees it in progress: a loser's
`INSERT … ON CONFLICT DO NOTHING` waits for the winner, and becomes the winner
itself if that one rolls back.  The work is that of `Server.charge_correct`, and
the calls go through the same phases.

## Main definitions

* `State.insertKey`, `State.readKey` — the two statements that differ.
* `singleTxn b ttl req` — the calls' statements, one at a time in any order.
* `SingleTxn.ExactlyOnce` — what the endpoint is for.
* `SingleTxn.Inv` — uncommitted rows are new, and committed ones are finished.

## Main results

* `SingleTxn.Inv.step` — every statement keeps the invariant.
* `charge_correct_single_txn_exactly_once` — every run is exactly-once.
-/

namespace SepLab
namespace Idempotency

variable {K Body F ι : Type} [DecidableEq ι] [DecidableEq K] [DecidableEq F]

namespace State

variable (b : Bodies Body F) (ttl : ℕ) (req : ι → Request K Body)

/-- `INSERT INTO idempotency_keys … ON CONFLICT (key) DO NOTHING RETURNING key`: it waits
while another transaction has inserted the row and not committed. -/
def insertKey (s : State ι K F ChargePayload) (i : ι) : Option (State ι K F ChargePayload) :=
  match s.phase i with
  | .claiming now =>
    let k := (req i).key
    match (s.keys k).committed with
    | some _ => some (s.enter i .replaying)
    | none =>
      if (s.keys k).free i then
        let row := (server b : Endpoint K Body F ChargePayload).excluded ttl (req i).body now
        some ({ s with keys := s.keys.put k i (some row) }.enter i .holding)
      else none
  | _ => none

/-- The loser's `SELECT`, on a fresh snapshot, and its answer; without a row it raises. -/
def readKey (s : State ι K F ChargePayload) (i : ι) : Option (State ι K F ChargePayload) :=
  match s.phase i with
  | .replaying =>
    match (s.keys (req i).key).seen i with
    | none => some (s.enter i .crashed)
    | some row =>
      if row.fingerprint ≠ b.fingerprint (req i).body then
        some (s.enter i (.responded (.refused 422 none)))
      else if row.state = .done then some (s.enter i (.responded (.charged 200 row.response)))
      else some (s.enter i (.responded (.refused 409 none)))
  | _ => none

end State

/-- One statement of one call of `charge_correct_single_txn`. -/
def singleTxn (b : Bodies Body F) (ttl : ℕ) (req : ι → Request K Body)
    (s : State ι K F ChargePayload) : Action ι → Option (State ι K F ChargePayload)
  | .tick d => some { s with clock := s.clock + d }
  | .begin i => s.begin i
  | .claim i => s.insertKey b ttl req i
  | .replay i _ => s.readKey b req i
  | .insertCharge i => s.insertCharge (server b) req i
  | .publish i => s.publish (server b) req i
  | .commit i => s.commit i
  | .respond i => s.respond (server b) i
  | .crash i => s.crash i

namespace SingleTxn

variable (b : Bodies Body F) (ttl : ℕ) (req : ι → Request K Body)

/-- The body of the answer to a charge. -/
def payload (c : Charge K) : ChargePayload := ⟨c.id, c.amountCents, c.currency, "succeeded"⟩

/-- What the endpoint is for: a key is charged once, and every call with that key
gets the answer to the charge, or is refused because its body is another one. -/
structure ExactlyOnce (s : State ι K F ChargePayload) : Prop where
  once : ∀ k, (s.chargesOf k).length ≤ 1
  answer : ∀ i st p, s.phase i = .responded (.charged st p) →
    st = 200 ∧ ∃ j c, s.chargesOf (req i).key = [(j, c)] ∧ p = some (payload c)
  /-- A call that finds the row of another body is refused, and answers nothing else. -/
  mismatch : ∀ i row, (s.keys (req i).key).committed = some row →
    row.fingerprint ≠ b.fingerprint (req i).body →
      (∀ r, s.phase i = .responded r → r = .refused 422 none) ∧
      ∀ now deadline, s.phase i = .claiming now → ∃ s',
        exec (singleTxn b ttl req) s [.claim i, .replay i deadline] = some s' ∧
          s'.phase i = .responded (.refused 422 none)
  done : ∀ k row, (s.keys k).committed = some row → row.state = .done

/-- The transaction of call `i` has inserted the row of its key. -/
def Owns (s : State ι K F ChargePayload) (i : ι) : Prop :=
  ∃ row, (s.keys (req i).key).pending = some (i, some row) ∧
    row.fingerprint = b.fingerprint (req i).body

/-- What holds of call `i` in the phase `p`. -/
def CallOk (s : State ι K F ChargePayload) (i : ι) : Phase K ChargePayload → Prop
  | .replaying => (s.keys (req i).key).committed ≠ none
  | .holding => Owns b req s i
  | .charged c => c.idemKey = (req i).key ∧ Owns b req s i
  | .published c => c.idemKey = (req i).key ∧ ∃ row,
      (s.keys (req i).key).pending = some (i, some row) ∧
      row.fingerprint = b.fingerprint (req i).body ∧ row.state = .done ∧
      row.response = some (payload c)
  | .committed c => ∃ row, (s.keys (req i).key).committed = some row ∧
      row.fingerprint = b.fingerprint (req i).body ∧ row.response = some (payload c)
  | .responded r => ∃ row, (s.keys (req i).key).committed = some row ∧
      (row.fingerprint ≠ b.fingerprint (req i).body → r = .refused 422 none) ∧
      (row.fingerprint = b.fingerprint (req i).body → r = .charged 200 row.response)
  | _ => True

/-- Uncommitted rows are new, committed ones are finished with the one charge of their key. -/
structure Inv (s : State ι K F ChargePayload) : Prop where
  call : ∀ i, CallOk b req s i (s.phase i)
  pending : ∀ {k i v}, (s.keys k).pending = some (i, v) →
    (req i).key = k ∧ (s.keys k).committed = none ∧ s.AtWork i
  rows : ∀ {k row}, (s.keys k).committed = some row → row.state = .done ∧
    ∃ j c, (j, c) ∈ s.charges ∧ c.idemKey = k ∧ row.response = some (payload c)
  charges : ∀ {j c}, (j, c) ∈ s.charges → (s.keys c.idemKey).committed ≠ none
  once : ∀ k, (s.chargesOf k).length ≤ 1

variable {b ttl req} {s s' : State ι K F ChargePayload}

omit [DecidableEq ι] [DecidableEq K] [DecidableEq F] in
/-- What others do leaves a call as it is, if committed rows stay and they leave
alone the row that it has inserted. -/
theorem CallOk.mono {i : ι} {p : Phase K ChargePayload} (h : CallOk b req s i p)
    (hrow : ∀ k row, (s.keys k).committed = some row → (s'.keys k).committed = some row)
    (hown : (∃ v, (s.keys (req i).key).pending = some (i, v)) →
      s'.keys (req i).key = s.keys (req i).key) : CallOk b req s' i p := by
  have howns : Owns b req s i → Owns b req s' i := by
    rintro ⟨row, hp, hfp⟩
    refine ⟨row, ?_, hfp⟩
    rwa [hown ⟨_, hp⟩]
  -- a call speaks of the committed row of its key or of its own pending one, and both stay
  cases p with
  | replaying =>
    obtain ⟨row, hr⟩ := Option.ne_none_iff_exists'.mp h
    exact Option.ne_none_iff_exists'.mpr ⟨row, hrow _ _ hr⟩
  | holding => exact howns h
  | charged c => exact ⟨h.1, howns h.2⟩
  | published c =>
    obtain ⟨hkey, row, hp, hrest⟩ := h
    refine ⟨hkey, row, ?_, hrest⟩
    rwa [hown ⟨_, hp⟩]
  | committed c =>
    obtain ⟨row, hr, hrest⟩ := h
    exact ⟨row, hrow _ _ hr, hrest⟩
  | responded r =>
    obtain ⟨row, hr, hrest⟩ := h
    exact ⟨row, hrow _ _ hr, hrest⟩
  | _ => trivial

omit [DecidableEq ι] [DecidableEq F] in
theorem Inv.init : Inv b req (State.init : State ι K F ChargePayload) where
  call _ := trivial
  pending h := by cases h
  rows h := by cases h
  charges h := by cases h
  once _ := Nat.zero_le 1

omit [DecidableEq F] in
/-- **A call acts.**  It goes to phase `p`, committed rows stay, and what others
have inserted stays theirs. -/
theorem Inv.act (h : Inv b req s) {i : ι} {p : Phase K ChargePayload}
    (hphase : s'.phase = Function.update s.phase i p) (hcall : CallOk b req s' i p)
    (hrow : ∀ k row, (s.keys k).committed = some row → (s'.keys k).committed = some row)
    (hkept : ∀ k j v, j ≠ i → (s.keys k).pending = some (j, v) → s'.keys k = s.keys k)
    (hpending : ∀ k j v, (s'.keys k).pending = some (j, v) →
      j ≠ i ∧ (s.keys k).pending = some (j, v) ∨
        j = i ∧ (req i).key = k ∧ (s'.keys k).committed = none ∧ s'.AtWork i)
    (hrows : ∀ k row, (s'.keys k).committed = some row → row.state = .done ∧
      ∃ j c, (j, c) ∈ s'.charges ∧ c.idemKey = k ∧ row.response = some (payload c))
    (hcharges : ∀ j c, (j, c) ∈ s'.charges → (s'.keys c.idemKey).committed ≠ none)
    (honce : ∀ k, (s'.chargesOf k).length ≤ 1) : Inv b req s' := by
  refine ⟨fun j => ?_, fun {k j v} hp => ?_, fun hr => hrows _ _ hr, fun hc => hcharges _ _ hc,
    honce⟩
  · rw [hphase]
    -- the call that acts; of the others only what they rely on is looked at
    by_cases hj : j = i
    · subst hj
      rw [Function.update_self]
      exact hcall
    · rw [Function.update_of_ne hj]
      refine (h.call j).mono hrow ?_
      rintro ⟨v, hp⟩
      exact hkept _ j v hj hp
  -- a pending row is the call's own or another's as before
  · rcases hpending k j v hp with ⟨hj, hp⟩ | ⟨rfl, hk, hnone, hwork⟩
    · obtain ⟨hk, hnone, hwork⟩ := h.pending hp
      refine ⟨hk, ?_, ?_⟩
      · rw [hkept k j v hj hp]
        exact hnone
      · unfold State.AtWork at hwork ⊢
        rw [hphase, Function.update_of_ne hj]
        exact hwork
    · exact ⟨hk, hnone, hwork⟩

omit [DecidableEq F] in
/-- A call that commits nothing acts on its own row only. -/
theorem Inv.act_own (h : Inv b req s) {i : ι} {p : Phase K ChargePayload}
    (hphase : s'.phase = Function.update s.phase i p) (hcall : CallOk b req s' i p)
    (hcom : ∀ k, (s'.keys k).committed = (s.keys k).committed)
    (hch : s'.charges = s.charges)
    (hkept : ∀ k j v, j ≠ i → (s.keys k).pending = some (j, v) → s'.keys k = s.keys k)
    (hpending : ∀ k j v, (s'.keys k).pending = some (j, v) →
      j ≠ i ∧ (s.keys k).pending = some (j, v) ∨
        j = i ∧ (req i).key = k ∧ (s.keys k).committed = none ∧ s'.AtWork i) :
    Inv b req s' := by
  -- neither rows nor charges are committed in this step
  refine h.act hphase hcall (fun k row hr => by rw [hcom, hr]) hkept ?_ ?_ ?_ ?_
  · intro k j v hp
    rw [hcom]
    exact hpending k j v hp
  · intro k row hr
    rw [hcom] at hr
    rw [hch]
    exact h.rows hr
  · intro j c hc
    rw [hch] at hc
    rw [hcom]
    exact h.charges hc
  · intro k
    rw [State.chargesOf, hch]
    exact h.once k

omit [DecidableEq F] in
/-- A call goes on without touching the tables, and stays at work if it was. -/
theorem Inv.enter (h : Inv b req s) {i : ι} {p : Phase K ChargePayload}
    (hwork : s.AtWork i → (s.enter i p).AtWork i) (hcall : CallOk b req s i p) :
    Inv b req (s.enter i p) := by
  refine h.act_own rfl (hcall.mono (fun _ _ => id) fun _ => rfl) (fun _ => rfl) rfl
    (fun _ _ _ _ _ => rfl) fun k j v hp => ?_
  by_cases hj : j = i
  · subst hj
    obtain ⟨hk, hnone, hw⟩ := h.pending hp
    exact Or.inr ⟨rfl, hk, hnone, hwork hw⟩
  · exact Or.inl ⟨hj, hp⟩

omit [DecidableEq F] in
/-- A call writes its row, which it has inserted or which is not there. -/
theorem Inv.put (h : Inv b req s) {i : ι} {p : Phase K ChargePayload}
    {row : KeyRow F ChargePayload} (hfree : (s.keys (req i).key).free i = true)
    (hnone : (s.keys (req i).key).committed = none)
    (hwork : (s.enter i p).AtWork i)
    (hcall : ∀ t : State ι K F ChargePayload,
      (t.keys (req i).key).pending = some (i, some row) → CallOk b req t i p) :
    Inv b req ({ s with keys := s.keys.put (req i).key i (some row) }.enter i p) := by
  have hself : s.keys.put (req i).key i (some row) (req i).key =
      (s.keys (req i).key).put i (some row) := Table.put_self
  refine h.act_own rfl (hcall _ (congrArg Row.pending hself)) ?_ rfl ?_ ?_
  · exact fun k => Table.committed_put k _
  · intro k j v hj hp
    -- the row of another key cannot be in the way, since this one was free
    refine Table.put_of_ne ?_
    rintro rfl
    exact hj (Row.free_iff.mp hfree j v hp)
  · intro k j v hp
    rcases Table.pending_of_put hp with ⟨rfl, heq⟩ | ⟨hk, hold⟩
    · obtain ⟨rfl, -⟩ := Prod.mk.inj heq
      exact Or.inr ⟨rfl, rfl, hnone, hwork⟩
    · refine Or.inl ⟨?_, hold⟩
      rintro rfl
      exact hk (h.pending hold).1.symm

omit [DecidableEq K] [DecidableEq F] in
/-- The row that a call has inserted is free for it, and not there for the others. -/
theorem Owns.free {i : ι} (ho : Owns b req s i) : (s.keys (req i).key).free i = true := by
  obtain ⟨row, hp, -⟩ := ho
  rw [Row.free_iff]
  intro u v hu
  rw [hp, Option.some_inj, Prod.mk.injEq] at hu
  exact hu.1.symm

omit [DecidableEq F] in
/-- The work commits: the row comes with the one charge of its key. -/
theorem Inv.commit (h : Inv b req s) {i : ι} {c : Charge K} (hphase : s.phase i = .published c) :
    Inv b req ({ s with
      keys := s.keys.commit i
      charges := s.charges ++ [(i, c)] }.enter i (.committed c)) := by
  have hcall := h.call i
  rw [hphase] at hcall
  obtain ⟨hkey, row, hp, hfp, hdone, hresp⟩ := hcall
  have hself : s.keys.commit i (req i).key = ⟨some row, none⟩ := Row.commit_of_pending hp
  have hother : ∀ k, k ≠ (req i).key → s.keys.commit i k = s.keys k := by
    intro k hk
    exact Row.commit_of_ne fun v hv => hk (h.pending hv).1.symm
  have hnone : (s.keys (req i).key).committed = none := (h.pending hp).2.1
  -- nobody has been charged for the key, since its row was not committed
  have hfresh : s.chargesOf (req i).key = [] := by
    rw [State.chargesOf, List.filter_eq_nil_iff]
    rintro ⟨j, c'⟩ hc' hk
    exact h.charges hc' (by rw [of_decide_eq_true hk, hnone])
  refine h.act rfl ⟨row, congrArg Row.committed hself, hfp, hresp⟩ ?_ ?_ ?_ ?_ ?_ ?_
  · intro k row' hr
    show (s.keys.commit i k).committed = some row'
    rw [hother k fun hk => by simp [hk, hnone] at hr, hr]
  · exact fun k j v hj hv => Row.commit_of_ne (Row.pending_ne_of_ne hv hj)
  · exact fun k j v hv => Or.inl (Row.pending_of_commit hv).symm
  · intro k row' hr
    replace hr : (s.keys.commit i k).committed = some row' := hr
    -- the key's row is committed with its charge, every other one is as before
    by_cases hk : k = (req i).key
    · rw [hk, hself, Option.some_inj] at hr
      exact hr ▸ ⟨hdone, i, c, by simp [State.enter], hkey.trans hk.symm, hresp⟩
    · rw [hother k hk] at hr
      obtain ⟨hd, j, c', hmem, hrest⟩ := h.rows hr
      exact ⟨hd, j, c', List.mem_append_left _ hmem, hrest⟩
  · intro j c' hc'
    show (s.keys.commit i c'.idemKey).committed ≠ none
    by_cases hk : c'.idemKey = (req i).key
    · rw [hk, hself]
      exact Option.some_ne_none row
    · rw [hother _ hk]
      rcases List.mem_append.mp hc' with hc' | hc'
      · exact h.charges hc'
      · obtain ⟨rfl, rfl⟩ := Prod.mk.inj (List.mem_singleton.mp hc')
        exact absurd hkey hk
  · intro k
    show ((s.charges ++ [(i, c)]).filter fun x => decide (x.2.idemKey = k)).length ≤ 1
    rw [List.filter_append, List.length_append]
    -- the first charge of the key
    by_cases hk : k = (req i).key
    · subst hk
      replace hfresh : s.charges.filter (fun x => decide (x.2.idemKey = (req i).key)) = [] := hfresh
      rw [hfresh]
      exact Nat.le_trans (Nat.le_of_eq (Nat.zero_add _)) (List.length_filter_le _ _)
    · rw [List.filter_cons_of_neg (by simpa [hkey] using Ne.symm hk)]
      exact h.once k

omit [DecidableEq F] in
/-- A crash takes back the row that the call has inserted. -/
theorem Inv.crash (h : Inv b req s) {i : ι} :
    Inv b req ({ s with keys := s.keys.rollback i }.enter i .crashed) := by
  refine h.act_own rfl trivial (fun k => Row.committed_rollback) rfl ?_ ?_
  · exact fun k j v hj hp => Row.rollback_of_ne (Row.pending_ne_of_ne hp hj)
  · intro k j v hp
    exact Or.inl (Row.pending_of_rollback hp).symm

omit [DecidableEq F] in
/-- A committed row is not locked by anybody, so that all calls see it. -/
theorem Inv.seen (h : Inv b req s) {k : K} {row : KeyRow F ChargePayload}
    (hrow : (s.keys k).committed = some row) (i : ι) : (s.keys k).seen i = some row := by
  have hlock : (s.keys k).pending = none := by
    cases hp : (s.keys k).pending with
    | none => rfl
    | some q =>
      have hnone := (h.pending hp).2.1
      rw [hrow] at hnone
      cases hnone
  rw [Row.seen_of_none hlock, hrow]

/-- **Every statement keeps the invariant.** -/
theorem Inv.step (h : Inv b req s) {a : Action ι} (hs : singleTxn b ttl req s a = some s') :
    Inv b req s' := by
  cases a with
  -- time alone changes nothing
  | tick d =>
    obtain rfl := Option.some_inj.mp hs
    exact ⟨h.call, h.pending, h.rows, h.charges, h.once⟩
  | begin i =>
    simp only [singleTxn, State.begin] at hs
    split at hs
    · next hphase =>
      obtain rfl := Option.some_inj.mp hs
      exact h.enter (fun hw => by simp [State.AtWork, hphase] at hw) trivial
    · cases hs
  | claim i =>
    simp only [singleTxn, State.insertKey] at hs
    split at hs
    · next now hphase =>
      split at hs
      -- a committed row: the INSERT does nothing, and the call goes on to read it
      · next row hrow =>
        obtain rfl := Option.some_inj.mp hs
        refine h.enter (fun hw => by simp [State.AtWork, hphase] at hw) ?_
        exact Option.ne_none_iff_exists'.mpr ⟨row, hrow⟩
      -- none, and nobody's pending either: the row is the call's own
      · next hnone =>
        split at hs
        · next hfree =>
          obtain rfl := Option.some_inj.mp hs
          exact h.put hfree hnone (by simp [State.AtWork, State.enter]) fun t ht => ⟨_, ht, rfl⟩
        · cases hs
    · cases hs
  | replay i deadline =>
    simp only [singleTxn, State.readKey] at hs
    split at hs
    · next hphase =>
      have hidle : ¬ s.AtWork i := by simp [State.AtWork, hphase]
      have hcall := h.call i
      rw [hphase] at hcall
      obtain ⟨row, hrow⟩ := Option.ne_none_iff_exists'.mp hcall
      rw [h.seen hrow] at hs
      simp only at hs
      split at hs
      -- another body is refused
      · next hfp =>
        obtain rfl := Option.some_inj.mp hs
        refine h.enter (fun hw => absurd hw hidle) ⟨row, hrow, fun _ => rfl, fun heq => ?_⟩
        exact absurd heq hfp
      -- the same body gets the response of the row, which is `done` like every committed row
      · next hfp =>
        rw [if_pos (h.rows hrow).1] at hs
        obtain rfl := Option.some_inj.mp hs
        refine h.enter (fun hw => absurd hw hidle) ⟨row, hrow, fun hne => ?_, fun _ => rfl⟩
        exact absurd hne hfp
    · cases hs
  | insertCharge i =>
    simp only [singleTxn, State.insertCharge] at hs
    split at hs
    · next hphase =>
      obtain ⟨c, hc, rfl⟩ := Option.map_eq_some_iff.mp hs
      have hcall := h.call i
      rw [hphase] at hcall
      have h' : Inv b req { s with nextId := s.nextId + 1 } :=
        ⟨h.call, h.pending, h.rows, h.charges, h.once⟩
      exact h'.enter (fun _ => by simp [State.AtWork, State.enter])
        ⟨((server b).insertCharge_some hc).2, hcall⟩
    · cases hs
  | publish i =>
    simp only [singleTxn, State.publish] at hs
    split at hs
    · next c hphase =>
      have hcall := h.call i
      rw [hphase] at hcall
      obtain ⟨hkey, ho⟩ := hcall
      have hfree := ho.free
      rw [if_pos hfree] at hs
      obtain ⟨row, hp, hfp⟩ := ho
      -- the call updates the row that it has inserted
      rw [Row.seen_of_pending hp] at hs
      obtain rfl := Option.some_inj.mp hs
      exact h.put hfree (h.pending hp).2.1 (by simp [State.AtWork, State.enter])
        fun t ht => ⟨hkey, _, ht, hfp, rfl, rfl⟩
    · cases hs
  | commit i =>
    simp only [singleTxn, State.commit] at hs
    split at hs
    · next c hphase =>
      obtain rfl := Option.some_inj.mp hs
      exact h.commit hphase
    · cases hs
  | respond i =>
    simp only [singleTxn, State.respond] at hs
    split at hs
    · next c hphase =>
      obtain rfl := Option.some_inj.mp hs
      have hcall := h.call i
      rw [hphase] at hcall
      obtain ⟨row, hrow, hfp, hresp⟩ := hcall
      refine h.enter (fun hw => by simp [State.AtWork, hphase] at hw) ⟨row, hrow, ?_, fun _ => ?_⟩
      · exact fun hne => absurd hfp hne
      · rw [hresp]
        rfl
    · cases hs
  | crash i =>
    simp only [singleTxn, State.crash] at hs
    -- only a call in its transaction can crash
    split at hs
    · cases hs
    · cases hs
    · cases hs
    · rw [Option.some_inj] at hs
      exact hs ▸ h.crash

/-- The invariant is as good as what the endpoint is for. -/
theorem Inv.exactlyOnce (h : Inv b req s) : ExactlyOnce b ttl req s where
  once := h.once
  answer i st p hi := by
    have hcall := h.call i
    rw [hi] at hcall
    obtain ⟨row, hrow, hne, heq⟩ := hcall
    by_cases hfp : row.fingerprint = b.fingerprint (req i).body
    · obtain ⟨-, j, c, hmem, hkey, hresp⟩ := h.rows hrow
      have hr := heq hfp
      rw [hresp, Response.charged.injEq] at hr
      refine ⟨hr.1, j, c, ?_, hr.2⟩
      have hmem' : (j, c) ∈ s.chargesOf (req i).key :=
        List.mem_filter.mpr ⟨hmem, decide_eq_true hkey⟩
      -- the only charge of the key is the one that the row's response tells of
      obtain ⟨x, hx⟩ := List.length_eq_one_iff.mp
        (Nat.le_antisymm (h.once _) (List.length_pos_of_mem hmem'))
      rw [hx, List.mem_singleton] at hmem'
      rw [hx, hmem']
    · cases hne hfp
  mismatch i row hrow hfp := by
    constructor
    · intro r hr
      have hcall := h.call i
      rw [hr] at hcall
      obtain ⟨row', hrow', hne, -⟩ := hcall
      rw [hrow, Option.some_inj] at hrow'
      exact hne (hrow' ▸ hfp)
    -- the call would insert nothing, read the row, and be refused
    · intro now deadline hi
      have hclaim : singleTxn b ttl req s (.claim i) = some (s.enter i .replaying) := by
        simp only [singleTxn, State.insertKey, hi, hrow]
      have hread : singleTxn b ttl req (s.enter i .replaying) (.replay i deadline) =
          some ((s.enter i .replaying).enter i (.responded (.refused 422 none))) := by
        simp [singleTxn, State.readKey, State.enter, h.seen hrow, hfp]
      refine ⟨(s.enter i .replaying).enter i (.responded (.refused 422 none)), ?_,
        Function.update_self _ _ _⟩
      rw [exec_cons, hclaim, Option.bind_some, exec_cons, hread]
      rfl
  done _ _ hrow := (h.rows hrow).1

end SingleTxn

/-- **`charge_correct_single_txn` charges exactly once**, in every interleaving of
the calls' statements, whichever of them crash. -/
theorem charge_correct_single_txn_exactly_once (b : Bodies Body F) (ttl : ℕ)
    (req : ι → Request K Body) {s : State ι K F ChargePayload}
    (h : Reach (singleTxn b ttl req) State.init s) : SingleTxn.ExactlyOnce b ttl req s :=
  (h.invariant .init fun _ _ _ hinv hs => SingleTxn.Inv.step hinv hs).exactlyOnce

/-- Call `0` inserts the key and crashes, call `1` was waiting and takes its place;
call `2` has another body, and call `3` the same. -/
def waiters (i : ℕ) : Request ℕ ℤ := if i = 2 then ⟨7, 250⟩ else ⟨7, 100⟩

/-- The key is charged by call `1`, call `2` is refused, call `3` gets the answer of call `1`. -/
theorem charge_correct_single_txn_exactly_once_waiters : ∃ s : State ℕ ℕ ℤ ChargePayload,
    s.charges = [(1, ⟨2, 7, 100, "usd"⟩)] ∧
    s.phase 2 = .responded (.refused 422 none) ∧
    s.phase 3 = .responded (.charged 200 (some ⟨2, 100, "usd", "succeeded"⟩)) ∧
    SingleTxn.ExactlyOnce ⟨id, some, fun _ => some "usd"⟩ 60 waiters s := by
  have hrun : ((exec (singleTxn ⟨id, some, fun _ => some "usd"⟩ 60 waiters) State.init
      [.begin 0, .begin 1, .claim 0, .insertCharge 0, .crash 0, .claim 1, .insertCharge 1,
        .publish 1, .commit 1, .begin 2, .claim 2, .replay 2 false, .begin 3, .claim 3,
        .replay 3 false]).map fun s => (s.charges, s.phase 2, s.phase 3)) =
      some ([(1, ⟨2, 7, 100, "usd"⟩)], .responded (.refused 422 none),
        .responded (.charged 200 (some ⟨2, 100, "usd", "succeeded"⟩))) := by decide
  obtain ⟨s, hs, hobs⟩ := Option.map_eq_some_iff.mp hrun
  simp only [Prod.mk.injEq] at hobs
  exact ⟨s, hobs.1, hobs.2.1, hobs.2.2,
    charge_correct_single_txn_exactly_once _ 60 waiters (.of_exec _ hs)⟩

end Idempotency
end SepLab
