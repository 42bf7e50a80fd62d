import Mathlib.Data.Int.Notation
import SepLab.Lib.ReadCommitted
import SepLab.Lib.Transition

/-!
# Implementations B and C of the idempotency race

`handle_b` and `handle_c` of `idempotency_race.py`: the statements of concurrent calls, in
any order, on the tables `idempotency_keys` and `charges`.  Both do all their work in one
transaction.  B claims a key with `INSERT … ON CONFLICT DO NOTHING`, which waits for an
uncommitted row of the key and inserts its own if that one is rolled back; C takes the
advisory lock of the key's hash, which is released after its commit is visible.  A call may
be aborted at any statement before its commit.

## Main definitions

* `Impl`, `Request`, `KeyRow`, `Charge` — the two implementations and the data.
* `State`, `Action`, `step` — the statements of the calls.
* `Inv` — what rows, charges and locks have to do with the calls.

## Main results

* `Inv.step` — every statement keeps the invariant, in both implementations.
-/

namespace SepLab
namespace IdempotencyRace

/-- The two implementations. -/
inductive Impl
  | b
  | c
  deriving DecidableEq, Repr

/-- A request with its idempotency key. -/
structure Request (K Body : Type) where
  key : K
  body : Body

/-- `idempotency_keys.state` -/
inductive KeyState
  | inFlight
  | succeeded
  | failedPermanently
  deriving DecidableEq, Repr

/-- The stored response `{"charge_id": …, "status": "succeeded"}`. -/
structure Response where
  chargeId : ℕ
  status : String
  deriving DecidableEq, Repr

/-- A row of `idempotency_keys` for the tenant of the lab. -/
structure KeyRow (F : Type) where
  fingerprint : F
  state : KeyState
  response : Option Response
  deriving DecidableEq, Repr

/-- A row of `charges`. -/
structure Charge (K : Type) where
  id : ℕ
  runId : String
  impl : Impl
  idempotencyKey : K
  amountCents : ℤ
  deriving DecidableEq, Repr

/-- What the handlers read of a body: its fingerprint and `body["amount_cents"]`. -/
structure Bodies (Body F : Type) where
  fingerprint : Body → F
  amountCents : Body → ℤ

/-- How far a call has got. -/
inductive Phase (K : Type)
  | idle
  /-- In its transaction, before its first statement. -/
  | begun
  /-- C has the advisory lock. -/
  | locked
  /-- C has seen no row of the key. -/
  | absent
  /-- B has found a row of the key. -/
  | lost
  /-- It has inserted the row of the key. -/
  | won
  /-- B has inserted its charge. -/
  | charged (c : Charge K)
  /-- All its statements are done. -/
  | finished (c : Charge K)
  /-- About to commit and to return the status. -/
  | answering (status : ℕ)
  | returned (status : ℕ)
  /-- An exception of the handler's own: no row to unpack, or a `UniqueViolation`. -/
  | crashed
  /-- Aborted from outside. -/
  | aborted
  deriving DecidableEq, Repr

/-- The call has inserted the row of its key, and not committed. -/
def Phase.AtWork {K : Type} : Phase K → Prop
  | .won | .charged _ | .finished _ => True
  | _ => False

/-- The two tables, the advisory locks and the calls.  Each committed charge is listed with
its call; an uncommitted one is in the call's phase. -/
structure State (ι K F L : Type) where
  keys : Table K ι (KeyRow F)
  charges : List (ι × Charge K)
  nextCharge : ℕ
  locks : L → Option ι
  phase : ι → Phase K

/-- What a call does next. -/
inductive Action (ι : Type)
  | begin (i : ι)
  /-- C: `SELECT pg_advisory_xact_lock(hashtext(…))`. -/
  | lock (i : ι)
  /-- `INSERT INTO idempotency_keys`. -/
  | insertKey (i : ι)
  /-- `SELECT … FROM idempotency_keys`. -/
  | select (i : ι)
  /-- `INSERT INTO charges`. -/
  | insertCharge (i : ι)
  /-- B: `UPDATE idempotency_keys`. -/
  | update (i : ι)
  /-- The commit, with which the handler returns. -/
  | commit (i : ι)
  /-- C's advisory lock is released. -/
  | unlock (i : ι)
  | abort (i : ι)
  deriving DecidableEq, Repr

variable {ι K Body F L : Type} [DecidableEq ι] [DecidableEq K] [DecidableEq F] [DecidableEq L]

namespace State

/-- Empty tables, and no call begun. -/
def init : State ι K F L := ⟨fun _ => .empty, [], 1, fun _ => none, fun _ => .idle⟩

/-- Call `i` moves on to `p`. -/
def enter (s : State ι K F L) (i : ι) (p : Phase K) : State ι K F L :=
  { s with phase := Function.update s.phase i p }

/-- The locks that call `i` holds are released. -/
def releaseLocks (s : State ι K F L) (i : ι) : State ι K F L :=
  { s with locks := fun l => if s.locks l = some i then none else s.locks l }

/-- The handler begins. -/
def begin (s : State ι K F L) (i : ι) : Option (State ι K F L) :=
  match s.phase i with
  | .idle => some (s.enter i .begun)
  | _ => none

section
variable (b : Bodies Body F) (hash : K → L) (runId : String) (req : ι → Request K Body)

/-- It waits while another call holds the lock of the hash. -/
def lock (s : State ι K F L) (i : ι) : Option (State ι K F L) :=
  match s.phase i with
  | .begun =>
    if s.locks (hash (req i).key) = none then
      some ({ s with locks := Function.update s.locks (hash (req i).key) (some i) }.enter i .locked)
    else none
  | _ => none

/-- The new row of a key. -/
def keyRow (i : ι) (state : KeyState) : KeyRow F :=
  { fingerprint := b.fingerprint (req i).body, state := state, response := none }

/-- `ON CONFLICT (tenant_id, key) DO NOTHING`: it waits while another call has inserted the row
and not committed, and inserts nothing over a committed row. -/
def insertKeyB (s : State ι K F L) (i : ι) : Option (State ι K F L) :=
  match s.phase i with
  | .begun =>
    match (s.keys (req i).key).committed with
    | some _ => some (s.enter i .lost)
    | none =>
      if (s.keys (req i).key).free i then
        some ({ s with keys := s.keys.put (req i).key i (some (keyRow b req i .inFlight)) }.enter i
          .won)
      else none
  | _ => none

/-- The plain `INSERT` waits in the same way, and raises over a committed row. -/
def insertKeyC (s : State ι K F L) (i : ι) : Option (State ι K F L) :=
  match s.phase i with
  | .absent =>
    match (s.keys (req i).key).committed with
    | some _ => some ({ s with keys := s.keys.rollback i }.releaseLocks i |>.enter i .crashed)
    | none =>
      if (s.keys (req i).key).free i then
        some ({ s with keys := s.keys.put (req i).key i (some (keyRow b req i .succeeded)) }.enter i
          .won)
      else none
  | _ => none

/-- The loser's `SELECT` and what it answers; without a row the unpacking raises. -/
def selectB (s : State ι K F L) (i : ι) : Option (State ι K F L) :=
  match s.phase i with
  | .lost =>
    match (s.keys (req i).key).seen i with
    | none => some ({ s with keys := s.keys.rollback i }.enter i .crashed)
    | some row =>
      if row.fingerprint ≠ b.fingerprint (req i).body then some (s.enter i (.answering 422))
      else
        match row.state with
        | .succeeded => some (s.enter i (.answering 200))
        | .failedPermanently => some (s.enter i (.answering 409))
        | .inFlight => some (s.enter i (.answering 409))
  | _ => none

/-- The `SELECT` under the lock. -/
def selectC (s : State ι K F L) (i : ι) : Option (State ι K F L) :=
  match s.phase i with
  | .locked =>
    match (s.keys (req i).key).seen i with
    | some _ => some (s.enter i (.answering 200))
    | none => some (s.enter i .absent)
  | _ => none

/-- `INSERT INTO charges … RETURNING id`; B has still to finish the row of the key. -/
def insertCharge (impl : Impl) (s : State ι K F L) (i : ι) : Option (State ι K F L) :=
  match s.phase i with
  | .won =>
    let c : Charge K := ⟨s.nextCharge, runId, impl, (req i).key, b.amountCents (req i).body⟩
    some ({ s with nextCharge := s.nextCharge + 1 }.enter i
      (match impl with
        | .b => .charged c
        | .c => .finished c))
  | _ => none

/-- `UPDATE idempotency_keys SET state = 'succeeded', response = …`. -/
def update (s : State ι K F L) (i : ι) : Option (State ι K F L) :=
  match s.phase i with
  | .charged c =>
    if (s.keys (req i).key).free i then
      some ({ s with
        keys := s.keys.updateWhere i (fun k _ => k = (req i).key) fun row =>
          { row with state := .succeeded, response := some ⟨c.id, "succeeded"⟩ } }.enter i
          (.finished c))
    else none
  | _ => none

end

/-- The winner returns 201 with its charge, and the others what they have found. -/
def commit (s : State ι K F L) (i : ι) : Option (State ι K F L) :=
  match s.phase i with
  | .finished c => some ({ s with
      keys := s.keys.commit i
      charges := s.charges ++ [(i, c)] }.enter i (.returned 201))
  | .answering status => some ({ s with keys := s.keys.commit i }.enter i (.returned status))
  | _ => none

/-- After the commit. -/
def unlock (s : State ι K F L) (i : ι) : Option (State ι K F L) :=
  match s.phase i with
  | .returned _ => some (s.releaseLocks i)
  | _ => none

/-- The rollback releases the locks as well. -/
def abort (s : State ι K F L) (i : ι) : Option (State ι K F L) :=
  match s.phase i with
  | .idle | .returned _ | .crashed | .aborted => none
  | _ => some ({ s with keys := s.keys.rollback i }.releaseLocks i |>.enter i .aborted)

end State

/-- One statement of one call. -/
def step (impl : Impl) (b : Bodies Body F) (hash : K → L) (runId : String)
    (req : ι → Request K Body) (s : State ι K F L) : Action ι → Option (State ι K F L)
  | .begin i => s.begin i
  | .lock i =>
    match impl with
    | .b => none
    | .c => s.lock hash req i
  | .insertKey i =>
    match impl with
    | .b => s.insertKeyB b req i
    | .c => s.insertKeyC b req i
  | .select i =>
    match impl with
    | .b => s.selectB b req i
    | .c => s.selectC req i
  | .insertCharge i => s.insertCharge b runId req impl i
  | .update i => s.update req i
  | .commit i => s.commit i
  | .unlock i => s.unlock i
  | .abort i => s.abort i

/-! ### The invariant -/

namespace State

omit [DecidableEq ι] [DecidableEq F] [DecidableEq L] in
/-- The committed charges of a key. -/
def chargesOf (s : State ι K F L) (k : K) : List (ι × Charge K) :=
  s.charges.filter fun p => p.2.idempotencyKey = k

end State

section
variable (impl : Impl) (b : Bodies Body F) (hash : K → L) (req : ι → Request K Body)

/-- The transaction of call `i` has inserted the row of its key. -/
def Owns (s : State ι K F L) (i : ι) (done : Prop) : Prop :=
  ∃ row, (s.keys (req i).key).pending = some (i, some row) ∧
    row.fingerprint = b.fingerprint (req i).body ∧ (done → row.state = .succeeded)

/-- Call `i` of C has the lock of its key. -/
def HasLock (s : State ι K F L) (i : ι) : Prop := impl = .c → s.locks (hash (req i).key) = some i

/-- A call that found a row answers by its fingerprint, if it looks at it. -/
def Answers (s : State ι K F L) (i : ι) (status : ℕ) : Prop :=
  ∃ row, (s.keys (req i).key).committed = some row ∧
    ((impl = .c ∨ row.fingerprint = b.fingerprint (req i).body) → status = 200) ∧
      (impl = .b → row.fingerprint ≠ b.fingerprint (req i).body → status = 422)

/-- What holds of call `i` in the phase `p`. -/
def CallOk (s : State ι K F L) (i : ι) : Phase K → Prop
  | .locked => HasLock impl hash req s i
  | .absent => impl = .c ∧ HasLock impl hash req s i ∧ (s.keys (req i).key).committed = none
  | .lost => (s.keys (req i).key).committed ≠ none
  | .won => HasLock impl hash req s i ∧ Owns b req s i (impl = .c)
  | .charged c => c.idempotencyKey = (req i).key ∧ HasLock impl hash req s i ∧
      Owns b req s i (impl = .c)
  | .finished c => c.idempotencyKey = (req i).key ∧ HasLock impl hash req s i ∧ Owns b req s i True
  | .answering status => Answers impl b req s i status
  | .returned status => Answers impl b req s i status ∨
      status = 201 ∧ (s.keys (req i).key).committed ≠ none ∧ ∃ c, (i, c) ∈ s.charges
  | .crashed => False
  | _ => True

/-- Uncommitted rows are new, committed ones come with the one charge of their key, and who has
charged returns 201. -/
structure Inv (s : State ι K F L) : Prop where
  call : ∀ i, CallOk impl b hash req s i (s.phase i)
  pending : ∀ {k i v}, (s.keys k).pending = some (i, v) →
    (req i).key = k ∧ (s.keys k).committed = none ∧ (s.phase i).AtWork
  rows : ∀ {k row}, (s.keys k).committed = some row → row.state = .succeeded ∧
    ∃ i c, (i, c) ∈ s.charges ∧ (req i).key = k ∧ row.fingerprint = b.fingerprint (req i).body
  charges : ∀ {i c}, (i, c) ∈ s.charges → c.idempotencyKey = (req i).key ∧
    s.phase i = .returned 201 ∧ (s.keys (req i).key).committed ≠ none
  once : ∀ k, (s.chargesOf k).length ≤ 1

end

variable {impl : Impl} {b : Bodies Body F} {hash : K → L} {runId : String}
  {req : ι → Request K Body} {s s' : State ι K F L}

omit [DecidableEq ι] [DecidableEq K] [DecidableEq F] [DecidableEq L] in
/-- What others do leaves a call as it is: they keep committed rows and charges, leave alone
what it has inserted and its locks, and commit no row of a key that it has locked. -/
theorem CallOk.mono {i : ι} {p : Phase K} (h : CallOk impl b hash req s i p)
    (hrow : ∀ k row, (s.keys k).committed = some row → (s'.keys k).committed = some row)
    (hnone : impl = .c → HasLock impl hash req s i → (s.keys (req i).key).committed = none →
      (s'.keys (req i).key).committed = none)
    (hown : (∃ v, (s.keys (req i).key).pending = some (i, v)) →
      s'.keys (req i).key = s.keys (req i).key)
    (hlock : ∀ l, s.locks l = some i → s'.locks l = some i)
    (hcharges : ∀ x ∈ s.charges, x ∈ s'.charges) : CallOk impl b hash req s' i p := by
  have howns : ∀ {done : Prop}, Owns b req s i done → Owns b req s' i done := by
    rintro done ⟨row, hp, hrest⟩
    refine ⟨row, ?_, hrest⟩
    rwa [hown ⟨_, hp⟩]
  have hhas : HasLock impl hash req s i → HasLock impl hash req s' i :=
    fun hl hc => hlock _ (hl hc)
  have hsome : (s.keys (req i).key).committed ≠ none → (s'.keys (req i).key).committed ≠ none := by
    intro hne
    obtain ⟨row, hr⟩ := Option.ne_none_iff_exists'.mp hne
    exact Option.ne_none_iff_exists'.mpr ⟨row, hrow _ _ hr⟩
  have hanswers : ∀ {status}, Answers impl b req s i status → Answers impl b req s' i status := by
    rintro status ⟨row, hr, hrest⟩
    exact ⟨row, hrow _ _ hr, hrest⟩
  -- what each phase says of rows, locks and charges survives by the hypotheses
  cases p with
  | locked => exact hhas h
  | absent => exact ⟨h.1, hhas h.2.1, hnone h.1 h.2.1 h.2.2⟩
  | lost => exact hsome h
  | won => exact ⟨hhas h.1, howns h.2⟩
  | charged c => exact ⟨h.1, hhas h.2.1, howns h.2.2⟩
  | finished c => exact ⟨h.1, hhas h.2.1, howns h.2.2⟩
  | answering status => exact hanswers h
  | returned status =>
    rcases h with h | ⟨hst, hne, c, hc⟩
    · exact Or.inl (hanswers h)
    · exact Or.inr ⟨hst, hsome hne, c, hcharges _ hc⟩
  | crashed => exact h
  | _ => trivial

omit [DecidableEq ι] [DecidableEq F] [DecidableEq L] in
theorem Inv.init : Inv impl b hash req (State.init : State ι K F L) where
  call _ := trivial
  pending h := by cases h
  rows h := by cases h
  charges h := by cases h
  once _ := Nat.zero_le 1

omit [DecidableEq F] [DecidableEq L] in
/-- **A call acts.**  It goes to phase `p`, committed rows and charges stay, what others have
inserted and locked stays theirs, and a row is committed only by the call that holds its lock. -/
theorem Inv.act (h : Inv impl b hash req s) {i : ι} {p : Phase K}
    (hphase : s'.phase = Function.update s.phase i p) (hcall : CallOk impl b hash req s' i p)
    (hdone : s.phase i = .returned 201 → p = .returned 201)
    (hrow : ∀ k row, (s.keys k).committed = some row → (s'.keys k).committed = some row)
    (hnew : ∀ k, (s.keys k).committed = none → (s'.keys k).committed ≠ none →
      (req i).key = k ∧ HasLock impl hash req s i)
    (hlock : ∀ l j, j ≠ i → s.locks l = some j → s'.locks l = some j)
    (hkept : ∀ k j v, j ≠ i → (s.keys k).pending = some (j, v) → s'.keys k = s.keys k)
    (hpending : ∀ k j v, (s'.keys k).pending = some (j, v) →
      j ≠ i ∧ (s.keys k).pending = some (j, v) ∨
        j = i ∧ (req i).key = k ∧ (s'.keys k).committed = none ∧ p.AtWork)
    (hmem : ∀ x ∈ s.charges, x ∈ s'.charges)
    (hrows : ∀ k row, (s'.keys k).committed = some row → row.state = .succeeded ∧
      ∃ j c, (j, c) ∈ s'.charges ∧ (req j).key = k ∧
        row.fingerprint = b.fingerprint (req j).body)
    (hcharges : ∀ j c, (j, c) ∈ s'.charges → (j, c) ∈ s.charges ∨
      j = i ∧ c.idempotencyKey = (req i).key ∧ p = .returned 201 ∧
        (s'.keys (req i).key).committed ≠ none)
    (honce : ∀ k, (s'.chargesOf k).length ≤ 1) : Inv impl b hash req s' := by
  refine ⟨fun j => ?_, fun {k j v} hp => ?_, fun hr => hrows _ _ hr, fun {j c} hc => ?_, honce⟩
  · rw [hphase]
    by_cases hj : j = i
    · subst hj
      rw [Function.update_self]
      exact hcall
    · rw [Function.update_of_ne hj]
      refine (h.call j).mono hrow ?_ ?_ (fun l => hlock l j hj) hmem
      · intro hc hhas hnone
        by_contra hne
        obtain ⟨hk, hhas'⟩ := hnew _ hnone hne
        -- Both would hold the lock of the key.
        have hboth := (hhas hc).symm.trans (hk ▸ hhas' hc)
        exact hj (Option.some_inj.mp hboth)
      · rintro ⟨v, hp⟩
        exact hkept _ j v hj hp
  · rcases hpending k j v hp with ⟨hj, hp⟩ | ⟨rfl, hk, hnone, hwork⟩
    · obtain ⟨hk, hnone, hwork⟩ := h.pending hp
      refine ⟨hk, ?_, ?_⟩
      · rw [hkept k j v hj hp]
        exact hnone
      · rw [hphase, Function.update_of_ne hj]
        exact hwork
    · refine ⟨hk, hnone, ?_⟩
      rw [hphase, Function.update_self]
      exact hwork
  · rcases hcharges j c hc with hc | ⟨rfl, hk, hp, hne⟩
    · obtain ⟨hk, hret, hne⟩ := h.charges hc
      refine ⟨hk, ?_, ?_⟩
      · rw [hphase]
        by_cases hj : j = i
        · subst hj
          rw [Function.update_self]
          exact hdone hret
        · rw [Function.update_of_ne hj]
          exact hret
      · obtain ⟨row, hr⟩ := Option.ne_none_iff_exists'.mp hne
        exact Option.ne_none_iff_exists'.mpr ⟨row, hrow _ _ hr⟩
    · refine ⟨hk, ?_, hne⟩
      rw [hphase, Function.update_self]
      exact hp

omit [DecidableEq F] [DecidableEq L] in
/-- A call that commits nothing acts on its own row and its own locks only. -/
theorem Inv.act_own (h : Inv impl b hash req s) {i : ι} {p : Phase K}
    (hphase : s'.phase = Function.update s.phase i p) (hcall : CallOk impl b hash req s' i p)
    (hdone : s.phase i = .returned 201 → p = .returned 201)
    (hcom : ∀ k, (s'.keys k).committed = (s.keys k).committed)
    (hch : s'.charges = s.charges)
    (hlock : ∀ l j, j ≠ i → s.locks l = some j → s'.locks l = some j)
    (hkept : ∀ k j v, j ≠ i → (s.keys k).pending = some (j, v) → s'.keys k = s.keys k)
    (hpending : ∀ k j v, (s'.keys k).pending = some (j, v) →
      j ≠ i ∧ (s.keys k).pending = some (j, v) ∨
        j = i ∧ (req i).key = k ∧ (s.keys k).committed = none ∧ p.AtWork) :
    Inv impl b hash req s' := by
  -- no row and no charge is committed here, so only the caller's own phase and locks are new
  refine h.act hphase hcall hdone (fun k row hr => by rw [hcom, hr]) ?_ hlock hkept ?_ ?_ ?_ ?_ ?_
  · intro k hnone hne
    rw [hcom] at hne
    exact absurd hnone hne
  · intro k j v hp
    rw [hcom]
    exact hpending k j v hp
  · intro x hx
    rw [hch]
    exact hx
  · intro k row hr
    rw [hcom] at hr
    rw [hch]
    exact h.rows hr
  · intro j c hc
    rw [hch] at hc
    exact Or.inl hc
  · intro k
    rw [State.chargesOf, hch]
    exact h.once k

omit [DecidableEq F] [DecidableEq L] in
/-- A call goes on without touching the tables, and stays at work if it was. -/
theorem Inv.enter (h : Inv impl b hash req s) {i : ι} {p : Phase K}
    (hcall : CallOk impl b hash req s i p) (hdone : s.phase i ≠ .returned 201)
    (hwork : (s.phase i).AtWork → p.AtWork) : Inv impl b hash req (s.enter i p) := by
  refine h.act_own rfl (hcall.mono (fun _ _ => id) (fun _ _ => id) (fun _ => rfl) (fun _ => id)
    fun _ => id) (fun hr => absurd hr hdone) (fun _ => rfl) rfl (fun _ _ _ => id)
    (fun _ _ _ _ _ => rfl) fun k j v hp => ?_
  by_cases hj : j = i
  · subst hj
    obtain ⟨hk, hnone, hw⟩ := h.pending hp
    exact Or.inr ⟨rfl, hk, hnone, hwork hw⟩
  · exact Or.inl ⟨hj, hp⟩

omit [DecidableEq F] [DecidableEq L] in
/-- A call writes its row, which it has inserted or which is not there. -/
theorem Inv.put (h : Inv impl b hash req s) {i : ι} {p : Phase K} {row : KeyRow F}
    (hfree : (s.keys (req i).key).free i = true) (hnone : (s.keys (req i).key).committed = none)
    (hdone : s.phase i ≠ .returned 201) (hwork : p.AtWork)
    (hcall : ∀ t : State ι K F L, t.locks = s.locks →
      (t.keys (req i).key).pending = some (i, some row) → CallOk impl b hash req t i p) :
    Inv impl b hash req ({ s with keys := s.keys.put (req i).key i (some row) }.enter i p) := by
  have hself : s.keys.put (req i).key i (some row) (req i).key =
      (s.keys (req i).key).put i (some row) := Table.put_self
  refine h.act_own rfl (hcall _ rfl (congrArg Row.pending hself)) (fun hr => absurd hr hdone) ?_ rfl
    (fun _ _ _ => id) ?_ ?_
  · exact fun k => Table.committed_put k _
  -- a pending row of another call would have kept the row from being free
  · intro k j v hj hp
    refine Table.put_of_ne ?_
    rintro rfl
    exact hj (Row.free_iff.mp hfree j v hp)
  · intro k j v hp
    rcases Table.pending_of_put hp with ⟨rfl, heq⟩ | ⟨hk, hold⟩
    · obtain ⟨rfl, -⟩ := Prod.mk.inj heq
      exact Or.inr ⟨rfl, rfl, hnone, hwork⟩
    · refine Or.inl ⟨?_, hold⟩
      rintro rfl
      exact hk (h.pending hold).1.symm

omit [DecidableEq K] [DecidableEq F] [DecidableEq L] in
/-- The row that a call has inserted is free for it. -/
theorem Owns.free {i : ι} {done : Prop} (ho : Owns b req s i done) :
    (s.keys (req i).key).free i = true := by
  obtain ⟨row, hp, -⟩ := ho
  rw [Row.free_iff]
  intro u v hu
  rw [hp, Option.some_inj, Prod.mk.injEq] at hu
  exact hu.1.symm

omit [DecidableEq F] [DecidableEq L] in
/-- A call that ends without a commit takes back its row and its locks. -/
theorem Inv.rollback (h : Inv impl b hash req s) {i : ι} {p : Phase K}
    (hcall : ∀ t : State ι K F L, CallOk impl b hash req t i p)
    (hdone : s.phase i ≠ .returned 201) :
    Inv impl b hash req
      ({ s with keys := s.keys.rollback i }.releaseLocks i |>.enter i p) := by
  refine h.act_own rfl (hcall _) (fun hr => absurd hr hdone) (fun k => Row.committed_rollback) rfl
    ?_ ?_ ?_
  · intro l j hj hl
    show (if s.locks l = some i then none else s.locks l) = some j
    rw [if_neg (by rw [hl, Option.some_inj]; exact hj), hl]
  · exact fun k j v hj hp => Row.rollback_of_ne (Row.pending_ne_of_ne hp hj)
  · intro k j v hp
    exact Or.inl (Row.pending_of_rollback hp).symm

omit [DecidableEq F] [DecidableEq L] in
/-- A call that has written nothing commits nothing. -/
theorem Inv.commit_idle (h : Inv impl b hash req s) {i : ι} (hwork : ¬ (s.phase i).AtWork) :
    s.keys.commit i = s.keys := by
  funext k
  exact Row.commit_of_ne fun v hv => hwork (h.pending hv).2.2

omit [DecidableEq F] [DecidableEq L] in
/-- The work commits: the row comes with the one charge of its key. -/
theorem Inv.commit (h : Inv impl b hash req s) {i : ι} {c : Charge K}
    (hphase : s.phase i = .finished c) :
    Inv impl b hash req ({ s with
      keys := s.keys.commit i
      charges := s.charges ++ [(i, c)] }.enter i (.returned 201)) := by
  have hcall := h.call i
  rw [hphase] at hcall
  obtain ⟨hkey, hhas, row, hp, hfp, hst⟩ := hcall
  have hself : s.keys.commit i (req i).key = ⟨some row, none⟩ := Row.commit_of_pending hp
  have hother : ∀ k, k ≠ (req i).key → s.keys.commit i k = s.keys k := by
    intro k hk
    exact Row.commit_of_ne fun v hv => hk (h.pending hv).1.symm
  have hnone : (s.keys (req i).key).committed = none := (h.pending hp).2.1
  have hsome : (s.keys.commit i (req i).key).committed ≠ none := by
    rw [hself]
    exact Option.some_ne_none row
  -- A charge of the key would have left a committed row.
  have hfresh : s.chargesOf (req i).key = [] := by
    rw [State.chargesOf, List.filter_eq_nil_iff]
    rintro ⟨j, c'⟩ hc' hk
    obtain ⟨hkj, -, hne⟩ := h.charges hc'
    rw [← hkj, of_decide_eq_true hk, hnone] at hne
    exact hne rfl
  refine h.act rfl (Or.inr ⟨rfl, hsome, c, by simp [State.enter]⟩) (fun _ => rfl) ?_ ?_
    (fun _ _ _ => id) ?_ ?_ (fun x => List.mem_append_left _) ?_ ?_ ?_
  · intro k row' hr
    show (s.keys.commit i k).committed = some row'
    rw [hother k fun hk => by simp [hk, hnone] at hr, hr]
  · intro k hk hne
    replace hne : (s.keys.commit i k).committed ≠ none := hne
    by_cases hki : k = (req i).key
    · exact ⟨hki.symm, hhas⟩
    · rw [hother k hki] at hne
      exact absurd hk hne
  · exact fun k j v hj hv => Row.commit_of_ne (Row.pending_ne_of_ne hv hj)
  · exact fun k j v hv => Or.inl (Row.pending_of_commit hv).symm
  · intro k row' hr
    replace hr : (s.keys.commit i k).committed = some row' := hr
    by_cases hk : k = (req i).key
    · rw [hk, hself, Option.some_inj] at hr
      exact hr ▸ ⟨hst trivial, i, c, by simp [State.enter], hk.symm, hfp⟩
    · rw [hother k hk] at hr
      obtain ⟨hd, j, c', hmem, hrest⟩ := h.rows hr
      exact ⟨hd, j, c', List.mem_append_left _ hmem, hrest⟩
  · intro j c' hc'
    rcases List.mem_append.mp hc' with hc' | hc'
    · exact Or.inl hc'
    · obtain ⟨rfl, rfl⟩ := Prod.mk.inj (List.mem_singleton.mp hc')
      exact Or.inr ⟨rfl, hkey, rfl, hsome⟩
  · intro k
    show ((s.charges ++ [(i, c)]).filter fun x => decide (x.2.idempotencyKey = k)).length ≤ 1
    rw [List.filter_append, List.length_append]
    by_cases hk : k = (req i).key
    · subst hk
      replace hfresh :
        s.charges.filter (fun x => decide (x.2.idempotencyKey = (req i).key)) = [] := hfresh
      rw [hfresh]
      exact Nat.le_trans (Nat.le_of_eq (Nat.zero_add _)) (List.length_filter_le _ _)
    · have hnil : [(i, c)].filter (fun x => decide (x.2.idempotencyKey = k)) = [] := by
        simpa [hkey] using Ne.symm hk
      rw [hnil]
      exact h.once k

omit [DecidableEq F] [DecidableEq L] in
/-- A committed row is not locked by anybody, so that all calls see it. -/
theorem Inv.seen (h : Inv impl b hash req s) {k : K} {row : KeyRow F}
    (hrow : (s.keys k).committed = some row) (i : ι) : (s.keys k).seen i = some row := by
  have hlock : (s.keys k).pending = none := by
    cases hp : (s.keys k).pending with
    | none => rfl
    | some q =>
      have hnone := (h.pending hp).2.1
      rw [hrow] at hnone
      cases hnone
  rw [Row.seen_of_none hlock, hrow]

omit [DecidableEq F] [DecidableEq L] in
/-- A call that has written nothing sees the committed rows. -/
theorem Inv.seen_idle (h : Inv impl b hash req s) {i : ι} (hwork : ¬ (s.phase i).AtWork) (k : K) :
    (s.keys k).seen i = (s.keys k).committed :=
  Row.seen_of_ne fun _ hv => hwork (h.pending hv).2.2

omit [DecidableEq F] in
/-- A call of C takes the lock of its key, which nobody has. -/
theorem Inv.lock (h : Inv impl b hash req s) {i : ι} (hphase : s.phase i = .begun)
    (hfree : s.locks (hash (req i).key) = none) :
    Inv impl b hash req ({ s with
      locks := Function.update s.locks (hash (req i).key) (some i) }.enter i .locked) := by
  refine h.act_own rfl (fun _ => Function.update_self _ _ _) (fun hr => ?_) (fun _ => rfl) rfl ?_
    (fun _ _ _ _ _ => rfl) ?_
  · rw [hphase] at hr
    cases hr
  -- the lock was free, so no other call has held it
  · intro l j _ hl
    show Function.update s.locks (hash (req i).key) (some i) l = some j
    rw [Function.update_of_ne, hl]
    rintro rfl
    rw [hfree] at hl
    cases hl
  -- a call that has just begun has no pending row
  · intro k j v hp
    refine Or.inl ⟨?_, hp⟩
    rintro rfl
    have hw := (h.pending hp).2.2
    rw [hphase] at hw
    exact hw

omit [DecidableEq F] [DecidableEq L] in
/-- The locks of a call that has returned are released. -/
theorem Inv.unlock (h : Inv impl b hash req s) {i : ι} {status : ℕ}
    (hphase : s.phase i = .returned status) : Inv impl b hash req (s.releaseLocks i) := by
  have hcall := h.call i
  rw [hphase] at hcall
  refine h.act_own (Function.update_eq_self i s.phase).symm ?_ id (fun _ => rfl) rfl ?_
    (fun _ _ _ _ _ => rfl) ?_
  · rw [hphase]
    exact hcall
  · intro l j hj hl
    show (if s.locks l = some i then none else s.locks l) = some j
    rw [if_neg (by rw [hl, Option.some_inj]; exact hj), hl]
  · intro k j v hp
    refine Or.inl ⟨?_, hp⟩
    rintro rfl
    have hw := (h.pending hp).2.2
    rw [hphase] at hw
    exact hw

omit [DecidableEq F] [DecidableEq L] in
/-- B's `INSERT` finds the row committed, or inserts it. -/
theorem Inv.insertKeyB (h : Inv .b b hash req s) {i : ι}
    (hs : s.insertKeyB b req i = some s') : Inv .b b hash req s' := by
  simp only [State.insertKeyB] at hs
  split at hs
  · next hphase =>
    split at hs
    · next row hrow =>
      obtain rfl := Option.some_inj.mp hs
      refine h.enter ?_ (by simp [hphase]) (by simp [hphase, Phase.AtWork])
      exact Option.ne_none_iff_exists'.mpr ⟨row, hrow⟩
    · next hnone =>
      split at hs
      · next hfree =>
        obtain rfl := Option.some_inj.mp hs
        refine h.put hfree hnone (by simp [hphase]) trivial fun t _ ht => ⟨nofun, _, ht, rfl, nofun⟩
      · cases hs
  · cases hs

omit [DecidableEq F] [DecidableEq L] in
/-- C's `INSERT` never finds a row, since it has seen none and holds the lock. -/
theorem Inv.insertKeyC (h : Inv .c b hash req s) {i : ι}
    (hs : s.insertKeyC b req i = some s') : Inv .c b hash req s' := by
  simp only [State.insertKeyC] at hs
  split at hs
  · next hphase =>
    have hcall := h.call i
    rw [hphase] at hcall
    obtain ⟨-, hhas, hnone⟩ := hcall
    -- The row has not come in the meantime: whoever inserts it would hold this lock.
    rw [hnone] at hs
    simp only at hs
    split at hs
    · next hfree =>
      obtain rfl := Option.some_inj.mp hs
      refine h.put hfree hnone (by simp [hphase]) trivial fun t hl ht =>
        ⟨?_, _, ht, rfl, fun _ => rfl⟩
      intro hc
      rw [hl]
      exact hhas hc
    · cases hs
  · cases hs

omit [DecidableEq L] in
/-- **The loser finds a finished row**, and answers by its fingerprint. -/
theorem Inv.selectB (h : Inv .b b hash req s) {i : ι}
    (hs : s.selectB b req i = some s') : Inv .b b hash req s' := by
  simp only [State.selectB] at hs
  split at hs
  · next hphase =>
    have hcall := h.call i
    -- B selects only after its INSERT has met a committed row
    rw [hphase] at hcall
    obtain ⟨row, hrow⟩ := Option.ne_none_iff_exists'.mp hcall
    rw [h.seen hrow] at hs
    simp only [(h.rows hrow).1] at hs
    -- another body is refused, the same one gets the stored response
    split at hs
    · next hfp =>
      obtain rfl := Option.some_inj.mp hs
      refine h.enter ⟨row, hrow, ?_, fun _ _ => rfl⟩ (by simp [hphase])
        (by simp [hphase, Phase.AtWork])
      rintro (hc | heq)
      · cases hc
      · exact absurd heq hfp
    · next hfp =>
      obtain rfl := Option.some_inj.mp hs
      exact h.enter ⟨row, hrow, fun _ => rfl, fun _ hne => absurd hne hfp⟩ (by simp [hphase])
        (by simp [hphase, Phase.AtWork])
  · cases hs

omit [DecidableEq F] [DecidableEq L] in
/-- Under the lock a call of C sees the committed row, or that there is none. -/
theorem Inv.selectC (h : Inv .c b hash req s) {i : ι}
    (hs : s.selectC req i = some s') : Inv .c b hash req s' := by
  simp only [State.selectC] at hs
  split at hs
  · next hphase =>
    have hcall := h.call i
    rw [hphase] at hcall
    rw [h.seen_idle (by simp [hphase, Phase.AtWork])] at hs
    split at hs
    · next row hrow =>
      obtain rfl := Option.some_inj.mp hs
      exact h.enter ⟨row, hrow, fun _ => rfl, nofun⟩ (by simp [hphase])
        (by simp [hphase, Phase.AtWork])
    · next hnone =>
      obtain rfl := Option.some_inj.mp hs
      exact h.enter ⟨rfl, hcall, hnone⟩ (by simp [hphase]) (by simp [hphase, Phase.AtWork])
  · cases hs

omit [DecidableEq F] [DecidableEq L] in
/-- The charge is inserted for the key of the row. -/
theorem Inv.insertCharge (h : Inv impl b hash req s) {i : ι}
    (hs : s.insertCharge b runId req impl i = some s') : Inv impl b hash req s' := by
  simp only [State.insertCharge] at hs
  split at hs
  · next hphase =>
    obtain rfl := Option.some_inj.mp hs
    have hcall := h.call i
    rw [hphase] at hcall
    have h' : Inv impl b hash req { s with nextCharge := s.nextCharge + 1 } :=
      ⟨h.call, h.pending, h.rows, h.charges, h.once⟩
    refine h'.enter ?_ (by simp [hphase]) fun _ => by cases impl <;> trivial
    obtain ⟨hhas, row, hp, hfp, hst⟩ := hcall
    cases impl with
    | b => exact ⟨rfl, hhas, row, hp, hfp, hst⟩
    | c => exact ⟨rfl, hhas, row, hp, hfp, fun _ => hst rfl⟩
  · cases hs

omit [DecidableEq F] [DecidableEq L] in
/-- B finishes the row that it has inserted. -/
theorem Inv.update (h : Inv impl b hash req s) {i : ι}
    (hs : s.update req i = some s') : Inv impl b hash req s' := by
  simp only [State.update] at hs
  split at hs
  · next c hphase =>
    have hcall := h.call i
    rw [hphase] at hcall
    obtain ⟨hkey, hhas, ho⟩ := hcall
    have hfree := ho.free
    rw [if_pos hfree] at hs
    obtain ⟨row, hp, hfp, -⟩ := ho
    obtain rfl := Option.some_inj.mp hs
    -- the UPDATE by key touches only the row that the call itself has pending
    have hput : s.keys.updateWhere i (fun k _ => k = (req i).key) (fun row =>
        { row with state := .succeeded, response := some ⟨c.id, "succeeded"⟩ }) =
        s.keys.put (req i).key i
          (some { row with state := .succeeded, response := some ⟨c.id, "succeeded"⟩ }) := by
      funext k
      by_cases hk : k = (req i).key
      · subst hk
        rw [Table.put_self]
        exact Table.updateWhere_pos (Row.seen_of_pending hp) (decide_eq_true rfl)
      · rw [Table.put_of_ne hk]
        exact Table.updateWhere_neg fun v _ => decide_eq_false hk
    rw [hput]
    refine h.put hfree (h.pending hp).2.1 (by simp [hphase]) trivial fun t hl ht =>
      ⟨hkey, ?_, _, ht, hfp, fun _ => rfl⟩
    intro hc
    rw [hl]
    exact hhas hc
  · cases hs

/-- **Every statement keeps the invariant.** -/
theorem Inv.step (h : Inv impl b hash req s) {a : Action ι}
    (hs : step impl b hash runId req s a = some s') : Inv impl b hash req s' := by
  cases a with
  | begin i =>
    simp only [IdempotencyRace.step, State.begin] at hs
    split at hs
    · next hphase =>
      obtain rfl := Option.some_inj.mp hs
      exact h.enter trivial (by simp [hphase]) (by simp [hphase, Phase.AtWork])
    · cases hs
  | lock i =>
    -- B takes no lock
    cases impl with
    | b => cases hs
    | c =>
      simp only [IdempotencyRace.step, State.lock] at hs
      split at hs
      · next hphase =>
        split at hs
        · next hfree =>
          obtain rfl := Option.some_inj.mp hs
          exact h.lock hphase hfree
        · cases hs
      · cases hs
  | insertKey i =>
    cases impl with
    | b => exact h.insertKeyB hs
    | c => exact h.insertKeyC hs
  | select i =>
    cases impl with
    | b => exact h.selectB hs
    | c => exact h.selectC hs
  | insertCharge i => exact h.insertCharge hs
  | update i => exact h.update hs
  | commit i =>
    simp only [IdempotencyRace.step, State.commit] at hs
    split at hs
    · next c hphase =>
      obtain rfl := Option.some_inj.mp hs
      exact h.commit hphase
    -- a call that only answers has nothing to commit
    · next status hphase =>
      obtain rfl := Option.some_inj.mp hs
      have hcall := h.call i
      rw [hphase] at hcall
      rw [h.commit_idle (by simp [hphase, Phase.AtWork])]
      exact h.enter (Or.inl hcall) (by simp [hphase]) (by simp [hphase, Phase.AtWork])
    · cases hs
  | unlock i =>
    simp only [IdempotencyRace.step, State.unlock] at hs
    split at hs
    · next status hphase =>
      obtain rfl := Option.some_inj.mp hs
      exact h.unlock hphase
    · cases hs
  | abort i =>
    -- a call that has ended cannot be aborted any more
    simp only [IdempotencyRace.step, State.abort] at hs
    split at hs
    · cases hs
    · cases hs
    · cases hs
    · cases hs
    · next hret _ _ =>
      obtain rfl := Option.some_inj.mp hs
      exact h.rollback (fun _ => trivial) fun hp => hret _ hp

end IdempotencyRace
end SepLab
