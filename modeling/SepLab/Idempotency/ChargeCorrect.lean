import Mathlib.Data.Int.Notation
import SepLab.Lib.ReadCommitted
import SepLab.Lib.Transition

/-!
# `charge_correct`: claim, then work

The statements of concurrent calls of `charge_correct`, in the lab service and in
the server of the idempotency topic, on the tables `idempotency_keys` and
`charges`.  The claim is one transaction and the work another; between them, and
at any other point, a call may be slow, or crash and have its open transaction
rolled back.  `now()` is the time at which a transaction began.  The columns
`created_at` and `claimed_at`, which nothing reads, are left out.

The two programs differ in what a claim does to an expired row, in what a replay
answers and in the texts of their answers; an `Endpoint` holds these.

## Main definitions

* `KeyRow`, `Charge` — the rows of the two tables.
* `Endpoint`, `lab`, `server` — the two programs.
* `State`, `Action`, `step` — the calls' statements, one at a time in any order.
* `ChargedOnce`, `SameMoney` — what the endpoint is for.
-/

namespace SepLab
namespace Idempotency

/-- Column `state`: the lab writes `done` where the topic's server writes `completed`. -/
inductive KeyState
  | inProgress
  | done
  deriving DecidableEq, Repr

/-- A row of `idempotency_keys`. -/
structure KeyRow (F P : Type) where
  fingerprint : F
  state : KeyState
  response : Option P
  expiresAt : ℕ
  deriving DecidableEq, Repr

/-- A row of `charges`. -/
structure Charge (K : Type) where
  id : ℕ
  idemKey : K
  amountCents : ℤ
  currency : String
  deriving DecidableEq, Repr

/-- What a call returns. -/
inductive Response (P : Type)
  | charged (status : ℕ) (payload : Option P)
  | refused (status : ℕ) (error : Option String)
  deriving DecidableEq, Repr

/-- The arguments of a call. -/
structure Request (K Body : Type) where
  key : K
  body : Body

/-- What the programs read of a request body: its hash, and the two fields if it has them. -/
structure Bodies (Body F : Type) where
  fingerprint : Body → F
  amountCents : Body → Option ℤ
  currency : Body → Option String

/-- What the two programs do differently. -/
structure Endpoint (K Body F P : Type) where
  fingerprint : Body → F
  /-- The row that the work inserts, if it does not raise. -/
  insertCharge : ℕ → K → Body → Option (Charge K)
  payload : Charge K → P
  chargeId : P → ℕ
  /-- The arm `ON CONFLICT (key) DO UPDATE` of the claim: the new row if its condition holds. -/
  onConflict (excluded row : KeyRow F P) (now : ℕ) : Option (KeyRow F P)
  /-- The answer of a replay that finds a finished row. -/
  answer : KeyRow F P → Option (Response P)
  created : ℕ
  /-- Whether a replay looks again until its deadline. -/
  polls : Bool
  conflictError : Option String
  mismatchError : Option String
  insertCharge_some : ∀ {id k body c}, insertCharge id k body = some c → c.id = id ∧ c.idemKey = k
  chargeId_payload : ∀ c, chargeId (payload c) = c.id
  onConflict_some : ∀ {excluded row now row'}, onConflict excluded row now = some row' →
    row.state = .inProgress ∧ row'.state = .inProgress
  answer_some : ∀ {row r}, answer row = some r → row.state = .done ∧ ∀ {p},
    row.response = some p → ∃ status q, r = .charged status (some q) ∧ chargeId q = chargeId p

variable {K Body F P : Type}

/-! ### The two programs -/

/-- The body of the lab's answers. -/
structure LabPayload where
  chargeId : ℕ
  replayed : Bool
  mode : String
  deriving DecidableEq, Repr

/-- `charge_correct` of the lab service. -/
def lab (b : Bodies Body F) : Endpoint K Body F LabPayload where
  fingerprint := b.fingerprint
  insertCharge id key body :=
    some ⟨id, key, (b.amountCents body).getD 100, (b.currency body).getD "usd"⟩
  payload c := ⟨c.id, false, "correct"⟩
  chargeId p := p.chargeId
  onConflict excluded row now :=
    if row.state = .inProgress ∧ row.expiresAt < now then
      some { row with fingerprint := excluded.fingerprint, expiresAt := excluded.expiresAt }
    else none
  answer row :=
    if row.state = .done then
      row.response.map fun payload => .charged 200 (some { payload with replayed := true })
    else none
  created := 201
  polls := true
  conflictError := some "in_progress"
  mismatchError := some "key_reused_with_different_body"
  insertCharge_some h := by
    rw [Option.some_inj] at h
    exact h ▸ ⟨rfl, rfl⟩
  chargeId_payload _ := rfl
  onConflict_some h := by
    split at h
    · next hc =>
      rw [Option.some_inj] at h
      exact h ▸ ⟨hc.1, hc.1⟩
    · cases h
  answer_some h := by
    split at h
    · next hd =>
      refine ⟨hd, fun hp => ?_⟩
      rw [hp, Option.map_some, Option.some_inj] at h
      exact ⟨_, _, h.symm, rfl⟩
    · cases h

/-- The body of the topic server's answers. -/
structure ChargePayload where
  chargeId : ℕ
  amountCents : ℤ
  currency : String
  status : String
  deriving DecidableEq, Repr

/-- `Server.charge_correct` of the idempotency topic. -/
def server [DecidableEq F] (b : Bodies Body F) : Endpoint K Body F ChargePayload where
  fingerprint := b.fingerprint
  insertCharge id key body :=
    (b.amountCents body).bind fun amount => (b.currency body).map fun currency =>
      ⟨id, key, amount, currency⟩
  payload c := ⟨c.id, c.amountCents, c.currency, "succeeded"⟩
  chargeId p := p.chargeId
  onConflict excluded row now :=
    if row.state = .inProgress ∧ row.expiresAt < now ∧ row.fingerprint = excluded.fingerprint then
      some { row with state := .inProgress, expiresAt := excluded.expiresAt }
    else none
  answer row := if row.state = .done then some (.charged 200 row.response) else none
  created := 200
  polls := false
  conflictError := none
  mismatchError := none
  insertCharge_some h := by
    obtain ⟨amount, -, h⟩ := Option.bind_eq_some_iff.mp h
    obtain ⟨currency, -, rfl⟩ := Option.map_eq_some_iff.mp h
    exact ⟨rfl, rfl⟩
  chargeId_payload _ := rfl
  onConflict_some h := by
    split at h
    · next hc =>
      rw [Option.some_inj] at h
      exact h ▸ ⟨hc.1, rfl⟩
    · cases h
  answer_some h := by
    split at h
    · next hd =>
      refine ⟨hd, fun hp => ?_⟩
      rw [hp, Option.some_inj] at h
      exact ⟨_, _, h.symm, rfl⟩
    · cases h

/-- The row that a claim inserts, at the time `now` and for `ttl` units of time. -/
def Endpoint.excluded (e : Endpoint K Body F P) (ttl : ℕ) (body : Body) (now : ℕ) : KeyRow F P :=
  ⟨e.fingerprint body, .inProgress, none, now + ttl⟩

/-- One pass of the loop of `_replay`, and the whole of `_replay_or_conflict`: `none` if the
replay looks again. -/
def Endpoint.replay [DecidableEq F] (e : Endpoint K Body F P) (fp : F) (deadline : Bool) :
    Option (KeyRow F P) → Option (Response P)
  | none => some (.refused 409 e.conflictError)
  | some row =>
    if row.fingerprint ≠ fp then some (.refused 422 e.mismatchError)
    else
      match e.answer row with
      | some r => some r
      | none => if deadline || !e.polls then some (.refused 409 e.conflictError) else none

/-- Only a row with the fingerprint of the call answers with a charge. -/
theorem Endpoint.replay_charged [DecidableEq F] {e : Endpoint K Body F P} {fp : F}
    {deadline : Bool} {row? : Option (KeyRow F P)} {status : ℕ} {p : Option P}
    (h : e.replay fp deadline row? = some (.charged status p)) :
    ∃ row, row? = some row ∧ row.fingerprint = fp ∧ e.answer row = some (.charged status p) := by
  unfold Endpoint.replay at h
  split at h
  · cases h
  next row =>
  split at h
  · cases h
  next hfp =>
  refine ⟨row, rfl, not_not.mp hfp, ?_⟩
  split at h
  · next r hr => rw [hr, h]
  · split at h <;> cases h

/-! ### Calls -/

/-- How far a call has got. -/
inductive Phase (K P : Type)
  /-- The call has not begun. -/
  | idle
  /-- The claim's transaction has begun at the given time. -/
  | claiming (now : ℕ)
  /-- Another call holds the key. -/
  | replaying
  /-- The call holds the key. -/
  | holding
  /-- The charge is inserted, not committed. -/
  | charged (charge : Charge K)
  /-- The response is stored, not committed. -/
  | published (charge : Charge K)
  /-- The work is committed. -/
  | committed (charge : Charge K)
  | responded (response : Response P)
  | crashed
  deriving DecidableEq, Repr

/-- The two tables, with the calls `ι` as transactions, and the phases of the
calls.  Each committed charge is listed with the call that inserted it. -/
structure State (ι K F P : Type) where
  clock : ℕ
  keys : Table K ι (KeyRow F P)
  charges : List (ι × Charge K)
  nextId : ℕ
  phase : ι → Phase K P

/-- The statements of the calls, and the clock. -/
inductive Action (ι : Type)
  | tick (d : ℕ)
  /-- `BEGIN` of the claim. -/
  | begin (i : ι)
  /-- `INSERT … ON CONFLICT (key) DO UPDATE … RETURNING key`, and `COMMIT`. -/
  | claim (i : ι)
  /-- A `SELECT` of the replay, before or after its deadline. -/
  | replay (i : ι) (deadline : Bool)
  /-- `INSERT INTO charges … RETURNING id`. -/
  | insertCharge (i : ι)
  /-- `UPDATE idempotency_keys SET state, response WHERE key`. -/
  | publish (i : ι)
  /-- `COMMIT` of the work. -/
  | commit (i : ι)
  | respond (i : ι)
  /-- The call dies; its open transaction is rolled back. -/
  | crash (i : ι)
  deriving DecidableEq, Repr

variable {ι : Type} [DecidableEq ι] [DecidableEq K] [DecidableEq F]

namespace State

/-- Empty tables, and nothing called. -/
def init : State ι K F P := ⟨0, fun _ => .empty, [], 1, fun _ => .idle⟩

/-- The call `i` moves on to `p`. -/
def enter (s : State ι K F P) (i : ι) (p : Phase K P) : State ι K F P :=
  { s with phase := Function.update s.phase i p }

variable (e : Endpoint K Body F P) (ttl : ℕ) (req : ι → Request K Body)

/-- `BEGIN` of the claim, which fixes its time. -/
def begin (s : State ι K F P) (i : ι) : Option (State ι K F P) :=
  match s.phase i with
  | .idle => some (s.enter i (.claiming s.clock))
  | _ => none

/-- The claim, a transaction of its own, which waits for a row that another one has written and
not committed. -/
def claim (s : State ι K F P) (i : ι) : Option (State ι K F P) :=
  match s.phase i with
  | .claiming now =>
    let k := (req i).key
    if (s.keys k).free i then
      let excluded := e.excluded ttl (req i).body now
      let returning :=
        match (s.keys k).seen i with
        | none => some excluded
        | some row => e.onConflict excluded row now
      match returning with
      | some row => some ({ s with keys := (s.keys.put k i (some row)).commit i }.enter i .holding)
      | none => some (s.enter i .replaying)
    else none
  | _ => none

/-- One turn of `_replay`, on the row that it reads. -/
def replay (s : State ι K F P) (i : ι) (deadline : Bool) : Option (State ι K F P) :=
  match s.phase i with
  | .replaying =>
    match e.replay (e.fingerprint (req i).body) deadline ((s.keys (req i).key).seen i) with
    | some r => some (s.enter i (.responded r))
    | none => some s
  | _ => none

/-- The row of `charges` is inserted, or the statement fails. -/
def insertCharge (s : State ι K F P) (i : ι) : Option (State ι K F P) :=
  match s.phase i with
  | .holding => (e.insertCharge s.nextId (req i).key (req i).body).map fun c =>
      { s with nextId := s.nextId + 1 }.enter i (.charged c)
  | _ => none

/-- The response is stored with the claimed key. -/
def publish (s : State ι K F P) (i : ι) : Option (State ι K F P) :=
  match s.phase i with
  | .charged c =>
    let k := (req i).key
    if (s.keys k).free i then
      match (s.keys k).seen i with
      | some row =>
        let row := { row with state := .done, response := some (e.payload c) }
        some ({ s with keys := s.keys.put k i (some row) }.enter i (.published c))
      | none => some (s.enter i (.published c))
    else none
  | _ => none

/-- The work commits, the stored response and the charge together. -/
def commit (s : State ι K F P) (i : ι) : Option (State ι K F P) :=
  match s.phase i with
  | .published c =>
    some ({ s with keys := s.keys.commit i, charges := s.charges ++ [(i, c)] }.enter i
      (.committed c))
  | _ => none

/-- The response is sent. -/
def respond (s : State ι K F P) (i : ι) : Option (State ι K F P) :=
  match s.phase i with
  | .committed c => some (s.enter i (.responded (.charged e.created (some (e.payload c)))))
  | _ => none

/-- The call dies, and what it has not committed is rolled back. -/
def crash (s : State ι K F P) (i : ι) : Option (State ι K F P) :=
  match s.phase i with
  | .idle | .responded _ | .crashed => none
  | _ => some ({ s with keys := s.keys.rollback i }.enter i .crashed)

/-- One statement of one call. -/
def step (s : State ι K F P) : Action ι → Option (State ι K F P)
  | .tick d => some { s with clock := s.clock + d }
  | .begin i => s.begin i
  | .claim i => s.claim e ttl req i
  | .replay i deadline => s.replay e req i deadline
  | .insertCharge i => s.insertCharge e req i
  | .publish i => s.publish e req i
  | .commit i => s.commit i
  | .respond i => s.respond e i
  | .crash i => s.crash i

/-! ### What the endpoint is for -/

/-- Call `j` holds its key and has not committed its work. -/
def AtWork (s : State ι K F P) (j : ι) : Prop :=
  match s.phase j with
  | .holding | .charged _ | .published _ => True
  | _ => False

omit [DecidableEq ι] [DecidableEq F] in
/-- The charges of a key. -/
def chargesOf (s : State ι K F P) (k : K) : List (ι × Charge K) :=
  s.charges.filter fun c => c.2.idemKey = k

omit [DecidableEq ι] [DecidableEq F] in
/-- No key is charged twice, and all `200` and `201` answers for a key carry the same charge. -/
def ChargedOnce (s : State ι K F P) : Prop :=
  (∀ k, (s.chargesOf k).length ≤ 1) ∧
    ∀ i j st st' p p', (req i).key = (req j).key → s.phase i = .responded (.charged st p) →
      s.phase j = .responded (.charged st' p') → p.map e.chargeId = p'.map e.chargeId

omit [DecidableEq ι] [DecidableEq K] [DecidableEq F] in
/-- Every `200` and `201` answer reports a charge that was inserted from a body with the
fingerprint of the call's own body, and so was every charge of its key: a call whose
fingerprint differs from a charged one is refused. -/
def SameMoney (s : State ι K F P) : Prop :=
  (s.charges.map fun c => c.2.id).Nodup ∧
    ∀ i st p, s.phase i = .responded (.charged st p) →
      (∃ q j c, p = some q ∧ (j, c) ∈ s.charges ∧ c.id = e.chargeId q ∧
        c.idemKey = (req i).key ∧
        e.fingerprint (req j).body = e.fingerprint (req i).body) ∧
      ∀ j c, (j, c) ∈ s.charges → c.idemKey = (req i).key →
        e.fingerprint (req j).body = e.fingerprint (req i).body

end State
end Idempotency
end SepLab
