import Mathlib.Data.Int.Notation
import SepLab.Lib.ReadCommitted
import SepLab.Lib.Transition

/-!
# The outbox: writers, and relays that skip locked rows

The statements of concurrent transactions on the tables `t6_charges`, `t6_outbox`
and `t6_delivered`.  A transaction of `writer` inserts a charge with its outbox
row; a pass of `relay_skip_locked` or `publish_batch` locks a batch of unpublished
rows, and for each of them inserts a delivery and sets `published_at`.  The ids
come from sequences, which no rollback sets back, so that ids and commits may
come in different orders.  Columns that no statement here reads or changes
(`topic`, `payload`, `created_at`, `delivered_at`) are left out, and so are the ids
of deliveries.

## Main definitions

* `Charge`, `OutboxRow`, `Delivery` — the rows of the three tables.
* `Relay`, `relaySkipLocked`, `publishBatch` — what the passes of the programs differ in.
* `State`, `Action`, `step` — the statements of the transactions, in any order.
* `State.deliveries`, `State.Drained` — what the relays are for.
-/

namespace SepLab
namespace Outbox

/-- A row of `t6_charges`. -/
structure Charge (R : Type) where
  id : ℕ
  runId : R
  amountCents : ℤ
  deriving DecidableEq, Repr

/-- A row of `t6_outbox`. -/
structure OutboxRow (R : Type) where
  runId : R
  aggregateId : ℕ
  committedAt : Option ℕ
  publishedAt : Option ℕ
  publishedBy : Option String
  deriving DecidableEq, Repr

/-- A row of `t6_delivered`. -/
structure Delivery (R : Type) where
  runId : R
  relay : String
  wokenBy : Option String
  outboxId : ℕ
  deriving DecidableEq, Repr

/-- What a pass is run with. -/
structure Relay (R : Type) where
  name : String
  /-- The condition `run_id = …` of the `SELECT`, if it has one. -/
  runId : Option R
  label : String
  wokenBy : Option String
  batch : ℤ
  deriving DecidableEq, Repr

variable {R ι : Type}

/-- A pass of `relay_skip_locked`. -/
def relaySkipLocked (runId : R) (name : String) (batch : ℤ) : Relay R :=
  ⟨name, some runId, "skip-locked", none, batch⟩

/-- A call of `publish_batch`. -/
def publishBatch (name : String) (batch : ℤ) (wokenBy : String) : Relay R :=
  ⟨name, none, "outbox-relay", some wokenBy, batch⟩

/-- The condition of the `SELECT` of a pass. -/
def Relay.wants [DecidableEq R] (relay : Relay R) (row : OutboxRow R) : Bool :=
  relay.runId.all (fun runId => row.runId = runId) && row.publishedAt.isNone

/-! ### Transactions -/

/-- What a transaction is: one round of the loop of `writer`, or one pass. -/
inductive Txn (R : Type)
  | writer (runId : R) (amountCents : ℤ)
  | pass (relay : Relay R)

/-- How far a transaction has got. -/
inductive Phase (R : Type)
  | idle
  | begun
  /-- The writer has inserted its charge. -/
  | charged (charge : Charge R)
  /-- The writer has inserted its outbox row. -/
  | recorded (charge : Charge R)
  /-- The writer has set `committed_at`. -/
  | stamped (charge : Charge R)
  /-- The pass has locked the rows `todo`, and delivered and marked those of `sent`. -/
  | publishing (todo : List (ℕ × R)) (sent : List (Delivery R))
  /-- The pass has inserted the delivery `d`, and not yet marked its row. -/
  | sending (d : Delivery R) (todo : List (ℕ × R)) (sent : List (Delivery R))
  | committed
  | aborted
  deriving DecidableEq, Repr

/-- The transaction has begun and not ended. -/
def Phase.Open : Phase R → Prop
  | .idle | .committed | .aborted => False
  | _ => True

/-- The three tables, with the transactions `ι`, and their phases.  Each committed
charge and delivery is listed with its transaction. -/
structure State (ι R : Type) where
  clock : ℕ
  charges : List (ι × Charge R)
  outbox : Table ℕ ι (OutboxRow R)
  delivered : List (ι × Delivery R)
  nextCharge : ℕ
  nextOutbox : ℕ
  phase : ι → Phase R

/-- The statements of the transactions, and the clock. -/
inductive Action (ι : Type)
  | tick (d : ℕ)
  | begin (i : ι)
  /-- `INSERT INTO t6_charges … RETURNING id`. -/
  | insertCharge (i : ι)
  /-- `INSERT INTO t6_outbox`. -/
  | insertOutbox (i : ι)
  /-- `UPDATE t6_outbox SET committed_at WHERE run_id AND aggregate_id`. -/
  | stamp (i : ι)
  /-- `SELECT … WHERE published_at IS NULL ORDER BY id FOR UPDATE SKIP LOCKED LIMIT …`. -/
  | select (i : ι)
  /-- `INSERT INTO t6_delivered`. -/
  | deliver (i : ι)
  /-- `UPDATE t6_outbox SET published_at, published_by WHERE id`. -/
  | mark (i : ι)
  | commit (i : ι)
  /-- The transaction fails or its connection is lost; it is rolled back. -/
  | abort (i : ι)
  deriving DecidableEq, Repr

variable [DecidableEq ι] [DecidableEq R]

namespace State

/-- Empty tables, and nothing begun. -/
def init : State ι R := ⟨0, [], fun _ => .empty, [], 1, 1, fun _ => .idle⟩

/-- The transaction `i` moves on to `p`. -/
def enter (s : State ι R) (i : ι) (p : Phase R) : State ι R :=
  { s with phase := Function.update s.phase i p }

/-- The transaction of a writer or a relay begins. -/
def begin (s : State ι R) (i : ι) : Option (State ι R) :=
  match s.phase i with
  | .idle => some (s.enter i .begun)
  | _ => none

/-- The writer inserts its charge. -/
def insertCharge (s : State ι R) (i : ι) (runId : R) (amountCents : ℤ) : Option (State ι R) :=
  match s.phase i with
  | .begun => some ({ s with nextCharge := s.nextCharge + 1 }.enter i
      (.charged ⟨s.nextCharge, runId, amountCents⟩))
  | _ => none

/-- The writer inserts the outbox row of its charge. -/
def insertOutbox (s : State ι R) (i : ι) (runId : R) : Option (State ι R) :=
  match s.phase i with
  | .charged c => some ({ s with
      outbox := s.outbox.put s.nextOutbox i (some ⟨runId, c.id, none, none, none⟩)
      nextOutbox := s.nextOutbox + 1 }.enter i (.recorded c))
  | _ => none

/-- The ids below the sequence's next one whose row transaction `i` sees and `p` picks. -/
def picked (s : State ι R) (i : ι) (p : OutboxRow R → Bool) : List ℕ :=
  (List.range s.nextOutbox).filter fun k => ((s.outbox k).seen i).any p

/-- It waits while another transaction has locked a row that it is to write. -/
def stamp (s : State ι R) (i : ι) (runId : R) : Option (State ι R) :=
  match s.phase i with
  | .recorded c =>
    let own (row : OutboxRow R) : Bool := row.runId = runId && row.aggregateId = c.id
    if (s.picked i own).all fun k => (s.outbox k).free i then
      some ({ s with
        outbox := s.outbox.updateWhere i (fun _ => own) fun row =>
          { row with committedAt := some s.clock } }.enter i (.stamped c))
    else none
  | _ => none

/-- The rows that the `SELECT` of a pass returns: those that nobody else has locked, by id. -/
def found (s : State ι R) (i : ι) (relay : Relay R) : List (ℕ × R) :=
  ((List.range s.nextOutbox).filterMap fun k =>
    ((s.outbox k).seen i).bind fun row =>
      if (s.outbox k).free i && relay.wants row then some (k, row.runId) else none).take
    relay.batch.toNat

/-- A negative `LIMIT` is an error. -/
def select (s : State ι R) (i : ι) (relay : Relay R) : Option (State ι R) :=
  match s.phase i with
  | .begun =>
    if relay.batch < 0 then none
    else
      let rows := s.found i relay
      some ({ s with
        outbox := s.outbox.updateWhere i (fun k _ => k ∈ rows.map Prod.fst) id }.enter i
          (.publishing rows []))
  | _ => none

/-- The relay delivers the next row that it has locked. -/
def deliver (s : State ι R) (i : ι) (relay : Relay R) : Option (State ι R) :=
  match s.phase i with
  | .publishing ((oid, runId) :: todo) sent => some (s.enter i
      (.sending ⟨relay.runId.getD runId, relay.label, relay.wokenBy, oid⟩ todo sent))
  | _ => none

/-- The relay marks the row it has delivered. -/
def mark (s : State ι R) (i : ι) (relay : Relay R) : Option (State ι R) :=
  match s.phase i with
  | .sending d todo sent =>
    if (s.outbox d.outboxId).free i then
      some ({ s with
        outbox := s.outbox.updateWhere i (fun k _ => k = d.outboxId) fun row =>
          { row with publishedAt := some s.clock, publishedBy := some relay.name } }.enter i
          (.publishing todo (sent ++ [d])))
    else none
  | _ => none

/-- The transaction commits what it has written. -/
def commit (s : State ι R) (i : ι) : Option (State ι R) :=
  match s.phase i with
  | .stamped c => some ({ s with
      outbox := s.outbox.commit i
      charges := s.charges ++ [(i, c)] }.enter i .committed)
  | .publishing [] sent => some ({ s with
      outbox := s.outbox.commit i
      delivered := s.delivered ++ sent.map (Prod.mk i) }.enter i .committed)
  | _ => none

/-- The transaction is rolled back; what has been delivered stays delivered. -/
def abort (s : State ι R) (i : ι) : Option (State ι R) :=
  match s.phase i with
  | .idle | .committed | .aborted => none
  | _ => some ({ s with outbox := s.outbox.rollback i }.enter i .aborted)

end State

/-- One statement of one transaction. -/
def step (txn : ι → Txn R) (s : State ι R) : Action ι → Option (State ι R)
  | .tick d => some { s with clock := s.clock + d }
  | .begin i => s.begin i
  | .insertCharge i =>
    match txn i with
    | .writer runId amountCents => s.insertCharge i runId amountCents
    | .pass _ => none
  | .insertOutbox i =>
    match txn i with
    | .writer runId _ => s.insertOutbox i runId
    | .pass _ => none
  | .stamp i =>
    match txn i with
    | .writer runId _ => s.stamp i runId
    | .pass _ => none
  | .select i =>
    match txn i with
    | .writer .. => none
    | .pass relay => s.select i relay
  | .deliver i =>
    match txn i with
    | .writer .. => none
    | .pass relay => s.deliver i relay
  | .mark i =>
    match txn i with
    | .writer .. => none
    | .pass relay => s.mark i relay
  | .commit i => s.commit i
  | .abort i => s.abort i

/-! ### What the relays are for -/

namespace State

omit [DecidableEq ι] [DecidableEq R] in
/-- The committed deliveries of the outbox row `k`. -/
def deliveries (s : State ι R) (k : ℕ) : List (ι × Delivery R) :=
  s.delivered.filter fun d => d.2.outboxId = k

/-- If no other transaction is open and a pass finds no row, then every committed
row that is the pass's business has been delivered once. -/
def Drained (txn : ι → Txn R) (business : Relay R → OutboxRow R → Prop) (s : State ι R) : Prop :=
  ∀ i relay s', txn i = .pass relay → (∀ j, j ≠ i → ¬ (s.phase j).Open) →
    step txn s (.select i) = some s' → s'.phase i = .publishing [] [] →
    ∀ k row, (s.outbox k).committed = some row → business relay row → (s.deliveries k).length = 1

end State
end Outbox
end SepLab
