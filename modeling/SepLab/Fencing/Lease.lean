import Mathlib.Data.Int.Notation
import Mathlib.Data.List.Basic
import Mathlib.Logic.Function.Basic
import SepLab.Lib.Transition

/-!
# Leases and fenced payouts

The leader-election topic's two programs, `fencing_demo.py` and the container
version `relay7.py`.  Workers contend for a row of `t7_leases`, whose epoch grows
at each takeover, and write payouts that carry the epoch they believe they hold.
Each SQL statement runs in a transaction of its own, and a worker may stop for any
time between two of them.

## Main definitions

* `Db.acquire`, `Db.renew`, `Db.updatePayout`, `Db.insertAttempt` — the statements.
* `Program.accepts` — the guard of the payout's `UPDATE`, which the programs
  write with `<` and with `≤`.
* `fencingDemo`, `relay7` — the workers' statements, one at a time in any order.

## Main results

* `Db.payouts_acquire`, `Db.leases_updatePayout`, … — what each statement leaves alone.
-/

namespace SepLab
namespace Fencing

/-! ### The tables -/

/-- A row of `t7_leases`, whose name is the key of the table. -/
structure Lease (H : Type) where
  holder : Option H
  /-- The fencing token. -/
  epoch : ℤ
  expiresAt : ℤ
deriving DecidableEq

/-- The values of the column `status`. -/
inductive Status
  | pending
  | sent
deriving DecidableEq

/-- A row of `t7_payouts`. -/
structure Payout (H : Type) where
  status : Status
  fence : ℤ
  sentBy : Option H
  sentAt : Option ℤ
deriving DecidableEq

/-- A row of `t7_payout_attempts`. -/
structure Attempt (H R K : Type) where
  runId : R
  fencing : Bool
  worker : H
  payoutKey : K
  epoch : ℤ
  rowsUpdated : ℕ
  attemptedAt : ℤ
deriving DecidableEq

/-- The database: leases by name, payouts by run and key, attempts by id. -/
structure Db (N H R K : Type) where
  leases : N → Option (Lease H)
  payouts : R → K → Option (Payout H)
  attempts : List (Attempt H R K)

variable {W N H R K : Type} [DecidableEq W] [DecidableEq N] [DecidableEq H] [DecidableEq R]
  [DecidableEq K]

namespace Db

/-- `INSERT INTO t7_leases … ON CONFLICT (name) DO UPDATE … WHERE expires_at < now()
RETURNING epoch`. -/
def acquire (db : Db N H R K) (lease : N) (holder : H) (ttl now : ℤ) : Option ℤ × Db N H R K :=
  match db.leases lease with
  | none =>
    (some 1,
      { db with leases := Function.update db.leases lease (some ⟨some holder, 1, now + ttl⟩) })
  | some row =>
    if row.expiresAt < now then
      (some (row.epoch + 1),
        { db with
          leases := Function.update db.leases lease
            (some ⟨some holder, row.epoch + 1, now + ttl⟩) })
    else (none, db)

/-- `UPDATE t7_leases SET expires_at = … WHERE name = … AND holder = … AND epoch = …`, to
which `live` adds `AND expires_at > now()`, and its row count. -/
def renew (db : Db N H R K) (live : Bool) (lease : N) (holder : H) (epoch ttl now : ℤ) :
    ℕ × Db N H R K :=
  match db.leases lease with
  | none => (0, db)
  | some row =>
    if row.holder = some holder ∧ row.epoch = epoch ∧ (live = true → now < row.expiresAt) then
      (1,
        { db with
          leases := Function.update db.leases lease (some { row with expiresAt := now + ttl }) })
    else (0, db)

/-- `UPDATE t7_payouts SET status = 'sent', fence = … WHERE run_id = … AND payout_key = …`
and `accepts` of the row's fence, and its row count. -/
def updatePayout (db : Db N H R K) (accepts : ℤ → Bool) (runId : R) (key : K) (worker : H)
    (epoch now : ℤ) : ℕ × Db N H R K :=
  match db.payouts runId key with
  | none => (0, db)
  | some row =>
    if accepts row.fence then
      (1,
        { db with
          payouts := Function.update db.payouts runId (Function.update (db.payouts runId) key
            (some ⟨.sent, epoch, some worker, some now⟩)) })
    else (0, db)

/-- `INSERT INTO t7_payout_attempts`. -/
def insertAttempt (db : Db N H R K) (a : Attempt H R K) : Db N H R K :=
  { db with attempts := db.attempts ++ [a] }

omit [DecidableEq H] [DecidableEq R] [DecidableEq K] in
@[simp] theorem payouts_acquire (db : Db N H R K) (lease : N) (holder : H) (ttl now : ℤ) :
    (db.acquire lease holder ttl now).2.payouts = db.payouts := by
  unfold acquire
  split
  · rfl
  · split <;> rfl

omit [DecidableEq R] [DecidableEq K] in
@[simp] theorem payouts_renew (db : Db N H R K) (live : Bool) (lease : N) (holder : H)
    (epoch ttl now : ℤ) : (db.renew live lease holder epoch ttl now).2.payouts = db.payouts := by
  unfold renew
  split
  · rfl
  · split <;> rfl

omit [DecidableEq N] [DecidableEq H] in
@[simp] theorem leases_updatePayout (db : Db N H R K) (accepts : ℤ → Bool) (runId : R) (key : K)
    (worker : H) (epoch now : ℤ) :
    (db.updatePayout accepts runId key worker epoch now).2.leases = db.leases := by
  unfold updatePayout
  split
  · rfl
  · split <;> rfl

end Db

/-! ### The workers -/

/-- The two programs that share the schema. -/
inductive Program
  | fencingDemo
  | relay7
deriving DecidableEq

/-- The guard on `fence` in the payout's `UPDATE`: `fencing_demo.py` takes `fence < epoch`
and `relay7.py` takes `fence <= epoch`. -/
def Program.accepts : Program → Bool → ℤ → ℤ → Bool
  | .fencingDemo, fencing, epoch, fence => !fencing || decide (fence < epoch)
  | .relay7, fencing, epoch, fence => !fencing || decide (fence ≤ epoch)

/-- Where a worker stands between two statements. -/
inductive Pc (R K : Type)
  | ready
  /-- `acquire_or_renew` has updated no row and goes on to its takeover. -/
  | takingOver
  /-- The payout's `UPDATE` is done, the attempt is not recorded yet. -/
  | recording (runId : R) (key : K) (epoch : ℤ) (rows : ℕ)

/-- A write that the payouts table has accepted. -/
structure Write (W R K : Type) where
  worker : W
  runId : R
  key : K
  epoch : ℤ
deriving DecidableEq

/-- The database, what each worker believes, and the accepted writes in their order. -/
structure State (W N H R K : Type) where
  db : Db N H R K
  /-- The local variable `epoch` of each worker. -/
  epoch : W → Option ℤ
  pc : W → Pc R K
  accepted : List (Write W R K)

/-- What the workers are started with. -/
structure Config (W N H : Type) where
  lease : W → N
  name : W → H
  ttl : ℤ
  fencing : Bool

/-- A statement of a worker, at the time that the server's clock shows. -/
inductive Action (W R K : Type)
  | acquire (w : W) (now : ℤ)
  | renew (w : W) (now : ℤ)
  | sendPayout (w : W) (runId : R) (key : K) (now : ℤ)
  | record (w : W) (now : ℤ)
  /-- A statement raises, and the worker's loop starts again. -/
  | fail (w : W)

namespace State

/-- Nothing has run yet on the database. -/
def init (db : Db N H R K) : State W N H R K := ⟨db, fun _ => none, fun _ => .ready, []⟩

/-- The database answers worker `w`, who goes on at `pc` with `epoch`. -/
def answer (s : State W N H R K) (w : W) (db : Db N H R K) (epoch : Option ℤ) (pc : Pc R K) :
    State W N H R K :=
  { s with
    db := db
    epoch := Function.update s.epoch w epoch
    pc := Function.update s.pc w pc }

variable (c : Config W N H)

/-- The upsert of `acquire`, and the second one of `acquire_or_renew`. -/
def acquire (s : State W N H R K) (w : W) (now : ℤ) : State W N H R K :=
  let r := s.db.acquire (c.lease w) (c.name w) c.ttl now
  s.answer w r.2 r.1 .ready

/-- The payout's `UPDATE`, in `send_payout` and in `do_payout`. -/
def updatePayout (p : Program) (s : State W N H R K) (w : W) (runId : R) (key : K)
    (epoch now : ℤ) : State W N H R K :=
  let r := s.db.updatePayout (p.accepts c.fencing epoch) runId key (c.name w) epoch now
  { s.answer w r.2 (s.epoch w) (.recording runId key epoch r.1) with
    accepted := if r.1 = 0 then s.accepted else s.accepted ++ [⟨w, runId, key, epoch⟩] }

/-- The attempt's `INSERT`. -/
def record (s : State W N H R K) (w : W) (now : ℤ) : Option (State W N H R K) :=
  match s.pc w with
  | .recording runId key epoch rows =>
    some (s.answer w
      (s.db.insertAttempt ⟨runId, c.fencing, c.name w, key, epoch, rows, now⟩) (s.epoch w) .ready)
  | _ => none

end State

/-- One statement of a worker of `fencing_demo.py`, who forgets the epoch that it could not
renew, and sends `epoch or 0`. -/
def fencingDemo (c : Config W N H) (s : State W N H R K) :
    Action W R K → Option (State W N H R K)
  | .acquire w now =>
    match s.pc w with
    | .ready => some (s.acquire c w now)
    | _ => none
  | .renew w now =>
    match s.pc w, s.epoch w with
    | .ready, some e =>
      let r := s.db.renew true (c.lease w) (c.name w) e c.ttl now
      some (s.answer w r.2 (if r.1 = 1 then some e else none) .ready)
    | _, _ => none
  | .sendPayout w runId key now =>
    match s.pc w with
    | .ready => some (s.updatePayout c .fencingDemo w runId key ((s.epoch w).getD 0) now)
    | _ => none
  | .record w now => s.record c w now
  | .fail w => some (s.answer w s.db none .ready)

/-- One statement of a worker of `relay7.py`.  The renewal is the first statement of
`acquire_or_renew`, and a row that it does not find makes the function go on to the
takeover, the worker still believing in its epoch. -/
def relay7 (c : Config W N H) (s : State W N H R K) : Action W R K → Option (State W N H R K)
  | .acquire w now =>
    match s.pc w, s.epoch w with
    | .takingOver, _ => some (s.acquire c w now)
    | .ready, none => some (s.acquire c w now)
    | _, _ => none
  | .renew w now =>
    match s.pc w, s.epoch w with
    | .ready, some e =>
      let r := s.db.renew false (c.lease w) (c.name w) e c.ttl now
      some (s.answer w r.2 (some e) (if r.1 = 1 then .ready else .takingOver))
    | _, _ => none
  | .sendPayout w runId key now =>
    match s.pc w, s.epoch w with
    | .ready, some e => some (s.updatePayout c .relay7 w runId key e now)
    | _, _ => none
  | .record w now => s.record c w now
  | .fail w => some (s.answer w s.db (s.epoch w) .ready)

/-- The statements of the workers of program `p`. -/
def Program.step (p : Program) (c : Config W N H) :
    State W N H R K → Action W R K → Option (State W N H R K) :=
  match p with
  | .fencingDemo => Fencing.fencingDemo c
  | .relay7 => Fencing.relay7 c

end Fencing
end SepLab
