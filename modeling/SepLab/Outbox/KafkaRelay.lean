import Mathlib.Data.Int.Notation
import SepLab.Lib.ReadCommitted
import SepLab.Lib.Transition

/-!
# The outbox relay in front of a broker

`relay_loop` of `relay6.py`: a pass locks a batch of unpublished rows, produces a message
for each, flushes, and marks the rows whose delivery reports came without an error.

The callbacks of a batch close over the variables `_dr` and `acked` of the function and
not over their values, so a report that comes in a later flush is appended to the list of
the later batch; the model keeps one list for each relay, which every batch empties.
Callbacks run only inside `flush`, and for each message at most once.  Rows come from
writers whose transactions commit in any order; a draw from the sequence may never be
committed.

## Main definitions

* `OutboxRow`, `Relay`, `Message` — the rows, the settings of a process, and what it produces.
* `State`, `Action`, `step` — the statements, the broker's reports, and failures.
* `State.Delivered` — a message for the row had a delivery report without error.
* `State.candidates` — what the `SELECT` of a relay finds before its `LIMIT`.

## Main results

* `State.Inv.step` — every action keeps the invariant.
* `relay_loop_marks_delivered` — published rows were delivered, and the others can be
  claimed again.
-/

namespace SepLab
namespace Outbox.KafkaRelay

/-- The columns of `t6_outbox` that the relay reads or writes. -/
structure OutboxRow (R P : Type) where
  runId : R
  payload : P
  publishedAt : Option ℕ
  publishedBy : Option String
  deriving DecidableEq, Repr

/-- `RELAY_NAME`, `RUN_ID` and `BATCH` of a process. -/
structure Relay (R : Type) where
  name : String
  runId : R
  batch : ℤ
  deriving DecidableEq, Repr

/-- A message given to the producer: the payload with the id of its outbox row. -/
structure Message (ι P : Type) where
  producer : ι
  payload : P
  outboxId : ℕ
  deriving DecidableEq, Repr

/-- Where a relay is in its pass. -/
inductive Phase (P : Type)
  | idle
  /-- The `for` loop over the claimed rows. -/
  | producing (todo : List (ℕ × P)) (sent : ℕ)
  /-- Inside `p.flush`. -/
  | flushing (sent : ℕ)
  /-- The `UPDATE`, with the rows of `published` that it has still to write. -/
  | marking (todo : List ℕ)
  deriving DecidableEq, Repr

/-- The transaction of the pass is open. -/
def Phase.Open {P : Type} (p : Phase P) : Prop := p ≠ .idle

/-- The table, the relays, and all messages ever produced with their delivery reports. -/
structure State (ι R P : Type) where
  outbox : Table ℕ ι (OutboxRow R P)
  nextOutbox : ℕ
  phase : ι → Phase P
  /-- The list that the variable `acked` of a relay refers to. -/
  acked : ι → List ℕ
  produced : List (Message ι P)
  /-- The report of a message by its place in `produced`: without an error or with one. -/
  report : ℕ → Option Bool

/-- What happens next. -/
inductive Action (ι R P : Type)
  /-- A writer draws an id. -/
  | draw
  /-- A writer commits the row it has inserted under an id. -/
  | insert (k : ℕ) (runId : R) (payload : P)
  /-- `SELECT … FOR UPDATE SKIP LOCKED LIMIT …`. -/
  | select (i : ι)
  /-- `p.produce` takes a message. -/
  | produce (i : ι)
  /-- `p.produce`, or what makes up its message, raises. -/
  | raise (i : ι)
  /-- The loop is through, and `p.flush` begins. -/
  | flush (i : ι)
  /-- The callback of a message runs. -/
  | callback (i : ι) (m : ℕ) (ok : Bool)
  /-- `p.flush` returns, and the pass looks at what was acknowledged. -/
  | flushed (i : ι)
  /-- The `UPDATE` writes a row. -/
  | mark (i : ι) (k : ℕ) (now : ℕ)
  | commit (i : ι)
  /-- The pass fails, or its process or connection does, and is rolled back. -/
  | fail (i : ι)
  deriving DecidableEq, Repr

variable {ι R P : Type}

namespace State

/-- An empty table, and no pass begun. -/
def init : State ι R P := ⟨fun _ => .empty, 1, fun _ => .idle, fun _ => [], [], fun _ => none⟩

/-- A message for the row `k` had a delivery report without error. -/
def Delivered (s : State ι R P) (k : ℕ) : Prop :=
  ∃ m msg, s.produced[m]? = some msg ∧ msg.outboxId = k ∧ s.report m = some true

variable [DecidableEq ι] [DecidableEq R]

/-- The relay `i` moves on to `p`. -/
def enter (s : State ι R P) (i : ι) (p : Phase P) : State ι R P :=
  { s with phase := Function.update s.phase i p }

/-- The unpublished rows of the run that nobody else has locked, by id. -/
def candidates (s : State ι R P) (i : ι) (relay : Relay R) : List (ℕ × P) :=
  (List.range s.nextOutbox).filterMap fun k =>
    ((s.outbox k).seen i).bind fun row =>
      if (s.outbox k).free i && (row.runId = relay.runId && row.publishedAt.isNone) then
        some (k, row.payload)
      else none

/-- A negative `LIMIT` is an error, and no rows end the pass. -/
def select (s : State ι R P) (i : ι) (relay : Relay R) : Option (State ι R P) :=
  match s.phase i with
  | .idle =>
    if relay.batch < 0 then none
    else
      let rows := (s.candidates i relay).take relay.batch.toNat
      if rows.isEmpty then some s
      else some ({ s with
        outbox := s.outbox.updateWhere i (fun k _ => k ∈ rows.map Prod.fst) id
        acked := Function.update s.acked i [] }.enter i (.producing rows 0))
  | _ => none

/-- The next row is handed to the producer. -/
def produce (s : State ι R P) (i : ι) : Option (State ι R P) :=
  match s.phase i with
  | .producing ((oid, payload) :: todo) sent =>
    let msg : Message ι P := ⟨i, payload, oid⟩
    some ({ s with produced := s.produced ++ [msg] }.enter i (.producing todo (sent + 1)))
  | _ => none

/-- The producer raises before it has taken all rows. -/
def raise (s : State ι R P) (i : ι) : Option (State ι R P) :=
  match s.phase i with
  | .producing (_ :: _) sent => some (s.enter i (.flushing sent))
  | _ => none

/-- All rows are with the producer, and `flush` waits for their callbacks. -/
def flush (s : State ι R P) (i : ι) : Option (State ι R P) :=
  match s.phase i with
  | .producing [] sent => some (s.enter i (.flushing sent))
  | _ => none

/-- `_dr`: the row is appended to the list `acked` refers to now. -/
def callback (s : State ι R P) (i : ι) (m : ℕ) (ok : Bool) : Option (State ι R P) :=
  match s.phase i, s.produced[m]?, s.report m with
  | .flushing _, some msg, none =>
    if msg.producer = i then
      some { s with
        report := Function.update s.report m (some ok)
        acked := if ok then Function.update s.acked i (s.acked i ++ [msg.outboxId]) else s.acked }
    else none
  | _, _, _ => none

/-- The transaction of relay `i` is rolled back. -/
def rollback (s : State ι R P) (i : ι) : State ι R P :=
  { s with outbox := s.outbox.rollback i }.enter i .idle

/-- `published = acked`, and nothing is committed if a message is missing and none came. -/
def flushed (s : State ι R P) (i : ι) : Option (State ι R P) :=
  match s.phase i with
  | .flushing sent =>
    let published := s.acked i
    if published.length < sent ∧ published = [] then some (s.rollback i)
    else some (s.enter i (.marking published))
  | _ => none

/-- It waits while another transaction has locked the row. -/
def mark (s : State ι R P) (i : ι) (relay : Relay R) (k now : ℕ) : Option (State ι R P) :=
  match s.phase i with
  | .marking todo =>
    if k ∈ todo ∧ (s.outbox k).free i = true then
      some ({ s with
        outbox := s.outbox.updateWhere i (fun k' _ => k' = k) fun row =>
          { row with publishedAt := some now, publishedBy := some relay.name } }.enter i
          (.marking (todo.filter (· ≠ k))))
    else none
  | _ => none

/-- The transaction commits, with the rows it has marked. -/
def commit (s : State ι R P) (i : ι) : Option (State ι R P) :=
  match s.phase i with
  | .marking [] => some ({ s with outbox := s.outbox.commit i }.enter i .idle)
  | _ => none

/-- The pass fails, and its transaction is rolled back. -/
def fail (s : State ι R P) (i : ι) : Option (State ι R P) :=
  match s.phase i with
  | .idle => none
  | _ => some (s.rollback i)

/-- A row comes in under an id that was drawn and never written. -/
def insert (s : State ι R P) (k : ℕ) (runId : R) (payload : P) : Option (State ι R P) :=
  if k < s.nextOutbox ∧ (s.outbox k).committed = none ∧ (s.outbox k).pending = none then
    some { s with outbox := Function.update s.outbox k ⟨some ⟨runId, payload, none, none⟩, none⟩ }
  else none

end State

variable [DecidableEq ι] [DecidableEq R]

/-- One action. -/
def step (relay : ι → Relay R) (s : State ι R P) : Action ι R P → Option (State ι R P)
  | .draw => some { s with nextOutbox := s.nextOutbox + 1 }
  | .insert k runId payload => s.insert k runId payload
  | .select i => s.select i (relay i)
  | .produce i => s.produce i
  | .raise i => s.raise i
  | .flush i => s.flush i
  | .callback i m ok => s.callback i m ok
  | .flushed i => s.flushed i
  | .mark i k now => s.mark i (relay i) k now
  | .commit i => s.commit i
  | .fail i => s.fail i

/-! ### The invariant -/

/-- The rows that the `UPDATE` of a pass is going to write. -/
def Phase.toMark : Phase P → List ℕ
  | .marking todo => todo
  | _ => []

namespace State

/-- Acknowledged rows were delivered, and only they are marked. -/
structure Inv (s : State ι R P) : Prop where
  fresh : ∀ {k}, s.nextOutbox ≤ k → s.outbox k = .empty
  pending : ∀ {k i v}, (s.outbox k).pending = some (i, v) → (s.phase i).Open ∧
    ∃ row, v = some row ∧ (row.publishedAt ≠ none → s.Delivered k)
  committed : ∀ {k row}, (s.outbox k).committed = some row → row.publishedAt ≠ none →
    s.Delivered k
  acked : ∀ {i k}, k ∈ s.acked i → s.Delivered k
  marking : ∀ {i k}, k ∈ (s.phase i).toMark → s.Delivered k

variable {s s' : State ι R P}

omit [DecidableEq ι] [DecidableEq R] in
theorem Inv.init : (State.init : State ι R P).Inv where
  fresh _ := rfl
  pending h := by cases h
  committed h := by cases h
  acked h := by cases h
  marking h := by cases h

omit [DecidableEq ι] [DecidableEq R] in
/-- Deliveries stay when messages are added and reports come in. -/
theorem Delivered.mono {k : ℕ} (h : s.Delivered k) {new : List (Message ι P)}
    (hprod : s'.produced = s.produced ++ new)
    (hrep : ∀ m b, s.report m = some b → s'.report m = some b) : s'.Delivered k := by
  obtain ⟨m, msg, hm, hk, hok⟩ := h
  refine ⟨m, msg, ?_, hk, hrep m true hok⟩
  rw [hprod, List.getElem?_append_left (List.getElem?_eq_some_iff.mp hm).1]
  exact hm

omit [DecidableEq R] in
/-- What a relay sees of a row was published after a delivery. -/
theorem Inv.seen (h : s.Inv) {i : ι} {k : ℕ} {row : OutboxRow R P}
    (hrow : (s.outbox k).seen i = some row) (hpub : row.publishedAt ≠ none) : s.Delivered k := by
  by_cases hp : ∃ v, (s.outbox k).pending = some (i, v)
  · obtain ⟨v, hv⟩ := hp
    obtain ⟨-, row', rfl, hdel⟩ := h.pending hv
    rw [Row.seen_of_pending hv, Option.some_inj] at hrow
    exact hdel (hrow ▸ hpub)
  · push Not at hp
    rw [Row.seen_of_ne hp] at hrow
    exact h.committed hrow hpub

omit [DecidableEq R] in
/-- **A relay acts within its pass.**  It may write rows that it sees, and publish those
that were delivered. -/
theorem Inv.act (h : s.Inv) {i : ι} {p : Phase P} (hopen : p.Open)
    (hphase : s'.phase = Function.update s.phase i p) (hnext : s'.nextOutbox = s.nextOutbox)
    (hdel : ∀ k, s.Delivered k → s'.Delivered k)
    (hrow : ∀ k, s'.outbox k = s.outbox k ∨ ∃ v row, (s.outbox k).seen i = some v ∧
      s'.outbox k = (s.outbox k).put i (some row) ∧
        (row.publishedAt ≠ none → s.Delivered k))
    (hacked : ∀ j k, k ∈ s'.acked j → s'.Delivered k)
    (hmark : ∀ k ∈ p.toMark, s.Delivered k) : s'.Inv where
  fresh {k} hk := by
    rw [hnext] at hk
    have hempty := h.fresh hk
    rcases hrow k with heq | ⟨v, row, hseen, -, -⟩
    · rw [heq, hempty]
    · rw [hempty] at hseen
      cases hseen
  pending {k j v} hp := by
    have hphase' : (s.phase j).Open ∨ j = i → (s'.phase j).Open := by
      intro hj
      rw [hphase]
      by_cases hji : j = i
      · rw [hji, Function.update_self]
        exact hopen
      · rw [Function.update_of_ne hji]
        exact hj.resolve_right hji
    rcases hrow k with heq | ⟨w, row, -, heq, hpub⟩
    · rw [heq] at hp
      obtain ⟨hj, row, hv, hpub⟩ := h.pending hp
      exact ⟨hphase' (.inl hj), row, hv, fun hne => hdel k (hpub hne)⟩
    · rw [heq, Row.pending_put, Option.some_inj, Prod.mk.injEq] at hp
      exact ⟨hphase' (.inr hp.1.symm), row, hp.2.symm, fun hne => hdel k (hpub hne)⟩
  committed {k row} hc hne := by
    apply hdel
    rcases hrow k with heq | ⟨w, row', -, heq, -⟩
    · rw [heq] at hc
      exact h.committed hc hne
    · rw [heq, Row.committed_put] at hc
      exact h.committed hc hne
  acked hk := hacked _ _ hk
  marking {j k} hk := by
    apply hdel
    rw [hphase] at hk
    by_cases hji : j = i
    · rw [hji, Function.update_self] at hk
      exact hmark k hk
    · rw [Function.update_of_ne hji] at hk
      exact h.marking hk

omit [DecidableEq R] in
/-- **A pass ends.**  Its locks are gone, and the rows it has written are committed or not. -/
theorem Inv.close (h : s.Inv) {i : ι} (hphase : s'.phase = Function.update s.phase i .idle)
    (hnext : s'.nextOutbox = s.nextOutbox) (hprod : s'.produced = s.produced)
    (hreport : s'.report = s.report) (hacked : s'.acked = s.acked)
    (hrow : ∀ k, s'.outbox k = s.outbox k ∧ (∀ v, (s.outbox k).pending ≠ some (i, v)) ∨
      ∃ v, (s.outbox k).pending = some (i, v) ∧ (s'.outbox k).pending = none ∧
        ((s'.outbox k).committed = v ∨ (s'.outbox k).committed = (s.outbox k).committed)) :
    s'.Inv := by
  have hdel : ∀ k, s.Delivered k → s'.Delivered k := by
    intro k hk
    have hsame : s'.produced = s.produced ++ [] := by rw [hprod, List.append_nil]
    apply hk.mono hsame
    intro m b hb
    rw [hreport, hb]
  constructor
  · intro k hk
    rw [hnext] at hk
    have hempty := h.fresh hk
    rcases hrow k with ⟨heq, -⟩ | ⟨v, hv, -⟩
    · rw [heq, hempty]
    · rw [hempty] at hv
      cases hv
  · intro k j v hp
    rcases hrow k with ⟨heq, hnot⟩ | ⟨w, -, hnone, -⟩
    · rw [heq] at hp
      obtain ⟨hj, row, hv, hpub⟩ := h.pending hp
      have hji : j ≠ i := by
        rintro rfl
        exact hnot v hp
      refine ⟨?_, row, hv, fun hne => hdel k (hpub hne)⟩
      rw [hphase, Function.update_of_ne hji]
      exact hj
    · rw [hnone] at hp
      cases hp
  · intro k row hc hne
    apply hdel
    rcases hrow k with ⟨heq, -⟩ | ⟨w, hw, -, hv | hsame⟩
    · rw [heq] at hc
      exact h.committed hc hne
    · -- the commit shows the pass's own rows, whose deliveries came before the `UPDATE`s
      obtain ⟨-, row', hrow', hpub⟩ := h.pending hw
      rw [hv, hrow', Option.some_inj] at hc
      exact hpub (hc ▸ hne)
    · rw [hsame] at hc
      exact h.committed hc hne
  · intro j k hk
    rw [hacked] at hk
    exact hdel k (h.acked hk)
  · intro j k hk
    rw [hphase] at hk
    by_cases hji : j = i
    · rw [hji, Function.update_self] at hk
      cases hk
    · rw [Function.update_of_ne hji] at hk
      exact hdel k (h.marking hk)

omit [DecidableEq R] in
theorem Inv.rollback (h : s.Inv) (i : ι) : (s.rollback i).Inv := by
  refine h.close (i := i) rfl rfl rfl rfl rfl fun k => ?_
  by_cases hp : ∃ v, (s.outbox k).pending = some (i, v)
  · obtain ⟨v, hv⟩ := hp
    refine .inr ⟨v, hv, ?_, .inr Row.committed_rollback⟩
    show ((s.outbox k).rollback i).pending = none
    simp [Row.rollback, hv]
  · push Not at hp
    exact .inl ⟨Row.rollback_of_ne hp, hp⟩

omit [DecidableEq R] in
theorem Inv.commit (h : s.Inv) {i : ι} (hstep : s.commit i = some s') : s'.Inv := by
  unfold State.commit at hstep
  split at hstep
  · obtain rfl := Option.some_inj.mp hstep
    refine h.close (i := i) rfl rfl rfl rfl rfl fun k => ?_
    by_cases hp : ∃ v, (s.outbox k).pending = some (i, v)
    · obtain ⟨v, hv⟩ := hp
      have hrow : (s.outbox.commit i) k = ⟨v, none⟩ := Row.commit_of_pending hv
      refine .inr ⟨v, hv, ?_, .inl ?_⟩
      · exact congrArg Row.pending hrow
      · exact congrArg Row.committed hrow
    · push Not at hp
      exact .inl ⟨Row.commit_of_ne hp, hp⟩
  · cases hstep

theorem Inv.select (h : s.Inv) {i : ι} {relay : Relay R} (hstep : s.select i relay = some s') :
    s'.Inv := by
  unfold State.select at hstep
  split at hstep
  · split at hstep
    · cases hstep
    · dsimp only at hstep
      generalize (s.candidates i relay).take relay.batch.toNat = rows at hstep
      split at hstep
      · exact Option.some_inj.mp hstep ▸ h
      · obtain rfl := Option.some_inj.mp hstep
        refine h.act (i := i) (by simp [Phase.Open]) rfl rfl (fun k hk => hk) ?_ ?_ ?_
        · -- `FOR UPDATE` is a write of the row as it is: the lock, and nothing else
          intro k
          rcases Table.updateWhere_cases s.outbox i (fun k _ => decide (k ∈ rows.map Prod.fst)) id k
            with ⟨v, hseen, -, hput⟩ | hsame
          · exact .inr ⟨v, v, hseen, hput, h.seen hseen⟩
          · exact .inl hsame
        · intro j k hk
          have hk' : k ∈ Function.update s.acked i [] j := hk
          by_cases hj : j = i
          · rw [hj, Function.update_self] at hk'
            cases hk'
          · rw [Function.update_of_ne hj] at hk'
            exact h.acked hk'
        · intro k hk
          cases hk
  · cases hstep

omit [DecidableEq R] in
/-- A pass goes on without a statement, and what it is going to mark was acknowledged. -/
theorem Inv.enter (h : s.Inv) {i : ι} {p : Phase P} (hopen : p.Open)
    (hmark : ∀ k ∈ p.toMark, k ∈ s.acked i) : (s.enter i p).Inv :=
  h.act (i := i) hopen rfl rfl (fun _ hk => hk) (fun _ => .inl rfl) (fun _ _ hk => h.acked hk)
    fun k hk => h.acked (hmark k hk)

omit [DecidableEq R] in
theorem Inv.produce (h : s.Inv) {i : ι} (hstep : s.produce i = some s') : s'.Inv := by
  unfold State.produce at hstep
  split at hstep
  · next oid payload todo sent _ =>
    obtain rfl := Option.some_inj.mp hstep
    refine h.act (i := i) (by simp [Phase.Open]) rfl rfl ?_ (fun _ => .inl rfl) ?_ ?_
    · intro k hk
      exact hk.mono rfl fun _ _ hb => hb
    · intro j k hk
      exact (h.acked hk).mono rfl fun _ _ hb => hb
    · intro k hk
      cases hk
  · cases hstep

omit [DecidableEq R] in
/-- A report without error is a delivery, whichever batch its message was of. -/
theorem Inv.callback (h : s.Inv) {i : ι} {m : ℕ} {ok : Bool}
    (hstep : s.callback i m ok = some s') : s'.Inv := by
  unfold State.callback at hstep
  split at hstep
  · next sent msg hphase hmsg hnone =>
    split at hstep
    · next hi =>
      obtain rfl := Option.some_inj.mp hstep
      have hdel : ∀ k, s.Delivered k → State.Delivered { s with
          report := Function.update s.report m (some ok)
          acked := if ok then Function.update s.acked i (s.acked i ++ [msg.outboxId])
            else s.acked } k := by
        intro k hk
        refine hk.mono (List.append_nil _).symm ?_
        -- a message is reported once, so that no earlier report is overwritten
        intro m' b hb
        have hne : m' ≠ m := by
          rintro rfl
          rw [hnone] at hb
          cases hb
        exact (Function.update_of_ne hne _ _).trans hb
      have hself : s.phase = Function.update s.phase i (.flushing sent) := by
        rw [← hphase, Function.update_eq_self]
      refine h.act (i := i) (p := .flushing sent) (by simp [Phase.Open]) hself rfl hdel
        (fun _ => .inl rfl) ?_ ?_
      · intro j k hk
        cases ok with
        | false => exact hdel k (h.acked hk)
        | true =>
          have hk' : k ∈ Function.update s.acked i (s.acked i ++ [msg.outboxId]) j := hk
          by_cases hj : j = i
          · rw [hj, Function.update_self, List.mem_append, List.mem_singleton] at hk'
            rcases hk' with hk' | rfl
            · exact hdel k (h.acked hk')
            · exact ⟨m, msg, hmsg, rfl, Function.update_self ..⟩
          · rw [Function.update_of_ne hj] at hk'
            exact hdel k (h.acked hk')
      · intro k hk
        cases hk
    · cases hstep
  · cases hstep

omit [DecidableEq R] in
theorem Inv.flushed (h : s.Inv) {i : ι} (hstep : s.flushed i = some s') : s'.Inv := by
  unfold State.flushed at hstep
  split at hstep
  · dsimp only at hstep
    split at hstep
    · exact Option.some_inj.mp hstep ▸ h.rollback i
    · obtain rfl := Option.some_inj.mp hstep
      exact h.enter (by simp [Phase.Open]) fun _ hk => hk
  · cases hstep

omit [DecidableEq R] in
theorem Inv.mark (h : s.Inv) {i : ι} {relay : Relay R} {k now : ℕ}
    (hstep : s.mark i relay k now = some s') : s'.Inv := by
  unfold State.mark at hstep
  split at hstep
  · next todo hphase =>
    split at hstep
    · next hk =>
      obtain rfl := Option.some_inj.mp hstep
      refine h.act (i := i) (by simp [Phase.Open]) rfl rfl (fun _ hk => hk) ?_
        (fun _ _ hk => h.acked hk) ?_
      · intro k'
        rcases Table.updateWhere_cases s.outbox i (fun k' _ => decide (k' = k)) (fun row =>
          { row with publishedAt := some now, publishedBy := some relay.name }) k' with
          ⟨v, hseen, hpick, hput⟩ | hsame
        · obtain rfl := of_decide_eq_true hpick
          refine .inr ⟨v, _, hseen, hput, fun _ => h.marking (i := i) ?_⟩
          rw [hphase]
          exact hk.1
        · exact .inl hsame
      · intro k' hk'
        apply h.marking (i := i)
        rw [hphase]
        exact List.mem_of_mem_filter hk'
    · cases hstep
  · cases hstep

omit [DecidableEq ι] [DecidableEq R] in
/-- A writer's row is new, and nobody has published it. -/
theorem Inv.insert (h : s.Inv) {k : ℕ} {runId : R} {payload : P}
    (hstep : s.insert k runId payload = some s') : s'.Inv := by
  unfold State.insert at hstep
  split at hstep
  · next hk =>
    obtain rfl := Option.some_inj.mp hstep
    constructor
    · intro k' hk'
      dsimp only at hk' ⊢
      rw [Function.update_of_ne (by omega)]
      exact h.fresh hk'
    · intro k' i v hp
      dsimp only at hp ⊢
      by_cases hkk : k' = k
      · rw [hkk, Function.update_self] at hp
        cases hp
      · rw [Function.update_of_ne hkk] at hp
        exact h.pending hp
    · intro k' row hc hne
      dsimp only at hc
      by_cases hkk : k' = k
      · rw [hkk, Function.update_self, Option.some_inj] at hc
        exact absurd (hc ▸ rfl) hne
      · rw [Function.update_of_ne hkk] at hc
        exact h.committed hc hne
    · exact h.acked
    · exact h.marking
  · cases hstep

/-- **Every action keeps the invariant.** -/
theorem Inv.step {relay : ι → Relay R} (h : s.Inv) {a : Action ι R P}
    (hstep : KafkaRelay.step relay s a = some s') : s'.Inv := by
  cases a with
  | draw =>
    obtain rfl := Option.some_inj.mp hstep
    exact { h with fresh := fun hk => h.fresh (Nat.le_of_succ_le hk) }
  | insert k runId payload => exact h.insert hstep
  | select i => exact h.select hstep
  | produce i => exact h.produce hstep
  | raise i =>
    simp only [KafkaRelay.step, State.raise] at hstep
    split at hstep
    · obtain rfl := Option.some_inj.mp hstep
      exact h.enter (by simp [Phase.Open]) (by simp [Phase.toMark])
    · cases hstep
  | flush i =>
    simp only [KafkaRelay.step, State.flush] at hstep
    split at hstep
    · obtain rfl := Option.some_inj.mp hstep
      exact h.enter (by simp [Phase.Open]) (by simp [Phase.toMark])
    · cases hstep
  | callback i m ok => exact h.callback hstep
  | flushed i => exact h.flushed hstep
  | mark i k now => exact h.mark hstep
  | commit i => exact h.commit hstep
  | fail i =>
    simp only [KafkaRelay.step, State.fail] at hstep
    split at hstep
    · cases hstep
    · exact Option.some_inj.mp hstep ▸ h.rollback i

/-! ### Rows that can be claimed -/

theorem mem_candidates {i : ι} {relay : Relay R} {k : ℕ} {row : OutboxRow R P}
    (hk : k < s.nextOutbox) (hseen : (s.outbox k).seen i = some row)
    (hfree : (s.outbox k).free i = true) (hrun : row.runId = relay.runId)
    (hpub : row.publishedAt = none) : (k, row.payload) ∈ s.candidates i relay := by
  apply List.mem_filterMap.mpr
  refine ⟨k, List.mem_range.mpr hk, ?_⟩
  rw [hseen, Option.bind_some]
  exact if_pos (by simp [hfree, hrun, hpub])

theorem candidates_sorted (s : State ι R P) (i : ι) (relay : Relay R) :
    (s.candidates i relay).Pairwise fun x y => x.1 < y.1 := by
  apply List.pairwise_lt_range.filterMap
  intro k k' hlt x hx y hy
  obtain ⟨row, -, hx⟩ := Option.bind_eq_some_iff.mp hx
  obtain ⟨row', -, hy⟩ := Option.bind_eq_some_iff.mp hy
  obtain ⟨-, hx⟩ := Option.ite_none_right_eq_some.mp hx
  obtain ⟨-, hy⟩ := Option.ite_none_right_eq_some.mp hy
  obtain rfl := Option.some_inj.mp hx
  obtain rfl := Option.some_inj.mp hy
  exact hlt

/-- A candidate is claimed when fewer than `n` come before it. -/
theorem mem_take_candidates {i : ι} {relay : Relay R} {k n : ℕ} {payload : P}
    (hmem : (k, payload) ∈ s.candidates i relay)
    (hlt : ((s.candidates i relay).filter fun x => x.1 < k).length < n) :
    (k, payload) ∈ (s.candidates i relay).take n := by
  -- the candidates come by id, so that all of those before `k` are smaller ones
  have hsorted := s.candidates_sorted i relay
  obtain ⟨before, after, heq⟩ := List.append_of_mem hmem
  rw [heq] at hsorted hlt ⊢
  have hbefore : ∀ x ∈ before, x.1 < k := fun x hx =>
    (List.pairwise_append.mp hsorted).2.2 x hx _ List.mem_cons_self
  have hlen : before.length < n := by
    rw [List.filter_append, List.length_append,
      List.filter_eq_self.mpr fun x hx => decide_eq_true (hbefore x hx)] at hlt
    exact Nat.lt_of_le_of_lt (Nat.le_add_right _ _) hlt
  rw [List.take_append]
  apply List.mem_append_right
  obtain ⟨m, hm⟩ := Nat.exists_eq_succ_of_ne_zero (Nat.sub_ne_zero_of_lt hlen)
  rw [hm]
  exact List.mem_cons_self

/-- An idle relay of the run of the row finds it, and claims it if its batch reaches so far. -/
def Claimable (relay : ι → Relay R) (s : State ι R P) (k : ℕ) (row : OutboxRow R P) : Prop :=
  ∀ i, (relay i).runId = row.runId → s.phase i = .idle →
    (k, row.payload) ∈ s.candidates i (relay i) ∧
      (((s.candidates i (relay i)).filter fun x => x.1 < k).length < (relay i).batch →
        ∃ s', KafkaRelay.step relay s (.select i) = some s' ∧
          (s'.outbox k).pending = some (i, some row))

/-- A row that is not published and not locked can be claimed. -/
theorem Inv.claimable (h : s.Inv) (relay : ι → Relay R) {k : ℕ} {row : OutboxRow R P}
    (hrow : (s.outbox k).committed = some row) (hpub : row.publishedAt = none)
    (hfree : (s.outbox k).pending = none) : s.Claimable relay k row := by
  intro i hrun hidle
  -- nobody holds the row, so a relay sees it as committed and may lock it
  have hseen : (s.outbox k).seen i = some row := by rw [Row.seen_of_none hfree, hrow]
  have hk : k < s.nextOutbox := by
    by_contra hle
    rw [h.fresh (Nat.not_lt.mp hle)] at hrow
    cases hrow
  have hmem : (k, row.payload) ∈ s.candidates i (relay i) := by
    apply mem_candidates hk hseen _ hrun.symm hpub
    exact Row.free_iff.mpr fun u v hv => by rw [hfree] at hv; cases hv
  refine ⟨hmem, fun hbatch => ?_⟩
  -- the row is among the first rows that a batch takes
  have htake := mem_take_candidates (n := (relay i).batch.toNat) hmem (by omega)
  have hkeys : k ∈ (((s.candidates i (relay i)).take (relay i).batch.toNat).map Prod.fst) :=
    List.mem_map_of_mem htake
  have hneg : ¬ (relay i).batch < 0 := by omega
  have hnonempty : ¬ ((s.candidates i (relay i)).take (relay i).batch.toNat).isEmpty = true := by
    rw [List.isEmpty_iff]
    exact List.ne_nil_of_mem htake
  have hlocked : (s.outbox.updateWhere i (fun k' _ => decide (k' ∈
      ((s.candidates i (relay i)).take (relay i).batch.toNat).map Prod.fst)) id k)
      = (s.outbox k).put i (some row) := Table.updateWhere_pos hseen (decide_eq_true hkeys)
  simp only [KafkaRelay.step, State.select, hidle, if_neg hneg, if_neg hnonempty]
  exact ⟨_, rfl, congrArg Row.pending hlocked⟩

end State

/-- **The relay never marks an undelivered row, and leaves the others claimable**, in every
state reached by any number of relays. -/
theorem relay_loop_marks_delivered (relay : ι → Relay R) {s : State ι R P}
    (h : Reach (step relay) State.init s) :
    (∀ k row, (s.outbox k).committed = some row → row.publishedAt ≠ none → s.Delivered k) ∧
      ∀ k row, (s.outbox k).committed = some row → row.publishedAt = none →
        (∀ i v, (s.phase i).Open → (s.outbox k).pending ≠ some (i, v)) →
          s.Claimable relay k row := by
  have hinv : s.Inv := h.invariant State.Inv.init fun _ _ _ hs hstep => hs.step hstep
  refine ⟨fun k row hrow hpub => hinv.committed hrow hpub, fun k row hrow hpub hfree => ?_⟩
  -- a lock is held by an open pass, so that a row no open pass has is not locked at all
  apply hinv.claimable relay hrow hpub
  cases hp : (s.outbox k).pending with
  | none => rfl
  | some p =>
    obtain ⟨i, v⟩ := p
    exact absurd hp (hfree i v (hinv.pending hp).1)

/-- Two relays of one run, with batches of one row. -/
def sampleRelay (i : ℕ) : Relay ℕ := ⟨if i = 0 then "r0" else "r1", 7, 1⟩

/-- The report for row 1 comes when relay 0 already has row 2 in its batch, and while relay 1
holds row 1. -/
def lateReport : List (Action ℕ ℕ ℕ) :=
  [.draw, .draw, .insert 1 7 10, .insert 2 7 20,
    .select 0, .produce 0, .flush 0, .flushed 0, .select 1,
    .select 0, .produce 0, .flush 0, .callback 0 0 true, .flushed 0,
    .fail 1, .mark 0 1 5, .commit 0]

/-- Row 1 is published and row 2 is not. -/
theorem relay_loop_marks_delivered_late :
    ∃ s : State ℕ ℕ ℕ, exec (step sampleRelay) State.init lateReport = some s ∧
      (s.outbox 1).committed = some ⟨7, 10, some 5, some "r0"⟩ ∧ s.Delivered 1 ∧
      (s.outbox 2).committed = some ⟨7, 20, none, none⟩ ∧
      s.Claimable sampleRelay 2 ⟨7, 20, none, none⟩ := by
  have hrun : ((exec (step sampleRelay) (State.init : State ℕ ℕ ℕ) lateReport).map fun s =>
      ((s.outbox 1).committed, (s.outbox 2).committed, (s.outbox 2).pending.isNone)) =
      some (some ⟨7, 10, some 5, some "r0"⟩, some ⟨7, 20, none, none⟩, true) := by
    decide +kernel
  obtain ⟨s, hs, hrows⟩ := Option.map_eq_some_iff.mp hrun
  rw [Prod.mk.injEq, Prod.mk.injEq] at hrows
  obtain ⟨h₁, h₂, hfree⟩ := hrows
  have hsafe := relay_loop_marks_delivered sampleRelay (Reach.of_exec _ hs)
  refine ⟨s, hs, h₁, hsafe.1 1 _ h₁ (by simp), h₂, ?_⟩
  exact hsafe.2 2 _ h₂ rfl (by simp [Option.isNone_iff_eq_none.mp hfree])

end Outbox.KafkaRelay
end SepLab
