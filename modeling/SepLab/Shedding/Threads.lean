import Mathlib.Algebra.BigOperators.Group.Finset.Basic
import Mathlib.Algebra.Order.Ring.Rat
import Mathlib.Data.Fintype.Defs
import SepLab.Lib.Potential

/-!
# Load shedding with a producer and a pool of threads

The load-shedding topic's C++ server.  One thread makes the requests and hands those that are
admitted to a queue; the workers take them from there, and throw away one that has waited too
long.  What is in flight is an atomic counter, the metrics have a mutex, and so has each queue.
What the clock says is part of the actions.

## Main definitions

* `Server`, `Action`, `step` — the sections of `handle` and of `worker`.
* `Ledger` — what has become of every request.
* `Flow`, `Books`, `InFlight`, `Limited` — what every step keeps.

## Main results

* `Handed.of_step` — which request a section passes on, and to whom.
* `Flow.step`, `Books.step`, `InFlight.step`, `Limited.step` — every step keeps the invariants.
* `accounting_exact` — **the counters are exact**, and the limits hold.
-/

namespace SepLab
namespace Shedding
namespace Threads

/-- The modes of the scenarios. -/
inductive Mode
  | none
  | static
  | priority
  | adaptive
  | bulkheadShared
  | bulkheadSplit
deriving DecidableEq

namespace Mode

/-- The modes that refuse nothing. -/
def admitsAll : Mode → Bool
  | .none => true
  | .bulkheadShared => true
  | .bulkheadSplit => true
  | _ => false

/-- The modes whose workers throw away what has waited too long. -/
def drop : Mode → Bool
  | .static => true
  | .priority => true
  | .adaptive => true
  | _ => false

end Mode

/-- `SHED_LIMIT` -/
def shedLimit : ℤ := 12

/-- `TIER3_LIMIT` -/
def tier3Limit : ℤ := 10

/-- In milliseconds. -/
def shedWait : ℚ := 50

/-- In milliseconds. -/
def slo : ℚ := 500

/-- How many may be in flight before a request of a tier is refused. -/
def limit (mode : Mode) (tier : ℤ) : ℤ :=
  if mode = .priority ∧ 0 < tier then tier3Limit else shedLimit

/-! ### The metrics -/

/-- The counters of the whole run, and those since the last line of the report. -/
structure Metrics where
  offered : ℤ
  accepted : ℤ
  rejected : ℤ
  goodput : ℤ
  tier0Offered : ℤ
  tier0Goodput : ℤ
  droppedAtDequeue : ℤ
  latencies : List ℚ
  latTier0 : List ℚ
  rejectCost : List ℚ
  wOffered : ℤ
  wAccepted : ℤ
  wRejected : ℤ
  wGoodput : ℤ
  wLat : List ℚ

namespace Metrics

/-- Nothing counted. -/
def init : Metrics := ⟨0, 0, 0, 0, 0, 0, 0, [], [], [], 0, 0, 0, 0, []⟩

/-- `handle`, when a request comes. -/
def offer (m : Metrics) (tier : ℤ) : Metrics :=
  { m with
    offered := m.offered + 1
    wOffered := m.wOffered + 1
    tier0Offered := if tier = 0 then m.tier0Offered + 1 else m.tier0Offered }

/-- `handle`, when it is refused. -/
def reject (m : Metrics) (cost : ℚ) : Metrics :=
  { m with
    rejected := m.rejected + 1
    wRejected := m.wRejected + 1
    rejectCost := m.rejectCost ++ [cost] }

/-- `handle`, when it is admitted. -/
def accept (m : Metrics) : Metrics :=
  { m with
    accepted := m.accepted + 1
    wAccepted := m.wAccepted + 1 }

/-- `worker`, when it throws a request away. -/
def drop (m : Metrics) (waited : ℚ) : Metrics :=
  { m with
    rejected := m.rejected + 1
    wRejected := m.wRejected + 1
    droppedAtDequeue := m.droppedAtDequeue + 1
    accepted := m.accepted - 1
    wAccepted := m.wAccepted - 1
    rejectCost := m.rejectCost ++ [waited] }

/-- `worker`, when it has served a request. -/
def record (m : Metrics) (tier : ℤ) (latency : ℚ) : Metrics :=
  { m with
    latencies := m.latencies ++ [latency]
    wLat := m.wLat ++ [latency]
    latTier0 := if tier = 0 then m.latTier0 ++ [latency] else m.latTier0
    goodput := if latency ≤ slo then m.goodput + 1 else m.goodput
    wGoodput := if latency ≤ slo then m.wGoodput + 1 else m.wGoodput
    tier0Goodput :=
      if latency ≤ slo ∧ tier = 0 then m.tier0Goodput + 1 else m.tier0Goodput }

/-- A line of the report. -/
def report (m : Metrics) : Metrics :=
  { m with wOffered := 0, wAccepted := 0, wRejected := 0, wGoodput := 0, wLat := [] }

end Metrics

/-! ### The server -/

/-- A request.  The program does not number them. -/
structure Item where
  ticket : ℕ
  tier : ℤ
  isReport : Bool
deriving DecidableEq

/-- Where the thread is that makes the requests. -/
inductive Producer
  | idle
  | offered (it : Item)
  /-- `admit` has found room, and goes on to the queue. -/
  | looking (it : Item)
  /-- `admit` goes on to add to the counter. -/
  | passed (it : Item)
  | refused (it : Item) (cost : ℚ)
  | admitted (it : Item)
  /-- The request is counted as accepted, and yet to be submitted. -/
  | accepted (it : Item)
deriving DecidableEq

/-- Where a worker is. -/
inductive Worker
  | waiting
  | holding (it : Item)
  /-- The request has waited too long. -/
  | expired (it : Item) (waited : ℚ)
  /-- It has the metrics, and is yet to subtract from the counter. -/
  | shedding (it : Item) (waited : ℚ)
  | shed (it : Item) (waited : ℚ)
  | serving (it : Item)
  /-- The worker is no longer busy, and is yet to subtract from the counter. -/
  | finished (it : Item)
  | done (it : Item)
  | gone
deriving DecidableEq

/-- The pools, of which there is a second one if they are split. -/
inductive Place
  | checkout
  | report
deriving DecidableEq

instance : Fintype Place := ⟨{.checkout, .report}, fun p => by cases p <;> simp⟩

/-- What a pool keeps under its mutex. -/
structure Pool where
  q : List Item
  busy : ℤ
  stopping : Bool

namespace Pool

/-- An item is queued. -/
def submit (pool : Pool) (it : Item) : Pool := { pool with q := pool.q ++ [it] }

/-- `worker` leaves the requests `q`, and is busy. -/
def pop (pool : Pool) (q : List Item) : Pool := { pool with q := q, busy := pool.busy + 1 }

/-- `worker` is no longer busy. -/
def rest (pool : Pool) : Pool := { pool with busy := pool.busy - 1 }

/-- The destructor, which waits for the workers after that. -/
def stop (pool : Pool) : Pool := { pool with stopping := true }

end Pool

/-- What has become of the requests, by their numbers; the program does not keep it. -/
structure Ledger where
  issued : ℕ
  refused : List ℕ
  accepted : List ℕ
  dropped : List ℕ
  recorded : List ℕ

namespace Ledger

/-- A ticket is issued. -/
def issue (l : Ledger) : Ledger := { l with issued := l.issued + 1 }

/-- A ticket is refused. -/
def refuse (l : Ledger) (t : ℕ) : Ledger := { l with refused := l.refused ++ [t] }

/-- A ticket is accepted. -/
def accept (l : Ledger) (t : ℕ) : Ledger := { l with accepted := l.accepted ++ [t] }

/-- A ticket is dropped. -/
def drop (l : Ledger) (t : ℕ) : Ledger := { l with dropped := l.dropped ++ [t] }

/-- A ticket is recorded. -/
def record (l : Ledger) (t : ℕ) : Ledger := { l with recorded := l.recorded ++ [t] }

end Ledger

/-- A server with its threads.  `locked` says that a worker has the metrics. -/
structure Server (T : Type) where
  inflight : ℤ
  pools : Place → Pool
  metrics : Metrics
  locked : Bool
  producer : Producer
  worker : T → Worker
  ledger : Ledger

/-- The sections of the program. -/
inductive Action (T : Type)
  /-- `handle` is called. -/
  | offer (tier : ℤ) (isReport : Bool)
  /-- `admit` compares what is in flight with its limit, or with that of the limiter. -/
  | load (adaptiveLimit cost : ℚ)
  /-- `admit` looks how long the oldest request of the queue has waited. -/
  | look (age cost : ℚ)
  | fetchAdd
  | reject
  | accept
  | submit
  /-- The producer reports between two requests. -/
  | report
  /-- The destructor of a pool. -/
  | stop (p : Place)
  | dequeue (i : T)
  /-- A worker looks how long its request has waited. -/
  | check (i : T) (waited : ℚ)
  /-- It takes the metrics, in order to drop its request, and is no longer busy. -/
  | lockMetrics (i : T)
  | fetchSub (i : T)
  | drop (i : T)
  | finish (i : T)
  | record (i : T) (latency : ℚ)
  | exit (i : T)
deriving DecidableEq

variable {T : Type} [DecidableEq T]

namespace Server

/-- No thread has begun. -/
def init : Server T :=
  ⟨0, fun _ => ⟨[], 0, false⟩, .init, false, .idle, fun _ => .waiting, ⟨0, [], [], [], []⟩⟩

/-- A worker moves on. -/
def enter (s : Server T) (i : T) (w : Worker) : Server T :=
  { s with worker := Function.update s.worker i w }

/-- The section of a pool's mutex. -/
def setPool (s : Server T) (p : Place) (pool : Pool) : Server T :=
  { s with pools := Function.update s.pools p pool }

/-- The pool to which `handle` submits. -/
def place (mode : Mode) (it : Item) : Place :=
  if it.isReport = true ∧ mode = .bulkheadSplit then .report else .checkout

/-- The producer counts an offer, under the lock. -/
def offer (s : Server T) (tier : ℤ) (isReport : Bool) : Option (Server T) :=
  match s.producer, s.locked with
  | .idle, false =>
    some { s with
      metrics := s.metrics.offer tier
      producer := .offered ⟨s.ledger.issued, tier, isReport⟩
      ledger := s.ledger.issue }
  | _, _ => none

/-- The comparison at the beginning of `admit`. -/
def load (mode : Mode) (s : Server T) (adaptiveLimit cost : ℚ) : Option (Server T) :=
  match s.producer with
  | .offered it =>
    if mode.admitsAll then some { s with producer := .passed it }
    else if mode = .adaptive then
      if adaptiveLimit ≤ s.inflight then some { s with producer := .refused it cost }
      else some { s with producer := .passed it }
    else if limit mode it.tier ≤ s.inflight then some { s with producer := .refused it cost }
    else some { s with producer := .looking it }
  | _ => none

/-- `state`, and what `admit` does about it. -/
def look (s : Server T) (age cost : ℚ) : Option (Server T) :=
  match s.producer with
  | .looking it =>
    let oldest := if (s.pools .checkout).q = [] then 0 else age
    if shedWait < oldest then some { s with producer := .refused it cost }
    else some { s with producer := .passed it }
  | _ => none

/-- `fetch_add` of the producer. -/
def fetchAdd (s : Server T) : Option (Server T) :=
  match s.producer with
  | .passed it => some { s with inflight := s.inflight + 1, producer := .admitted it }
  | _ => none

/-- The producer counts a rejection, under the lock. -/
def reject (s : Server T) : Option (Server T) :=
  match s.producer, s.locked with
  | .refused it cost, false =>
    some { s with
      metrics := s.metrics.reject cost
      producer := .idle
      ledger := s.ledger.refuse it.ticket }
  | _, _ => none

/-- The producer counts an acceptance, under the lock. -/
def accept (s : Server T) : Option (Server T) :=
  match s.producer, s.locked with
  | .admitted it, false =>
    some { s with
      metrics := s.metrics.accept
      producer := .accepted it
      ledger := s.ledger.accept it.ticket }
  | _, _ => none

/-- The producer queues its item. -/
def submit (mode : Mode) (s : Server T) : Option (Server T) :=
  match s.producer with
  | .accepted it =>
    let p := place mode it
    some ({ s with producer := .idle }.setPool p ((s.pools p).submit it))
  | _ => none

/-- The first section of a round of `worker`. -/
def dequeue (s : Server T) (p : Place) (i : T) : Option (Server T) :=
  match s.worker i, (s.pools p).stopping, (s.pools p).q with
  | .waiting, false, it :: q =>
    some ((s.setPool p ((s.pools p).pop q)).enter i (.holding it))
  | _, _, _ => none

/-- A worker compares how long its item has waited, where the mode drops items. -/
def check (mode : Mode) (s : Server T) (i : T) (waited : ℚ) : Option (Server T) :=
  match s.worker i with
  | .holding it =>
    if mode.drop = true ∧ shedWait < waited then some (s.enter i (.expired it waited))
    else some (s.enter i (.serving it))
  | _ => none

/-- A worker is no longer busy. -/
def rest (s : Server T) (p : Place) : Server T := s.setPool p (s.pools p).rest

/-- A worker with an expired item takes the lock of the metrics. -/
def lockMetrics (s : Server T) (p : Place) (i : T) : Option (Server T) :=
  match s.worker i, s.locked with
  | .expired it waited, false =>
    some (({ s with locked := true }.rest p).enter i (.shedding it waited))
  | _, _ => none

/-- `fetch_sub` of a worker. -/
def fetchSub (s : Server T) (i : T) : Option (Server T) :=
  match s.worker i with
  | .shedding it waited =>
    some ({ s with inflight := s.inflight - 1 }.enter i (.shed it waited))
  | .finished it => some ({ s with inflight := s.inflight - 1 }.enter i (.done it))
  | _ => none

/-- The end of a dropped request, after which the metrics are free. -/
def drop (s : Server T) (i : T) : Option (Server T) :=
  match s.worker i with
  | .shed it waited =>
    some ({ s with
      metrics := s.metrics.drop waited
      locked := false
      ledger := s.ledger.drop it.ticket }.enter i .waiting)
  | _ => none

/-- A worker has served its item. -/
def finish (s : Server T) (p : Place) (i : T) : Option (Server T) :=
  match s.worker i with
  | .serving it => some ((s.rest p).enter i (.finished it))
  | _ => none

/-- A worker counts the item it has served, under the lock. -/
def record (s : Server T) (i : T) (latency : ℚ) : Option (Server T) :=
  match s.worker i, s.locked with
  | .done it, false =>
    some ({ s with
      metrics := s.metrics.record it.tier latency
      ledger := s.ledger.record it.ticket }.enter i .waiting)
  | _, _ => none

end Server

/-- One section.  The worker `i` is in the pool `home i`. -/
def step (mode : Mode) (home : T → Place) (s : Server T) : Action T → Option (Server T)
  | .offer tier isReport => s.offer tier isReport
  | .load adaptiveLimit cost => s.load mode adaptiveLimit cost
  | .look age cost => s.look age cost
  | .fetchAdd => s.fetchAdd
  | .reject => s.reject
  | .accept => s.accept
  | .submit => s.submit mode
  | .report =>
    if s.producer = .idle ∧ s.locked = false then some { s with metrics := s.metrics.report }
    else none
  | .stop p => some (s.setPool p (s.pools p).stop)
  | .dequeue i => s.dequeue (home i) i
  | .check i waited => s.check mode i waited
  | .lockMetrics i => s.lockMetrics (home i) i
  | .fetchSub i => s.fetchSub i
  | .drop i => s.drop i
  | .finish i => s.finish (home i) i
  | .record i latency => s.record i latency
  | .exit i =>
    if s.worker i = .waiting ∧ (s.pools (home i)).stopping = true then some (s.enter i .gone)
    else none

/-! ### Where a request is -/

namespace Producer

/-- The request that is neither accepted nor refused. -/
def pending : Producer → Option Item
  | .offered it => some it
  | .looking it => some it
  | .passed it => some it
  | .refused it _ => some it
  | .admitted it => some it
  | _ => none

/-- The request that is accepted and not submitted. -/
def handing : Producer → Option Item
  | .accepted it => some it
  | _ => none

/-- The request for which there was room when `admit` read the counter. -/
def testing : Producer → Option Item
  | .looking it => some it
  | .passed it => some it
  | _ => none

/-- The request that is in flight and not submitted. -/
def counted : Producer → ℕ
  | .admitted _ => 1
  | .accepted _ => 1
  | _ => 0

end Producer

namespace Worker

/-- The request that a worker has. -/
def item : Worker → Option Item
  | .waiting => none
  | .holding it => some it
  | .expired it _ => some it
  | .shedding it _ => some it
  | .shed it _ => some it
  | .serving it => some it
  | .finished it => some it
  | .done it => some it
  | .gone => none

/-- The worker has a request, and has not subtracted it. -/
def counted : Worker → ℕ
  | .holding _ => 1
  | .expired _ _ => 1
  | .shedding _ _ => 1
  | .serving _ => 1
  | .finished _ => 1
  | _ => 0

end Worker

/-- The modes with a limit that is a number. -/
def Mode.limited (mode : Mode) : Prop := mode = .static ∨ mode = .priority

/-! ### What a section does -/

variable {mode : Mode} {home : T → Place} {s s' : Server T}

/-- What a section does: which request it passes on, and to whom. -/
inductive Handed (mode : Mode) (s : Server T) : Server T → Prop
  | offer {tier : ℤ} {isReport : Bool} (hidle : s.producer = .idle) :
      Handed mode s { s with
        metrics := s.metrics.offer tier
        producer := .offered ⟨s.ledger.issued, tier, isReport⟩
        ledger := s.ledger.issue }
  | think {p : Producer} (hpending : p.pending = s.producer.pending)
      (hhanding : p.handing = s.producer.handing) (hcounted : p.counted = s.producer.counted)
      (hroom : mode.limited → ∀ it, p.testing = some it →
        s.producer.testing = some it ∨ s.inflight < limit mode it.tier) :
      Handed mode s { s with producer := p }
  | add {it : Item} (hpassed : s.producer = .passed it) :
      Handed mode s { s with inflight := s.inflight + 1, producer := .admitted it }
  | reject {it : Item} {cost : ℚ} (hrefused : s.producer = .refused it cost) :
      Handed mode s { s with
        metrics := s.metrics.reject cost
        producer := .idle
        ledger := s.ledger.refuse it.ticket }
  | accept {it : Item} (hadmitted : s.producer = .admitted it) :
      Handed mode s { s with
        metrics := s.metrics.accept
        producer := .accepted it
        ledger := s.ledger.accept it.ticket }
  | submit {it : Item} (p : Place) (haccepted : s.producer = .accepted it) :
      Handed mode s ({ s with producer := .idle }.setPool p ((s.pools p).submit it))
  | report : Handed mode s { s with metrics := s.metrics.report }
  | stop (p : Place) : Handed mode s (s.setPool p (s.pools p).stop)
  | dequeue {i : T} {p : Place} {it : Item} {q : List Item} (hwaiting : s.worker i = .waiting)
      (hq : (s.pools p).q = it :: q) :
      Handed mode s ((s.setPool p ((s.pools p).pop q)).enter i (.holding it))
  | work {i : T} {w : Worker} {pools : Place → Pool} {locked : Bool} {inflight : ℤ}
      (hitem : w.item = (s.worker i).item) (hq : ∀ p, (pools p).q = (s.pools p).q)
      (hinflight : inflight + (s.worker i).counted = s.inflight + w.counted)
      (hle : w.counted ≤ (s.worker i).counted) :
      Handed mode s ({ s with
        inflight := inflight
        pools := pools
        locked := locked }.enter i w)
  | drop {i : T} {it : Item} {waited : ℚ} (hshed : s.worker i = .shed it waited) :
      Handed mode s ({ s with
        metrics := s.metrics.drop waited
        locked := false
        ledger := s.ledger.drop it.ticket }.enter i .waiting)
  | record {i : T} {it : Item} {latency : ℚ} (hdone : s.worker i = .done it) :
      Handed mode s ({ s with
        metrics := s.metrics.record it.tier latency
        ledger := s.ledger.record it.ticket }.enter i .waiting)

namespace Handed

/-- `admit` goes on with its request, or refuses it. -/
theorem of_test {it : Item} {p : Producer}
    (hold : s.producer = .offered it ∨ s.producer = .looking it) (hpending : p.pending = some it)
    (hhanding : p.handing = none) (hcounted : p.counted = 0)
    (hroom : mode.limited → ∀ jt, p.testing = some jt →
      s.producer.testing = some jt ∨ s.inflight < limit mode jt.tier) :
    Handed mode s { s with producer := p } := by
  rcases hold with hold | hold
  · exact .think (by rw [hold, hpending]; rfl) (by rw [hold, hhanding]; rfl)
      (by rw [hold, hcounted]; rfl) hroom
  · exact .think (by rw [hold, hpending]; rfl) (by rw [hold, hhanding]; rfl)
      (by rw [hold, hcounted]; rfl) hroom

/-- The comparison at the beginning of `admit`. -/
theorem of_load {adaptiveLimit cost : ℚ} (h : s.load mode adaptiveLimit cost = some s') :
    Handed mode s s' := by
  simp only [Server.load] at h
  split at h
  · next it hoffered =>
    split at h
    · next hall =>
      obtain rfl := Option.some_inj.mp h
      refine .of_test (Or.inl hoffered) rfl rfl rfl ?_
      rintro (rfl | rfl) <;> cases hall
    · split at h
      · next hadaptive =>
        -- the mode takes no account of the limit
        have hnot : ¬ mode.limited := by
          rw [hadaptive]
          rintro (hmode | hmode) <;> cases hmode
        split at h
        · obtain rfl := Option.some_inj.mp h
          exact .of_test (Or.inl hoffered) rfl rfl rfl fun hmode => absurd hmode hnot
        · obtain rfl := Option.some_inj.mp h
          exact .of_test (Or.inl hoffered) rfl rfl rfl fun hmode => absurd hmode hnot
      · split at h
        · obtain rfl := Option.some_inj.mp h
          exact .of_test (Or.inl hoffered) rfl rfl rfl fun _ _ => nofun
        · next hroom =>
          obtain rfl := Option.some_inj.mp h
          refine .of_test (Or.inl hoffered) rfl rfl rfl fun _ jt hjt => Or.inr ?_
          obtain rfl := Option.some_inj.mp hjt
          exact not_le.mp hroom
  · cases h

/-- The look at the queue. -/
theorem of_look {age cost : ℚ} (h : s.look age cost = some s') : Handed mode s s' := by
  simp only [Server.look] at h
  split at h
  · next it hlooking =>
    generalize (if (s.pools .checkout).q = [] then (0 : ℚ) else age) = oldest at h
    split at h
    · obtain rfl := Option.some_inj.mp h
      exact .of_test (Or.inr hlooking) rfl rfl rfl fun _ _ => nofun
    · obtain rfl := Option.some_inj.mp h
      refine .of_test (Or.inr hlooking) rfl rfl rfl fun _ jt hjt => Or.inl ?_
      rw [hlooking]
      exact hjt
  · cases h

omit [DecidableEq T] in
/-- A section of a pool that leaves the queue as it is. -/
theorem setPool_q {p : Place} {pool : Pool} (hpool : pool.q = (s.pools p).q) (p' : Place) :
    ((s.setPool p pool).pools p').q = (s.pools p').q := by
  show (Function.update s.pools p pool p').q = _
  by_cases hp : p' = p
  · subst hp
    rw [Function.update_self, hpool]
  · rw [Function.update_of_ne hp]

/-- A worker decides what to do with its request. -/
theorem of_check {i : T} {waited : ℚ} (h : s.check mode i waited = some s') :
    Handed mode s s' := by
  simp only [Server.check] at h
  split at h
  · next it hi =>
    split at h
    · obtain rfl := Option.some_inj.mp h
      exact .work (by rw [hi]; rfl) (fun _ => rfl) (by rw [hi]; rfl) (by rw [hi]; rfl)
    · obtain rfl := Option.some_inj.mp h
      exact .work (by rw [hi]; rfl) (fun _ => rfl) (by rw [hi]; rfl) (by rw [hi]; rfl)
  · cases h

/-- A worker subtracts from the counter. -/
theorem of_fetchSub {i : T} (h : s.fetchSub i = some s') : Handed mode s s' := by
  simp only [Server.fetchSub] at h
  split at h
  · next it waited hi =>
    obtain rfl := Option.some_inj.mp h
    refine .work (by rw [hi]; rfl) (fun _ => rfl) ?_ (by rw [hi]; exact Nat.zero_le 1)
    rw [hi]
    exact (sub_add_cancel _ _).trans (add_zero _).symm
  · next it hi =>
    obtain rfl := Option.some_inj.mp h
    refine .work (by rw [hi]; rfl) (fun _ => rfl) ?_ (by rw [hi]; exact Nat.zero_le 1)
    rw [hi]
    exact (sub_add_cancel _ _).trans (add_zero _).symm
  · cases h

/-- **What a section does with the requests.** -/
theorem of_step {a : Action T} (h : step mode home s a = some s') : Handed mode s s' := by
  cases a with
  | offer tier isReport =>
    simp only [step, Server.offer] at h
    split at h
    · next hidle _ =>
      obtain rfl := Option.some_inj.mp h
      exact .offer hidle
    · cases h
  | load adaptiveLimit cost => exact of_load h
  | look age cost => exact of_look h
  | fetchAdd =>
    simp only [step, Server.fetchAdd] at h
    split at h
    · next it hpassed =>
      obtain rfl := Option.some_inj.mp h
      exact .add hpassed
    · cases h
  | reject =>
    simp only [step, Server.reject] at h
    split at h
    · next it cost hrefused _ =>
      obtain rfl := Option.some_inj.mp h
      exact .reject hrefused
    · cases h
  | accept =>
    simp only [step, Server.accept] at h
    split at h
    · next it hadmitted _ =>
      obtain rfl := Option.some_inj.mp h
      exact .accept hadmitted
    · cases h
  | submit =>
    simp only [step, Server.submit] at h
    split at h
    · next it haccepted =>
      obtain rfl := Option.some_inj.mp h
      exact .submit (Server.place mode it) haccepted
    · cases h
  | report =>
    simp only [step] at h
    split at h
    · obtain rfl := Option.some_inj.mp h
      exact .report
    · cases h
  | stop p =>
    obtain rfl := Option.some_inj.mp h
    exact .stop p
  | dequeue i =>
    simp only [step, Server.dequeue] at h
    split at h
    · next it q hwaiting _ hq =>
      obtain rfl := Option.some_inj.mp h
      exact .dequeue hwaiting hq
    · cases h
  | check i waited => exact of_check h
  | lockMetrics i =>
    simp only [step, Server.lockMetrics] at h
    split at h
    · next it waited hi _ =>
      obtain rfl := Option.some_inj.mp h
      exact .work (by rw [hi]; rfl) (setPool_q rfl) (by rw [hi]; rfl) (by rw [hi]; rfl)
    · cases h
  | fetchSub i => exact of_fetchSub h
  | drop i =>
    simp only [step, Server.drop] at h
    split at h
    · next it waited hshed =>
      obtain rfl := Option.some_inj.mp h
      exact .drop hshed
    · cases h
  | finish i =>
    simp only [step, Server.finish] at h
    split at h
    · next it hi =>
      obtain rfl := Option.some_inj.mp h
      exact .work (by rw [hi]; rfl) (setPool_q rfl) (by rw [hi]; rfl) (by rw [hi]; rfl)
    · cases h
  | record i latency =>
    simp only [step, Server.record] at h
    split at h
    · next it hdone _ =>
      obtain rfl := Option.some_inj.mp h
      exact .record hdone
    · cases h
  | exit i =>
    simp only [step] at h
    split at h
    · next hi =>
      obtain rfl := Option.some_inj.mp h
      exact .work (by rw [hi.1]; rfl) (fun _ => rfl) (by rw [hi.1]; rfl) (by rw [hi.1]; rfl)
    · cases h

end Handed

/-! ### What every step keeps -/

section
variable [Fintype T]

/-- The weight of some requests. -/
def tally (w : ℕ → ℕ) (tickets : List ℕ) : ℕ := (tickets.map w).sum

/-- The weight of a request, if there is one. -/
def weigh (w : ℕ → ℕ) : Option Item → ℕ
  | some it => w it.ticket
  | none => 0

theorem tally_append (w : ℕ → ℕ) (l : List ℕ) (t : ℕ) :
    tally w (l ++ [t]) = tally w l + w t := by
  unfold tally
  rw [List.map_append, List.sum_append]
  rfl

theorem tally_cons (w : ℕ → ℕ) (t : ℕ) (l : List ℕ) : tally w (t :: l) = w t + tally w l := by
  unfold tally
  rw [List.map_cons, List.sum_cons]

theorem tally_one (l : List ℕ) : tally (fun _ => 1) l = l.length := by
  unfold tally
  rw [List.map_const', List.sum_replicate_nat, Nat.mul_one]

theorem tally_ite (t : ℕ) (l : List ℕ) :
    tally (fun t' => if t' = t then 1 else 0) l = l.count t := by
  induction l with
  | nil => rfl
  | cons t' l ih =>
    rw [tally_cons, ih, List.count_cons, Nat.add_comm]
    simp only [beq_iff_eq]

/-- What is queued. -/
def Pool.tickets (pool : Pool) : List ℕ := pool.q.map Item.ticket

theorem Pool.tickets_submit (pool : Pool) (it : Item) :
    (pool.submit it).tickets = pool.tickets ++ [it.ticket] := List.map_append

theorem Pool.tickets_of_q {pool : Pool} {it : Item} {q : List Item} (h : pool.q = it :: q) :
    pool.tickets = it.ticket :: (pool.pop q).tickets := by
  rw [tickets, h]
  rfl

namespace Server

/-- The weight of what is queued. -/
def queued (s : Server T) (w : ℕ → ℕ) : ℕ := ∑ p, tally w (s.pools p).tickets

/-- The weight of what the workers have. -/
def handled (s : Server T) (w : ℕ → ℕ) : ℕ := ∑ i, weigh w (s.worker i).item

/-- Nothing is queued, and no thread has a request. -/
def AtRest (s : Server T) : Prop :=
  s.producer = .idle ∧ (∀ p, (s.pools p).q = []) ∧ ∀ i, (s.worker i).item = none

end Server

/-- Every request has come to one end or is in one place, whatever it weighs. -/
structure Flow (s : Server T) : Prop where
  issued : ∀ w, tally w (List.range s.ledger.issued) =
    tally w s.ledger.refused + tally w s.ledger.accepted + weigh w s.producer.pending
  accepted : ∀ w, tally w s.ledger.accepted = tally w s.ledger.dropped +
    tally w s.ledger.recorded + weigh w s.producer.handing + s.queued w + s.handled w

/-- The counters say what has become of the requests. -/
structure Books (m : Metrics) (l : Ledger) : Prop where
  offered : m.offered = l.issued
  accepted : m.accepted = l.accepted.length - l.dropped.length
  rejected : m.rejected = l.refused.length + l.dropped.length
  dropped : m.droppedAtDequeue = l.dropped.length
  latencies : m.latencies.length = l.recorded.length
  goodput : m.goodput ≤ m.latencies.length

/-- The counter of what is in flight. -/
def InFlight (s : Server T) : Prop :=
  s.inflight =
    (s.producer.counted + ∑ p, (s.pools p).q.length + ∑ i, (s.worker i).counted : ℕ)

/-- There is room for what `admit` has found room for. -/
structure Limited (mode : Mode) (s : Server T) : Prop where
  total : s.inflight ≤ shedLimit
  room : ∀ it, s.producer.testing = some it → s.inflight < limit mode it.tier

/-! ### The steps -/

variable {t : Server T}

namespace Server

theorem handled_enter (s : Server T) (i : T) (x : Worker) (w : ℕ → ℕ) :
    (s.enter i x).handled w + weigh w (s.worker i).item = s.handled w + weigh w x.item :=
  sum_update (Finset.mem_univ i) (fun y : Worker => weigh w y.item) x

omit [Fintype T] [DecidableEq T] in
theorem queued_setPool (s : Server T) (p : Place) (pool : Pool) (w : ℕ → ℕ) :
    (s.setPool p pool).queued w + tally w (s.pools p).tickets =
      s.queued w + tally w pool.tickets :=
  sum_update (Finset.mem_univ p) (fun pool : Pool => tally w pool.tickets) pool

end Server

namespace Flow

omit [DecidableEq T] in
/-- All requests are where they were. -/
theorem same (h : Flow s) (hledger : t.ledger = s.ledger)
    (hpending : t.producer.pending = s.producer.pending)
    (hhanding : t.producer.handing = s.producer.handing)
    (hq : ∀ p, (t.pools p).q = (s.pools p).q)
    (hitem : ∀ i, (t.worker i).item = (s.worker i).item) : Flow t where
  issued w := by
    rw [hledger, hpending, h.issued]
  accepted w := by
    have hqueued : t.queued w = s.queued w :=
      Finset.sum_congr rfl fun p _ => by rw [Pool.tickets, hq, Pool.tickets]
    have hhandled : t.handled w = s.handled w :=
      Finset.sum_congr rfl fun i _ => by rw [hitem]
    rw [hledger, hhanding, hqueued, hhandled, h.accepted]

/-- What a worker has at the end of a request is handled no more. -/
theorem handled_waiting {i : T} {it : Item} (hi : (s.worker i).item = some it) (w : ℕ → ℕ) :
    (s.enter i .waiting).handled w + w it.ticket = s.handled w := by
  have := s.handled_enter i .waiting w
  rw [hi] at this
  exact this

/-- **Every request stays in one place, or passes on to the next.** -/
theorem step (h : Flow s) {a : Action T} (hstep : step mode home s a = some t) : Flow t := by
  cases Handed.of_step hstep with
  | @offer tier isReport hidle =>
    refine ⟨fun w => ?_, fun w => ?_⟩
    · show tally w (List.range (s.ledger.issued + 1)) = tally w s.ledger.refused +
        tally w s.ledger.accepted + w s.ledger.issued
      rw [List.range_succ, tally_append, h.issued, hidle]
      rfl
    · have := h.accepted w
      rw [hidle] at this
      exact this
  | think hpending hhanding _ _ => exact h.same rfl hpending hhanding (fun _ => rfl) fun _ => rfl
  | add hpassed =>
    exact h.same rfl (by rw [hpassed]; rfl) (by rw [hpassed]; rfl) (fun _ => rfl) fun _ => rfl
  | @reject it cost hrefused =>
    refine ⟨fun w => ?_, fun w => ?_⟩
    · have := h.issued w
      rw [hrefused] at this
      show tally w (List.range s.ledger.issued) =
        tally w (s.ledger.refused ++ [it.ticket]) + tally w s.ledger.accepted + 0
      rw [tally_append]
      simp only [Producer.pending, weigh] at this
      omega
    · have := h.accepted w
      rw [hrefused] at this
      exact this
  | @accept it hadmitted =>
    refine ⟨fun w => ?_, fun w => ?_⟩
    · have := h.issued w
      rw [hadmitted] at this
      show tally w (List.range s.ledger.issued) =
        tally w s.ledger.refused + tally w (s.ledger.accepted ++ [it.ticket]) + 0
      rw [tally_append]
      simp only [Producer.pending, weigh] at this
      omega
    · have := h.accepted w
      rw [hadmitted] at this
      show tally w (s.ledger.accepted ++ [it.ticket]) = tally w s.ledger.dropped +
        tally w s.ledger.recorded + w it.ticket + s.queued w + s.handled w
      rw [tally_append]
      simp only [Producer.handing, weigh] at this
      omega
  | @submit it p haccepted =>
    refine ⟨fun w => ?_, fun w => ?_⟩
    · have := h.issued w
      rw [haccepted] at this
      exact this
    · have := h.accepted w
      have hqueued := s.queued_setPool p ((s.pools p).submit it) w
      rw [haccepted] at this
      rw [Pool.tickets_submit, tally_append] at hqueued
      simp only [Producer.handing, weigh] at this
      show tally w s.ledger.accepted = tally w s.ledger.dropped + tally w s.ledger.recorded + 0 +
        (s.setPool p ((s.pools p).submit it)).queued w + s.handled w
      omega
  | report => exact h.same rfl rfl rfl (fun _ => rfl) fun _ => rfl
  | stop p => exact h.same rfl rfl rfl (Handed.setPool_q rfl) fun _ => rfl
  | @dequeue i p it q hwaiting hq =>
    refine ⟨h.issued, fun w => ?_⟩
    have := h.accepted w
    have hqueued := s.queued_setPool p ((s.pools p).pop q) w
    have hhandled := s.handled_enter i (.holding it) w
    rw [hwaiting] at hhandled
    rw [Pool.tickets_of_q hq, tally_cons] at hqueued
    simp only [Worker.item, weigh] at hhandled
    show tally w s.ledger.accepted = tally w s.ledger.dropped + tally w s.ledger.recorded +
      weigh w s.producer.handing + (s.setPool p ((s.pools p).pop q)).queued w +
        (s.enter i (.holding it)).handled w
    omega
  | @work i x pools locked inflight hitem hq _ _ =>
    refine h.same rfl rfl rfl hq fun j => ?_
    show (Function.update s.worker i x j).item = _
    by_cases hj : j = i
    · subst hj
      rw [Function.update_self, hitem]
    · rw [Function.update_of_ne hj]
  | @drop i it waited hshed =>
    refine ⟨h.issued, fun w => ?_⟩
    have := h.accepted w
    have hhandled := handled_waiting (s := s) (by rw [hshed]; rfl : _ = some it) w
    show tally w s.ledger.accepted = tally w (s.ledger.dropped ++ [it.ticket]) +
      tally w s.ledger.recorded + weigh w s.producer.handing + s.queued w +
        (s.enter i .waiting).handled w
    rw [tally_append]
    omega
  | @record i it latency hdone =>
    refine ⟨h.issued, fun w => ?_⟩
    have := h.accepted w
    have hhandled := handled_waiting (s := s) (by rw [hdone]; rfl : _ = some it) w
    show tally w s.ledger.accepted = tally w s.ledger.dropped +
      tally w (s.ledger.recorded ++ [it.ticket]) + weigh w s.producer.handing + s.queued w +
        (s.enter i .waiting).handled w
    rw [tally_append]
    omega

omit [DecidableEq T] in
theorem init : Flow (Server.init : Server T) := by
  refine ⟨fun _ => rfl, fun w => ?_⟩
  have hqueued : (Server.init : Server T).queued w = 0 := Finset.sum_const_zero
  have hhandled : (Server.init : Server T).handled w = 0 := Finset.sum_const_zero
  rw [hqueued, hhandled]
  rfl

end Flow

namespace Books

variable {m : Metrics} {l : Ledger}

theorem offer (h : Books m l) (tier : ℤ) : Books (m.offer tier) l.issue where
  offered := by
    rw [Metrics.offer, Ledger.issue, h.offered, Nat.cast_succ]
  accepted := h.accepted
  rejected := h.rejected
  dropped := h.dropped
  latencies := h.latencies
  goodput := h.goodput

theorem reject (h : Books m l) (cost : ℚ) (t : ℕ) : Books (m.reject cost) (l.refuse t) where
  offered := h.offered
  accepted := h.accepted
  rejected := by
    rw [Metrics.reject, Ledger.refuse, h.rejected, List.length_append, List.length_singleton,
      Nat.cast_succ, add_right_comm]
  dropped := h.dropped
  latencies := h.latencies
  goodput := h.goodput

theorem accept (h : Books m l) (t : ℕ) : Books m.accept (l.accept t) where
  offered := h.offered
  accepted := by
    rw [Metrics.accept, Ledger.accept, h.accepted, List.length_append, List.length_singleton,
      Nat.cast_succ, sub_add_eq_add_sub]
  rejected := h.rejected
  dropped := h.dropped
  latencies := h.latencies
  goodput := h.goodput

/-- A request that is dropped is taken from the accepted ones and added to the rejected. -/
theorem drop (h : Books m l) (waited : ℚ) (t : ℕ) : Books (m.drop waited) (l.drop t) := by
  have hlength : ((l.dropped ++ [t]).length : ℤ) = l.dropped.length + 1 := by
    rw [List.length_append, List.length_singleton, Nat.cast_succ]
  refine ⟨h.offered, ?_, ?_, ?_, h.latencies, h.goodput⟩
  · rw [Metrics.drop, Ledger.drop, h.accepted, hlength, sub_sub]
  · rw [Metrics.drop, Ledger.drop, h.rejected, hlength, add_assoc]
  · rw [Metrics.drop, Ledger.drop, h.dropped, hlength]

theorem record (h : Books m l) (tier : ℤ) (latency : ℚ) (t : ℕ) :
    Books (m.record tier latency) (l.record t) where
  offered := h.offered
  accepted := h.accepted
  rejected := h.rejected
  dropped := h.dropped
  latencies := by
    rw [Metrics.record, Ledger.record, List.length_append, List.length_append, h.latencies]
    rfl
  goodput := by
    have := h.goodput
    show (if latency ≤ slo then m.goodput + 1 else m.goodput) ≤
      ((m.latencies ++ [latency]).length : ℤ)
    rw [List.length_append, List.length_singleton, Nat.cast_succ]
    split <;> omega

theorem report (h : Books m l) : Books m.report l :=
  ⟨h.offered, h.accepted, h.rejected, h.dropped, h.latencies, h.goodput⟩

omit [Fintype T] in
/-- **Every section counts what it does.** -/
theorem step (h : Books s.metrics s.ledger) {a : Action T}
    (hstep : step mode home s a = some t) : Books t.metrics t.ledger := by
  cases Handed.of_step hstep with
  | offer _ => exact h.offer _
  | think _ _ _ _ => exact h
  | add _ => exact h
  | reject _ => exact h.reject _ _
  | accept _ => exact h.accept _
  | submit _ _ => exact h
  | report => exact h.report
  | stop _ => exact h
  | dequeue _ _ => exact h
  | work _ _ _ _ => exact h
  | drop _ => exact h.drop _ _
  | record _ => exact h.record _ _ _

end Books

/-- How many workers hold what is in flight, after one of them has moved on. -/
theorem counted_enter (s : Server T) (i : T) (x : Worker) :
    ∑ j, ((s.enter i x).worker j).counted + (s.worker i).counted =
      ∑ j, (s.worker j).counted + x.counted :=
  sum_update (Finset.mem_univ i) Worker.counted x

omit [Fintype T] [DecidableEq T] in
theorem length_setPool (s : Server T) (p : Place) (pool : Pool) :
    ∑ p', ((s.setPool p pool).pools p').q.length + (s.pools p).q.length =
      ∑ p', (s.pools p').q.length + pool.q.length :=
  sum_update (Finset.mem_univ p) (fun pool : Pool => pool.q.length) pool

namespace InFlight

omit [Fintype T] [DecidableEq T] in
theorem length_of_q {pools : Place → Pool} (hq : ∀ p, (pools p).q = (s.pools p).q) :
    ∑ p, (pools p).q.length = ∑ p, (s.pools p).q.length :=
  Finset.sum_congr rfl fun p _ => by rw [hq]

omit [DecidableEq T] in
theorem init : InFlight (Server.init : Server T) := by
  have hqueued : ∑ p : Place, ((Server.init : Server T).pools p).q.length = 0 := rfl
  have hcounted : ∑ i, ((Server.init : Server T).worker i).counted = 0 := Finset.sum_const_zero
  rw [InFlight, hqueued, hcounted]
  rfl

/-- **What is in flight is counted.** -/
theorem step (h : InFlight s) {a : Action T} (hstep : step mode home s a = some t) :
    InFlight t := by
  unfold InFlight at h ⊢
  cases Handed.of_step hstep with
  | offer hidle =>
    rw [hidle] at h
    exact h
  | think _ _ hcounted _ =>
    rw [← hcounted] at h
    exact h
  | add hpassed =>
    rw [hpassed] at h
    show s.inflight + 1 = ((1 + ∑ p, (s.pools p).q.length + ∑ i, (s.worker i).counted : ℕ) : ℤ)
    rw [h]
    simp only [Producer.counted]
    omega
  | reject hrefused =>
    rw [hrefused] at h
    exact h
  | accept hadmitted =>
    rw [hadmitted] at h
    exact h
  | @submit it p haccepted =>
    have hlength := length_setPool s p ((s.pools p).submit it)
    have hone : ((s.pools p).submit it).q.length = (s.pools p).q.length + 1 := List.length_append
    rw [haccepted] at h
    show s.inflight = ((0 + ∑ p', ((s.setPool p ((s.pools p).submit it)).pools p').q.length +
      ∑ i, (s.worker i).counted : ℕ) : ℤ)
    simp only [Producer.counted] at h
    omega
  | report => exact h
  | stop p =>
    have hq : ∀ p', ((s.setPool p (s.pools p).stop).pools p').q = (s.pools p').q :=
      Handed.setPool_q rfl
    rw [length_of_q hq]
    exact h
  | @dequeue i p it q hwaiting hq =>
    -- the item leaves the queue and is in the worker's hands
    have hlength := length_setPool s p ((s.pools p).pop q)
    have hone : (s.pools p).q.length = ((s.pools p).pop q).q.length + 1 := by
      rw [hq]
      rfl
    have hcounted := counted_enter s i (.holding it)
    have hold : (s.worker i).counted = 0 := by
      rw [hwaiting]
      rfl
    have hnew : (Worker.holding it).counted = 1 := rfl
    show s.inflight = ((s.producer.counted +
      ∑ p', ((s.setPool p ((s.pools p).pop q)).pools p').q.length +
        ∑ j, ((s.enter i (.holding it)).worker j).counted : ℕ) : ℤ)
    omega
  | @work i x pools locked inflight _ hq hinflight _ =>
    -- the worker holds its item from the check to the record
    have hcounted := counted_enter s i x
    have hlength := length_of_q hq
    show inflight = ((s.producer.counted + ∑ p, (pools p).q.length +
      ∑ j, ((s.enter i x).worker j).counted : ℕ) : ℤ)
    omega
  | @drop i it waited hshed =>
    have hcounted := counted_enter s i .waiting
    have hold : (s.worker i).counted = 0 := by
      rw [hshed]
      rfl
    have hnew : Worker.waiting.counted = 0 := rfl
    show s.inflight = ((s.producer.counted + ∑ p, (s.pools p).q.length +
      ∑ j, ((s.enter i .waiting).worker j).counted : ℕ) : ℤ)
    omega
  | @record i it latency hdone =>
    have hcounted := counted_enter s i .waiting
    have hold : (s.worker i).counted = 0 := by
      rw [hdone]
      rfl
    have hnew : Worker.waiting.counted = 0 := rfl
    show s.inflight = ((s.producer.counted + ∑ p, (s.pools p).q.length +
      ∑ j, ((s.enter i .waiting).worker j).counted : ℕ) : ℤ)
    omega

end InFlight

namespace Limited

theorem limit_le_shedLimit (mode : Mode) (tier : ℤ) : limit mode tier ≤ shedLimit := by
  unfold limit
  split <;> decide

omit [Fintype T] in
/-- **No more is let in than there is room for**, since only the producer lets in. -/
theorem step (h : Limited mode s) (hmode : mode.limited) {a : Action T}
    (hstep : step mode home s a = some t) : Limited mode t := by
  cases Handed.of_step hstep with
  | offer _ => exact ⟨h.total, nofun⟩
  | think _ _ _ hroom =>
    refine ⟨h.total, fun it hit => ?_⟩
    rcases hroom hmode it hit with hold | hnew
    · exact h.room it hold
    · exact hnew
  | @add it hpassed =>
    have hroom := h.room it (by rw [hpassed]; rfl)
    have hlimit := limit_le_shedLimit mode it.tier
    refine ⟨?_, nofun⟩
    show s.inflight + 1 ≤ shedLimit
    omega
  | reject _ => exact ⟨h.total, nofun⟩
  | accept _ => exact ⟨h.total, nofun⟩
  | submit _ _ => exact ⟨h.total, nofun⟩
  | report => exact ⟨h.total, h.room⟩
  | stop _ => exact ⟨h.total, h.room⟩
  | dequeue _ _ => exact ⟨h.total, h.room⟩
  | @work i x pools locked inflight _ _ hinflight hle =>
    have hless : inflight ≤ s.inflight := by omega
    exact ⟨hless.trans h.total, fun it hit => hless.trans_lt (h.room it hit)⟩
  | drop _ => exact ⟨h.total, h.room⟩
  | record _ => exact ⟨h.total, h.room⟩

end Limited

omit [DecidableEq T] in
/-- At rest all that was accepted is dropped or recorded. -/
theorem Flow.perm (h : Flow s) (hrest : s.AtRest) :
    (s.ledger.dropped ++ s.ledger.recorded).Perm s.ledger.accepted := by
  refine List.perm_iff_count.mpr fun t => ?_
  have := h.accepted fun t' => if t' = t then 1 else 0
  obtain ⟨hidle, hq, hitem⟩ := hrest
  have hqueued : s.queued (fun t' => if t' = t then 1 else 0) = 0 :=
    Finset.sum_eq_zero fun p _ => by
      rw [Pool.tickets, hq]
      rfl
  have hhandled : s.handled (fun t' => if t' = t then 1 else 0) = 0 :=
    Finset.sum_eq_zero fun i _ => by
      rw [hitem]
      rfl
  rw [tally_ite, tally_ite, tally_ite, hqueued, hhandled, hidle] at this
  rw [List.count_append]
  exact this.symm

omit [DecidableEq T] in
/-- No request is accepted twice. -/
theorem Flow.nodup (h : Flow s) : s.ledger.accepted.Nodup := by
  refine List.nodup_iff_count_le_one.mpr fun t => ?_
  have := h.issued fun t' => if t' = t then 1 else 0
  have hone := List.nodup_iff_count_le_one.mp (List.nodup_range (n := s.ledger.issued)) t
  rw [tally_ite, tally_ite, tally_ite] at this
  omega

omit [DecidableEq T] in
/-- At rest every request is refused or accepted. -/
theorem Flow.length (h : Flow s) (hidle : s.producer = .idle) :
    s.ledger.issued = s.ledger.refused.length + s.ledger.accepted.length := by
  have := h.issued fun _ => 1
  rw [tally_one, tally_one, tally_one, List.length_range, hidle] at this
  exact this

/-- **The counters of the server are exact.**  The counter of what is in flight counts the requests
that are admitted and not submitted, those that are queued, and those that a worker has yet to
subtract; where there is a limit it is kept, and by each tier its own; and at rest the requests
are those accepted and those rejected, the accepted ones are those with a latency, and every
request that was dropped has been accepted before, once. -/
theorem accounting_exact (h : Reach (step mode home) Server.init s) :
    InFlight s ∧ (mode.limited → s.inflight ≤ shedLimit) ∧
      (mode = .priority → ∀ it t, 0 < it.tier → s.producer = .passed it →
        Threads.step mode home s .fetchAdd = some t → s.inflight < tier3Limit) ∧
      (s.AtRest →
        s.metrics.offered = s.metrics.accepted + s.metrics.rejected ∧
          s.metrics.accepted = s.metrics.latencies.length ∧
          s.metrics.goodput ≤ s.metrics.accepted ∧
          s.metrics.droppedAtDequeue = s.ledger.dropped.length ∧
          s.metrics.accepted = s.ledger.accepted.length - s.ledger.dropped.length ∧
          s.metrics.rejected = s.ledger.refused.length + s.ledger.dropped.length ∧
          s.ledger.accepted.Nodup ∧
          (s.ledger.dropped ++ s.ledger.recorded).Perm s.ledger.accepted) := by
  -- where the items are, what the metrics say, and what is in flight, in the whole run
  have hflow : Flow s := h.invariant Flow.init fun _ _ _ hu hstep => hu.step hstep
  have hbooks : Books s.metrics s.ledger :=
    h.invariant (P := fun u => Books u.metrics u.ledger) ⟨rfl, rfl, rfl, rfl, rfl, le_rfl⟩
      fun _ _ _ hu hstep => hu.step hstep
  have hinflight : InFlight s := h.invariant InFlight.init fun _ _ _ hu hstep => hu.step hstep
  have hlimited : mode.limited → Limited mode s := fun hmode =>
    h.invariant ⟨(by decide : (0 : ℤ) ≤ shedLimit), nofun⟩ fun _ _ _ hu hstep => hu.step hmode hstep
  refine ⟨hinflight, fun hmode => (hlimited hmode).total, ?_, fun hrest => ?_⟩
  · intro hpriority it t htier hpassed _
    have hroom := (hlimited (Or.inr hpriority)).room it (by rw [hpassed]; rfl)
    rwa [limit, if_pos ⟨hpriority, htier⟩] at hroom
  -- at rest nothing is queued or in hand, so what was accepted has been handled
  · have hperm := hflow.perm hrest
    have hsplit := hperm.length_eq
    have hall := hflow.length hrest.1
    have hlatencies := hbooks.latencies
    rw [List.length_append] at hsplit
    have haccepted : s.metrics.accepted = s.metrics.latencies.length := by
      rw [hbooks.accepted]
      omega
    refine ⟨?_, haccepted, ?_, hbooks.dropped, hbooks.accepted, hbooks.rejected, hflow.nodup,
      hperm⟩
    · rw [hbooks.offered, hbooks.accepted, hbooks.rejected]
      omega
    · rw [haccepted]
      exact hbooks.goodput

end

/-- Of two requests one is served late, and the other dropped. -/
theorem accounting_exact_dropped : ∃ s : Server Bool,
    Reach (step .priority fun _ => .checkout) Server.init s ∧
      (s.metrics.offered = 2 ∧ s.metrics.accepted = 1 ∧ s.metrics.droppedAtDequeue = 1 ∧
        s.metrics.goodput = 0) ∧ s.AtRest ∧
      s.metrics.offered = s.metrics.accepted + s.metrics.rejected := by
  -- one item is recorded late, and the other dropped at the dequeue
  have hrun : ((exec (step .priority fun _ => .checkout) (Server.init : Server Bool)
      [.offer 0 false, .load 0 0, .look 0 0, .fetchAdd, .accept, .submit,
        .offer 3 false, .load 0 0, .look 10 0, .fetchAdd, .dequeue true, .accept, .submit,
        .check true 1, .dequeue false, .check false 60, .lockMetrics false, .finish true,
        .fetchSub true, .fetchSub false, .drop false, .record true 600]).map fun s =>
          decide ((s.metrics.offered = 2 ∧ s.metrics.accepted = 1 ∧
            s.metrics.droppedAtDequeue = 1 ∧ s.metrics.goodput = 0) ∧ s.producer = .idle ∧
              ((s.pools .checkout).q = [] ∧ (s.pools .report).q = []) ∧
                s.worker true = .waiting ∧ s.worker false = .waiting)) = some true := by
    decide +kernel
  obtain ⟨s, hs, hobs⟩ := Option.map_eq_some_iff.mp hrun
  obtain ⟨hcounts, hidle, ⟨hcheckout, hreport⟩, htrue, hfalse⟩ := of_decide_eq_true hobs
  have hreach := Reach.of_exec _ hs
  have hrest : s.AtRest := by
    refine ⟨hidle, fun p => ?_, fun i => ?_⟩
    · cases p with
      | checkout => exact hcheckout
      | report => exact hreport
    · cases i with
      | true => rw [htrue]; rfl
      | false => rw [hfalse]; rfl
  exact ⟨s, hreach, hcounts, hrest, ((accounting_exact hreach).2.2.2 hrest).1⟩

end Threads
end Shedding
end SepLab
