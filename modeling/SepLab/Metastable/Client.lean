import Mathlib.Data.Int.Notation
import Mathlib.Logic.Function.Basic
import SepLab.Lib.Transition

/-!
# Clients, the timer wheel and the app that is restarted

The metastable-failure topic's C++ client: requests that are tried several times, a timer
thread that gives attempts up, and the workers of an app whose queues are lost when it is
restarted.  A worker and the timer race for an attempt; who comes first in
`settled.exchange(true)` goes on with `finish_attempt`, which counts the request or submits it
again.  Each thread goes on by one access to what is shared at a time.

## Main definitions

* `Attempt`, `App`, `Clients`, `State` — the data; `Pc` — where a thread is.
* `State.exchange`, `State.create`, `State.enqueue`, … — what the functions do at one access.
* `State.advance` — `worker`, `complete`, `run`, `finish_attempt` and `submit`.
* `step` — the threads, arrivals, restarts and changes of settings, in any order.
-/

namespace SepLab
namespace Metastable
namespace Client

/-- `POOL_SIZE` -/
def poolSize : ℕ := 6

/-- `FAST_THREADS` -/
def fastThreads : ℕ := 4

/-- `CLIENT_TIMEOUT`, in milliseconds. -/
def clientTimeout : ℕ := 500

/-- `ATTEMPTS` -/
def maxAttempts : ℕ := 3

/-- An `Attempt`, apart from its flag `settled`; each has an identity of its own. -/
structure Attempt (R : Type) where
  id : ℕ
  req : R
  deadline : ℕ
  enqueued : ℕ
  app : ℕ
  miss : Bool
  deriving DecidableEq, Repr

/-- Who has set the flag `settled` of an attempt. -/
inductive Settler
  | timer
  /-- A worker that dropped it. -/
  | drop
  /-- A worker that completed it, at this time. -/
  | complete (time : ℕ)
  deriving DecidableEq, Repr

/-- The server process. -/
structure App (R : Type) where
  dbq : List (Attempt R)
  fastq : List (Attempt R)
  stopping : Bool
  inflight : ℤ
  inUse : ℤ
  shedLimit : ℤ
  dropExpired : Bool

/-- `M` -/
structure Metrics where
  goodput : ℕ
  thruput : ℕ
  retries : ℕ
  failed : ℕ
  shed : ℕ
  zombie : ℕ
  dropped : ℕ

/-- The threads of the program. -/
inductive Thread
  /-- The thread of `run_scenario`. -/
  | arrivals
  | timer
  | worker (app : ℕ) (isDb : Bool) (n : ℕ)
  deriving DecidableEq, Repr

namespace Thread

/-- The app whose worker it is. -/
def app : Thread → ℕ
  | .worker k _ _ => k
  | _ => 0

/-- A worker of the database queue. -/
def isDb : Thread → Bool
  | .worker _ db _ => db
  | _ => false

end Thread

/-- Where a thread is: what it does next. -/
inductive Pc (R : Type)
  | idle
  /-- `worker`: it has popped an attempt. -/
  | taken (a : Attempt R)
  | dropping (a : Attempt R)
  | dropped (a : Attempt R)
  | serving (a : Attempt R)
  /-- `complete`: it has left the pool. -/
  | completing (a : Attempt R)
  | checking (a : Attempt R)
  | filling (a : Attempt R) (time : ℕ)
  | completed (a : Attempt R) (time : ℕ)
  /-- The attempt was settled before. -/
  | late (a : Attempt R)
  | exited
  /-- The timer has popped an attempt. -/
  | popped (a : Attempt R)
  /-- `finish_attempt`, of a request and of the attempt if there was one. -/
  | finishing (r : R) (ok : Bool) (origin : Option (Attempt R))
  | scoring (r : R) (origin : Option (Attempt R))
  | depositing
  | deciding (r : R)
  | failing (r : R)
  /-- `submit` -/
  | submitting (r : R)
  | choosing (r : R) (app : ℕ)
  | limiting (r : R) (app : ℕ) (limit : ℤ)
  | shedding (r : R)
  | creating (r : R) (app : ℕ)
  | joining (a : Attempt R)
  | enqueuing (a : Attempt R)
  | arming (a : Attempt R)

/-- The clients' side: the timer wheel, the flags, the requests and the metrics.  The fields from
`attempts` on record what has happened: the attempts made, the requests that have arrived and how
often each was submitted, those counted in `goodput`, with the attempt, and in `failed`, the
attempts that `finish_attempt` has run for, those whose timer entry has been processed, and how
many were settled before they were completed. -/
structure Clients (R : Type) where
  pending : List (Attempt R)
  settled : Attempt R → Option Settler
  /-- `req->attempt` -/
  attempt : R → ℕ
  metrics : Metrics
  attempts : List (Attempt R)
  arrived : List R
  submits : R → ℕ
  goods : List (R × Option (Attempt R))
  bads : List R
  finished : List (Attempt R)
  processed : List (Attempt R)
  overtaken : ℕ

/-- The apps, their threads, and what the clients share. -/
structure State (R K : Type) where
  now : ℕ
  /-- The keys in the cache. -/
  present : K → Bool
  /-- `g_budget`, in milli-tokens; negative without a budget. -/
  budget : ℤ
  gApp : Option ℕ
  apps : ℕ → App R
  nApps : ℕ
  /-- The apps that have been replaced and are yet to be stopped. -/
  replaced : List ℕ
  clients : Clients R
  pc : Thread → Pc R

variable {R K : Type} [DecidableEq R] [DecidableEq K]

/-- `finish_attempt` gets a token back for a success. -/
def deposit (budget : ℤ) : ℤ :=
  if budget < 0 then budget else min (budget + 100) 103000

/-- What is left of the budget after a retry, if it allows one. -/
def withdraw (budget : ℤ) : Option ℤ :=
  if budget < 0 then some budget
  else if 1000 ≤ budget then some (budget - 1000)
  else none

/-- A new app: empty queues, and no limit. -/
def App.new : App R := ⟨[], [], false, 0, 0, 0, false⟩

/-- `pending_.emplace`, after the entries with the same deadline. -/
def emplace (pending : List (Attempt R)) (a : Attempt R) : List (Attempt R) :=
  pending.takeWhile (·.deadline ≤ a.deadline) ++ a :: pending.dropWhile (·.deadline ≤ a.deadline)

namespace State

/-- The start of a scenario, after `new_app`. -/
def init : State R K where
  now := 0
  present _ := true
  budget := -1
  gApp := some 0
  apps _ := App.new
  nApps := 1
  replaced := []
  clients := ⟨[], fun _ => none, fun _ => 0, ⟨0, 0, 0, 0, 0, 0, 0⟩, [], [], fun _ => 0, [], [], [],
    [], 0⟩
  pc _ := .idle

/-- The thread goes on to `p`. -/
def goto (s : State R K) (θ : Thread) (p : Pc R) : State R K :=
  { s with pc := Function.update s.pc θ p }

/-- An app is written. -/
def onApp (s : State R K) (k : ℕ) (f : App R → App R) : State R K :=
  { s with apps := Function.update s.apps k (f (s.apps k)) }

/-- The clients are written. -/
def onClients (s : State R K) (f : Clients R → Clients R) : State R K :=
  { s with clients := f s.clients }

/-- A counter is written. -/
def count (s : State R K) (f : Metrics → Metrics) : State R K :=
  s.onClients fun c => { c with metrics := f c.metrics }

/-- `settled.exchange(true)`: who is first goes on with `finish_attempt`. -/
def exchange (s : State R K) (θ : Thread) (a : Attempt R) (settler : Settler) (ok : Bool)
    (p : Pc R) : State R K :=
  match s.clients.settled a with
  | none => (s.onClients fun c =>
      { c with settled := Function.update c.settled a (some settler) }).goto θ
        (.finishing a.req ok (some a))
  | some _ => s.goto θ p

/-- `worker`, at the head of its loop: it returns if the app stops, and waits for an item. -/
def dequeue (s : State R K) (k : ℕ) (db : Bool) (n : ℕ) : Option (State R K) :=
  let app := s.apps k
  if k < s.nApps ∧ n < (if db then poolSize else fastThreads) then
    if app.stopping then some (s.goto (.worker k db n) .exited)
    else
      match db, app.dbq, app.fastq with
      | true, a :: dbq, _ =>
        some ((s.onApp k fun app => { app with dbq := dbq }).goto (.worker k db n) (.taken a))
      | false, _, a :: fastq =>
        some ((s.onApp k fun app => { app with fastq := fastq }).goto (.worker k db n) (.taken a))
      | _, _, _ => none
  else none

/-- The timer, at the head of its loop: it pops the first entry if that one is due. -/
def pop (s : State R K) : Option (State R K) :=
  match s.clients.pending with
  | a :: pending =>
    if a.deadline ≤ s.now then
      some ((s.onClients fun c => { c with pending := pending }).goto .timer (.popped a))
    else none
  | [] => none

/-- `submit`, when it creates the attempt. -/
def create (key : R → K) (s : State R K) (θ : Thread) (r : R) (k : ℕ) : State R K :=
  let a : Attempt R :=
    ⟨s.clients.attempts.length, r, s.now + clientTimeout, s.now, k, !s.present (key r)⟩
  (s.onClients fun c => { c with attempts := c.attempts ++ [a] }).goto θ (.joining a)

/-- `App::enqueue` -/
def enqueue (s : State R K) (a : Attempt R) : State R K :=
  if (s.apps a.app).stopping then s
  else s.onApp a.app fun app =>
    if a.miss then { app with dbq := app.dbq ++ [a] } else { app with fastq := app.fastq ++ [a] }

/-- A thread goes on, up to its next access to what is shared. -/
def advance (key : R → K) (s : State R K) (θ : Thread) : Option (State R K) :=
  match s.pc θ with
  | .idle =>
    match θ with
    | .arrivals => none
    | .timer => s.pop
    | .worker k db n => s.dequeue k db n
  | .exited => none
  -- `worker`
  | .taken a =>
    if (s.apps θ.app).dropExpired ∧ a.deadline < s.now then some (s.goto θ (.dropping a))
    else some ((s.onApp θ.app fun app =>
      { app with inUse := if θ.isDb then app.inUse + 1 else app.inUse }).goto θ (.serving a))
  | .dropping a => some ((s.onApp θ.app fun app =>
      { app with inflight := app.inflight - 1 }).goto θ (.dropped a))
  | .dropped a => some ((s.count fun m => { m with dropped := m.dropped + 1 }).exchange θ a .drop
      false .idle)
  | .serving a => some ((s.onApp θ.app fun app =>
      { app with inUse := if θ.isDb then app.inUse - 1 else app.inUse }).goto θ (.completing a))
  -- `complete`
  | .completing a => some ((s.onApp θ.app fun app =>
      { app with inflight := app.inflight - 1 }).goto θ (.checking a))
  | .checking a => some (s.goto θ (.filling a s.now))
  | .filling a t => some ({ s with
      present := if t ≤ a.deadline ∧ a.miss then Function.update s.present (key a.req) true
        else s.present }.goto θ (.completed a t))
  | .completed a t => some ((s.onClients fun c =>
      { c with
        overtaken := if (c.settled a).isSome then c.overtaken + 1 else c.overtaken }).exchange θ a
          (.complete t) (t ≤ a.deadline) (.late a))
  | .late _ => some ((s.count fun m => { m with zombie := m.zombie + 1 }).goto θ .idle)
  -- `run`
  | .popped a => some ((s.onClients fun c =>
      { c with processed := c.processed ++ [a] }).exchange θ a .timer false .idle)
  -- `finish_attempt`
  | .finishing r ok origin => some ((s.onClients fun c =>
      { c with
        metrics := { c.metrics with thruput := c.metrics.thruput + 1 }
        finished := c.finished ++ origin.toList }).goto θ
          (if ok then .scoring r origin else .deciding r))
  | .scoring r origin => some ((s.onClients fun c =>
      { c with
        metrics := { c.metrics with goodput := c.metrics.goodput + 1 }
        goods := c.goods ++ [(r, origin)] }).goto θ .depositing)
  | .depositing => some ({ s with budget := deposit s.budget }.goto θ .idle)
  | .deciding r =>
    if s.clients.attempt r + 1 < maxAttempts then
      match withdraw s.budget with
      | some budget => some (({ s with budget := budget }.onClients fun c =>
          { c with
            attempt := Function.update c.attempt r (c.attempt r + 1)
            metrics := { c.metrics with retries := c.metrics.retries + 1 }
            submits := Function.update c.submits r (c.submits r + 1) }).goto θ (.submitting r))
      | none => some (s.goto θ (.failing r))
    else some (s.goto θ (.failing r))
  | .failing r => some ((s.onClients fun c =>
      { c with
        metrics := { c.metrics with failed := c.metrics.failed + 1 }
        bads := c.bads ++ [r] }).goto θ .idle)
  -- `submit`
  | .submitting r =>
    match s.gApp with
    | none => some (s.goto θ .idle)
    | some k => some (s.goto θ (.choosing r k))
  | .choosing r k => some (s.goto θ (.limiting r k (s.apps k).shedLimit))
  | .limiting r k limit =>
    if 0 < limit ∧ limit ≤ (s.apps k).inflight then some (s.goto θ (.shedding r))
    else some (s.goto θ (.creating r k))
  | .shedding r => some ((s.count fun m => { m with shed := m.shed + 1 }).goto θ
      (.finishing r false none))
  | .creating r k => some (s.create key θ r k)
  | .joining a => some ((s.onApp a.app fun app =>
      { app with inflight := app.inflight + 1 }).goto θ (.enqueuing a))
  | .enqueuing a => some ((s.enqueue a).goto θ (.arming a))
  | .arming a => some ((s.onClients fun c =>
      { c with pending := emplace c.pending a }).goto θ .idle)

/-- A request arrives, and is submitted for the first time. -/
def arrive (s : State R K) (r : R) : Option (State R K) :=
  match s.pc .arrivals with
  | .idle =>
    if r ∈ s.clients.arrived then none
    else some ((s.onClients fun c =>
      { c with
        arrived := c.arrived ++ [r]
        submits := Function.update c.submits r (c.submits r + 1) }).goto .arrivals (.submitting r))
  | _ => none

/-- `new_app`, after which the app before it is to be stopped. -/
def restart (s : State R K) : Option (State R K) :=
  match s.pc .arrivals with
  | .idle => some { s with
      gApp := some s.nApps
      apps := Function.update s.apps s.nApps App.new
      nApps := s.nApps + 1
      replaced := s.replaced ++ s.gApp.toList }
  | _ => none

/-- `stop` of an app that has been replaced, up to the `join`. -/
def stop (s : State R K) (k : ℕ) : Option (State R K) :=
  if k ∈ s.replaced then
    some ({ s with replaced := s.replaced.erase k }.onApp k fun app =>
      { app with stopping := true, dbq := [], fastq := [] })
  else none

end State

/-- What happens in a scenario. -/
inductive Action (R K : Type)
  | tick (d : ℕ)
  | arrive (r : R)
  | advance (θ : Thread)
  | restart
  | stop (app : ℕ)
  /-- Escape (b). -/
  | setBudget (budget : ℤ)
  /-- Escape (c). -/
  | setShedLimit (app : ℕ) (limit : ℤ)
  | setDropExpired (app : ℕ) (drop : Bool)
  | flushall
  | evict (key : K)

/-- The system; `key` is the key of a request. -/
def step (key : R → K) (s : State R K) : Action R K → Option (State R K)
  | .tick d => some { s with now := s.now + d }
  | .arrive r => s.arrive r
  | .advance θ => s.advance key θ
  | .restart => s.restart
  | .stop k => s.stop k
  | .setBudget budget => some { s with budget := budget }
  | .setShedLimit k limit => some (s.onApp k fun app => { app with shedLimit := limit })
  | .setDropExpired k drop => some (s.onApp k fun app => { app with dropExpired := drop })
  | .flushall => some { s with present := fun _ => false }
  | .evict k => some { s with present := Function.update s.present k false }

end Client
end Metastable
end SepLab
