import Mathlib.Algebra.Order.Ring.Unbundled.Rat
import SepLab.Lib.Prog

/-!
# Retries at every hop

The chain of calls `gateway -> serviceB -> serviceC -> database` of the retry storm, in
which each hop retries.  A call of `gateway` is a program; what it asks for are the
contexts, the clock and the state of the database, of which nothing is assumed, and the
retry budgets and the metrics, which all calls share.

## Main definitions

* `RetryBudget` — the token bucket of a hop, refilled by successes.
* `retryableErr` — the errors after which a call is retried.
* `withRetries` — the loop of one hop.
* `gateway` — the three of them, one inside the other.
* `Chain`, `answer` — the budgets and the metrics, and what they answer.
-/

namespace SepLab
namespace Retry

/-- The hops that retry, each one the calls of the next one. -/
inductive Hop
  | gateway
  | serviceB
  | serviceC
deriving DecidableEq

/-! ### Retry budgets -/

/-- What a success brings. -/
def budgetRatio : ℚ := 1 / 10

/-- What a budget starts with. -/
def budgetFloor : ℚ := 3

/-- `retryBudget` -/
structure RetryBudget where
  tokens : ℚ
  ceiling : ℚ
deriving DecidableEq

/-- A new budget, which is not full. -/
def newBudget : RetryBudget := ⟨budgetFloor, budgetFloor + 100⟩

/-- A call brings a part of a token, up to the ceiling. -/
def RetryBudget.deposit (b : RetryBudget) : RetryBudget :=
  { b with tokens := min (b.tokens + budgetRatio) b.ceiling }

/-- A retry takes a token, if there is one. -/
def RetryBudget.withdraw (b : RetryBudget) : Bool × RetryBudget :=
  if 1 ≤ b.tokens then (true, { b with tokens := b.tokens - 1 }) else (false, b)

/-! ### Errors -/

/-- What `ctx.Err()` says of a context that has ended. -/
inductive CtxErr
  | deadlineExceeded
  | canceled
deriving DecidableEq

/-- The errors of a call. -/
inductive Err
  /-- `errUnavailable` -/
  | unavailable
  | ctx (e : CtxErr)
  | nonRetryable (err : Err)
deriving DecidableEq

/-- Whether an error is worth another attempt. -/
def retryableErr : Err → Bool
  | .unavailable => true
  | .ctx .deadlineExceeded => true
  | .ctx .canceled => false
  | .nonRetryable _ => false

/-! ### The policy -/

/-- The counters of `metrics`. -/
inductive Metric
  | leafReceived
  | ok
  | failed
  | retries
  | budgetDenied
deriving DecidableEq

/-- What a call does not decide itself. -/
inductive Question
  /-- The loop of the hop begins; this changes nothing but the tally. -/
  | enter (hop : Hop)
  | withdraw (hop : Hop)
  | deposit (hop : Hop)
  | add (c : Metric)
  /-- Whether the wait before the next attempt ends after the deadline. -/
  | late
  /-- `ctx.Err()`, now or after a wait. -/
  | ctxErr
  /-- Whether the database refuses connections. -/
  | faulty

/-- What is answered. -/
abbrev Reply : Question → Type
  | .enter _ => Unit
  | .withdraw _ => Bool
  | .deposit _ => Unit
  | .add _ => Unit
  | .late => Bool
  | .ctxErr => Option CtxErr
  | .faulty => Bool

/-- Code that asks for what it does not decide. -/
abbrev Code : Type → Type := Prog Question Reply

/-- Asks `enter`. -/
def enter (hop : Hop) : Code Unit := .query (Question.enter hop)

/-- Asks for a token. -/
def withdraw (hop : Hop) : Code Bool := .query (Question.withdraw hop)

/-- Gives a part of a token. -/
def deposit (hop : Hop) : Code Unit := .query (Question.deposit hop)

/-- Counts. -/
def add (c : Metric) : Code Unit := .query (Question.add c)

/-- Asks `late`. -/
def late : Code Bool := .query Question.late

/-- Asks `ctxErr`. -/
def ctxErr : Code (Option CtxErr) := .query Question.ctxErr

/-- Asks `faulty`. -/
def faulty : Code Bool := .query Question.faulty

/-- What is before an attempt, which is nothing for the first one; whether it is made. -/
def mayTry (hop : Hop) : ℕ → Code Bool
  | 0 => return true
  | _ + 1 => do
    if ← withdraw hop then
      add .retries
      if ← late then
        return false
      else
        return (← ctxErr).isNone
    else
      add .budgetDenied
      return false

/-- The loop from `attempt` on; `last` is `errUnavailable` throughout. -/
def turns (hop : Hop) (call : Code (Option Err)) : ℕ → ℕ → Code (Option Err)
  | _, 0 => return some .unavailable
  | attempt, left + 1 => do
    if ← mayTry hop attempt then
      if (← ctxErr).isSome then
        return some .unavailable
      else
        match ← call with
        | none =>
          deposit hop
          return none
        | some err =>
          if retryableErr err then turns hop call (attempt + 1) left else return some err
    else
      return some .unavailable

/-- `withRetries` -/
def withRetries (attempts : ℕ) (hop : Hop) (call : Code (Option Err)) : Code (Option Err) := do
  enter hop
  turns hop call 0 attempts

/-! ### The chain -/

/-- `leaf.call`: a connection that is refused, a wait for a slot of the pool, and the work. -/
def leafCall : Code (Option Err) := do
  add .leafReceived
  if ← faulty then
    return some .unavailable
  else
    match ← ctxErr with
    | some e => return some (.ctx e)
    | none => return (← ctxErr).map .ctx

variable (attempts : ℕ) (edgeOnly : Bool)

/-- The last hop, whose errors nobody retries if only the edge does. -/
def serviceC : Code (Option Err) := do
  let err ← withRetries attempts .serviceC leafCall
  return if edgeOnly then err.map .nonRetryable else err

/-- The hop in the middle. -/
def serviceB : Code (Option Err) :=
  withRetries attempts .serviceB (serviceC attempts edgeOnly)

/-- The edge, which counts the outcome. -/
def gateway : Code Unit := do
  match ← withRetries attempts .gateway (serviceB attempts edgeOnly) with
  | some _ => add .failed
  | none => add .ok

/-- What is counted: the metrics, and for each hop how often it has been called, how often
it was granted a retry, and how many of its calls have returned `nil`. -/
inductive Count
  | metric (c : Metric)
  | entered (hop : Hop)
  | retried (hop : Hop)
  | succeeded (hop : Hop)
deriving DecidableEq

/-- What all calls share. -/
structure Chain where
  budgets : Hop → Option RetryBudget
  tally : Count → ℕ

/-- Full budgets or none, and nothing counted. -/
def Chain.init (budgeted : Bool) : Chain where
  budgets _ := if budgeted then some newBudget else none
  tally _ := 0

/-- One more is counted. -/
def Chain.count (s : Chain) (c : Count) : Chain :=
  { s with tally := Function.update s.tally c (s.tally c + 1) }

/-- The answer of the chain, which takes what it does not know from the world. -/
def answer (s : Chain) : (q : Question) → Reply q → Reply q × Chain
  | .enter hop, _ => ((), s.count (.entered hop))
  | .withdraw hop, _ =>
    match s.budgets hop with
    | none => (true, s.count (.retried hop))
    | some b =>
      let s' := { s with budgets := Function.update s.budgets hop (some b.withdraw.2) }
      (b.withdraw.1, if b.withdraw.1 then s'.count (.retried hop) else s')
  | .deposit hop, _ =>
    ((), { s with budgets := Function.update s.budgets hop ((s.budgets hop).map .deposit) }.count
      (.succeeded hop))
  | .add c, _ => ((), s.count (.metric c))
  | .late, b => (b, s)
  | .ctxErr, e => (e, s)
  | .faulty, b => (b, s)

/-- All calls of `gateway`, of which none has begun. -/
def start (ι : Type) (budgeted : Bool) : Threads Chain ι Reply Unit where
  shared := .init budgeted
  threads _ := gateway attempts edgeOnly

end Retry
end SepLab
