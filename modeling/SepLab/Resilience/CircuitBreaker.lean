import Mathlib.Algebra.Order.Ring.Unbundled.Rat
import Mathlib.Logic.Function.Basic
import SepLab.Lib.Transition

/-!
# The circuit breaker of the disciplined client

The breaker of the topic on timeouts, which opens on a ratio of failures, and the clients
that share it with a retry budget.  A client runs without interruption from one `await` to
the next.  Once the cooldown is over, the next call that the breaker allows is its probe.
Times, the ratios and the tokens are rational numbers.

## Main definitions

* `CircuitBreaker.allows`, `CircuitBreaker.record` — the breaker.
* `State`, `Action`, `step` — calls of `disciplined_client` in any interleaving.
* `HalfOpens` — a client that asks finds no probe, or the breaker open again, and the outcome
  of a probe decides.

## Main results

* `halfOpens_iff` — the step before which the condition fails is that which breaks the rule.
* `half_open_iff` — **a probe is alone and decides** exactly in the runs whose steps meet the
  condition.
-/

namespace SepLab
namespace Resilience
namespace Disciplined

/-! ### The budget and the breaker -/

/-- `RetryBudget`, a bucket of tokens. -/
structure RetryBudget where
  ratio : ℚ
  capacity : ℚ
  tokens : ℚ

namespace RetryBudget

/-- `__init__` -/
def new (ratio capacity : ℚ) : RetryBudget := ⟨ratio, capacity, capacity⟩

/-- `on_request`: a request brings a part of a token. -/
def onRequest (b : RetryBudget) : RetryBudget :=
  { b with tokens := min b.capacity (b.tokens + b.ratio) }

/-- `try_spend`: a retry takes a token, if there is one. -/
def trySpend (b : RetryBudget) : Bool × RetryBudget :=
  if 1 ≤ b.tokens then (true, { b with tokens := b.tokens - 1 }) else (false, b)

end RetryBudget

/-- `CircuitBreaker`, with what it counts. -/
structure CircuitBreaker where
  threshold : ℚ
  minimum : ℤ
  cooldown : ℚ
  failures : ℕ
  successes : ℕ
  openedAt : Option ℚ
  rejected : ℕ

namespace CircuitBreaker

/-- `__init__` -/
def new (threshold : ℚ) (minimum : ℤ) (cooldown : ℚ) : CircuitBreaker :=
  ⟨threshold, minimum, cooldown, 0, 0, none, 0⟩

/-- `allows`, which ends a cooldown that is over. -/
def allows (b : CircuitBreaker) (now : ℚ) : Bool × CircuitBreaker :=
  match b.openedAt with
  | none => (true, b)
  | some t =>
    if b.cooldown ≤ now - t then (true, { b with openedAt := none, failures := 0, successes := 0 })
    else (false, { b with rejected := b.rejected + 1 })

/-- An outcome is counted. -/
def count (b : CircuitBreaker) (ok : Bool) : CircuitBreaker :=
  if ok then { b with successes := b.successes + 1 } else { b with failures := b.failures + 1 }

/-- Enough outcomes, and too many failures among them. -/
def trips (b : CircuitBreaker) : Bool :=
  let total := b.successes + b.failures
  decide (b.minimum ≤ total) && decide (b.threshold < (b.failures : ℚ) / total)

/-- `record`: an outcome is counted, and may open the breaker. -/
def record (b : CircuitBreaker) (ok : Bool) (now : ℚ) : CircuitBreaker :=
  let b := b.count ok
  if b.trips then { b with openedAt := some now } else b

end CircuitBreaker

/-! ### The clients -/

/-- Where a call of `disciplined_client` stands. -/
inductive Phase
  | outside
  /-- Before `allows`, in the given attempt. -/
  | asking (attempt : ℕ)
  /-- In the backoff before a retry. -/
  | sleeping (attempt : ℕ)
  /-- In `upstream.call`. -/
  | calling (attempt : ℕ)
  | done
deriving DecidableEq

/-- The clients with what they share.  `running` is the client that has not come to its next
`await` yet.  The probes are those that were allowed after a cooldown and have no outcome yet;
`between` are the clients that were allowed next to a probe, and `misjudged` the probes whose
outcome has not closed or opened the breaker as it should. -/
structure State (ι : Type) where
  clock : ℚ
  breaker : CircuitBreaker
  budget : RetryBudget
  phase : ι → Phase
  running : Option ι
  probes : List ι
  between : List ι
  misjudged : List ι

/-- What the clock and the clients do. -/
inductive Action (ι : Type)
  | tick (now : ℚ)
  | start (i : ι)
  /-- `breaker.allows`, and what follows it up to an `await`. -/
  | ask (i : ι)
  /-- The backoff is over. -/
  | wake (i : ι)
  /-- The call has ended, with a result or with an error that is caught. -/
  | finish (i : ι) (ok : Bool)

variable {ι : Type} [DecidableEq ι]

/-- Before the first client. -/
def State.init (clock : ℚ) (breaker : CircuitBreaker) (budget : RetryBudget) : State ι :=
  ⟨clock, breaker, budget, fun _ => .outside, none, [], [], []⟩

/-- The client goes on to `p`. -/
def State.move (s : State ι) (i : ι) (p : Phase) : State ι :=
  { s with phase := Function.update s.phase i p }

/-- The retries after the breaker: the budget, and the backoff. -/
def State.admitted (s : State ι) (i : ι) (attempt : ℕ) : State ι :=
  if 0 < attempt then
    let spent := s.budget.trySpend
    { s with budget := spent.2 }.move i (if spent.1 then .sleeping attempt else .done)
  else s.move i (.calling attempt)

/-- One turn of the loop, from its beginning on. -/
def State.ask (s : State ι) (i : ι) (attempt : ℕ) : State ι :=
  let asked := s.breaker.allows s.clock
  let s' := { s with breaker := asked.2, running := none }
  if asked.1 then
    { s' with
      probes := if s.breaker.openedAt.isSome then s.probes ++ [i] else s.probes
      between := if s.probes = [] then s.between else s.between ++ [i] }.admitted i attempt
  else s'.move i .done

/-- The outcome is recorded; after an error the loop goes on. -/
def State.finish (s : State ι) (i : ι) (attempt : ℕ) (ok : Bool) : State ι :=
  let breaker := s.breaker.record ok s.clock
  let wanted := if ok then none else some s.clock
  let s' := { s with
    breaker := breaker
    probes := s.probes.erase i
    misjudged := if i ∈ s.probes ∧ breaker.openedAt ≠ wanted then s.misjudged ++ [i]
      else s.misjudged }
  if !ok && attempt + 1 < 3 then { s'.move i (.asking (attempt + 1)) with running := some i }
  else s'.move i .done

/-- One step. -/
def step (s : State ι) : Action ι → Option (State ι)
  | .tick now => if s.clock ≤ now then some { s with clock := now } else none
  | .start i =>
    if s.running = none ∧ s.phase i = .outside then
      some { s.move i (.asking 0) with budget := s.budget.onRequest, running := some i }
    else none
  | .ask i =>
    match s.phase i with
    | .asking attempt => some (s.ask i attempt)
    | _ => none
  | .wake i =>
    match s.running, s.phase i with
    | none, .sleeping attempt => some (s.move i (.calling attempt))
    | _, _ => none
  | .finish i ok =>
    match s.running, s.phase i with
    | none, .calling attempt => some (s.finish i attempt ok)
    | _, _ => none

/-! ### Probes -/

/-- Whoever asks finds no probe, or finds the breaker open again, and with the outcome of a probe
the counted outcomes are such that a success leaves the breaker closed and a failure opens it. -/
def HalfOpens (s : State ι) : Action ι → Prop
  | .ask i => ∀ attempt, s.phase i = .asking attempt → s.probes = [] ∨
      ∃ t, s.breaker.openedAt = some t ∧ s.clock - t < s.breaker.cooldown
  | .finish i true => ∀ attempt, s.running = none → s.phase i = .calling attempt → i ∈ s.probes →
      s.breaker.openedAt = none ∧ (s.breaker.count true).trips = false
  | .finish i false => ∀ attempt, s.running = none → s.phase i = .calling attempt → i ∈ s.probes →
      (s.breaker.count false).trips = true ∨ s.breaker.openedAt = some s.clock
  | _ => True

/-- A probe has been alone, and its outcome has decided. -/
structure State.Ruled (s : State ι) : Prop where
  alone : s.between = []
  decided : s.misjudged = []

variable {s s' : State ι} {i : ι}

theorem allows_eq_false {b : CircuitBreaker} {now : ℚ} :
    (b.allows now).1 = false ↔ ∃ t, b.openedAt = some t ∧ now - t < b.cooldown := by
  unfold CircuitBreaker.allows
  cases b.openedAt with
  | none => simp
  | some t =>
    simp only [Option.some.injEq, exists_eq_left']
    split
    · next hover => exact iff_of_false Bool.noConfusion (not_lt.mpr hover)
    · next hover => exact iff_of_true rfl (not_le.mp hover)

@[simp] theorem count_openedAt (b : CircuitBreaker) (ok : Bool) :
    (b.count ok).openedAt = b.openedAt := by
  cases ok <;> rfl

theorem record_openedAt (b : CircuitBreaker) (ok : Bool) (now : ℚ) :
    (b.record ok now).openedAt = if (b.count ok).trips then some now else b.openedAt := by
  cases htrips : (b.count ok).trips with
  | true => simp [CircuitBreaker.record, htrips]
  | false => simp [CircuitBreaker.record, htrips]

theorem State.admitted_ghosts (s : State ι) (i : ι) (attempt : ℕ) :
    (s.admitted i attempt).between = s.between ∧
      (s.admitted i attempt).misjudged = s.misjudged := by
  unfold State.admitted
  split
  · exact ⟨rfl, rfl⟩
  · exact ⟨rfl, rfl⟩

/-- A client that asks is allowed next to a probe, or not. -/
theorem State.ask_ghosts (s : State ι) (i : ι) (attempt : ℕ) :
    (s.ask i attempt).misjudged = s.misjudged ∧ (s.ask i attempt).between =
      if (s.breaker.allows s.clock).1 = true ∧ s.probes ≠ [] then s.between ++ [i]
      else s.between := by
  cases hallowed : (s.breaker.allows s.clock).1 with
  | false =>
    simp only [State.ask, hallowed, if_false, Bool.false_eq_true, false_and]
    exact ⟨rfl, rfl⟩
  | true =>
    simp only [State.ask, hallowed, if_true, State.admitted_ghosts, true_and, ne_eq, ite_not]

/-- An outcome is that of a probe which does not decide, or not. -/
theorem State.finish_ghosts (s : State ι) (i : ι) (attempt : ℕ) (ok : Bool) :
    (s.finish i attempt ok).between = s.between ∧ (s.finish i attempt ok).misjudged =
      if i ∈ s.probes ∧ (s.breaker.record ok s.clock).openedAt ≠
        (if ok then none else some s.clock) then s.misjudged ++ [i] else s.misjudged := by
  by_cases hagain : (!ok && decide (attempt + 1 < 3)) = true
  · simp only [State.finish, if_pos hagain]
    exact ⟨rfl, rfl⟩
  · simp only [State.finish, if_neg hagain]
    exact ⟨rfl, rfl⟩

/-- What the outcome of a probe needs to decide. -/
theorem record_decides (b : CircuitBreaker) (now : ℚ) (ok : Bool) :
    (b.record ok now).openedAt = (if ok then none else some now) ↔
      if ok then b.openedAt = none ∧ (b.count true).trips = false
      else (b.count false).trips = true ∨ b.openedAt = some now := by
  rw [record_openedAt]
  cases ok with
  | true =>
    cases htrips : (b.count true).trips with
    | true => simp
    | false => simp
  | false =>
    cases htrips : (b.count false).trips with
    | true => simp
    | false => simp

theorem ask_iff (hs : s.Ruled) (i : ι) :
    HalfOpens s (.ask i) ↔ ∀ s', step s (.ask i) = some s' → s'.Ruled := by
  have hclosed : (s.breaker.allows s.clock).1 = false ↔ _ := allows_eq_false
  constructor
  · intro hok s' hstep
    simp only [step] at hstep
    split at hstep
    · next attempt hphase =>
      obtain rfl := Option.some_inj.mp hstep
      obtain ⟨hmisjudged, hbetween⟩ := s.ask_ghosts i attempt
      refine ⟨?_, hmisjudged.trans hs.decided⟩
      rw [hbetween, if_neg, hs.alone]
      rintro ⟨hallowed, hprobes⟩
      -- a probe is out, so the breaker refuses
      rw [hclosed.mpr ((hok attempt hphase).resolve_left hprobes)] at hallowed
      cases hallowed
    · cases hstep
  · intro hnext attempt hphase
    have halone := (hnext (s.ask i attempt) (by simp only [step, hphase])).alone
    rw [(s.ask_ghosts i attempt).2] at halone
    by_cases hprobes : s.probes = []
    · exact Or.inl hprobes
    · refine Or.inr (hclosed.mp ?_)
      cases hallowed : (s.breaker.allows s.clock).1 with
      | false => rfl
      | true =>
        rw [if_pos ⟨hallowed, hprobes⟩] at halone
        exact absurd halone (List.append_ne_nil_of_right_ne_nil _ (List.cons_ne_nil _ _))

theorem finish_iff (hs : s.Ruled) (i : ι) (ok : Bool) :
    HalfOpens s (.finish i ok) ↔ ∀ s', step s (.finish i ok) = some s' → s'.Ruled := by
  have hcond : HalfOpens s (.finish i ok) ↔ ∀ attempt, s.running = none →
      s.phase i = .calling attempt → i ∈ s.probes →
      (s.breaker.record ok s.clock).openedAt = (if ok then none else some s.clock) := by
    simp only [record_decides]
    cases ok with
    | true => exact Iff.rfl
    | false => exact Iff.rfl
  rw [hcond]
  constructor
  · intro hok s' hstep
    simp only [step] at hstep
    split at hstep
    · next attempt hrunning hphase =>
      obtain rfl := Option.some_inj.mp hstep
      obtain ⟨hbetween, hmisjudged⟩ := s.finish_ghosts i attempt ok
      refine ⟨hbetween.trans hs.alone, ?_⟩
      rw [hmisjudged, if_neg, hs.decided]
      -- a probe that ends and leaves the breaker undecided is excluded by the condition
      rintro ⟨hprobe, hne⟩
      exact hne (hok attempt hrunning hphase hprobe)
    · cases hstep
  · intro hnext attempt hrunning hphase hprobe
    have hdecided := (hnext (s.finish i attempt ok) (by simp only [step, hrunning, hphase])).decided
    rw [(s.finish_ghosts i attempt ok).2] at hdecided
    by_contra hne
    rw [if_pos ⟨hprobe, hne⟩] at hdecided
    exact absurd hdecided (List.append_ne_nil_of_right_ne_nil _ (List.cons_ne_nil _ _))

/-- **From a state in which probes have been alone and have decided**, a step meets the condition
exactly when this is so after it. -/
theorem halfOpens_iff (hs : s.Ruled) (a : Action ι) :
    HalfOpens s a ↔ ∀ s', step s a = some s' → s'.Ruled := by
  cases a with
  | tick now =>
    refine iff_of_true trivial fun s' hstep => ?_
    simp only [step] at hstep
    split at hstep
    · obtain rfl := Option.some_inj.mp hstep
      exact ⟨hs.alone, hs.decided⟩
    · cases hstep
  | start i =>
    refine iff_of_true trivial fun s' hstep => ?_
    simp only [step] at hstep
    split at hstep
    · obtain rfl := Option.some_inj.mp hstep
      exact ⟨hs.alone, hs.decided⟩
    · cases hstep
  | ask i => exact ask_iff hs i
  | wake i =>
    refine iff_of_true trivial fun s' hstep => ?_
    simp only [step] at hstep
    split at hstep
    · obtain rfl := Option.some_inj.mp hstep
      exact ⟨hs.alone, hs.decided⟩
    · cases hstep
  | finish i ok => exact finish_iff hs i ok

/-- **After a cooldown one probe is alone and decides exactly in the runs whose steps meet the
condition.**  That the first call after a cooldown is allowed, and none before its end, is so in
any case. -/
theorem half_open_iff (clock threshold cooldown ratio capacity : ℚ) (minimum : ℤ)
    (as : List (Action ι)) :
    (∀ (b : CircuitBreaker) (t now : ℚ), b.openedAt = some t →
      ((b.allows now).1 = true ↔ b.cooldown ≤ now - t)) ∧
    ((∀ bs s, bs <+: as → exec step (.init clock (.new threshold minimum cooldown)
        (.new ratio capacity)) bs = some s → s.Ruled) ↔
      ∀ bs a s, bs ++ [a] <+: as → exec step (.init clock (.new threshold minimum cooldown)
        (.new ratio capacity)) bs = some s → HalfOpens s a) := by
  constructor
  · intro b t now hopened
    have hclosed : (b.allows now).1 = false ↔ _ := allows_eq_false
    rw [← not_iff_not, Bool.not_eq_true, hclosed, hopened, not_le]
    simp
  · exact exec_forall_iff (I := fun _ => True) (P := State.Ruled) trivial
      (fun _ _ _ _ _ => trivial) ⟨rfl, rfl⟩ (fun _ a _ hs => halfOpens_iff hs a) as

/-- Twenty calls time out and open the breaker, and the two clients that come after its cooldown
are both allowed. -/
theorem not_half_open : ¬ ∀ s : State ℕ, Reach step
    (.init 0 (.new (1 / 2) 20 1) (.new (1 / 10) 100)) s → s.Ruled := by
  intro h
  have hrun : ((exec step (.init 0 (.new (1 / 2) 20 1) (.new (1 / 10) 100))
      ((List.range 20).flatMap (fun i => [.start i, .ask i]) ++
        (List.range 20).flatMap (fun i => [.finish i false, .ask i]) ++
        [.tick 1, .start 20, .ask 20, .start 21, .ask 21])).map
        fun s : State ℕ => s.between) = some [21] := by decide +kernel
  obtain ⟨s, hs, hbetween⟩ := Option.map_eq_some_iff.mp hrun
  rw [(h s (.of_exec _ hs)).alone] at hbetween
  cases hbetween

end Disciplined
end Resilience
end SepLab
