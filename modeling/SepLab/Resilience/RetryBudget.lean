import Mathlib.Data.List.Perm.Subperm
import Mathlib.Logic.Function.Basic
import SepLab.Lib.SlidingWindow
import SepLab.Lib.Transition

/-!
# Retries within a budget

The API lab's `RetryBudget`, which grants a retry while the retries of a sliding
window stay below a percentage of its requests, and the calls of `with_retries` that
share it.  A call runs without interruption from one `await` to the next.  Times
and the percentage are rational numbers.

## Main definitions

* `RetryBudget.recordRequest`, `RetryBudget.trySpend` — the budget.
* `State`, `Action`, `withRetries` — calls of `with_retries` in any interleaving.
* `State.Inv` — what the deques and the calls have to do with the histories.

## Main results

* `State.Inv.step` — every step of a call keeps the invariant.
* `retries_le` — retries and invocations since the start, against requests.
* `retries_le_neg` — a negative percentage is no bound.
-/

namespace SepLab
namespace Resilience

open SlidingWindow

/-- The budget, with the times of the requests and retries that it remembers. -/
structure RetryBudget where
  pct : ℚ
  windowS : ℚ
  requests : List ℚ
  retries : List ℚ

namespace RetryBudget

/-- `_trim` -/
def trim (b : RetryBudget) (now : ℚ) : RetryBudget :=
  { b with
    requests := SlidingWindow.trim (now - b.windowS) b.requests
    retries := SlidingWindow.trim (now - b.windowS) b.retries }

/-- `record_request` -/
def recordRequest (b : RetryBudget) (now : ℚ) : RetryBudget :=
  { b.trim now with requests := (b.trim now).requests ++ [now] }

/-- `try_spend`: whether one retry fits inside the budget; it is recorded if so. -/
def trySpend (b : RetryBudget) (now : ℚ) : Bool × RetryBudget :=
  if b.pct ≤ 0 then (false, b)
  else
    let b := b.trim now
    let allowed : ℚ := b.requests.length * (b.pct / 100)
    if allowed < b.retries.length + 1 then (false, b)
    else (true, { b with retries := b.retries ++ [now] })

/-- The budget refuses, without looking at the time if it is switched off, or grants a retry
that fits the window. -/
theorem trySpend_cases (b : RetryBudget) (now : ℚ) :
    b.trySpend now = (false, b) ∨ b.trySpend now = (false, b.trim now) ∨
    0 < b.pct ∧
      ((b.trim now).retries.length : ℚ) + 1 ≤ (b.trim now).requests.length * (b.pct / 100) ∧
      b.trySpend now = (true, { b.trim now with retries := (b.trim now).retries ++ [now] }) := by
  by_cases hpct : b.pct ≤ 0
  · exact Or.inl (if_pos hpct)
  · have hspend : b.trySpend now = if ((b.trim now).requests.length : ℚ) * (b.pct / 100) <
        (b.trim now).retries.length + 1 then (false, b.trim now)
      else (true, { b.trim now with retries := (b.trim now).retries ++ [now] }) := if_neg hpct
    rw [hspend]
    split
    · exact Or.inr (Or.inl rfl)
    · next hfits => exact Or.inr (Or.inr ⟨not_le.mp hpct, not_lt.mp hfits, rfl⟩)

end RetryBudget

/-- How `fn` ends. -/
inductive Outcome
  | returned
  | unavailable
  /-- Any other exception, and the deadline's timeout. -/
  | raised
deriving DecidableEq

/-- Where a call of `with_retries` stands. -/
inductive Phase
  | idle
  /-- It awaits `fn()`. -/
  | calling (attempt : ℕ)
  /-- It awaits the delay before the next attempt. -/
  | sleeping (attempt : ℕ)
  | done
deriving DecidableEq

/-- The calls `ι`, the budget that they share, and all that has happened: the requests
recorded and the retries granted, with their calls and times, and the invocations of `fn`. -/
structure State (ι : Type) where
  clock : ℚ
  budget : RetryBudget
  phase : ι → Phase
  requests : List (ι × ℚ)
  retries : List (ι × ℚ)
  invocations : List ι

/-- What a call does between two awaits. -/
inductive Action (ι : Type)
  | tick (now : ℚ)
  | start (i : ι)
  /-- `fn` ends; `short` says that a retry's delay would pass the deadline. -/
  | finish (i : ι) (outcome : Outcome) (short : Bool)
  | wake (i : ι)
  /-- The call is cancelled at its await. -/
  | cancel (i : ι)

variable {ι : Type} [DecidableEq ι]

namespace State

/-- Before the first call, with a new budget. -/
def init (clock pct windowS : ℚ) : State ι :=
  ⟨clock, ⟨pct, windowS, [], []⟩, fun _ => .idle, [], [], []⟩

/-- The call `i` goes on at `p`. -/
def enter (s : State ι) (i : ι) (p : Phase) : State ι :=
  { s with phase := Function.update s.phase i p }

variable (attempts : ι → ℤ)

/-- A call records its request and, if its loop has a turn, invokes `fn`. -/
def start (s : State ι) (i : ι) : State ι :=
  let s := { s with
    budget := s.budget.recordRequest s.clock
    requests := s.requests ++ [(i, s.clock)] }
  if attempts i + 1 ≤ 0 then s.enter i .done
  else { s with invocations := s.invocations ++ [i] }.enter i (.calling 0)

/-- The handler of `Unavailable`. -/
def unavailable (s : State ι) (i : ι) (attempt : ℕ) (short : Bool) : State ι :=
  if attempts i ≤ attempt then s.enter i .done
  else
    let r := s.budget.trySpend s.clock
    if r.1 then
      { s with
        budget := r.2
        retries := s.retries ++ [(i, s.clock)] }.enter i
          (if short then .done else .sleeping attempt)
    else { s with budget := r.2 }.enter i .done

end State

/-- One step of the calls: call `i` makes at most `attempts i` retries. -/
def withRetries (attempts : ι → ℤ) (s : State ι) : Action ι → Option (State ι)
  | .tick now => if s.clock ≤ now then some { s with clock := now } else none
  | .start i =>
    match s.phase i with
    | .idle => some (s.start attempts i)
    | _ => none
  | .finish i outcome short =>
    match s.phase i with
    | .calling attempt =>
      match outcome with
      | .returned | .raised => some (s.enter i .done)
      | .unavailable => some (s.unavailable attempts i attempt short)
    | _ => none
  | .wake i =>
    match s.phase i with
    | .sleeping attempt =>
      some ({ s with invocations := s.invocations ++ [i] }.enter i (.calling (attempt + 1)))
    | _ => none
  | .cancel i =>
    match s.phase i with
    | .calling _ | .sleeping _ => some (s.enter i .done)
    | _ => none

namespace State

variable {attempts : ι → ℤ} {s s' : State ι}

/-- The attempt that a sleeping call has been granted and not made. -/
def credit : Phase → ℕ
  | .sleeping _ => 1
  | _ => 0

/-- The budget remembers the recent part of the histories, which are in order; it has never
granted more than its share; and every invocation belongs to a request or a retry. -/
structure Inv (p w : ℚ) (s : State ι) : Prop where
  pct : s.budget.pct = p
  windowS : s.budget.windowS = w
  requests : Keeps (s.clock - w) (s.requests.map Prod.snd) s.budget.requests
  retries : Keeps (s.clock - w) (s.retries.map Prod.snd) s.budget.retries
  upToRequests : UpTo s.clock (s.requests.map Prod.snd)
  upToRetries : UpTo s.clock (s.retries.map Prod.snd)
  bounded : Bounded (max p 0 / 100) (s.retries.map Prod.snd) (s.requests.map Prod.snd)
  invocations : ∀ i, s.invocations.count i + credit (s.phase i) ≤
    (s.requests.map Prod.fst ++ s.retries.map Prod.fst).count i

variable {p w : ℚ}

theorem Inv.init (clock p w : ℚ) : Inv p w (init clock p w : State ι) where
  pct := rfl
  windowS := rfl
  requests := .nil _
  retries := .nil _
  upToRequests := .nil _
  upToRetries := .nil _
  bounded := .nil _
  invocations _ := Nat.le_refl 0

/-- A call stops, or goes on without a retry that it has yet to make. -/
theorem Inv.enter (h : Inv p w s) {i : ι} {q : Phase} (hq : credit q = 0) :
    Inv p w (s.enter i q) := by
  refine ⟨h.pct, h.windowS, h.requests, h.retries, h.upToRequests, h.upToRetries, h.bounded, ?_⟩
  intro j
  have hj := h.invocations j
  show s.invocations.count j + credit (Function.update s.phase i q j) ≤ _
  by_cases hji : j = i
  · subst hji
    rw [Function.update_self, hq]
    exact Nat.le_trans (Nat.le_add_right _ _) hj
  · rw [Function.update_of_ne hji]
    exact hj

/-- Trimming forgets only what is out of the window. -/
theorem Inv.trim (h : Inv p w s) : Inv p w { s with budget := s.budget.trim s.clock } := by
  refine ⟨h.pct, h.windowS, ?_, ?_, h.upToRequests, h.upToRetries, h.bounded, h.invocations⟩
  · show Keeps _ _ (SlidingWindow.trim (s.clock - s.budget.windowS) _)
    rw [h.windowS]
    exact h.requests.trim le_rfl
  · show Keeps _ _ (SlidingWindow.trim (s.clock - s.budget.windowS) _)
    rw [h.windowS]
    exact h.retries.trim le_rfl

/-- Recording a request makes room for retries. -/
theorem Inv.recordRequest (h : Inv p w s) (i : ι) :
    Inv p w { s with
      budget := s.budget.recordRequest s.clock
      requests := s.requests ++ [(i, s.clock)] } := by
  have hshare : 0 ≤ max p 0 / 100 := div_nonneg (le_max_right p 0) (by norm_num)
  refine ⟨h.pct, h.windowS, ?_, h.trim.retries, ?_, h.upToRetries, ?_, ?_⟩
  · rw [List.map_append]
    exact h.trim.requests.append s.clock
  · rw [List.map_append]
    exact h.upToRequests.concat
  · rw [List.map_append]
    exact h.bounded.mark hshare s.clock
  · intro j
    have hj := h.invocations j
    simp only [List.map_append, List.count_append] at hj ⊢
    omega

/-- **A retry that fits the window is granted.** -/
theorem Inv.grant (h : Inv p w s) (i : ι) (hpct : 0 < s.budget.pct)
    (hfits : ((s.budget.trim s.clock).retries.length : ℚ) + 1 ≤
      (s.budget.trim s.clock).requests.length * (s.budget.pct / 100)) :
    Inv p w { s with
      budget :=
        { s.budget.trim s.clock with retries := (s.budget.trim s.clock).retries ++ [s.clock] }
      retries := s.retries ++ [(i, s.clock)] } := by
  refine ⟨h.pct, h.windowS, h.trim.requests, ?_, h.upToRequests, ?_, ?_, ?_⟩
  · rw [List.map_append]
    exact h.trim.retries.append s.clock
  · rw [List.map_append]
    exact h.upToRetries.concat
  · rw [List.map_append]
    -- the trimmed deques have what the histories have from the cut on
    refine h.bounded.event h.upToRetries h.upToRequests (?_ :
      ((s.retries.map Prod.snd).countP fun t => decide (s.clock - w ≤ t) : ℚ) + 1 ≤ _)
    rw [← h.requests.length_trim le_rfl h.upToRequests.sorted,
      ← h.retries.length_trim le_rfl h.upToRetries.sorted]
    rw [h.pct] at hpct hfits
    unfold RetryBudget.trim at hfits
    rw [h.windowS] at hfits
    rw [max_eq_left hpct.le]
    linarith
  · intro j
    have hj := h.invocations j
    simp only [List.map_append, List.count_append] at hj ⊢
    omega

/-- A retry that has been granted is made later. -/
theorem Inv.sleep (h : Inv p w s) {i : ι} {attempt : ℕ}
    (hcredit : s.invocations.count i + 1 ≤
      (s.requests.map Prod.fst ++ s.retries.map Prod.fst).count i) :
    Inv p w (s.enter i (.sleeping attempt)) := by
  refine ⟨h.pct, h.windowS, h.requests, h.retries, h.upToRequests, h.upToRetries, h.bounded, ?_⟩
  intro j
  show s.invocations.count j + credit (Function.update s.phase i (.sleeping attempt) j) ≤ _
  by_cases hji : j = i
  · subst hji
    rw [Function.update_self]
    exact hcredit
  · rw [Function.update_of_ne hji]
    exact h.invocations j

/-- A call that has a request or a retry to its credit invokes `fn`. -/
theorem Inv.invoke (h : Inv p w s) {i : ι} {attempt : ℕ}
    (hcredit : s.invocations.count i + 1 ≤
      (s.requests.map Prod.fst ++ s.retries.map Prod.fst).count i) :
    Inv p w ({ s with invocations := s.invocations ++ [i] }.enter i (.calling attempt)) := by
  refine ⟨h.pct, h.windowS, h.requests, h.retries, h.upToRequests, h.upToRetries, h.bounded, ?_⟩
  intro j
  show (s.invocations ++ [i]).count j +
    credit (Function.update s.phase i (.calling attempt) j) ≤ _
  rw [List.count_append]
  by_cases hji : j = i
  · subst hji
    rw [Function.update_self, List.count_singleton_self]
    exact hcredit
  · have hj := h.invocations j
    rw [Function.update_of_ne hji, List.count_singleton, if_neg (by simpa using Ne.symm hji)]
    exact hj

/-- The call records its request. -/
theorem Inv.start (h : Inv p w s) {i : ι} : Inv p w (s.start attempts i) := by
  have h' := h.recordRequest i
  unfold State.start
  simp only
  split
  · exact h'.enter rfl
  · apply h'.invoke
    have hi := h.invocations i
    simp only [List.map_append, List.count_append, List.map_cons, List.map_nil,
      List.count_singleton_self] at hi ⊢
    omega

/-- `Unavailable` is raised, or the attempt is repeated within the budget. -/
theorem Inv.unavailable (h : Inv p w s) {i : ι} {attempt : ℕ} {short : Bool} :
    Inv p w (s.unavailable attempts i attempt short) := by
  unfold State.unavailable
  split
  · exact h.enter rfl
  -- the budget counts nothing, refuses, or grants the retry
  · rcases s.budget.trySpend_cases s.clock with hno | hno | ⟨hpct, hfits, hyes⟩
    · simp only [hno]
      exact h.enter rfl
    · simp only [hno]
      exact h.trim.enter rfl
    · simp only [hyes]
      have h' := h.grant i hpct hfits
      cases short with
      | true => exact h'.enter rfl
      | false =>
        apply h'.sleep
        have hi := h.invocations i
        simp only [List.map_append, List.count_append, List.map_cons, List.map_nil,
          List.count_singleton_self] at hi ⊢
        omega

/-- **Every step of a call keeps the invariant.** -/
theorem Inv.step (h : Inv p w s) {a : Action ι} (hs : withRetries attempts s a = some s') :
    Inv p w s' := by
  cases a with
  | tick now =>
    simp only [withRetries] at hs
    split at hs
    · next hle =>
      obtain rfl := Option.some_inj.mp hs
      -- the windows move on with the clock
      have hcut : s.clock - w ≤ now - w := sub_le_sub_right hle w
      exact ⟨h.pct, h.windowS, h.requests.mono hcut, h.retries.mono hcut, h.upToRequests.mono hle,
        h.upToRetries.mono hle, h.bounded, h.invocations⟩
    · cases hs
  | start i =>
    simp only [withRetries] at hs
    split at hs
    · exact Option.some_inj.mp hs ▸ h.start
    · cases hs
  | finish i outcome short =>
    simp only [withRetries] at hs
    split at hs
    · cases outcome with
      | returned => exact Option.some_inj.mp hs ▸ h.enter rfl
      | raised => exact Option.some_inj.mp hs ▸ h.enter rfl
      | unavailable => exact Option.some_inj.mp hs ▸ h.unavailable
    · cases hs
  | wake i =>
    simp only [withRetries] at hs
    split at hs
    · next attempt hphase =>
      have hi := h.invocations i
      rw [hphase] at hi
      exact Option.some_inj.mp hs ▸ h.invoke hi
    · cases hs
  | cancel i =>
    simp only [withRetries] at hs
    split at hs
    · exact Option.some_inj.mp hs ▸ h.enter rfl
    · exact Option.some_inj.mp hs ▸ h.enter rfl
    · cases hs

end State

/-- **The budget bounds the load of retries**, in every run of the calls, whatever the window
and the limits on attempts: the retries granted since the start are at most the
percentage of the requests recorded, a negative one counting as zero, and `fn` is
invoked at most as often as requests and retries allow. -/
theorem retries_le (attempts : ι → ℤ) (clock pct windowS : ℚ) {s : State ι}
    (h : Reach (withRetries attempts) (.init clock pct windowS) s) :
    (s.retries.length : ℚ) ≤ max pct 0 / 100 * s.requests.length ∧
    (s.invocations.length : ℚ) ≤ (1 + max pct 0 / 100) * s.requests.length := by
  have hinv : State.Inv pct windowS s :=
    h.invariant (State.Inv.init clock pct windowS) fun _ _ _ hinv hs => hinv.step hs
  have hretries : (s.retries.length : ℚ) ≤ max pct 0 / 100 * s.requests.length := by
    have hle := hinv.bounded.length_le hinv.upToRetries hinv.upToRequests
    rwa [List.length_map, List.length_map] at hle
  refine ⟨hretries, ?_⟩
  -- call by call, invocations are covered by requests and retries
  have hsub : s.invocations.Subperm (s.requests.map Prod.fst ++ s.retries.map Prod.fst) := by
    rw [List.subperm_ext_iff]
    intro i _
    exact Nat.le_trans (Nat.le_add_right _ _) (hinv.invocations i)
  have hle : (s.invocations.length : ℚ) ≤ s.requests.length + s.retries.length := by
    have hlength := hsub.length_le
    rw [List.length_append, List.length_map, List.length_map] at hlength
    exact_mod_cast hlength
  linarith

/-- A budget of half the requests: of two calls that fail at once the first one may retry. -/
theorem retries_le_half : ∃ s : State ℕ, s.retries.length = 1 ∧ s.requests.length = 2 ∧
    s.invocations = [0, 1, 0] ∧
    (s.retries.length : ℚ) ≤ max 50 0 / 100 * s.requests.length ∧
    (s.invocations.length : ℚ) ≤ (1 + max 50 0 / 100) * s.requests.length := by
  have hrun : ((exec (withRetries fun _ : ℕ => 3) (.init 0 50 10)
      [.start 0, .start 1, .finish 0 .unavailable false, .finish 1 .unavailable false,
        .tick 1, .wake 0, .finish 0 .returned false]).map fun s =>
      (s.retries.length, s.requests.length, s.invocations)) = some (1, 2, [0, 1, 0]) := by
    decide +kernel
  obtain ⟨s, hs, hobs⟩ := Option.map_eq_some_iff.mp hrun
  simp only [Prod.mk.injEq] at hobs
  obtain ⟨h₁, h₂, h₃⟩ := hobs
  exact ⟨s, h₁, h₂, h₃, retries_le (fun _ => 3) 0 50 10 (.of_exec _ hs)⟩

/-- **A negative percentage is no bound**: it refuses all retries, and a number of them below
zero is not to be had. -/
theorem retries_le_neg : ¬ ∀ (pct : ℚ) (s : State ℕ),
    Reach (withRetries fun _ => 3) (.init 0 pct 10) s →
      (s.retries.length : ℚ) ≤ pct / 100 * s.requests.length ∧
      (s.invocations.length : ℚ) ≤ (1 + pct / 100) * s.requests.length := by
  intro h
  have hrun : ((exec (withRetries fun _ : ℕ => 3) (.init 0 (-10) 10)
      [.start 0, .finish 0 .unavailable false]).map fun s =>
      (s.retries.length, s.requests.length)) = some (0, 1) := by decide +kernel
  obtain ⟨s, hs, hobs⟩ := Option.map_eq_some_iff.mp hrun
  simp only [Prod.mk.injEq] at hobs
  have hle := (h (-10) s (.of_exec _ hs)).1
  rw [hobs.1, hobs.2] at hle
  norm_num at hle

end Resilience
end SepLab
