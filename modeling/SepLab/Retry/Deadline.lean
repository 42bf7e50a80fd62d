import Mathlib.Tactic.Linarith
import SepLab.Shedding.Lab

/-!
# Retries before a deadline

`with_retries` of the failure lab, on a clock of milliseconds.  The timeout of an attempt
is what remains of the deadline, and a retry is only made if its delay ends before it.

## Main definitions

* `outboundTimeoutMs` — the timeout of an attempt.
* `World`, `Call` — what a call does not decide itself, and how far it has come.
* `turns`, `withRetries` — the loop, and the call.

## Main results

* `Call.Timely.turn` — what one turn of the loop leaves to the next one.
* `withRetries_by_deadline` — the call returns by its deadline, and starts no retry after it.
-/

namespace SepLab
namespace Retry
namespace Lab

open Shedding.Lab (toInt)

/-- How a backoff is drawn. -/
inductive Jitter
  | none
  | full
deriving DecidableEq

/-- `config` -/
structure Config where
  clientTimeoutMs : ℤ
  deadlineSlackMs : ℤ
  propagateDeadline : Bool
  retryAttempts : ℤ
  retryBaseMs : ℤ
  retryJitter : Jitter
  retryBudgetPct : ℚ

/-! ### The deadline -/

/-- The milliseconds up to the deadline, if there is one. -/
def remainingMs (now : ℚ) (deadline : Option ℚ) : Option ℚ := deadline.map (· - now)

/-- The timeout of an outbound call: the client's own, and with a deadline no more than what is
left of it. -/
def outboundTimeoutMs (cfg : Config) (now : ℚ) (deadline : Option ℚ) : ℤ :=
  if cfg.propagateDeadline then
    match remainingMs now deadline with
    | none => cfg.clientTimeoutMs
    | some left => max 1 (toInt (min (cfg.clientTimeoutMs : ℚ) (left - cfg.deadlineSlackMs)))
  else cfg.clientTimeoutMs

/-! ### The budget -/

/-- `RetryBudget.capacity` -/
def capacity : ℚ := 100

/-- `RetryBudget.deposit` -/
def deposit (cfg : Config) (tokens : ℚ) : ℚ :=
  let ratio := cfg.retryBudgetPct / 100
  if ratio ≤ 0 then tokens else min capacity (tokens + ratio)

/-- `RetryBudget.withdraw` -/
def withdraw (cfg : Config) (tokens : ℚ) : Bool × ℚ :=
  if cfg.retryBudgetPct ≤ 0 then (true, tokens)
  else if 1 ≤ tokens then (true, tokens - 1) else (false, tokens)

/-! ### The loop -/

/-- What a call does not decide itself: the results of its attempts and how long they take,
what the budget, which it shares, has come to before and after an attempt, and what
`random.random()` draws after it. -/
structure World (T : Type) where
  attemptFn : ℕ → ℚ → T
  took : ℕ → ℚ → ℚ
  tokensBefore : ℕ → ℚ
  tokensAfter : ℕ → ℚ
  random : ℕ → ℚ

/-- How far a call has come, with the starts of all its attempts. -/
structure Call where
  now : ℚ
  tokens : ℚ
  retries : ℕ
  retryDenied : ℕ
  starts : List (ℕ × ℚ)

/-- `backoff_ms`; `random.uniform(0.0, base)` is `random.random()` times the base. -/
def backoffMs (cfg : Config) (random : ℚ) (attempt : ℕ) : ℚ :=
  let base := (cfg.retryBaseMs : ℚ) * 2 ^ (attempt - 1)
  match cfg.retryJitter with
  | .full => base * random
  | .none => base

variable {T : Type} (cfg : Config) (w : World T) (deadline : Option ℚ)

/-- The attempt itself. -/
def Call.attempt (c : Call) (n : ℕ) : T × Call :=
  let timeout : ℚ := outboundTimeoutMs cfg c.now deadline
  (w.attemptFn n timeout,
    { c with
      now := c.now + w.took n timeout
      tokens := w.tokensAfter n
      starts := c.starts ++ [(n, c.now)] })

/-- What is before an attempt, which is nothing for the first one; whether it is made. -/
def Call.mayTry (c : Call) (n : ℕ) : Bool × Call :=
  if 1 < n then
    let r := withdraw cfg (w.tokensBefore n)
    if r.1 then (true, { c with tokens := r.2, retries := c.retries + 1 })
    else (false, { c with tokens := r.2, retryDenied := c.retryDenied + 1 })
  else (true, c)

/-- The delay is not over before the deadline. -/
def Call.late (c : Call) (delay : ℚ) : Bool :=
  match remainingMs c.now deadline with
  | none => false
  | some left => cfg.propagateDeadline && left ≤ delay

/-- `asyncio.sleep`, which does not wait for a delay below zero. -/
def Call.sleep (c : Call) (delay : ℚ) : Call := { c with now := c.now + max 0 delay }

/-- The loop from `attempt` on, with the turns that are left. -/
def turns (isRetryable : T → Bool) (attempts : ℕ) :
    ℕ → ℕ → Option T → Call → Option T × Call
  | _, 0, result, c => (result, c)
  | n, left + 1, result, c =>
    match c.mayTry cfg w n with
    | (false, c) => (result, c)
    | (true, c) =>
      let (r, c) := c.attempt cfg w deadline n
      if !isRetryable r then (some r, { c with tokens := deposit cfg c.tokens })
      else if n = attempts then (some r, c)
      else
        let delay := backoffMs cfg (w.random n) n
        if c.late cfg deadline delay then (some r, c)
        else turns isRetryable attempts (n + 1) left (some r) (c.sleep delay)

/-- `with_retries`, called at the time `start`. -/
def withRetries (isRetryable : T → Bool) (start : ℚ) : Option T × Call :=
  let attempts := (max 1 cfg.retryAttempts).toNat
  turns cfg w deadline isRetryable attempts 1 attempts none ⟨start, w.tokensBefore 1, 0, 0, []⟩

/-! ### Time -/

variable {cfg w}

/-- Every attempt takes at most the timeout it was given. -/
def World.InTime (w : World T) : Prop :=
  ∀ n timeout, 0 ≤ timeout → 0 ≤ w.took n timeout ∧ w.took n timeout ≤ timeout

/-- What is drawn is between zero and one. -/
def World.Drawn (w : World T) : Prop := ∀ n, 0 ≤ w.random n ∧ w.random n ≤ 1

theorem backoffMs_nonneg (hbase : 0 ≤ cfg.retryBaseMs) {random : ℚ} (hrandom : 0 ≤ random)
    (n : ℕ) : 0 ≤ backoffMs cfg random n := by
  have hbase' : (0 : ℚ) ≤ cfg.retryBaseMs := by exact_mod_cast hbase
  have hpow : (0 : ℚ) ≤ cfg.retryBaseMs * 2 ^ (n - 1) := mul_nonneg hbase' (by positivity)
  unfold backoffMs
  cases cfg.retryJitter with
  | full => exact mul_nonneg hpow hrandom
  | none => exact hpow

/-- A number that is rounded towards zero is at most one, or at most what it was. -/
theorem toInt_le_max (x : ℚ) : (toInt x : ℚ) ≤ max 1 x := by
  unfold toInt
  split
  · next hneg =>
    have hceil : ⌈x⌉ ≤ 0 := Int.ceil_le.mpr (by exact_mod_cast hneg.le)
    have hceil' : (⌈x⌉ : ℚ) ≤ 0 := by exact_mod_cast hceil
    exact (hceil'.trans zero_le_one).trans (le_max_left _ _)
  · exact (Int.floor_le x).trans (le_max_right _ _)

/-- **The timeout of an attempt** is a millisecond, or ends by the deadline. -/
theorem outboundTimeoutMs_le (hprop : cfg.propagateDeadline = true)
    (hslack : 0 ≤ cfg.deadlineSlackMs) (now d : ℚ) :
    1 ≤ outboundTimeoutMs cfg now (some d) ∧
      (outboundTimeoutMs cfg now (some d) : ℚ) ≤ max 1 (d - now) := by
  have hslack' : (0 : ℚ) ≤ cfg.deadlineSlackMs := by exact_mod_cast hslack
  unfold outboundTimeoutMs
  rw [if_pos hprop]
  show 1 ≤ max 1 (toInt (min (cfg.clientTimeoutMs : ℚ) (d - now - cfg.deadlineSlackMs))) ∧
    ((max 1 (toInt (min (cfg.clientTimeoutMs : ℚ) (d - now - cfg.deadlineSlackMs))) : ℤ) : ℚ)
      ≤ max 1 (d - now)
  refine ⟨le_max_left _ _, ?_⟩
  rw [Int.cast_max, Int.cast_one]
  refine max_le (le_max_left _ _) ((toInt_le_max _).trans (max_le_max le_rfl ?_))
  exact (min_le_right _ _).trans (sub_le_self _ hslack')

/-- Every retry so far has started before the deadline. -/
def Call.Punctual (d : ℚ) (c : Call) : Prop := ∀ n t, (n, t) ∈ c.starts → 1 < n → t < d

/-- Where the loop stands before attempt `n`: a first attempt may be late, and a retry is not. -/
structure Call.Timely (start d : ℚ) (n : ℕ) (c : Call) : Prop where
  now : c.now ≤ max start d
  retry : 1 < n → c.now < d
  starts : c.Punctual d

theorem Call.mayTry_now (c : Call) (n : ℕ) : (c.mayTry cfg w n).2.now = c.now := by
  unfold Call.mayTry
  split
  · simp only
    split
    · rfl
    · rfl
  · rfl

theorem Call.mayTry_starts (c : Call) (n : ℕ) : (c.mayTry cfg w n).2.starts = c.starts := by
  unfold Call.mayTry
  split
  · simp only
    split
    · rfl
    · rfl
  · rfl

/-- **An attempt** that starts in time is over a millisecond after the deadline at most. -/
theorem Call.Timely.attempt (hprop : cfg.propagateDeadline = true)
    (hslack : 0 ≤ cfg.deadlineSlackMs) (htook : w.InTime) {start d : ℚ} {n : ℕ} {c : Call}
    (h : c.Timely start d n) :
    (c.attempt cfg w (some d) n).2.now ≤ max start d + 1 ∧
      (c.attempt cfg w (some d) n).2.Punctual d := by
  obtain ⟨hone, hle⟩ := outboundTimeoutMs_le hprop hslack c.now d
  have hpos : (0 : ℚ) ≤ outboundTimeoutMs cfg c.now (some d) := by
    exact_mod_cast zero_le_one.trans hone
  have htimeout := (htook n _ hpos).2.trans hle
  constructor
  · show c.now + w.took n (outboundTimeoutMs cfg c.now (some d)) ≤ max start d + 1
    -- the clamp to a millisecond counts where less than that is left
    rcases le_total (d - c.now) 1 with hleft | hleft
    · rw [max_eq_left hleft] at htimeout
      exact add_le_add h.now htimeout
    · rw [max_eq_right hleft] at htimeout
      have hd : d ≤ max start d := le_max_right _ _
      linarith
  · intro m t hmem hm
    rcases List.mem_append.mp hmem with hmem | hmem
    · exact h.starts m t hmem hm
    · obtain ⟨rfl, rfl⟩ := Prod.mk.inj (List.mem_singleton.mp hmem)
      exact h.retry hm

/-- **A delay is over before the deadline**, or it is not waited for. -/
theorem Call.Timely.sleep (hprop : cfg.propagateDeadline = true) {start d delay : ℚ} {n : ℕ}
    {c : Call} (hstarts : c.Punctual d) (hdelay : 0 ≤ delay)
    (hlate : ¬ c.late cfg (some d) delay = true) : (c.sleep delay).Timely start d n := by
  have hleft : c.now + max 0 delay < d := by
    have hle : ¬ d - c.now ≤ delay := by
      simpa [Call.late, remainingMs, hprop] using hlate
    rw [max_eq_right hdelay]
    linarith
  exact ⟨hleft.le.trans (le_max_right _ _), fun _ => hleft, hstarts⟩

/-- **Every turn hands the next one a time before the deadline.** -/
theorem turns_timely (hprop : cfg.propagateDeadline = true) (hbase : 0 ≤ cfg.retryBaseMs)
    (hslack : 0 ≤ cfg.deadlineSlackMs) (htook : w.InTime) (hdrawn : w.Drawn)
    (isRetryable : T → Bool) (attempts : ℕ) {start d : ℚ} (left : ℕ) :
    ∀ (n : ℕ) (result : Option T) (c : Call), c.Timely start d n →
      (turns cfg w (some d) isRetryable attempts n left result c).2.now ≤ max start d + 1 ∧
        (turns cfg w (some d) isRetryable attempts n left result c).2.Punctual d := by
  induction left with
  | zero =>
    intro n result c h
    exact ⟨h.now.trans (by linarith), h.starts⟩
  | succ left ih =>
    intro n result c h
    -- asking whether to try leaves the clock and the starts as they are
    have htry : (c.mayTry cfg w n).2.Timely start d n := by
      refine ⟨?_, ?_, ?_⟩
      · rw [Call.mayTry_now]
        exact h.now
      · rw [Call.mayTry_now]
        exact h.retry
      · unfold Call.Punctual
        rw [Call.mayTry_starts]
        exact h.starts
    rw [turns]
    split
    · next c' heq =>
      rw [heq] at htry
      exact ⟨htry.now.trans (by linarith), htry.starts⟩
    · next c' heq =>
      rw [heq] at htry
      obtain ⟨hnow, hstarts⟩ := htry.attempt hprop hslack htook
      simp only
      split
      · exact ⟨hnow, hstarts⟩
      · split
        · exact ⟨hnow, hstarts⟩
        · split
          · exact ⟨hnow, hstarts⟩
          · next hlate =>
            apply ih
            exact .sleep hprop hstarts (backoffMs_nonneg hbase (hdrawn n).1 n) hlate

/-- **The call returns by its deadline**, up to a millisecond, and starts no retry after it. -/
theorem withRetries_by_deadline (hprop : cfg.propagateDeadline = true)
    (hbase : 0 ≤ cfg.retryBaseMs) (hslack : 0 ≤ cfg.deadlineSlackMs) (htook : w.InTime)
    (hdrawn : w.Drawn) (isRetryable : T → Bool) (start d : ℚ) :
    (withRetries cfg w (some d) isRetryable start).2.now ≤ max start d + 1 ∧
      ∀ n t, (n, t) ∈ (withRetries cfg w (some d) isRetryable start).2.starts → 1 < n → t < d := by
  apply turns_timely hprop hbase hslack htook hdrawn
  refine ⟨le_max_left _ _, ?_, ?_⟩
  · intro h
    exact absurd h (lt_irrefl 1)
  · intro n t hmem
    cases hmem

/-- Two attempts that use up their timeouts, and twenty milliseconds too few for a third. -/
theorem withRetries_by_deadline_twice :
    let cfg : Config := ⟨500, 20, true, 3, 50, .none, 0⟩
    let w : World Bool := ⟨fun _ _ => false, fun _ timeout => timeout, fun _ => 0, fun _ => 0,
      fun _ => 0⟩
    let c := (withRetries cfg w (some 1000) (fun ok => !ok) 0).2
    c.starts = [(1, 0), (2, 550)] ∧ c.now = 980 ∧ c.now ≤ max 0 1000 + 1 := by
  refine ⟨by decide +kernel, by decide +kernel, ?_⟩
  refine (withRetries_by_deadline rfl (by decide) (by decide) ?_ ?_ _ 0 1000).1
  · exact fun _ _ h => ⟨h, le_rfl⟩
  · exact fun _ => ⟨le_rfl, zero_le_one⟩

end Lab
end Retry
end SepLab
