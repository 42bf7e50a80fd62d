import Mathlib.Tactic.Linarith
import SepLab.Lib.Credit
import SepLab.Retry.Policy

/-!
# Retry amplification

How many calls reach the database.  A call of `gateway` is bounded by credits: each loop
calls the next hop once, and once more for each retry its budget grants, and no call
succeeds twice.  Together with what a budget grants for the successes of its hop this
bounds the calls of each hop in terms of those of the hop above.

## Main definitions

* `cost w` — what an answer costs, with the weight `w c` for everything that counts as `c`.
* `Pays w p d` — the weights `w` are paid by the credits `p` and `d`.
* `Chain.Inv` — what a budget has granted.

## Main results

* `Pays.gateway` — a call of `gateway` is within its credit.
* `Chain.Inv.answer` — a budget grants three retries, and one for ten successes.
* `leafReceived_le` — the calls that reach the database.
-/

namespace SepLab
namespace Retry

/-- What an answer adds to the tally. -/
def ticks : (q : Question) → Reply q → Option Count
  | .enter hop, _ => some (.entered hop)
  | .withdraw hop, granted => if granted then some (.retried hop) else none
  | .deposit hop, _ => some (.succeeded hop)
  | .add c, _ => some (.metric c)
  | .late, _ => none
  | .ctxErr, _ => none
  | .faulty, _ => none

/-- What an answer adds to the weighted tally. -/
def cost (w : Count → ℤ) (q : Question) (a : Reply q) : ℤ := (ticks q a).elim 0 w

/-- The weights under which only `c` costs. -/
def one (c c' : Count) : ℤ := if c' = c then 1 else 0

theorem one_nonneg (c c' : Count) : 0 ≤ one c c' := by
  unfold one
  split
  · decide
  · decide

theorem cost_sub (w w' : Count → ℤ) (q : Question) (a : Reply q) :
    cost (w - w') q a = cost w q a - cost w' q a := by
  unfold cost
  cases ticks q a with
  | none => rfl
  | some c => rfl

@[simp] theorem Chain.count_self (s : Chain) (c : Count) : (s.count c).tally c = s.tally c + 1 := by
  simp [count]

@[simp] theorem Chain.count_of_ne (s : Chain) {c c' : Count} (h : c' ≠ c) :
    (s.count c).tally c' = s.tally c' := by
  simp [count, Function.update_of_ne h]

theorem Chain.count_tally (s : Chain) (c c' : Count) :
    ((s.count c).tally c' : ℤ) = s.tally c' + one c' c := by
  unfold one
  split
  · next h =>
    subst h
    simp
  · next h => simp [Ne.symm h]

/-- **The tally after an answer.** -/
theorem answer_tally (s : Chain) (q : Question) (a : Reply q) (c : Count) :
    ((answer s q a).2.tally c : ℤ) = s.tally c + cost (one c) q (answer s q a).1 := by
  cases q with
  | enter hop => exact s.count_tally _ c
  | withdraw hop =>
    cases hb : s.budgets hop with
    | none => simpa [answer, hb, cost, ticks] using s.count_tally (.retried hop) c
    | some b =>
      cases hw : b.withdraw.1 with
      | true => simp [answer, hb, hw, cost, ticks, Chain.count_tally]
      | false => simp [answer, hb, hw, cost, ticks]
  | deposit hop => simp [answer, cost, ticks, Chain.count_tally]
  | add m => exact s.count_tally _ c
  | late => simp [answer, cost, ticks]
  | ctxErr => simp [answer, cost, ticks]
  | faulty => simp [answer, cost, ticks]

/-! ### One call -/

/-- What a call of the hop counts as. -/
def Hop.calls : Hop → Count
  | .gateway => .entered .serviceB
  | .serviceB => .entered .serviceC
  | .serviceC => .metric .leafReceived

/-- Each hop is called with the credit `p`, of which it keeps `d` for its success and gives
the rest to its first call; a retry pays for its call itself. -/
structure Pays (w p : Count → ℤ) (d : Hop → ℤ) : Prop where
  credit : ∀ c, 0 ≤ p c
  keep : ∀ hop, 0 ≤ d hop
  entered : ∀ hop, w (.entered hop) + (p hop.calls + d hop) ≤ p (.entered hop)
  retried : ∀ hop, w (.retried hop) + p hop.calls ≤ 0
  succeeded : ∀ hop, w (.succeeded hop) ≤ d hop
  received : w (.metric .leafReceived) ≤ p (.metric .leafReceived)
  other : ∀ c, c ≠ .leafReceived → w (.metric c) ≤ 0

namespace Pays

variable {w p : Count → ℤ} {d : Hop → ℤ} (h : Pays w p d)
include h

/-- A retry brings the credit of one more call. -/
theorem mayTry (hop : Hop) (attempt : ℕ) :
    Within (cost w) (fun goes => (if goes then p hop.calls else 0) + d hop) (mayTry hop attempt)
      ((if attempt = 0 then p hop.calls else 0) + d hop) := by
  have hkeep := h.keep hop
  have hcredit := h.credit hop.calls
  have hretried := h.retried hop
  have hretries := h.other .retries (by decide)
  have hdenied := h.other .budgetDenied (by decide)
  cases attempt with
  | zero =>
    apply Within.pure
    simp
  | succ attempt =>
    apply Within.query_bind
    · simpa using hkeep
    intro granted
    cases granted with
    | true =>
      -- the token granted is the credit of the call, whether it is made or not
      have hgranted : p hop.calls + d hop ≤ 0 + d hop - w (.retried hop) := by omega
      refine Within.mono ?_ hgranted
      apply Within.free_bind (fun _ => hretries) (by omega)
      intro _
      apply Within.free_bind (fun _ => le_rfl) (by omega)
      intro late
      cases late with
      | true =>
        apply Within.pure
        simpa using hcredit
      | false =>
        apply Within.free_bind (fun _ => le_rfl) (by omega)
        intro e
        apply Within.pure
        cases e with
        | none => simp
        | some e => simpa using hcredit
    | false =>
      have hsame : 0 + d hop ≤ 0 + d hop - 0 := by omega
      refine Within.mono ?_ hsame
      apply Within.free_bind (fun _ => hdenied) (by omega)
      intro _
      apply Within.pure
      simp

/-- The loop of a hop, whose first attempt has the credit of one call. -/
theorem turns {hop : Hop} {call : Code (Option Err)}
    (hcall : Within (cost w) (fun _ => 0) call (p hop.calls)) (attempt left : ℕ) :
    Within (cost w) (fun _ => 0) (turns hop call attempt left)
      ((if attempt = 0 then p hop.calls else 0) + d hop) := by
  have hkeep := h.keep hop
  have hcredit := h.credit hop.calls
  have hsucceeded := h.succeeded hop
  induction left generalizing attempt with
  | zero =>
    apply Within.pure
    split
    · omega
    · omega
  | succ left ih =>
    apply (h.mayTry hop attempt).bind
    intro goes
    cases goes with
    | false =>
      apply Within.pure
      simpa using hkeep
    | true =>
      show Within _ _ _ (p hop.calls + d hop)
      apply Within.free_bind (fun _ => le_rfl) (by omega)
      intro e
      cases e with
      | some e =>
        apply Within.pure
        omega
      | none =>
        -- the call may use up its own credit, but not what is kept for a success
        apply (hcall.frame hkeep).bind
        intro err
        cases err with
        | none =>
          apply Within.query_bind
          · simpa using hkeep
          intro _
          apply Within.pure
          simpa [cost, ticks] using hsucceeded
        | some err =>
          show Within _ _ (if retryableErr err = true then Retry.turns hop call (attempt + 1) left
            else pure (some err)) _
          split
          · exact ih (attempt + 1)
          · apply Within.pure
            simpa using hkeep

theorem withRetries (attempts : ℕ) {hop : Hop} {call : Code (Option Err)}
    (hcall : Within (cost w) (fun _ => 0) call (p hop.calls)) :
    Within (cost w) (fun _ => 0) (withRetries attempts hop call) (p (.entered hop)) := by
  apply Within.query_bind (h.credit _)
  intro _
  apply (h.turns hcall 0 attempts).mono
  have hentered := h.entered hop
  simp [cost, ticks]
  omega

theorem leafCall : Within (cost w) (fun _ => 0) leafCall (p (.metric .leafReceived)) := by
  apply Within.query_bind (h.credit _)
  intro _
  have hreceived : 0 ≤ p (.metric .leafReceived) - w (.metric .leafReceived) := by
    have hreceived := h.received
    omega
  apply Within.free_bind (fun _ => le_rfl) hreceived
  intro refused
  cases refused with
  | true => exact Within.pure hreceived
  | false =>
    apply Within.free_bind (fun _ => le_rfl) hreceived
    intro e
    cases e with
    | some e => exact Within.pure hreceived
    | none =>
      apply Within.free_bind (fun _ => le_rfl) hreceived
      intro e
      exact Within.pure hreceived

/-- **A call of `gateway` is within its credit**, whatever happens to its calls. -/
theorem gateway (attempts : ℕ) (edgeOnly : Bool) :
    Within (cost w) (fun _ => 0) (gateway attempts edgeOnly) (p (.entered .gateway)) := by
  have hC : Within (cost w) (fun _ => 0) (serviceC attempts edgeOnly) (p (.entered .serviceC)) := by
    have hloop : Within (cost w) (fun _ => 0) (Retry.withRetries attempts .serviceC Retry.leafCall)
        (p (.entered .serviceC)) := h.withRetries attempts h.leafCall
    apply hloop.bind
    intro err
    exact Within.pure le_rfl
  have hB : Within (cost w) (fun _ => 0) (serviceB attempts edgeOnly) (p (.entered .serviceB)) :=
    h.withRetries attempts hC
  have hloop : Within (cost w) (fun _ => 0)
      (Retry.withRetries attempts .gateway (serviceB attempts edgeOnly))
      (p (.entered .gateway)) := h.withRetries attempts hB
  apply hloop.bind
  intro err
  have hok := h.other .ok (by decide)
  have hfailed := h.other .failed (by decide)
  cases err with
  | some err => exact ⟨le_rfl, fun _ => sub_nonneg.mpr hfailed⟩
  | none => exact ⟨le_rfl, fun _ => sub_nonneg.mpr hok⟩

end Pays
/-- Each call of `gateway` begins once. -/
theorem pays_entered : Pays (one (.entered .gateway)) (one (.entered .gateway)) fun _ => 0 where
  credit := one_nonneg _
  keep _ := le_rfl
  entered hop := by cases hop <;> decide
  retried hop := by cases hop <;> decide
  succeeded hop := by cases hop <;> decide
  received := by decide
  other c _ := by cases c <;> decide

/-- A call of the hop pays for its first call of the next one, and a retry for another. -/
theorem pays_calls (hop : Hop) :
    Pays (one hop.calls - one (.entered hop) - one (.retried hop)) (one hop.calls)
      fun _ => 0 where
  credit := one_nonneg _
  keep _ := le_rfl
  entered hop' := by cases hop <;> cases hop' <;> decide
  retried hop' := by cases hop <;> cases hop' <;> decide
  succeeded hop' := by cases hop <;> cases hop' <;> decide
  received := by cases hop <;> decide
  other c hc := by cases hop <;> cases c <;> first | decide | exact absurd rfl hc

/-- A call of the hop pays for its success. -/
theorem pays_succeeded (hop : Hop) :
    Pays (one (.succeeded hop) - one (.entered hop)) (fun _ => 0)
      fun hop' => one (.entered hop) (.entered hop') where
  credit _ := le_rfl
  keep _ := one_nonneg _ _
  entered hop' := by cases hop <;> cases hop' <;> decide
  retried hop' := by cases hop <;> cases hop' <;> decide
  succeeded hop' := by cases hop <;> cases hop' <;> decide
  received := by cases hop <;> decide
  other c _ := by cases hop <;> cases c <;> decide

/-! ### All calls -/

section Calls

variable {ι : Type} [Fintype ι] [DecidableEq ι] {attempts : ℕ} {edgeOnly budgeted : Bool}
  {s : Threads Chain ι Reply Unit}
  (h : Reach (Threads.step answer) (start attempts edgeOnly ι budgeted) s)
include h

/-- A measure of the tally is bounded by the credits of all calls. -/
theorem measure_le {w p : Count → ℤ} {d : Hop → ℤ} (hpays : Pays w p d) (μ : Chain → ℤ)
    (h₀ : μ (.init budgeted) = 0)
    (hμ : ∀ t q a, μ (answer t q a).2 ≤ μ t + cost w q (answer t q a).1) :
    μ s.shared ≤ Fintype.card ι * p (.entered .gateway) := by
  have hle := Within.measure_le (fun _ => p (.entered .gateway))
    (fun _ => hpays.gateway attempts edgeOnly) (fun _ => le_rfl) hμ h
  simpa [start, h₀] using hle

theorem entered_le : s.shared.tally (.entered .gateway) ≤ Fintype.card ι := by
  have hle := measure_le h pays_entered (fun t => t.tally (.entered .gateway)) rfl fun t q a => by
    rw [answer_tally]
  simpa [one] using hle

/-- A hop calls the next one once for each of its calls and retries. -/
theorem calls_le (hop : Hop) : s.shared.tally hop.calls ≤
    s.shared.tally (.entered hop) + s.shared.tally (.retried hop) := by
  have hle := measure_le h (pays_calls hop)
    (fun t => t.tally hop.calls - t.tally (.entered hop) - t.tally (.retried hop)) rfl
    fun t q a => by
      rw [answer_tally, answer_tally, answer_tally, cost_sub, cost_sub]
      omega
  -- no hop calls `gateway`, so that no call of it comes with a credit of its own
  have hnone : one hop.calls (.entered .gateway) = 0 := by
    cases hop <;> rfl
  rw [hnone] at hle
  omega

/-- No call of a hop succeeds twice. -/
theorem succeeded_le (hop : Hop) :
    s.shared.tally (.succeeded hop) ≤ s.shared.tally (.entered hop) := by
  have hle := measure_le h (pays_succeeded hop)
    (fun t => t.tally (.succeeded hop) - t.tally (.entered hop)) rfl
    fun t q a => by
      rw [answer_tally, answer_tally, cost_sub]
      omega
  omega

end Calls

/-! ### Budgets -/

/-- A budget that has granted `retried` tokens and got a deposit for each of `succeeded`
successes. -/
structure Granted (b : RetryBudget) (retried succeeded : ℕ) : Prop where
  nonneg : 0 ≤ b.tokens
  le_ceiling : b.tokens ≤ b.ceiling
  le : b.tokens + retried ≤ budgetFloor + budgetRatio * succeeded

namespace Granted

variable {b : RetryBudget} {retried succeeded : ℕ}

theorem newBudget : Granted newBudget 0 0 where
  nonneg := by decide
  le_ceiling := by decide +kernel
  le := by simp [Retry.newBudget]

theorem withdraw (h : Granted b retried succeeded) :
    Granted b.withdraw.2 (if b.withdraw.1 then retried + 1 else retried) succeeded := by
  unfold RetryBudget.withdraw
  split
  · next htoken =>
    have hle := h.le_ceiling
    have hgranted := h.le
    refine ⟨sub_nonneg.mpr htoken, ?_, ?_⟩
    · show b.tokens - 1 ≤ b.ceiling
      linarith
    · show b.tokens - 1 + ((retried + 1 : ℕ) : ℚ) ≤ _
      push_cast
      linarith
  · exact h

theorem deposit (h : Granted b retried succeeded) : Granted b.deposit retried (succeeded + 1) where
  nonneg := by
    apply le_min
    · exact add_nonneg h.nonneg (by decide +kernel)
    · exact h.nonneg.trans h.le_ceiling
  le_ceiling := min_le_right _ _
  le := by
    have hle : b.deposit.tokens ≤ b.tokens + budgetRatio := min_le_left _ _
    have hgranted := h.le
    push_cast
    linarith

/-- The retries granted, with the numbers of the source. -/
theorem retried_le (h : Granted b retried succeeded) :
    (retried : ℚ) ≤ 3 + 1 / 10 * succeeded :=
  (le_add_of_nonneg_left h.nonneg).trans h.le

end Granted

/-- Every hop has a budget, and its tally is what the budget has granted and got. -/
def Chain.Inv (s : Chain) : Prop :=
  ∀ hop, ∃ b, s.budgets hop = some b ∧
    Granted b (s.tally (.retried hop)) (s.tally (.succeeded hop))

namespace Chain.Inv

variable {s : Chain}

theorem init : (Chain.init true).Inv := fun _ => ⟨newBudget, rfl, .newBudget⟩

/-- Nothing else of the tally matters. -/
theorem count (h : s.Inv) {c : Count} (hretried : ∀ hop, c ≠ .retried hop)
    (hsucceeded : ∀ hop, c ≠ .succeeded hop) : (s.count c).Inv := by
  intro hop
  rw [count_of_ne s (hretried hop).symm, count_of_ne s (hsucceeded hop).symm]
  exact h hop

/-- A budget grants a retry for a token. -/
theorem withdraw (h : s.Inv) (hop : Hop) (a : Bool) : (answer s (.withdraw hop) a).2.Inv := by
  obtain ⟨b, hb, hgranted⟩ := h hop
  intro hop'
  -- the hop's own budget, or that of another one, which stays
  by_cases hne : hop' = hop
  · subst hne
    refine ⟨b.withdraw.2, ?_, ?_⟩
    · simp only [Retry.answer, hb]
      split <;> simp [Chain.count]
    · have hnext := hgranted.withdraw
      simp only [Retry.answer, hb]
      split
      · next htrue => simpa [htrue] using hnext
      · next hfalse => simpa [hfalse] using hnext
  · obtain ⟨b', hb', hgranted'⟩ := h hop'
    refine ⟨b', ?_, ?_⟩
    · simp only [Retry.answer, hb]
      split <;> simp [Chain.count, Function.update_of_ne hne, hb']
    · simp only [Retry.answer, hb]
      split
      · simpa [hne] using hgranted'
      · exact hgranted'

/-- A success brings a tenth of a token, or less. -/
theorem deposit (h : s.Inv) (hop : Hop) : (answer s (.deposit hop) ()).2.Inv := by
  intro hop'
  obtain ⟨b, hb, hgranted⟩ := h hop'
  by_cases hne : hop' = hop
  · subst hne
    refine ⟨b.deposit, ?_, ?_⟩
    · simp [Retry.answer, Chain.count, hb]
    · simpa [Retry.answer] using hgranted.deposit
  · refine ⟨b, ?_, ?_⟩
    · simp [Retry.answer, Chain.count, Function.update_of_ne hne, hb]
    · simpa [Retry.answer, hne] using hgranted

/-- **A budget grants three retries, and one more for ten successes.** -/
theorem answer (h : s.Inv) (q : Question) (a : Reply q) : (answer s q a).2.Inv := by
  cases q with
  | enter hop => exact h.count (fun _ => by simp) fun _ => by simp
  | withdraw hop => exact h.withdraw hop a
  | deposit hop => exact h.deposit hop
  | add m => exact h.count (fun _ => by simp) fun _ => by simp
  | late => exact h
  | ctxErr => exact h
  | faulty => exact h

end Chain.Inv

/-- **The calls that reach the database**, of any number of calls of `gateway` in any order:
each hop adds a tenth and three, and only three while nothing succeeds. -/
theorem leafReceived_le {ι : Type} [Fintype ι] [DecidableEq ι] {attempts : ℕ} {edgeOnly : Bool}
    {s : Threads Chain ι Reply Unit}
    (h : Reach (Threads.step answer) (start attempts edgeOnly ι true) s) :
    (s.shared.tally (.metric .leafReceived) : ℚ) ≤ 1331 / 1000 * Fintype.card ι + 993 / 100 ∧
      ((∀ hop, s.shared.tally (.succeeded hop) = 0) →
        s.shared.tally (.metric .leafReceived) ≤ Fintype.card ι + 9) := by
  have hinv : s.shared.Inv :=
    Threads.shared_invariant Chain.Inv.init (fun _ q a h => h.answer q a) h
  have hretried : ∀ hop, (s.shared.tally (.retried hop) : ℚ) ≤
      3 + 1 / 10 * s.shared.tally (.succeeded hop) := by
    intro hop
    obtain ⟨b, -, hgranted⟩ := hinv hop
    exact hgranted.retried_le
  have hcalls : ∀ hop, (s.shared.tally hop.calls : ℚ) ≤
      s.shared.tally (.entered hop) + s.shared.tally (.retried hop) := by
    intro hop
    exact_mod_cast calls_le h hop
  have hentered : (s.shared.tally (.entered .gateway) : ℚ) ≤ Fintype.card ι := by
    exact_mod_cast entered_le h
  have hB := hcalls .gateway
  have hC := hcalls .serviceB
  have hleaf := hcalls .serviceC
  simp only [Hop.calls] at hB hC hleaf
  constructor
  · -- a hop passes on eleven tenths of its calls, and three more
    have hhop : ∀ hop, (s.shared.tally hop.calls : ℚ) ≤
        11 / 10 * s.shared.tally (.entered hop) + 3 := by
      intro hop
      have hsucceeded : (s.shared.tally (.succeeded hop) : ℚ) ≤ s.shared.tally (.entered hop) := by
        exact_mod_cast succeeded_le h hop
      linarith [hcalls hop, hretried hop]
    have hB := hhop .gateway
    have hC := hhop .serviceB
    have hleaf := hhop .serviceC
    simp only [Hop.calls] at hB hC hleaf
    linarith
  · intro hnone
    have hthree : ∀ hop, (s.shared.tally (.retried hop) : ℚ) ≤ 3 := by
      intro hop
      simpa [hnone hop] using hretried hop
    have hle : (s.shared.tally (.metric .leafReceived) : ℚ) ≤ Fintype.card ι + 9 := by
      linarith [hthree .gateway, hthree .serviceB, hthree .serviceC]
    exact_mod_cast hle

/-- A database that refuses every connection, in time. -/
def refusing : (q : Question) → Reply q
  | .enter _ => ()
  | .withdraw _ => true
  | .deposit _ => ()
  | .add _ => ()
  | .late => false
  | .ctxErr => none
  | .faulty => true

/-- Two calls reach a database that refuses them eleven times, which is all they may. -/
theorem leafReceived_le_refused :
    ∃ s : Threads Chain Bool Reply Unit,
      Reach (Threads.step answer) (start 3 false Bool true) s ∧
        s.shared.tally (.metric .leafReceived) = 11 ∧
        s.shared.tally (.metric .leafReceived) ≤ Fintype.card Bool + 9 := by
  have hrun : ((exec (Threads.step answer) (start 3 false Bool true)
      (List.replicate 93 (false, refusing) ++ List.replicate 30 (true, refusing))).map fun s =>
        [s.shared.tally (.metric .leafReceived), s.shared.tally (.succeeded .gateway),
          s.shared.tally (.succeeded .serviceB), s.shared.tally (.succeeded .serviceC)]) =
      some [11, 0, 0, 0] := by decide +kernel
  obtain ⟨s, hs, htally⟩ := Option.map_eq_some_iff.mp hrun
  simp only [List.cons.injEq] at htally
  obtain ⟨hreceived, hgateway, hB, hC, -⟩ := htally
  have hreach := Reach.of_exec _ hs
  refine ⟨s, hreach, hreceived, (leafReceived_le hreach).2 ?_⟩
  intro hop
  cases hop with
  | gateway => exact hgateway
  | serviceB => exact hB
  | serviceC => exact hC

end Retry
end SepLab
