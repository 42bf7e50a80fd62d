import Mathlib.Data.Rat.Floor
import Mathlib.Tactic.Linarith
import SepLab.Lib.Potential

/-!
# CPU bandwidth with a burst bank

The container topic's `CpuBudget`: threads charge the CPU time that they have burned to the
balance of the period and park when it is used up, and a refill thread closes a period and
opens the next one.  What a period leaves of its quota is banked, up to `burst_us`.  Times
are rational numbers, where the source rounds to doubles.

## Main definitions

* `CpuBudget`, `State`, `step` — the budget, and what its threads do to it.
* `State.periods` — the periods up to the one under way, each with what it was given and has used.

## Main results

* `bank_closePeriod_add_le` — a period hands on no more than it was given and has not used.
* `Inv.step` — what every step keeps.
* `bank_creates_no_quota` — **over any periods that start with an empty bank no more is
  used than their quotas**.
-/

namespace SepLab
namespace Container

/-- The counters of `cpu.stat`. -/
structure CpuStat where
  usageUsec : ℤ
  nrPeriods : ℤ
  nrThrottled : ℤ
  throttledUsec : ℤ
  nrBursts : ℤ
  burstUsec : ℤ

/-- The arguments of the constructor; no quota is `cpu.max` with `max` for a ceiling. -/
structure CpuBudget where
  quotaUs : Option ℤ
  periodUs : ℤ
  burstUs : ℤ

/-- `quota_us or 0` -/
def CpuBudget.quota (b : CpuBudget) : ℚ := (b.quotaUs.getD 0 : ℤ)

/-- Where a thread stands. -/
inductive Phase
  | running
  /-- In the loop of `spend`, waiting since `frozenAt`. -/
  | parked (frozenAt : ℚ)
  /-- In the loop of `park_if_throttled`. -/
  | frozen

/-- Where the refill thread stands. -/
inductive Refill
  | absent
  /-- Before the test of `_stop`. -/
  | sleeping
  /-- After it, before the lock. -/
  | closing
  | done

/-- A period: the bank it was opened with, its allowance, and what of that has been used. -/
structure Period where
  bank : ℚ
  allowance : ℚ
  used : ℚ

/-- The budget's fields, its threads, and the periods closed so far.  The bank, the allowance and
the balance are exact: the source keeps them in doubles, so that its sums may be off in their last
places. -/
structure State (τ : Type) where
  stat : CpuStat
  bank : ℚ
  allowance : ℚ
  balance : ℚ
  throttledThisPeriod : Bool
  stop : Bool
  refill : Refill
  phase : τ → Phase
  closed : List Period

/-- `int(x)` drops the fraction. -/
def truncate (x : ℚ) : ℤ := if 0 ≤ x then ⌊x⌋ else ⌈x⌉

variable {τ : Type}

namespace State

/-- The state that `__init__` leaves. -/
def init (b : CpuBudget) : State τ :=
  ⟨⟨0, 0, 0, 0, 0, 0⟩, 0, b.quota, b.quota, false, false, .absent, fun _ => .running, []⟩

/-- What the period has used: the debt that the last charge left is not part of it. -/
def used (s : State τ) : ℚ := s.allowance - max 0 s.balance

/-- The period under way. -/
def current (s : State τ) : Period := ⟨s.bank, s.allowance, s.used⟩

/-- All periods, the one under way last. -/
def periods (s : State τ) : List Period := s.closed ++ [s.current]

/-- `_close_period` -/
def closePeriod (b : CpuBudget) (s : State τ) : State τ :=
  let used := s.allowance - max 0 s.balance
  let overUs := max 0 (used - b.quota)
  let underUs := max 0 (b.quota - used)
  { s with
    stat :=
      { s.stat with
        nrPeriods := s.stat.nrPeriods + 1
        nrThrottled := if s.throttledThisPeriod then s.stat.nrThrottled + 1 else s.stat.nrThrottled
        nrBursts := if 0 < overUs then s.stat.nrBursts + 1 else s.stat.nrBursts
        burstUsec := if 0 < overUs then s.stat.burstUsec + truncate overUs else s.stat.burstUsec }
    bank := max 0 (min (b.burstUs : ℚ) (s.bank + underUs - overUs))
    closed := s.closed ++ [s.current] }

/-- `_open_period` -/
def openPeriod (b : CpuBudget) (s : State τ) : State τ :=
  { s with
    throttledThisPeriod := false
    allowance := b.quota + s.bank
    balance := b.quota + s.bank }

end State

/-! ### The account of the periods -/

variable {b : CpuBudget} {s s' : State τ}

/-- What has been granted so far and what it was granted from. -/
def State.account (s : State τ) : ℚ × ℚ × List Period := (s.bank, s.allowance, s.closed)

/-- What holds of the account at any time. -/
structure Inv (b : CpuBudget) (s : State τ) : Prop where
  bank_nonneg : 0 ≤ s.bank
  bank_le : s.bank ≤ max (b.burstUs : ℚ) 0
  allowance : s.allowance = b.quota + s.bank
  within : ∀ p ∈ s.closed, p.allowance = b.quota + p.bank ∧ p.used ≤ p.allowance
  chain : s.closed.IsChain fun p p' : Period => p.used + p'.bank ≤ b.quota + p.bank
  last : ∀ p ∈ s.closed.getLast?, p.used + s.bank ≤ b.quota + p.bank

/-- What has been used is part of the allowance. -/
theorem State.used_le (s : State τ) : s.used ≤ s.allowance := by
  unfold used
  linarith [le_max_left 0 s.balance]

/-- The bank never holds more than `burst_us`, nor a debt. -/
theorem State.bank_closePeriod_le (b : CpuBudget) (s : State τ) :
    0 ≤ (s.closePeriod b).bank ∧ (s.closePeriod b).bank ≤ max (b.burstUs : ℚ) 0 := by
  constructor
  · exact le_max_left _ _
  · show max 0 (min _ _) ≤ _
    rw [max_comm]
    exact max_le_max_right 0 (min_le_left _ _)

/-- **A period hands on no more than it was given and has not used**: what is under the quota
and what is over it are the two sides of one difference. -/
theorem State.bank_closePeriod_add_le (h : s.allowance = b.quota + s.bank) :
    s.used + (s.closePeriod b).bank ≤ b.quota + s.bank := by
  have hdiff : max 0 (b.quota - s.used) - max 0 (s.used - b.quota) = b.quota - s.used := by
    rcases le_total s.used b.quota with hle | hle
    · rw [max_eq_right (by linarith), max_eq_left (by linarith), sub_zero]
    · rw [max_eq_left (by linarith), max_eq_right (by linarith)]
      ring
  have hused := s.used_le
  have hbank : (s.closePeriod b).bank ≤ max 0 (s.bank + (b.quota - s.used)) := by
    rw [← hdiff, ← add_sub_assoc]
    exact max_le_max_left 0 (min_le_right _ _)
  have hroom : max 0 (s.bank + (b.quota - s.used)) = s.bank + (b.quota - s.used) := by
    apply max_eq_right
    linarith
  linarith

theorem Inv.init (b : CpuBudget) : Inv b (State.init b : State τ) where
  bank_nonneg := le_refl _
  bank_le := le_max_right _ _
  allowance := (add_zero _).symm
  within := fun _ hp => absurd hp List.not_mem_nil
  chain := List.isChain_nil
  last := fun _ hp => absurd hp (Option.not_mem_none _)

/-- The invariant is about the account only. -/
theorem Inv.of_account (h : Inv b s) (heq : s'.account = s.account) : Inv b s' := by
  obtain ⟨hbank, hallowance, hclosed⟩ : s'.bank = s.bank ∧ s'.allowance = s.allowance ∧
      s'.closed = s.closed := by
    simpa [State.account] using heq
  constructor
  · rw [hbank]
    exact h.bank_nonneg
  · rw [hbank]
    exact h.bank_le
  · rw [hallowance, hbank]
    exact h.allowance
  · rw [hclosed]
    exact h.within
  · rw [hclosed]
    exact h.chain
  · rw [hclosed, hbank]
    exact h.last

/-- The periods of a state with the invariant follow one another within their means. -/
theorem Inv.isChain_periods (h : Inv b s) :
    s.periods.IsChain fun p p' : Period => p.used + p'.bank ≤ b.quota + p.bank := by
  unfold State.periods
  rw [List.isChain_append]
  refine ⟨h.chain, List.isChain_singleton _, ?_⟩
  intro p hp p' hp'
  obtain rfl : s.current = p' := by simpa using hp'
  exact h.last p hp

theorem Inv.mem_periods (h : Inv b s) {p : Period} (hp : p ∈ s.periods) :
    p.allowance = b.quota + p.bank ∧ p.used ≤ p.allowance := by
  rcases List.mem_append.mp hp with hp | hp
  · exact h.within p hp
  · rw [List.mem_singleton] at hp
    subst hp
    exact ⟨h.allowance, s.used_le⟩

/-- Closing a period and opening the next one. -/
theorem Inv.refill (h : Inv b s) : Inv b ((s.closePeriod b).openPeriod b) where
  bank_nonneg := (s.bank_closePeriod_le b).1
  bank_le := (s.bank_closePeriod_le b).2
  allowance := rfl
  within := fun _ hp => h.mem_periods hp
  chain := h.isChain_periods
  last := by
    intro p hp
    obtain rfl : s.current = p := by
      simpa [State.openPeriod, State.closePeriod] using hp
    exact State.bank_closePeriod_add_le h.allowance

/-! ### The threads -/

/-- What a thread does between two waits; times are in seconds. -/
inductive Action (τ : Type)
  /-- `__enter__` -/
  | enter
  /-- `__exit__` -/
  | exit
  /-- `spend(micros)`, up to the first wait -/
  | spend (t : τ) (micros now : ℚ)
  /-- `park_if_throttled()`, up to the first wait -/
  | parkIfThrottled (t : τ)
  /-- A wait of `t` ends, by a notification or by its timeout. -/
  | wake (t : τ) (now : ℚ)
  /-- The refill thread tests `_stop`. -/
  | test
  /-- The refill thread takes the lock. -/
  | refill

variable [DecidableEq τ]

namespace State

/-- Thread `t` goes on to `p`. -/
def goto (s : State τ) (t : τ) (p : Phase) : State τ :=
  { s with phase := Function.update s.phase t p }

/-- The test of the loop in `spend`, and the way to its wait. -/
def spendLoop (s : State τ) (t : τ) (now : ℚ) : State τ :=
  if s.balance ≤ 0 ∧ s.stop = false then
    { s with throttledThisPeriod := true }.goto t (.parked now)
  else s.goto t .running

/-- The charge at the start of `spend`. -/
def charge (s : State τ) (micros : ℚ) : State τ :=
  { s with
    balance := s.balance - micros
    stat := { s.stat with usageUsec := s.stat.usageUsec + truncate micros } }

/-- `spend`: the time has been burned already, and is charged after the fact. -/
def spend (b : CpuBudget) (s : State τ) (t : τ) (micros now : ℚ) : State τ :=
  match b.quotaUs with
  | none => { s with stat := { s.stat with usageUsec := s.stat.usageUsec + truncate micros } }
  | some _ => (s.charge micros).spendLoop t now

/-- The test of the loop in `park_if_throttled`. -/
def freezeLoop (s : State τ) (t : τ) : State τ :=
  if s.balance ≤ 0 ∧ s.stop = false then s.goto t .frozen else s.goto t .running

/-- The end of a wait. -/
def wake (s : State τ) (t : τ) (now : ℚ) : Option (State τ) :=
  match s.phase t with
  | .running => none
  | .parked frozenAt =>
    let throttledUsec := s.stat.throttledUsec + truncate ((now - frozenAt) * 1000000)
    some ({ s with stat := { s.stat with throttledUsec := throttledUsec } }.spendLoop t now)
  | .frozen => some (s.freezeLoop t)

end State

open State in
/-- One step of a thread; without a quota there is no refill thread. -/
def step (b : CpuBudget) (s : State τ) : Action τ → Option (State τ)
  | .enter =>
    match b.quotaUs, s.refill with
    | none, _ => some s
    | some _, .absent => some { s with refill := .sleeping }
    | some _, _ => none
  | .exit => some { s with stop := true }
  | .spend t micros now =>
    match s.phase t with
    | .running => some (spend b s t micros now)
    | _ => none
  | .parkIfThrottled t =>
    match b.quotaUs, s.phase t with
    | none, .running => some s
    | some _, .running => some (s.freezeLoop t)
    | _, _ => none
  | .wake t now => s.wake t now
  | .test =>
    match s.refill with
    | .sleeping => some { s with refill := if s.stop then .done else .closing }
    | _ => none
  | .refill =>
    match s.refill with
    | .closing => some { openPeriod b (closePeriod b s) with refill := .sleeping }
    | _ => none

/-! ### What the steps keep -/

@[simp] theorem State.account_spendLoop (s : State τ) (t : τ) (now : ℚ) :
    (s.spendLoop t now).account = s.account := by
  unfold spendLoop
  split <;> rfl

@[simp] theorem State.account_freezeLoop (s : State τ) (t : τ) :
    (s.freezeLoop t).account = s.account := by
  unfold freezeLoop
  split <;> rfl

@[simp] theorem State.account_spend (b : CpuBudget) (s : State τ) (t : τ) (micros now : ℚ) :
    (s.spend b t micros now).account = s.account := by
  unfold spend
  split
  · rfl
  · exact (s.charge micros).account_spendLoop t now

theorem State.account_wake {s s' : State τ} {t : τ} {now : ℚ} (h : s.wake t now = some s') :
    s'.account = s.account := by
  unfold wake at h
  split at h
  · simp at h
  · obtain rfl := Option.some.inj h
    exact account_spendLoop _ t now
  · obtain rfl := Option.some.inj h
    exact s.account_freezeLoop t

/-- Only the refill thread grants anything; the other steps leave the account as it is. -/
theorem step_account {a : Action τ} (h : step b s a = some s') :
    s'.account = s.account ∨ s'.account = ((s.closePeriod b).openPeriod b).account := by
  cases a with
  | refill =>
    simp only [step] at h
    -- only the refill thread closes a period
    split at h
    · obtain rfl := Option.some.inj h
      exact Or.inr rfl
    · simp at h
  | wake t now => exact Or.inl (State.account_wake h)
  | exit =>
    obtain rfl := Option.some.inj h
    exact Or.inl rfl
  | enter =>
    simp only [step] at h
    split at h
    · obtain rfl := Option.some.inj h
      exact Or.inl rfl
    · obtain rfl := Option.some.inj h
      exact Or.inl rfl
    · simp at h
  | spend t micros now =>
    simp only [step] at h
    split at h
    · obtain rfl := Option.some.inj h
      -- the loop of `spend` charges the balance step by step, and the account of the period with it
      exact Or.inl (s.account_spend b t micros now)
    · simp at h
  | parkIfThrottled t =>
    simp only [step] at h
    split at h
    · obtain rfl := Option.some.inj h
      exact Or.inl rfl
    · obtain rfl := Option.some.inj h
      exact Or.inl (s.account_freezeLoop t)
    · simp at h
  | test =>
    simp only [step] at h
    split at h
    · obtain rfl := Option.some.inj h
      exact Or.inl rfl
    · simp at h

/-- **Every step keeps the account in order.** -/
theorem Inv.step {a : Action τ} (h : Inv b s) (hs : step b s a = some s') : Inv b s' := by
  rcases step_account hs with heq | heq
  · exact h.of_account heq
  · exact h.refill.of_account heq

theorem Inv.of_reach (h : Reach (Container.step b) (State.init b) s) : Inv b s :=
  h.invariant (Inv.init b) fun _ _ _ hinv hs => hinv.step hs

/-- **The burst bank creates no quota.**  In every state the bank is between nothing and
`burst_us`, if that is not negative; no period may use more than its quota and the bank it was
opened with, nor does it; and consecutive periods of which the first was opened with an empty
bank have together used no more than their quotas. -/
theorem bank_creates_no_quota (b : CpuBudget) {s : State τ}
    (h : Reach (step b) (State.init b) s) :
    0 ≤ s.bank ∧ s.bank ≤ max (b.burstUs : ℚ) 0 ∧
      (∀ p ∈ s.periods, p.allowance ≤ b.quota + p.bank ∧ p.used ≤ p.allowance) ∧
      ∀ ps, ps <:+: s.periods → (∀ p ∈ ps.head?, p.bank = 0) →
        (ps.map Period.used).sum ≤ ps.length * b.quota := by
  have hinv : Inv b s := .of_reach h
  refine ⟨hinv.bank_nonneg, hinv.bank_le, ?_, ?_⟩
  · intro p hp
    obtain ⟨hallowance, hused⟩ := hinv.mem_periods hp
    exact ⟨hallowance.le, hused⟩
  · intro ps hps hempty
    cases ps with
    | nil => simp
    | cons p ps =>
      have hchain := hinv.isChain_periods.infix hps
      -- every period uses its quota and what was banked before it at most, and hands on the rest
      have hcost : ∀ q ∈ p :: ps, q.used ≤ b.quota + q.bank := by
        intro q hq
        obtain ⟨hallowance, hused⟩ := hinv.mem_periods (hps.subset hq)
        rwa [hallowance] at hused
      have hsum := sum_le_of_isChain hchain hcost
      -- the first bank is empty, so the banks cancel
      rwa [hempty p rfl, add_zero, nsmul_eq_mul] at hsum

/-- One CPU, and half a period to bank. -/
def burstable : CpuBudget := ⟨some 100000, 100000, 50000⟩

/-- An idle period, and one that uses more than its quota out of the bank. -/
theorem bank_creates_no_quota_idle :
    ∃ s : State Unit, exec (step burstable) (State.init burstable)
        [.enter, .test, .refill, .spend () 120000 0] = some s ∧ s.used = 120000 ∧
      (s.periods.map Period.used).sum ≤ s.periods.length * burstable.quota := by
  have hrun : ((exec (step burstable) (State.init burstable : State Unit)
      [.enter, .test, .refill, .spend () 120000 0]).map fun s =>
      (s.used, s.periods.map Period.bank)) = some (120000, [0, 50000]) := by decide +kernel
  obtain ⟨s, hs, hobs⟩ := Option.map_eq_some_iff.mp hrun
  obtain ⟨hused, hbanks⟩ := Prod.mk.inj hobs
  refine ⟨s, hs, hused, ?_⟩
  apply (bank_creates_no_quota burstable (.of_exec _ hs)).2.2.2 _ List.infix_rfl
  intro p hp
  have hbank : p.bank ∈ (s.periods.map Period.bank).head? := by
    rw [List.head?_map]
    exact Option.mem_map_of_mem _ hp
  rw [hbanks] at hbank
  exact (Option.some_inj.mp hbank).symm

/-- A negative `burst_us` is below the bank from the start. -/
theorem not_bank_le_burst : ¬ ∀ (b : CpuBudget) (s : State Unit),
    Reach (step b) (State.init b) s → 0 ≤ s.bank ∧ s.bank ≤ b.burstUs := by
  intro h
  obtain ⟨-, hle⟩ := h ⟨some 100000, 100000, -1⟩ _ .refl
  exact absurd hle (by decide +kernel)

end Container
end SepLab
