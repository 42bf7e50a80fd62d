import Mathlib.Data.Rat.Floor
import SepLab.Resilience.RetryBudget

/-!
# The retry fraction of a window

`stats` of the API lab's `RetryBudget` reports the retries of the trailing window as a
fraction of its requests.  A retry is checked against the requests of its own time; those
can be out of the window before the retry is.

## Main definitions

* `RetryBudget.stats` — the report.
* `Call`, `Log`, `Log.step` — calls of the budget's methods at times that do not decrease.
* `Log.Inv` — the deques are the recent part of what was recorded, and what the last grant knew.

## Main results

* `round2_mono` — rounding keeps the order.
* `Log.Inv.step` — every call keeps the invariant.
* `stats_le` — the bound on what is reported, **with the requests that were in the window of
  the last grant**.
* `not_stats_le` — a retry that has outlived its requests.
-/

namespace SepLab
namespace Resilience

open SlidingWindow

/-! ### The report -/

/-- The nearest integer, of two that are as near the even one. -/
def roundHalfEven (x : ℚ) : ℤ :=
  if x - ⌊x⌋ < 1 / 2 then ⌊x⌋
  else if 1 / 2 < x - ⌊x⌋ then ⌊x⌋ + 1
  else if ⌊x⌋ % 2 = 0 then ⌊x⌋ else ⌊x⌋ + 1

/-- `round(x, 2)` -/
def round2 (x : ℚ) : ℚ := roundHalfEven (100 * x) / 100

theorem abs_roundHalfEven_sub_le (x : ℚ) : |(roundHalfEven x : ℚ) - x| ≤ 1 / 2 := by
  have hle := Int.floor_le x
  have hlt := Int.lt_floor_add_one x
  unfold roundHalfEven
  rw [abs_le]
  split
  · constructor <;> linarith
  · split
    · push_cast
      constructor <;> linarith
    · split
      · constructor <;> linarith
      · push_cast
        constructor <;> linarith

/-- Of two numbers the smaller one is not rounded to the larger integer: they would be more than
one apart, and the numbers in the other order. -/
theorem roundHalfEven_mono {x y : ℚ} (h : x ≤ y) : roundHalfEven x ≤ roundHalfEven y := by
  rcases h.eq_or_lt with rfl | hlt
  · exact le_rfl
  · by_contra hgt
    have hone : (roundHalfEven y : ℚ) + 1 ≤ roundHalfEven x := by
      exact_mod_cast (by omega : roundHalfEven y + 1 ≤ roundHalfEven x)
    have hx := (abs_le.mp (abs_roundHalfEven_sub_le x)).2
    have hy := (abs_le.mp (abs_roundHalfEven_sub_le y)).1
    linarith

theorem round2_mono {x y : ℚ} (h : x ≤ y) : round2 x ≤ round2 y := by
  have hint : (roundHalfEven (100 * x) : ℚ) ≤ roundHalfEven (100 * y) := by
    exact_mod_cast roundHalfEven_mono (by linarith)
  unfold round2
  linarith

/-- What `stats` returns. -/
structure Stats where
  requests : ℕ
  retries : ℕ
  retryFractionPct : ℚ
deriving DecidableEq

/-- `stats` trims the deques too. -/
def RetryBudget.stats (b : RetryBudget) (now : ℚ) : Stats × RetryBudget :=
  let b := b.trim now
  let reqs := b.requests.length
  (⟨reqs, b.retries.length,
    if reqs = 0 then 0 else round2 (100 * (b.retries.length : ℚ) / reqs)⟩, b)

/-! ### Calls of the budget -/

/-- A method of the budget. -/
inductive Call
  | recordRequest
  | trySpend
  | stats
deriving DecidableEq

/-- A budget, the time of the last call, and the times of all requests recorded and all
retries granted. -/
structure Log where
  clock : ℚ
  budget : RetryBudget
  requests : List ℚ
  retries : List ℚ

namespace Log

/-- A new budget. -/
def init (clock pct windowS : ℚ) : Log := ⟨clock, ⟨pct, windowS, [], []⟩, [], []⟩

/-- The times up to `clock` that are in the window that ends at `now`. -/
def window (windowS now : ℚ) (history : List ℚ) : ℕ :=
  history.countP fun t => decide (now - windowS ≤ t)

/-- One call, at a time that is not before the last one. -/
def step (l : Log) : Call × ℚ → Option Log
  | (c, now) =>
    if now < l.clock then none
    else
      match c with
      | .recordRequest =>
        some { l with
          clock := now
          budget := l.budget.recordRequest now
          requests := l.requests ++ [now] }
      | .trySpend =>
        let r := l.budget.trySpend now
        some { l with
          clock := now
          budget := r.2
          retries := if r.1 then l.retries ++ [now] else l.retries }
      | .stats => some { l with clock := now, budget := (l.budget.stats now).2 }

/-- The deques are the recent part of the histories, which are in order; and the retries in the
window of the last grant were within the percentage of the requests from the start of that
window on. -/
structure Inv (p w : ℚ) (l : Log) : Prop where
  pct : l.budget.pct = p
  windowS : l.budget.windowS = w
  requests : Keeps (l.clock - w) l.requests l.budget.requests
  retries : Keeps (l.clock - w) l.retries l.budget.retries
  upToRequests : UpTo l.clock l.requests
  upToRetries : UpTo l.clock l.retries
  granted : ∀ g ∈ l.retries.getLast?,
    (window w g l.retries : ℚ) ≤ max p 0 / 100 * window w g l.requests

variable {p w : ℚ} {l l' : Log}

theorem Inv.init (clock p w : ℚ) : Inv p w (init clock p w) where
  pct := rfl
  windowS := rfl
  requests := .nil _
  retries := .nil _
  upToRequests := .nil _
  upToRetries := .nil _
  granted := fun _ hg => absurd hg (Option.not_mem_none _)

/-- Time passes, and what has left the window is forgotten. -/
theorem Inv.trim (h : Inv p w l) {now : ℚ} (hnow : l.clock ≤ now) :
    Inv p w { l with clock := now, budget := l.budget.trim now } := by
  have hcut : l.clock - w ≤ now - w := sub_le_sub_right hnow w
  refine ⟨h.pct, h.windowS, ?_, ?_, h.upToRequests.mono hnow, h.upToRetries.mono hnow, h.granted⟩
  · show Keeps _ _ (SlidingWindow.trim (now - l.budget.windowS) _)
    rw [h.windowS]
    exact h.requests.trim hcut
  · show Keeps _ _ (SlidingWindow.trim (now - l.budget.windowS) _)
    rw [h.windowS]
    exact h.retries.trim hcut

/-- Time passes, and nothing else happens. -/
theorem Inv.tick (h : Inv p w l) {now : ℚ} (hnow : l.clock ≤ now) :
    Inv p w { l with clock := now } :=
  have hcut : l.clock - w ≤ now - w := sub_le_sub_right hnow w
  ⟨h.pct, h.windowS, h.requests.mono hcut, h.retries.mono hcut, h.upToRequests.mono hnow,
    h.upToRetries.mono hnow, h.granted⟩

/-- What is recorded only adds to the windows. -/
theorem window_le_concat (windowS now t : ℚ) (history : List ℚ) :
    window windowS now history ≤ window windowS now (history ++ [t]) := by
  unfold window
  rw [List.countP_append]
  exact Nat.le_add_right _ _

theorem share_nonneg (p : ℚ) : 0 ≤ max p 0 / 100 := div_nonneg (le_max_right p 0) (by norm_num)

/-- A recorded request makes no grant worse. -/
theorem Inv.recordRequest (h : Inv p w l) {now : ℚ} (hnow : l.clock ≤ now) :
    Inv p w { l with
      clock := now
      budget := l.budget.recordRequest now
      requests := l.requests ++ [now] } := by
  have h' := h.trim hnow
  refine ⟨h.pct, h.windowS, h'.requests.append now, h'.retries, h'.upToRequests.concat,
    h'.upToRetries, ?_⟩
  intro g hg
  have hmore : (window w g l.requests : ℚ) ≤ window w g (l.requests ++ [now]) := by
    exact_mod_cast window_le_concat w g now l.requests
  exact (h.granted g hg).trans (mul_le_mul_of_nonneg_left hmore (share_nonneg p))

/-- **A grant is checked against the window of its time.** -/
theorem Inv.grant (h : Inv p w l) {now : ℚ} (hnow : l.clock ≤ now) (hpct : 0 < l.budget.pct)
    (hfits : ((l.budget.trim now).retries.length : ℚ) + 1 ≤
      (l.budget.trim now).requests.length * (l.budget.pct / 100)) :
    Inv p w { l with
      clock := now
      budget := { l.budget.trim now with retries := (l.budget.trim now).retries ++ [now] }
      retries := l.retries ++ [now] } := by
  have h' := h.trim hnow
  have hcut : l.clock - w ≤ now - w := sub_le_sub_right hnow w
  refine ⟨h.pct, h.windowS, h'.requests, h'.retries.append now, h'.upToRequests,
    h'.upToRetries.concat, ?_⟩
  intro g hg
  rw [List.getLast?_concat] at hg
  obtain rfl := Option.some_inj.mp hg
  have hold : ((l.budget.trim now).retries.length : ℚ) = window w now l.retries := by
    unfold RetryBudget.trim window
    rw [h.windowS, h.retries.length_trim hcut h.upToRetries.sorted]
  have hreqs : ((l.budget.trim now).requests.length : ℚ) = window w now l.requests := by
    unfold RetryBudget.trim window
    rw [h.windowS, h.requests.length_trim hcut h.upToRequests.sorted]
  -- the window of the retries grows by the one granted
  have hnew : (window w now (l.retries ++ [now]) : ℚ) ≤ window w now l.retries + 1 := by
    unfold window
    rw [List.countP_append, List.countP_singleton]
    push_cast
    split <;> simp
  rw [h.pct] at hpct hfits
  rw [max_eq_left hpct.le]
  rw [hold, hreqs] at hfits
  linarith

/-- **Every call keeps the invariant.** -/
theorem Inv.step {c : Call × ℚ} (h : Inv p w l) (hs : l.step c = some l') : Inv p w l' := by
  obtain ⟨c, now⟩ := c
  simp only [Log.step] at hs
  split at hs
  · simp at hs
  · next hlt =>
    have hnow : l.clock ≤ now := not_lt.mp hlt
    cases c with
    | recordRequest => exact Option.some_inj.mp hs ▸ h.recordRequest hnow
    | stats => exact Option.some_inj.mp hs ▸ h.trim hnow
    | trySpend =>
      obtain rfl := Option.some_inj.mp hs
      -- the budget counts nothing, refuses, or grants the retry
      rcases l.budget.trySpend_cases now with hno | hno | ⟨hpct, hfits, hyes⟩
      · simp only [hno]
        exact h.tick hnow
      · simp only [hno]
        exact h.trim hnow
      · simp only [hyes]
        exact h.grant hnow hpct hfits

/-- A later or a shorter window has no more in it. -/
theorem window_anti {w w' t t' : ℚ} (h : t - w ≤ t' - w') (history : List ℚ) :
    window w' t' history ≤ window w t history := by
  apply List.countP_mono_left
  intro u _ hu
  exact decide_eq_true (h.trans (of_decide_eq_true hu))

/-- The last retry is the latest one. -/
theorem Inv.le_last (h : Inv p w l) {g t : ℚ} (hg : g ∈ l.retries.getLast?)
    (ht : t ∈ l.retries) : t ≤ g := by
  obtain ⟨init, hinit⟩ := List.getLast?_eq_some_iff.mp hg
  have hsorted := h.upToRetries.sorted
  rw [hinit] at ht hsorted
  rcases List.mem_append.mp ht with ht | ht
  · exact (List.pairwise_append.mp hsorted).2.2 t ht g (List.mem_singleton_self g)
  · exact (List.mem_singleton.mp ht).le

/-- The report counts the window that ends at its time. -/
theorem Inv.stats_eq (h : Inv p w l) {now : ℚ} (hnow : l.clock ≤ now) :
    (l.budget.stats now).1.requests = window w now l.requests ∧
      (l.budget.stats now).1.retries = window w now l.retries := by
  have hcut : l.clock - w ≤ now - w := sub_le_sub_right hnow w
  unfold RetryBudget.stats RetryBudget.trim window
  rw [h.windowS]
  exact ⟨h.requests.length_trim hcut h.upToRequests.sorted,
    h.retries.length_trim hcut h.upToRetries.sorted⟩

/-- The retries of a window, against the requests that the last grant knew of. -/
theorem Inv.window_retries_le (h : Inv p w l) {now g : ℚ} (hnow : l.clock ≤ now)
    (hg : g ∈ l.retries.getLast?) :
    (window w now l.retries : ℚ) ≤ max p 0 / 100 * window w g l.requests := by
  have hgl : g ≤ now := (h.upToRetries.le g (List.mem_of_getLast? hg)).trans hnow
  have hless : (window w now l.retries : ℚ) ≤ window w g l.retries := by
    exact_mod_cast window_anti (sub_le_sub_right hgl w) l.retries
  exact hless.trans (h.granted g hg)

/-- Without a grant there is nothing in the window. -/
theorem window_retries_eq_zero (hnone : l.retries.getLast? = none) (w now : ℚ) :
    window w now l.retries = 0 := by
  rw [List.getLast?_eq_none_iff.mp hnone]
  rfl

end Log

/-- A share that is kept is reported as no more than the percentage, rounded like it. -/
theorem RetryBudget.stats_fraction_le {b : RetryBudget} {now p : ℚ} (hp : 0 ≤ p)
    (h : ((b.stats now).1.retries : ℚ) ≤ p / 100 * (b.stats now).1.requests) :
    (b.stats now).1.retryFractionPct ≤ round2 p := by
  simp only [RetryBudget.stats] at h ⊢
  split
  · have hzero : round2 0 = 0 := by decide +kernel
    rw [← hzero]
    exact round2_mono hp
  · next hne =>
    have hpos : (0 : ℚ) < (b.trim now).requests.length := by
      exact_mod_cast Nat.pos_of_ne_zero hne
    apply round2_mono
    rw [div_le_iff₀ hpos]
    linarith

/-- **The reported fraction.**  After any calls, and at any time from the last one on, `stats`
counts the requests and the retries of the trailing window.  The retries are at most the
percentage of the requests recorded since the start of the window of the last grant, and so of
the requests of the last two windows; and where none of the former has left the window
since, the reported fraction is at most the percentage. -/
theorem stats_le (clock pct windowS : ℚ) {l : Log}
    (h : Reach Log.step (.init clock pct windowS) l) {now : ℚ} (hnow : l.clock ≤ now) :
    (l.budget.stats now).1.requests = Log.window windowS now l.requests ∧
    (l.budget.stats now).1.retries = Log.window windowS now l.retries ∧
    (∀ g ∈ l.retries.getLast?, ((l.budget.stats now).1.retries : ℚ) ≤
      max pct 0 / 100 * Log.window windowS g l.requests) ∧
    ((l.budget.stats now).1.retries : ℚ) ≤
      max pct 0 / 100 * Log.window (2 * windowS) now l.requests ∧
    ((∀ g ∈ l.retries.getLast?, ∀ t ∈ l.requests, g - windowS ≤ t → now - windowS ≤ t) →
      ((l.budget.stats now).1.retries : ℚ) ≤
        max pct 0 / 100 * (l.budget.stats now).1.requests ∧
      (l.budget.stats now).1.retryFractionPct ≤ round2 (max pct 0)) := by
  have hinv : Log.Inv pct windowS l :=
    h.invariant (Log.Inv.init clock pct windowS) fun _ _ _ hinv hs => hinv.step hs
  obtain ⟨hrequests, hretries⟩ := hinv.stats_eq hnow
  have hshare : 0 ≤ max pct 0 / 100 := Log.share_nonneg pct
  refine ⟨hrequests, hretries, ?_, ?_, ?_⟩
  · intro g hg
    rw [hretries]
    exact hinv.window_retries_le hnow hg
  · rw [hretries]
    by_cases hzero : Log.window windowS now l.retries = 0
    · rw [hzero]
      positivity
    · -- a retry of the window is not after the last one, whose window reaches one window further
      obtain ⟨r, hr, hcut⟩ := List.countP_pos_iff.mp (Nat.pos_of_ne_zero hzero)
      obtain ⟨g, hg⟩ : ∃ g, l.retries.getLast? = some g :=
        Option.ne_none_iff_exists'.mp fun hnone =>
          hzero (Log.window_retries_eq_zero hnone windowS now)
      have hrg : r ≤ g := hinv.le_last hg hr
      have hcut' : now - windowS ≤ r := of_decide_eq_true hcut
      have hmore : (Log.window windowS g l.requests : ℚ) ≤
          Log.window (2 * windowS) now l.requests := by
        exact_mod_cast Log.window_anti (by linarith) l.requests
      exact (hinv.window_retries_le hnow hg).trans (mul_le_mul_of_nonneg_left hmore hshare)
  · intro hstill
    have hle : ((l.budget.stats now).1.retries : ℚ) ≤
        max pct 0 / 100 * (l.budget.stats now).1.requests := by
      rw [hrequests, hretries]
      cases hlast : l.retries.getLast? with
      | none =>
        rw [Log.window_retries_eq_zero hlast]
        positivity
      | some g =>
        have hall : (Log.window windowS g l.requests : ℚ) ≤
            Log.window windowS now l.requests := by
          have : Log.window windowS g l.requests ≤ Log.window windowS now l.requests := by
            apply List.countP_mono_left
            intro t ht hgt
            exact decide_eq_true (hstill g hlast t ht (of_decide_eq_true hgt))
          exact_mod_cast this
        exact (hinv.window_retries_le hnow hlast).trans (mul_le_mul_of_nonneg_left hall hshare)
    exact ⟨hle, RetryBudget.stats_fraction_le (le_max_right pct 0) hle⟩

/-- Ten requests, and the one retry that they allow, in one window. -/
theorem stats_le_tenth : ∃ l, exec Log.step (.init 0 10 10)
    (List.replicate 10 (.recordRequest, 0) ++ [(.trySpend, 9)]) = some l ∧
      (l.budget.stats 9).1 = ⟨10, 1, 10⟩ ∧
      (l.budget.stats 9).1.retryFractionPct ≤ round2 (max 10 0) := by
  have hrun : ((exec Log.step (.init 0 10 10)
      (List.replicate 10 (.recordRequest, 0) ++ [(.trySpend, 9)])).map fun l =>
      (l.clock, l.requests, l.retries, (l.budget.stats 9).1)) =
      some (9, List.replicate 10 0, [9], ⟨10, 1, 10⟩) := by decide +kernel
  obtain ⟨l, hl, hobs⟩ := Option.map_eq_some_iff.mp hrun
  simp only [Prod.mk.injEq] at hobs
  obtain ⟨hclock, hrequests, hretries, hstats⟩ := hobs
  refine ⟨l, hl, hstats, ?_⟩
  have hbound := (stats_le 0 10 10 (.of_exec _ hl) (hclock.le : l.clock ≤ 9)).2.2.2.2
  apply (hbound _).2
  intro g hg t _ hgt
  rw [hretries] at hg
  obtain rfl : (9 : ℚ) = g := by simpa using hg
  exact hgt

/-- **A retry can outlive the requests that it was granted for**: ten of them at once, a retry
just before they leave the window, and one more request. -/
theorem not_stats_le : ¬ ∀ (clock pct windowS : ℚ) (l : Log),
    Reach Log.step (.init clock pct windowS) l → ∀ now, l.clock ≤ now →
      ((l.budget.stats now).1.retries : ℚ) ≤ pct / 100 * (l.budget.stats now).1.requests ∧
      (l.budget.stats now).1.retryFractionPct ≤ pct := by
  intro h
  have hrun : ((exec Log.step (.init 0 10 10) (List.replicate 10 (.recordRequest, 0) ++
      [(.trySpend, 9), (.recordRequest, 10)])).map fun l => (l.clock, (l.budget.stats 11).1)) =
      some (10, ⟨1, 1, 100⟩) := by decide +kernel
  obtain ⟨l, hl, hobs⟩ := Option.map_eq_some_iff.mp hrun
  simp only [Prod.mk.injEq] at hobs
  obtain ⟨hclock, hstats⟩ := hobs
  have hle := (h 0 10 10 l (.of_exec _ hl) 11 (by rw [hclock]; norm_num)).2
  rw [hstats] at hle
  norm_num at hle

end Resilience
end SepLab
