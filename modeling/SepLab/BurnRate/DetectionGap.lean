import Mathlib.Algebra.BigOperators.Ring.Finset
import Mathlib.Data.List.Find
import SepLab.BurnRate.Rules

/-!
# The window of the detection gap's burn rate

The topic on symptoms replays an incident second by second and asks when a burn-rate alert
becomes active.  The slice from which it takes the events of a window has one second more
than the window, once there are that many, and one second of healthy history is taken off.

## Main definitions

* `burn`, `burnRateAlert` — `detection_gap.py`.
* `exactBurn` — the burn rate of a window of seconds, with healthy history before the incident.
* `activeAt` — the first evaluation of a long enough run of evaluations that fire.

## Main results

* `burn_eq` — the second that is one too many.
* `alertLoop_eq_activeAt` — the loop finds the first long enough run.
* `burn_covers_window_iff` — **when the burn rate is that of its window**.
-/

namespace SepLab
namespace BurnRate

/-! ### The program -/

/-- `REQUESTS_PER_SECOND` -/
def requestsPerSecond : ℚ := 100

/-- `INCIDENT_SECONDS` -/
def incidentSeconds : ℕ := 40 * 60

/-- `BASELINE_SLOW_RATIO` -/
def baselineSlowRatio : ℚ := 1 / 10000

/-- `BASELINE_ERROR_RATIO` -/
def baselineErrorRatio : ℚ := 2 / 10000

/-- `ALERT_EVAL_INTERVAL` -/
def alertEvalInterval : ℕ := 30

/-- The counts of a second. -/
structure Row where
  slow : ℕ
  errors : ℕ
  total : ℕ
deriving DecidableEq

/-- The bad events of a second. -/
def Row.bad (includeLatency : Bool) (r : Row) : ℕ :=
  r.errors + if includeLatency then r.slow else 0

/-- The bad events of a healthy second. -/
def baseline (includeLatency : Bool) : ℚ :=
  requestsPerSecond * (baselineErrorRatio + if includeLatency then baselineSlowRatio else 0)

/-- `burn`, at the second `now`. -/
def burn (seconds : List Row) (includeLatency : Bool) (now window : ℕ) : ℚ :=
  let start := now - window
  let observed := (seconds.take (now + 1)).drop start
  let missing : ℤ := window - observed.length
  let bad : ℚ := (observed.map (Row.bad includeLatency)).sum + missing * baseline includeLatency
  let total := window * requestsPerSecond
  bad / total / (1 - target)

/-- The loop of `burn_rate_alert`, with `pending_since`. -/
def alertLoop (fires : ℕ → Bool) (forSeconds : ℤ) : List ℕ → Option ℕ → Option ℕ
  | [], _ => none
  | now :: rest, pendingSince =>
    if fires now then
      match pendingSince with
      | none => alertLoop fires forSeconds rest (some now)
      | some since =>
        if forSeconds ≤ (now : ℤ) - since then some since
        else alertLoop fires forSeconds rest (some since)
    else alertLoop fires forSeconds rest none

/-- The seconds at which the alert is evaluated. -/
def evaluations : List ℕ :=
  (List.range (incidentSeconds / alertEvalInterval)).map fun k => alertEvalInterval * k

/-- `burn_rate_alert` -/
def burnRateAlert (seconds : List Row) (includeLatency : Bool) (factor : ℚ) (forSeconds : ℤ) :
    Option ℕ :=
  alertLoop (fun now => decide (factor < burn seconds includeLatency now 3600) &&
    decide (factor < burn seconds includeLatency now 300)) forSeconds evaluations none

/-! ### What it is meant to compute -/

/-- The bad events of a second, before the incident those of a healthy one. -/
def badAt (seconds : List Row) (includeLatency : Bool) (second : ℤ) : ℚ :=
  if second < 0 then baseline includeLatency
  else ((seconds[second.toNat]?).map fun r => (r.bad includeLatency : ℚ)).getD 0

/-- The burn rate of the seconds `now - window + 1` to `now`. -/
def exactBurn (seconds : List Row) (includeLatency : Bool) (now window : ℕ) : ℚ :=
  ((List.range window).map fun k : ℕ => badAt seconds includeLatency (now - k)).sum /
    (window * requestsPerSecond) / (1 - target)

/-- What one second more of `bad` events adds to the burn rate, and a healthy one less. -/
def surplus (includeLatency : Bool) (bad : ℚ) (window : ℕ) : ℚ :=
  (bad - baseline includeLatency) / (window * requestsPerSecond) / (1 - target)

/-- From `since` on the evaluations fire, for at least `forSeconds`. -/
def longRun (fires : ℕ → Bool) (forSeconds : ℤ) (evals : List ℕ) (since : ℕ) : Bool :=
  evals.any fun last => decide (since + forSeconds ≤ (last : ℤ)) &&
    evals.all fun now => !(decide (since ≤ now) && decide (now ≤ last)) || fires now

/-- The first evaluation of such a run. -/
def activeAt (fires : ℕ → Bool) (forSeconds : ℤ) (evals : List ℕ) : Option ℕ :=
  evals.find? (longRun fires forSeconds evals)

/-- Whether both exact burn rates exceed the factor. -/
def exactFires (seconds : List Row) (includeLatency : Bool) (factor : ℚ) (now : ℕ) : Bool :=
  decide (factor < exactBurn seconds includeLatency now 3600) &&
    decide (factor < exactBurn seconds includeLatency now 300)

/-- Where the long window fires, the second before the short one does not tip it over the factor,
nor keep it under. -/
def Untipped (seconds : List Row) (includeLatency : Bool) (factor : ℚ) (now : ℕ) : Prop :=
  300 ≤ now → factor < exactBurn seconds includeLatency now 3600 →
    (factor < exactBurn seconds includeLatency now 300 +
        surplus includeLatency (badAt seconds includeLatency (now - 300)) 300 ↔
      factor < exactBurn seconds includeLatency now 300)

/-! ### The burn rate -/

section
variable {seconds : List Row} {includeLatency : Bool} {now window : ℕ}

/-- The exact sum, as far as the incident reaches. -/
theorem sum_badAt (hnow : now < seconds.length) {n : ℕ} (hn : n ≤ now + 1) :
    ((List.range n).map fun k : ℕ => badAt seconds includeLatency (now - k)).sum =
      trailing (seconds.map fun r => (r.bad includeLatency : ℚ)) (now + 1) n := by
  rw [trailing_eq_sum_range (by rwa [List.length_map]) hn]
  congr 1
  apply List.map_congr_left
  intro k hk
  have hlt := List.mem_range.mp hk
  have hpos : ¬(now : ℤ) - k < 0 := by omega
  have hplace : ((now : ℤ) - k).toNat = now + 1 - 1 - k := by omega
  rw [badAt, if_neg hpos, hplace, List.getElem?_map]

/-- Before it all seconds are healthy. -/
theorem sum_badAt_add (m : ℕ) :
    ((List.range (now + 1 + m)).map fun k : ℕ => badAt seconds includeLatency (now - k)).sum =
      ((List.range (now + 1)).map fun k : ℕ => badAt seconds includeLatency (now - k)).sum +
        m * baseline includeLatency := by
  rw [List.range_add, List.map_append, List.sum_append, List.map_map]
  congr 1
  have hhealthy : ∀ k ∈ List.range m,
      ((fun k : ℕ => badAt seconds includeLatency (now - k)) ∘ (now + 1 + ·)) k =
        baseline includeLatency := by
    intro k _
    simp only [Function.comp_apply, badAt]
    rw [if_pos (by push_cast; omega)]
  rw [List.map_congr_left hhealthy, List.map_const', List.sum_replicate, List.length_range,
    nsmul_eq_mul]

/-- **The second that is one too many.** -/
theorem burn_eq (hnow : now < seconds.length) :
    burn seconds includeLatency now window = exactBurn seconds includeLatency now window +
      if now < window then 0
      else surplus includeLatency (badAt seconds includeLatency (now - window)) window := by
  have hobserved : (((seconds.take (now + 1)).drop (now - window)).map
        (Row.bad includeLatency)).sum =
      trailing (seconds.map fun r => (r.bad includeLatency : ℚ)) (now + 1) (window + 1) := by
    rw [trailing, Nat.succ_sub_succ, ← List.map_take, ← List.map_drop, Nat.cast_list_sum,
      List.map_map]
    rfl
  have hlength : ((seconds.take (now + 1)).drop (now - window)).length =
      now + 1 - (now - window) := by
    rw [List.length_drop, List.length_take, Nat.min_eq_left hnow]
  unfold burn
  simp only [hobserved, hlength]
  by_cases hlt : now < window
  · -- the incident is younger than the window
    obtain ⟨m, rfl⟩ : ∃ m, window = now + 1 + m := ⟨window - (now + 1), by omega⟩
    have hall : trailing (seconds.map fun r => (r.bad includeLatency : ℚ)) (now + 1)
          (now + 1 + m + 1) =
        trailing (seconds.map fun r => (r.bad includeLatency : ℚ)) (now + 1) (now + 1) := by
      unfold trailing
      rw [Nat.sub_self, Nat.sub_eq_zero_of_le (by omega)]
    have hmissing : ((now + 1 + m : ℕ) : ℤ) - (now + 1 - (now - (now + 1 + m)) : ℕ) = m := by
      omega
    rw [if_pos hlt, add_zero, exactBurn, sum_badAt_add, sum_badAt hnow le_rfl, hall, hmissing]
    norm_cast
  · have hmissing : ((window : ℕ) : ℤ) - (now + 1 - (now - window) : ℕ) = -1 := by omega
    have hsum : ((List.range (window + 1)).map fun k : ℕ =>
          badAt seconds includeLatency (now - k)).sum = _ := sum_badAt hnow (by omega)
    rw [List.range_succ, List.map_append, List.sum_append, List.map_singleton,
      List.sum_singleton] at hsum
    rw [if_neg hlt, exactBurn, surplus, hmissing, ← hsum, ← add_div, ← add_div]
    push_cast
    ring

/-- The counts of a second are never those of a healthy one. -/
theorem baseline_ne (n : ℕ) : (n : ℚ) ≠ baseline includeLatency := by
  intro h
  have hcents : (n * 100 : ℚ) = ((if includeLatency then 3 else 2 : ℕ) : ℚ) := by
    rw [h]
    cases includeLatency <;>
      norm_num [baseline, requestsPerSecond, baselineErrorRatio, baselineSlowRatio]
  have hnat : n * 100 = if includeLatency then 3 else 2 := by exact_mod_cast hcents
  split at hnat <;> omega

theorem surplus_ne_zero (hnow : now < seconds.length) (hwindow : 1 ≤ window)
    (hle : window ≤ now) :
    surplus includeLatency (badAt seconds includeLatency (now - window)) window ≠ 0 := by
  have hplace : ((now : ℤ) - window).toNat = now - window := by omega
  have hget : seconds[now - window]? = some seconds[now - window] :=
    List.getElem?_eq_getElem (by omega)
  have hbad : badAt seconds includeLatency (now - window) =
      (seconds[now - window].bad includeLatency : ℚ) := by
    rw [badAt, if_neg (by omega), hplace, hget]
    rfl
  have hdiff : (seconds[now - window].bad includeLatency : ℚ) - baseline includeLatency ≠ 0 :=
    sub_ne_zero.mpr (baseline_ne _)
  have hpos : (window : ℚ) ≠ 0 := by exact_mod_cast Nat.ne_of_gt hwindow
  rw [surplus, hbad]
  refine div_ne_zero (div_ne_zero hdiff (mul_ne_zero hpos ?_)) ?_
  · norm_num [requestsPerSecond]
  · norm_num [target]

/-- The burn rate is that of its window just while the window is not full. -/
theorem burn_eq_exactBurn_iff (hnow : now < seconds.length) (hwindow : 1 ≤ window) :
    burn seconds includeLatency now window = exactBurn seconds includeLatency now window ↔
      now < window := by
  rw [burn_eq hnow]
  by_cases hlt : now < window
  · rw [if_pos hlt, add_zero]
    exact iff_of_true rfl hlt
  · rw [if_neg hlt, add_eq_left]
    exact iff_of_false (surplus_ne_zero hnow hwindow (not_lt.mp hlt)) hlt

end

/-! ### The alert -/

section
variable {fires : ℕ → Bool} {forSeconds : ℤ} {now since : ℕ} {evals : List ℕ}

theorem longRun_iff : longRun fires forSeconds evals since = true ↔
    ∃ last ∈ evals, since + forSeconds ≤ (last : ℤ) ∧
      ∀ t ∈ evals, since ≤ t → t ≤ last → fires t = true := by
  simp only [longRun, List.any_eq_true, Bool.and_eq_true, decide_eq_true_iff, List.all_eq_true,
    Bool.or_eq_true, Bool.not_eq_true', Bool.and_eq_false_iff, decide_eq_false_iff_not]
  refine exists_congr fun last => and_congr_right fun _ => and_congr_right fun _ => ?_
  refine forall_congr' fun t => imp_congr_right fun _ => ?_
  tauto

/-- From now on all evaluations fire, up to one `forSeconds` after `since`. -/
def carriesOn (fires : ℕ → Bool) (forSeconds : ℤ) (evals : List ℕ) (since : ℕ) : Bool :=
  evals.any fun last => decide (since + forSeconds ≤ (last : ℤ)) &&
    evals.all fun now => !decide (now ≤ last) || fires now

theorem carriesOn_iff : carriesOn fires forSeconds evals since = true ↔
    ∃ last ∈ evals, since + forSeconds ≤ (last : ℤ) ∧ ∀ t ∈ evals, t ≤ last → fires t = true := by
  simp only [carriesOn, List.any_eq_true, Bool.and_eq_true, decide_eq_true_iff, List.all_eq_true,
    Bool.or_eq_true, Bool.not_eq_true', decide_eq_false_iff_not]
  refine exists_congr fun last => and_congr_right fun _ => and_congr_right fun _ => ?_
  exact forall_congr' fun t => imp_congr_right fun _ => or_iff_not_imp_left.trans (by rw [not_not])

/-- An earlier evaluation is no part of a run. -/
theorem longRun_cons_of_lt (hfor : 0 < forSeconds) (hlt : now < since) :
    longRun fires forSeconds (now :: evals) since = longRun fires forSeconds evals since := by
  rw [Bool.eq_iff_iff, longRun_iff, longRun_iff]
  constructor
  · rintro ⟨last, hlast, hlong, hall⟩
    rcases List.mem_cons.mp hlast with rfl | hlast
    · omega
    · exact ⟨last, hlast, hlong, fun t ht => hall t (List.mem_cons_of_mem _ ht)⟩
  · rintro ⟨last, hlast, hlong, hall⟩
    refine ⟨last, List.mem_cons_of_mem _ hlast, hlong, fun t ht hge hle => ?_⟩
    rcases List.mem_cons.mp ht with rfl | ht
    · omega
    · exact hall t ht hge hle

/-- A run starts at an evaluation that fires, and the next ones carry it on. -/
theorem longRun_cons_self (hfor : 0 < forSeconds) (hlt : ∀ t ∈ evals, now < t) :
    longRun fires forSeconds (now :: evals) now =
      (fires now && carriesOn fires forSeconds evals now) := by
  rw [Bool.eq_iff_iff, longRun_iff, Bool.and_eq_true, carriesOn_iff]
  constructor
  · rintro ⟨last, hlast, hlong, hall⟩
    rcases List.mem_cons.mp hlast with rfl | hlast
    · omega
    · have hfirst := hall now List.mem_cons_self le_rfl (hlt last hlast).le
      exact ⟨hfirst, last, hlast, hlong,
        fun t ht => hall t (List.mem_cons_of_mem _ ht) (hlt t ht).le⟩
  · rintro ⟨hfirst, last, hlast, hlong, hall⟩
    refine ⟨last, List.mem_cons_of_mem _ hlast, hlong, fun t ht _ hle => ?_⟩
    rcases List.mem_cons.mp ht with rfl | ht
    · exact hfirst
    · exact hall t ht hle

/-- A run is carried on by an evaluation that fires, and either is long enough there or is carried
on by the next ones. -/
theorem carriesOn_cons (hlt : ∀ t ∈ evals, now < t) :
    carriesOn fires forSeconds (now :: evals) since =
      (fires now && (decide (since + forSeconds ≤ (now : ℤ)) ||
        carriesOn fires forSeconds evals since)) := by
  rw [Bool.eq_iff_iff, carriesOn_iff, Bool.and_eq_true, Bool.or_eq_true, decide_eq_true_iff,
    carriesOn_iff]
  constructor
  · rintro ⟨last, hlast, hlong, hall⟩
    rcases List.mem_cons.mp hlast with rfl | hlast
    -- the run is this evaluation alone
    · exact ⟨hall _ List.mem_cons_self le_rfl, Or.inl hlong⟩
    -- or it goes on to a later one, and then through the next
    · exact ⟨hall now List.mem_cons_self (hlt last hlast).le,
        Or.inr ⟨last, hlast, hlong, fun t ht => hall t (List.mem_cons_of_mem _ ht)⟩⟩
  · rintro ⟨hfirst, hlong | ⟨last, hlast, hlong, hall⟩⟩
    · refine ⟨now, List.mem_cons_self, hlong, fun t ht hle => ?_⟩
      rcases List.mem_cons.mp ht with rfl | ht
      · exact hfirst
      -- later evaluations are later in time
      · exact absurd (hlt t ht) (not_lt.mpr hle)
    · refine ⟨last, List.mem_cons_of_mem _ hlast, hlong, fun t ht hle => ?_⟩
      rcases List.mem_cons.mp ht with rfl | ht
      · exact hfirst
      · exact hall t ht hle

/-- What carries an older run on carries a younger one on as well, if it does so long enough. -/
theorem carriesOn_mono (hle : since ≤ now) (h : carriesOn fires forSeconds evals now = true) :
    carriesOn fires forSeconds evals since = true := by
  obtain ⟨last, hlast, hlong, hall⟩ := carriesOn_iff.mp h
  exact carriesOn_iff.mpr ⟨last, hlast, by omega, hall⟩

/-- The first long run starts at the first evaluation or is that of the later ones. -/
theorem activeAt_cons (hfor : 0 < forSeconds) (hlt : ∀ t ∈ evals, now < t) :
    activeAt fires forSeconds (now :: evals) =
      if fires now && carriesOn fires forSeconds evals now then some now
      else activeAt fires forSeconds evals := by
  have hrest : evals.find? (longRun fires forSeconds (now :: evals)) =
      activeAt fires forSeconds evals :=
    List.find?_congr fun t ht => longRun_cons_of_lt hfor (hlt t ht)
  rw [activeAt, List.find?_cons, longRun_cons_self hfor hlt, hrest]
  cases fires now && carriesOn fires forSeconds evals now <;> rfl

/-- The loop with a pending run, and without. -/
theorem alertLoop_eq (hfor : 0 < forSeconds) (hsorted : evals.Pairwise (· < ·)) :
    alertLoop fires forSeconds evals none = activeAt fires forSeconds evals ∧
      ∀ since, (∀ t ∈ evals, since < t) → alertLoop fires forSeconds evals (some since) =
        if carriesOn fires forSeconds evals since then some since
        else activeAt fires forSeconds evals := by
  induction evals with
  | nil => exact ⟨rfl, fun _ _ => rfl⟩
  | cons now rest ih =>
    obtain ⟨hlt, hrest⟩ := List.pairwise_cons.mp hsorted
    obtain ⟨hnone, hsome⟩ := ih hrest
    refine ⟨?_, fun since hsince => ?_⟩
    · rw [activeAt_cons hfor hlt]
      cases hf : fires now with
      | false =>
        rw [alertLoop, hf, hnone]
        rfl
      | true =>
        rw [alertLoop, hf]
        exact hsome now hlt
    · rw [carriesOn_cons hlt, activeAt_cons hfor hlt]
      cases hf : fires now with
      | false =>
        rw [alertLoop, hf, hnone]
        rfl
      | true =>
        have hstart : since < now := hsince now List.mem_cons_self
        by_cases hlong : forSeconds ≤ (now : ℤ) - since
        · rw [alertLoop, hf]
          simp [hlong, show (since : ℤ) + forSeconds ≤ now by omega]
        · have hshort : ¬(since : ℤ) + forSeconds ≤ now := by omega
          rw [alertLoop, hf]
          simp only [if_true, hlong, if_false, hshort, decide_false, Bool.true_and, Bool.false_or]
          rw [hsome since fun t ht => hstart.trans (hlt t ht)]
          by_cases hcarry : carriesOn fires forSeconds rest since = true
          · rw [if_pos hcarry, if_pos hcarry]
          · -- no run starts here either, for it would carry the pending one on
            have hno : ¬carriesOn fires forSeconds rest now = true :=
              fun h => hcarry (carriesOn_mono hstart.le h)
            rw [if_neg hcarry, if_neg hcarry, if_neg hno]

/-- **The loop finds the first long enough run.** -/
theorem alertLoop_eq_activeAt (hfor : 0 < forSeconds) (hsorted : evals.Pairwise (· < ·)) :
    alertLoop fires forSeconds evals none = activeAt fires forSeconds evals :=
  (alertLoop_eq hfor hsorted).1

/-- The loop looks at the evaluations only. -/
theorem alertLoop_congr {fires' : ℕ → Bool} (h : ∀ t ∈ evals, fires t = fires' t)
    (pendingSince : Option ℕ) : alertLoop fires forSeconds evals pendingSince =
      alertLoop fires' forSeconds evals pendingSince := by
  induction evals generalizing pendingSince with
  | nil => rfl
  | cons now rest ih =>
    have hrest : ∀ t ∈ rest, fires t = fires' t := fun t ht => h t (List.mem_cons_of_mem _ ht)
    simp only [alertLoop, h now List.mem_cons_self, ih hrest]

end

/-! ### The alert of the topic -/

theorem evaluations_sorted : evaluations.Pairwise (· < ·) := by
  refine List.Pairwise.map _ (fun a b hlt => ?_) List.pairwise_lt_range
  exact Nat.mul_lt_mul_of_pos_left hlt (by decide)

theorem lt_of_mem_evaluations {now : ℕ} (h : now ∈ evaluations) : now < incidentSeconds := by
  obtain ⟨k, hk, rfl⟩ := List.mem_map.mp h
  have hlt := List.mem_range.mp hk
  have hnum : incidentSeconds / alertEvalInterval = 80 := rfl
  have hall : incidentSeconds = alertEvalInterval * 80 := rfl
  rw [hall]
  exact Nat.mul_lt_mul_of_pos_left (hnum ▸ hlt) (by decide)

section
variable {seconds : List Row} {includeLatency : Bool} {factor : ℚ} {now : ℕ}

/-- An evaluation that is not tipped fires as it should: the long window is never full. -/
theorem fires_eq_exactFires (hlength : incidentSeconds ≤ seconds.length)
    (hnow : now < incidentSeconds) (huntipped : Untipped seconds includeLatency factor now) :
    (decide (factor < burn seconds includeLatency now 3600) &&
      decide (factor < burn seconds includeLatency now 300)) =
      exactFires seconds includeLatency factor now := by
  have hlt : now < seconds.length := hnow.trans_le hlength
  have hlong : now < 3600 := hnow.trans (by decide)
  have hexact : burn seconds includeLatency now 3600 = exactBurn seconds includeLatency now 3600 :=
    (burn_eq_exactBurn_iff hlt (by decide : 1 ≤ 3600)).mpr hlong
  rw [exactFires, hexact]
  by_cases hfire : factor < exactBurn seconds includeLatency now 3600
  · by_cases hfull : now < 300
    · rw [burn_eq hlt, if_pos hfull, add_zero]
    · have hiff := huntipped (not_lt.mp hfull) hfire
      rw [burn_eq hlt, if_neg hfull]
      simp only [hfire, decide_true, Bool.true_and]
      exact decide_eq_decide.mpr hiff
  · simp only [hfire, decide_false, Bool.false_and]

end

/-- **The burn rate is that of its window just while the window is not full**, and the alert is
active at the first long enough run of the exact burn rates where no evaluation is tipped. -/
theorem burn_covers_window_iff (seconds : List Row) (includeLatency : Bool) :
    (∀ now window, now < seconds.length → 1 ≤ window →
      (burn seconds includeLatency now window = exactBurn seconds includeLatency now window ↔
        now < window)) ∧
    ∀ factor forSeconds, incidentSeconds ≤ seconds.length → 0 < forSeconds →
      (∀ now ∈ evaluations, Untipped seconds includeLatency factor now) →
      burnRateAlert seconds includeLatency factor forSeconds =
        activeAt (exactFires seconds includeLatency factor) forSeconds evaluations := by
  refine ⟨fun now window => burn_eq_exactBurn_iff, fun factor forSeconds hlength hfor h => ?_⟩
  rw [burnRateAlert, ← alertLoop_eq_activeAt hfor evaluations_sorted]
  refine alertLoop_congr (fun t ht => ?_) none
  exact fires_eq_exactFires hlength (lt_of_mem_evaluations ht) (h t ht)

/-- In equal seconds the burn rate of a window is that of one of them. -/
theorem exactBurn_replicate {n now window : ℕ} {r : Row} {includeLatency : Bool}
    (hnow : now < n) (hwindow : 1 ≤ window) (hle : window ≤ now + 1) :
    exactBurn (List.replicate n r) includeLatency now window =
      r.bad includeLatency / requestsPerSecond / (1 - target) := by
  have hall : ∀ k ∈ List.range window,
      badAt (List.replicate n r) includeLatency (now - k) = (r.bad includeLatency : ℚ) := by
    intro k hk
    have hlt := List.mem_range.mp hk
    have hplace : ((now : ℤ) - k).toNat = now - k := by omega
    have hget : (List.replicate n r)[now - k]? = some r :=
      List.getElem?_replicate_of_lt (by omega)
    rw [badAt, if_neg (by omega), hplace, hget]
    rfl
  have hpos : (window : ℚ) ≠ 0 := by exact_mod_cast Nat.ne_of_gt hwindow
  rw [exactBurn, List.map_congr_left hall, List.map_const', List.sum_replicate,
    List.length_range, nsmul_eq_mul, mul_div_mul_left _ _ hpos]

theorem burn_covers_window_iff_outage :
    burn (List.replicate 2400 ⟨0, 100, 100⟩) false 299 300 =
        exactBurn (List.replicate 2400 ⟨0, 100, 100⟩) false 299 300 ∧
      burnRateAlert (List.replicate 2400 ⟨0, 100, 100⟩) false 14.4 120 =
        activeAt (exactFires (List.replicate 2400 ⟨0, 100, 100⟩) false 14.4) 120 evaluations := by
  have hlength : (List.replicate 2400 (⟨0, 100, 100⟩ : Row)).length = 2400 :=
    List.length_replicate
  have h := burn_covers_window_iff (List.replicate 2400 ⟨0, 100, 100⟩) false
  refine ⟨(h.1 299 300 (by rw [hlength]; decide) (by decide)).mpr (by decide),
    h.2 14.4 120 hlength.ge (by decide) fun now hmem hfull _ => ?_⟩
  -- the second before the window is as bad as those in it
  have hlt : now < 2400 := lt_of_mem_evaluations hmem
  have hburn : exactBurn (List.replicate 2400 ⟨0, 100, 100⟩) false now 300 =
      ((⟨0, 100, 100⟩ : Row).bad false : ℚ) / requestsPerSecond / (1 - target) :=
    exactBurn_replicate hlt (by decide) (by omega)
  have hbefore : badAt (List.replicate 2400 ⟨0, 100, 100⟩) false (now - 300) = 100 := by
    have hplace : ((now : ℤ) - 300).toNat = now - 300 := by omega
    have hget : (List.replicate 2400 (⟨0, 100, 100⟩ : Row))[now - 300]? = some ⟨0, 100, 100⟩ :=
      List.getElem?_replicate_of_lt (by omega)
    rw [badAt, if_neg (by omega), hplace, hget]
    rfl
  rw [hburn, hbefore]
  norm_num [Row.bad, surplus, baseline, requestsPerSecond, baselineErrorRatio, target]

/-- After 300 seconds without a bad event one healthy second too many is taken off. -/
theorem not_burn_covers_window : ¬∀ (seconds : List Row) (includeLatency : Bool)
    (now window : ℕ), (∀ r ∈ seconds, (r.total : ℚ) = requestsPerSecond) →
      now < seconds.length → 1 ≤ window →
      burn seconds includeLatency now window = exactBurn seconds includeLatency now window := by
  intro h
  have hlength : (List.replicate 2400 (⟨0, 0, 100⟩ : Row)).length = 2400 :=
    List.length_replicate
  have hnow : 300 < (List.replicate 2400 (⟨0, 0, 100⟩ : Row)).length := by
    rw [hlength]
    decide
  have hall : ∀ r ∈ List.replicate 2400 (⟨0, 0, 100⟩ : Row), (r.total : ℚ) = requestsPerSecond := by
    intro r hr
    rw [List.eq_of_mem_replicate hr]
    rfl
  have heq := h _ true 300 300 hall hnow (by decide)
  exact absurd ((burn_eq_exactBurn_iff hnow (by decide)).mp heq) (by decide)

end BurnRate
end SepLab
