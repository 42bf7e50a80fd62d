import Mathlib.Algebra.Order.Field.Rat
import Mathlib.Data.Rat.Cast.Order
import Mathlib.Tactic.NormNum
import Mathlib.Tactic.Ring
import SepLab.Lib.TrailingSum

/-!
# Burn-rate rules over sums from the start and over a running sum

The error-budget topic computes a burn rate from sums from the start, and the topic on symptoms
from a running sum; both then ask whether a long and a short window exceed a factor.  Numbers
are exact here.

## Main definitions

* `burnRate`, `evaluate` — the error-budget topic, `burn_rate.py`.
* `burnRateSeries`, `symptomRules` — the topic on symptoms, `page_worthiness.py`.
* `rules` — the table of windows and factors that they share.

## Main results

* `burnRateSeries_eq` — the running sum is that of the trailing window.
* `evaluate_eq` — the error-budget topic's rules on a series that is long enough.
* `rules_agree` — **both topics compute the same burn rates and fire at the same minutes**.
-/

namespace SepLab
namespace BurnRate

/-- `REQUESTS_PER_MINUTE` -/
def requestsPerMinute : ℚ := 6000

/-- `TARGET` -/
def target : ℚ := 999 / 1000

/-- `SIM_MINUTES` -/
def simMinutes : ℕ := 6 * 24 * 60

/-- A row of the table; `action` is used by the first topic only. -/
structure Rule where
  longLabel : String
  longWin : ℕ
  shortLabel : String
  shortWin : ℕ
  factor : ℚ
  action : String
deriving DecidableEq

/-- `RULES`, and the list in `symptom_rules`. -/
def rules : List Rule :=
  [⟨"1h", 60, "5m", 5, 72 / 5, "page"⟩, ⟨"6h", 360, "30m", 30, 6, "page"⟩,
    ⟨"3d", 4320, "6h", 360, 1, "ticket"⟩]

/-- The burn rate of so many bad events in so many minutes. -/
def rate (bad : ℚ) (minutes : ℕ) : ℚ := bad / (minutes * requestsPerMinute) / (1 - target)

/-! ### Sums from the start -/

/-- `burn_rate`; `none` is the `IndexError`. -/
def burnRate (sums : List ℚ) (minute window : ℕ) : Option ℚ :=
  let start : ℤ := minute - window + 1
  if start < 0 then some 0
  else
    match sums[minute + 1]?, sums[start.toNat]? with
    | some last, some first => some (rate (last - first) window)
    | _, _ => none

/-- The test of one minute in `evaluate`. -/
def firesAt (sums : List ℚ) (useShortWindow : Bool) (r : Rule) (minute : ℕ) : Option Bool :=
  (burnRate sums minute r.longWin).bind fun longBurn =>
    if longBurn ≤ r.factor then some false
    else if useShortWindow then
      (burnRate sums minute r.shortWin).map fun shortBurn => !decide (shortBurn ≤ r.factor)
    else some true

/-- The minutes that pass a test that may raise. -/
def passing (test : ℕ → Option Bool) : List ℕ → Option (List ℕ)
  | [] => some []
  | m :: ms =>
    (test m).bind fun b => (passing test ms).map fun minutes => if b then m :: minutes else minutes

/-- `evaluate`, whose dictionary has the names of the rules for keys. -/
def evaluate (sums : List ℚ) (useShortWindow : Bool) : Option (List (Rule × List ℕ)) :=
  rules.mapM fun r =>
    (passing (firesAt sums useShortWindow r)
      (List.range' r.longWin (simMinutes - r.longWin))).map fun minutes => (r, minutes)

/-! ### A running sum -/

/-- One turn of the loop of `burn_rate_series`, with the list and the sum so far. -/
def seriesStep (bads : List ℚ) (window : ℕ) (s : List ℚ × ℚ) (e : ℚ × ℕ) : List ℚ × ℚ :=
  let added := s.2 + e.1
  let running := if window ≤ e.2 then added - (bads[e.2 - window]?).getD 0 else added
  (s.1 ++ [rate running (min (e.2 + 1) window)], running)

/-- `burn_rate_series` -/
def burnRateSeries (bads : List ℚ) (window : ℕ) : List ℚ :=
  (bads.zipIdx.foldl (seriesStep bads window) ([], 0)).1

/-- The signals of a minute that `symptom_rules` reads. -/
structure Minute where
  errorRatio : ℚ
  slowRatio : ℚ
deriving DecidableEq

/-- The bad events of a minute: requests that failed or were slow. -/
def Minute.bad (s : Minute) : ℚ := (s.errorRatio + s.slowRatio) * requestsPerMinute

/-- `sustained`, with the streak so far and the minute. -/
def sustainedFrom (forMinutes : ℤ) : List Bool → ℤ → ℕ → List ℕ
  | [], _, _ => []
  | holds :: rest, streak, minute =>
    let streak := if holds then streak + 1 else 0
    if forMinutes ≤ streak then minute :: sustainedFrom forMinutes rest streak (minute + 1)
    else sustainedFrom forMinutes rest streak (minute + 1)

/-- `sustained` -/
def sustained (conditionByMinute : List Bool) (forMinutes : ℤ) : List ℕ :=
  sustainedFrom forMinutes conditionByMinute 0 0

/-- The minutes at which a burn-rate rule of `symptom_rules` fires. -/
def firing (bads : List ℚ) (r : Rule) : List ℕ :=
  let longSeries := burnRateSeries bads r.longWin
  let shortSeries := burnRateSeries bads r.shortWin
  (List.range bads.length).filter fun m =>
    decide (r.factor < (longSeries[m]?).getD 0) && decide (r.factor < (shortSeries[m]?).getD 0)

/-- `symptom_rules`: the burn-rate rules, and the rule on availability. -/
def symptomRules (states : List Minute) : List (Rule × List ℕ) × List ℕ :=
  let bads := states.map Minute.bad
  (rules.map fun r => (r, firing bads r),
    sustained (states.map fun s => decide (1 / 100 < s.errorRatio)) 5)

/-! ### The series of a running sum -/

/-- The loop after the first `n` minutes. -/
theorem foldl_seriesStep (bads : List ℚ) {window : ℕ} {n : ℕ} (hn : n ≤ bads.length) :
    (bads.zipIdx.take n).foldl (seriesStep bads window) ([], 0) =
      ((List.range n).map fun m => rate (trailing bads (m + 1) window) (min (m + 1) window),
        trailing bads n window) := by
  induction n with
  | zero => simp
  | succ n ih =>
    have hlt : n < bads.length := hn
    have hget : bads[n]? = some bads[n] := List.getElem?_eq_getElem hlt
    have hentry : bads.zipIdx[n]? = some (bads[n], n) := by
      simp [List.getElem?_zipIdx, hget]
    rw [List.take_add_one, hentry, Option.toList_some, List.foldl_append, ih hlt.le,
      List.foldl_cons, List.foldl_nil, List.range_succ, List.map_append, List.map_singleton,
      trailing_succ hget]
    -- the source subtracts under an `if`, the trailing sum subtracts an `if`
    have hrunning : (if window ≤ n then
          trailing bads n window + bads[n] - (bads[n - window]?).getD 0
        else trailing bads n window + bads[n]) =
        trailing bads n window + bads[n] -
          if window ≤ n then (bads[n - window]?).getD 0 else 0 := by
      split
      · rfl
      · exact (sub_zero _).symm
    simp only [seriesStep, hrunning]

/-- **The running sum is that of the trailing window**, divided by as much of the window as
there is. -/
theorem burnRateSeries_eq (bads : List ℚ) (window : ℕ) :
    burnRateSeries bads window =
      (List.range bads.length).map fun m =>
        rate (trailing bads (m + 1) window) (min (m + 1) window) := by
  have hall : bads.zipIdx.take bads.length = bads.zipIdx :=
    List.take_of_length_le (by rw [List.length_zipIdx])
  rw [burnRateSeries, ← hall, foldl_seriesStep bads le_rfl]

theorem getElem?_burnRateSeries (bads : List ℚ) (window : ℕ) {m : ℕ} (hm : m < bads.length) :
    (burnRateSeries bads window)[m]? =
      some (rate (trailing bads (m + 1) window) (min (m + 1) window)) := by
  rw [burnRateSeries_eq, List.getElem?_map, List.getElem?_range hm]
  rfl

/-! ### The rules on sums from the start -/

/-- Sums from the start have the same burn rate, once the window is full. -/
theorem burnRate_prefixSums (bads : List ℚ) {window m : ℕ} (hwindow : window ≤ m + 1)
    (hm : m < bads.length) :
    burnRate (prefixSums bads) m window = some (rate (trailing bads (m + 1) window) window) := by
  have hstart : ¬((m : ℤ) - window + 1 < 0) := by omega
  have hfirst : ((m : ℤ) - window + 1).toNat = m + 1 - window := by omega
  have hle : m + 1 - window ≤ bads.length := by omega
  unfold burnRate
  simp only [hstart, if_false, hfirst, getElem?_prefixSums, Nat.succ_le_of_lt hm, hle, if_true]
  rw [trailing_eq_sub]

/-- Full windows fire if the burn rates of both exceed the factor. -/
theorem mem_firing_iff (bads : List ℚ) {r : Rule} (hshort : r.shortWin ≤ r.longWin) {m : ℕ}
    (hm : r.longWin ≤ m) (hlt : m < bads.length) :
    m ∈ firing bads r ↔
      r.factor < rate (trailing bads (m + 1) r.longWin) r.longWin ∧
        r.factor < rate (trailing bads (m + 1) r.shortWin) r.shortWin := by
  have hlong : min (m + 1) r.longWin = r.longWin := by omega
  have hshort' : min (m + 1) r.shortWin = r.shortWin := by omega
  simp [firing, getElem?_burnRateSeries bads _ hlt, hlong, hshort', hlt]

/-- A full window fires on the one side just if it does on the other. -/
theorem firesAt_prefixSums (bads : List ℚ) {r : Rule} (hshort : r.shortWin ≤ r.longWin) {m : ℕ}
    (hm : r.longWin ≤ m) (hlt : m < bads.length) :
    firesAt (prefixSums bads) true r m = some (decide (m ∈ firing bads r)) := by
  have hfiring := mem_firing_iff bads hshort hm hlt
  unfold firesAt
  rw [burnRate_prefixSums bads (by omega) hlt, burnRate_prefixSums bads (by omega) hlt,
    Option.bind_some]
  by_cases hle : rate (trailing bads (m + 1) r.longWin) r.longWin ≤ r.factor
  · rw [if_pos hle, Option.some_inj, eq_comm, decide_eq_false_iff_not, hfiring]
    exact fun h => absurd h.1 (not_lt.mpr hle)
  · rw [if_neg hle, if_pos rfl, Option.map_some, Option.some_inj]
    simp [hfiring, not_le.mp hle, ← not_lt]

theorem passing_eq {test : ℕ → Option Bool} {p : ℕ → Bool} {ms : List ℕ}
    (h : ∀ m ∈ ms, test m = some (p m)) : passing test ms = some (ms.filter p) := by
  induction ms with
  | nil => rfl
  | cons m ms ih =>
    unfold passing
    rw [h m List.mem_cons_self, ih fun m' hm' => h m' (List.mem_cons_of_mem _ hm'),
      Option.bind_some, Option.map_some, List.filter_cons]

/-- The short windows of the table are no longer than the long ones, and those leave minutes to
evaluate. -/
theorem windows_of_mem {r : Rule} (hr : r ∈ rules) :
    1 ≤ r.shortWin ∧ r.shortWin ≤ r.longWin ∧ r.longWin ≤ simMinutes := by
  revert r
  decide

theorem mapM_eq_some_map {α β : Type} {f : α → Option β} {g : α → β} {xs : List α}
    (h : ∀ a ∈ xs, f a = some (g a)) : xs.mapM f = some (xs.map g) := by
  induction xs with
  | nil => rfl
  | cons a xs ih =>
    rw [List.mapM_cons, h a List.mem_cons_self, ih fun b hb => h b (List.mem_cons_of_mem _ hb)]
    rfl

/-- **The error-budget topic's rules**, on a series that is long enough for its minutes. -/
theorem evaluate_eq {bads : List ℚ} (hlen : simMinutes ≤ bads.length) :
    evaluate (prefixSums bads) true = some (rules.map fun r =>
      (r, (List.range' r.longWin (simMinutes - r.longWin)).filter fun m =>
        decide (m ∈ firing bads r))) := by
  apply mapM_eq_some_map
  intro r hr
  obtain ⟨-, hshort, hlong⟩ := windows_of_mem hr
  rw [passing_eq (p := fun m => decide (m ∈ firing bads r))]
  · rfl
  · intro m hm
    rw [List.mem_range'_1] at hm
    exact firesAt_prefixSums bads hshort hm.1 (by omega)

/-- **Both topics compute the same burn rates**, and on a series that is long enough they fire
at the same of the minutes that the error-budget topic evaluates. -/
theorem rules_agree :
    (∀ (bads : List ℚ) (window m : ℕ), 1 ≤ window → window ≤ m + 1 → m < bads.length →
      (burnRateSeries bads window)[m]? = burnRate (prefixSums bads) m window ∧
        (burnRate (prefixSums bads) m window).isSome) ∧
    ∀ states : List Minute, simMinutes ≤ states.length →
      ∃ table, evaluate (prefixSums (states.map Minute.bad)) true = some table ∧
        ∀ r ∈ rules, ∃ minutes minutes', (r, minutes) ∈ (symptomRules states).1 ∧
          (r, minutes') ∈ table ∧
          ∀ m, r.longWin ≤ m → m < simMinutes → (m ∈ minutes ↔ m ∈ minutes') := by
  constructor
  · intro bads window m _ hfull hm
    -- the window is full, so the rate is over the whole of it
    have hmin : min (m + 1) window = window := by omega
    rw [getElem?_burnRateSeries bads window hm, burnRate_prefixSums bads hfull hm, hmin]
    exact ⟨rfl, rfl⟩
  · intro states hlen
    have hlen' : simMinutes ≤ (states.map Minute.bad).length := by rwa [List.length_map]
    refine ⟨_, evaluate_eq hlen', ?_⟩
    intro r hr
    -- the two tables differ only in the minutes before the first full window, and after the last
    -- one
    refine ⟨_, _, List.mem_map_of_mem hr, List.mem_map_of_mem hr, ?_⟩
    intro m hlong hlt
    rw [List.mem_filter, List.mem_range'_1, decide_eq_true_iff]
    refine ⟨fun h => ⟨⟨hlong, ?_⟩, h⟩, fun h => h.2⟩
    omega

/-- A full window of two minutes, and six days of a healthy service. -/
theorem rules_agree_healthy :
    burnRate (prefixSums [6, 12, 30]) 2 2 = some (7 / 2) ∧
    (burnRateSeries [6, 12, 30] 2)[2]? = burnRate (prefixSums [6, 12, 30]) 2 2 ∧
    ∃ table, evaluate (prefixSums ((List.replicate simMinutes ⟨1 / 5000, 0⟩).map Minute.bad)) true =
      some table := by
  refine ⟨by decide +kernel, ?_, ?_⟩
  · exact (rules_agree.1 [6, 12, 30] 2 2 (by decide) (by decide) (by decide)).1
  · obtain ⟨table, htable, -⟩ := rules_agree.2 (List.replicate simMinutes ⟨1 / 5000, 0⟩)
      (by rw [List.length_replicate])
    exact ⟨table, htable⟩

/-- On a longer series of bad requests only the topic on symptoms fires after the last minute
that the error-budget topic evaluates. -/
theorem not_rules_agree : ¬ ∀ states : List Minute, ∀ r ∈ rules, ∀ m, r.longWin ≤ m →
    m < states.length → ∃ table, evaluate (prefixSums (states.map Minute.bad)) true = some table ∧
      ∀ minutes minutes', (r, minutes) ∈ (symptomRules states).1 → (r, minutes') ∈ table →
        (m ∈ minutes ↔ m ∈ minutes') := by
  intro h
  let r : Rule := ⟨"1h", 60, "5m", 5, 72 / 5, "page"⟩
  let states : List Minute := List.replicate (simMinutes + 1) ⟨1, 0⟩
  have hr : r ∈ rules := List.mem_cons_self
  have hbads : states.map Minute.bad = List.replicate (simMinutes + 1) 6000 := by
    rw [List.map_replicate]
    congr 1
    norm_num [Minute.bad, requestsPerMinute]
  have hlen : simMinutes < (states.map Minute.bad).length := by
    rw [hbads, List.length_replicate]
    exact Nat.lt_succ_self _
  obtain ⟨table, htable, hagree⟩ := h states r hr simMinutes (by decide) (by simp [states])
  rw [evaluate_eq hlen.le, Option.some_inj] at htable
  have hfires : simMinutes ∈ firing (states.map Minute.bad) r := by
    rw [mem_firing_iff _ (by decide) (by decide) hlen, hbads]
    constructor <;>
      norm_num [trailing, List.take_replicate, List.drop_replicate, simMinutes, rate,
        requestsPerMinute, target, r]
  have hlate := (hagree _ _ (List.mem_map_of_mem hr) (htable ▸ List.mem_map_of_mem hr)).mp hfires
  rw [List.mem_filter, List.mem_range'_1] at hlate
  exact absurd hlate.1.2 (by decide)

end BurnRate
end SepLab
