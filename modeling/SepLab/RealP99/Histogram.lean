import Mathlib.Algebra.Order.Field.Basic
import Mathlib.Algebra.Order.Floor.Ring
import Mathlib.Data.Rat.Floor
import Mathlib.Tactic.Linarith
import Mathlib.Tactic.Positivity
import SepLab.Lib.OrderStatistic

/-!
# Quantiles out of bucket counters

A histogram keeps one counter for each boundary and one above them all, cumulative: how many
samples lie at or below the boundary. The quantile of such counters is found by a scan for the
first counter that reaches the target, and by a straight line between the two boundaries there.
Arithmetic is that of the rationals.

## Main definitions

* `bucketize`, `histogramQuantile` — the counters of a list of samples, and the scan.
* `merge` — the counters of several pods, added one by one.
* `InBucket` — the samples that a counter has and the counter below it has not.

## Main results

* `bucketize_eq` — each counter is the number of samples whose place is not above it.
* `histogramQuantile_eq` — where the scan stops, and what it answers there.
* `histogramQuantile_brackets` — **the estimate is in the bucket of the true quantile**, is
  clamped just when that is above every boundary, and rises with `q`; counters that are added
  over the pods are the counters of all samples.
-/

namespace SepLab
namespace RealP99

/-! ### The counters -/

/-- The running sums of the counts, from a sum so far on. -/
def cumulate : ℕ → List ℕ → List ℕ
  | _, [] => []
  | running, c :: counts => (running + c) :: cumulate (running + c) counts

/-- One sample: the first boundary it does not exceed counts it, or else the last counter. -/
def count (boundaries : List ℚ) (counts : List ℕ) (s : ℚ) : List ℕ :=
  match boundaries.findIdx? fun b => s ≤ b with
  | some i => counts.modify i (· + 1)
  | none => counts.modify (counts.length - 1) (· + 1)

/-- Cumulative counters, one for each boundary and one for all samples. -/
def bucketize (samples boundaries : List ℚ) : List ℕ :=
  cumulate 0 (samples.foldl (count boundaries) (List.replicate (boundaries.length + 1) 0))

/-- The quantile that the counters show, and whether it is clamped to the last boundary: `none`
is an index that a list does not have, `some none` is that nothing is counted. -/
def histogramQuantile (q : ℚ) (cumulative : List ℕ) (boundaries : List ℚ) :
    Option (Option (ℚ × Bool)) := do
  let total ← cumulative.getLast?
  if total = 0 then
    return none
  let target := q * total
  match cumulative.findIdx? fun cum : ℕ => target ≤ cum with
  | some i =>
    -- landed in the bucket above every boundary
    if i = boundaries.length then
      return some (← boundaries.getLast?, true)
    let lower ← if 0 < i then boundaries[i - 1]? else some 0
    let upper ← boundaries[i]?
    let prev ← if 0 < i then cumulative[i - 1]? else some 0
    let cum ← cumulative[i]?
    let span : ℚ := cum - prev
    let frac := if span ≠ 0 then (target - prev) / span else 0
    return some (lower + (upper - lower) * frac, false)
  | none => return some (← boundaries.getLast?, true)

/-- The counters of the pods, added one by one. -/
def merge (pods : List (List ℚ)) (boundaries : List ℚ) : List ℕ :=
  pods.foldl (fun merged samples => List.zipWith (· + ·) merged (bucketize samples boundaries))
    (List.replicate (boundaries.length + 1) 0)

/-- A value between two boundaries next to each other, the upper one included; below the first
boundary zero is included as well. -/
def InBucket (boundaries : List ℚ) (i : ℕ) (x : ℚ) : Prop :=
  (∃ upper, boundaries[i]? = some upper ∧ x ≤ upper) ∧
    if 0 < i then ∃ lower, boundaries[i - 1]? = some lower ∧ lower < x else 0 ≤ x

/-! ### What a counter counts -/

/-- The place of a sample among the counters. -/
def place (boundaries : List ℚ) (s : ℚ) : ℕ := boundaries.findIdx fun b => s ≤ b

theorem place_le (boundaries : List ℚ) (s : ℚ) : place boundaries s ≤ boundaries.length :=
  List.findIdx_le_length

/-- A sample is at or below a boundary just when its place is. -/
theorem place_le_iff {boundaries : List ℚ} (hs : boundaries.Pairwise (· < ·)) {i : ℕ}
    (hi : i < boundaries.length) (s : ℚ) : place boundaries s ≤ i ↔ s ≤ boundaries[i] := by
  constructor
  · intro hle
    have hlt : place boundaries s < boundaries.length := hle.trans_lt hi
    have hfound : s ≤ boundaries[place boundaries s] :=
      of_decide_eq_true (List.findIdx_getElem (w := hlt))
    exact hfound.trans (hs.sortedLT.sortedLE.getElem_le_getElem_of_le hle)
  · intro hle
    by_contra hgt
    have hbefore := List.not_of_lt_findIdx (not_le.mp hgt)
    exact absurd hle (by simpa using hbefore)

theorem count_eq (boundaries : List ℚ) {counts : List ℕ}
    (hlen : counts.length = boundaries.length + 1) (s : ℚ) :
    count boundaries counts s = counts.modify (place boundaries s) (· + 1) := by
  unfold count place
  cases hfind : boundaries.findIdx? (fun b => s ≤ b) with
  | some i => rw [(List.findIdx?_eq_some_iff_findIdx_eq.mp hfind).2]
  | none =>
    have hlast : counts.length - 1 = boundaries.length := by omega
    rw [List.findIdx?_eq_none_iff_findIdx_eq.mp hfind, hlast]

theorem cumulate_zeros (n : ℕ) : cumulate 0 (List.replicate n 0) = List.replicate n 0 := by
  induction n with
  | zero => rfl
  | succ n ih => rw [List.replicate_succ, cumulate, ih]

theorem cumulate_succ (running : ℕ) (counts : List ℕ) :
    cumulate (running + 1) counts = (cumulate running counts).map (· + 1) := by
  induction counts generalizing running with
  | nil => rfl
  | cons c counts ih =>
    rw [cumulate, cumulate, List.map_cons, Nat.add_right_comm, ih]

/-- One more in one count is one more in every running sum from there on. -/
theorem getElem?_cumulate_modify (running : ℕ) (counts : List ℕ) (p i : ℕ) :
    (cumulate running (counts.modify p (· + 1)))[i]? =
      (cumulate running counts)[i]?.map fun cum => cum + if p ≤ i then 1 else 0 := by
  induction counts generalizing running p i with
  | nil => simp [cumulate]
  | cons c counts ih =>
    cases p with
    | zero =>
      rw [List.modify_zero_cons, cumulate, cumulate, ← Nat.add_assoc, cumulate_succ]
      cases i with
      | zero => simp
      | succ i => simp
    | succ p =>
      rw [List.modify_succ_cons, cumulate, cumulate]
      cases i with
      | zero => simp
      | succ i => simp [ih]

theorem getElem?_cumulate_foldl (boundaries samples : List ℚ) {counts : List ℕ}
    (hlen : counts.length = boundaries.length + 1) (i : ℕ) :
    (cumulate 0 (samples.foldl (count boundaries) counts))[i]? =
      (cumulate 0 counts)[i]?.map (· + samples.countP fun s => place boundaries s ≤ i) := by
  induction samples generalizing counts with
  | nil => simp
  | cons s samples ih =>
    rw [List.foldl_cons, count_eq boundaries hlen, ih (by rw [List.length_modify, hlen]),
      getElem?_cumulate_modify, Option.map_map]
    congr 1
    funext cum
    by_cases hp : place boundaries s ≤ i
    · simp only [Function.comp_apply, hp, if_true, decide_true, List.countP_cons_of_pos]
      omega
    · simp [hp]

/-- **What a counter counts**: the samples whose place is not above it. -/
theorem bucketize_eq (samples boundaries : List ℚ) :
    bucketize samples boundaries =
      (List.range (boundaries.length + 1)).map fun i =>
        samples.countP fun s => place boundaries s ≤ i := by
  refine List.ext_getElem? fun i => ?_
  rw [bucketize, getElem?_cumulate_foldl boundaries samples List.length_replicate, cumulate_zeros,
    List.getElem?_replicate, List.getElem?_map]
  by_cases hi : i < boundaries.length + 1
  · rw [if_pos hi, List.getElem?_range hi]
    simp
  · rw [if_neg hi, List.getElem?_eq_none (by simpa using hi)]
    rfl

/-- The counters of the pods together are the counters of all their samples. -/
theorem merge_eq (pods : List (List ℚ)) (boundaries : List ℚ) :
    merge pods boundaries = bucketize pods.flatten boundaries := by
  unfold merge
  induction pods using List.reverseRecOn with
  | nil => simp [bucketize, cumulate_zeros]
  | append_singleton pods samples ih =>
    rw [List.foldl_append, ih, List.foldl_cons, List.foldl_nil, List.flatten_append,
      bucketize_eq, bucketize_eq, bucketize_eq, List.zipWith_map, List.zipWith_self]
    simp [List.countP_append]

/-- The counters are a matter of which samples there are, not of their order. -/
theorem bucketize_perm {samples samples' : List ℚ} (h : samples.Perm samples')
    (boundaries : List ℚ) : bucketize samples boundaries = bucketize samples' boundaries := by
  rw [bucketize_eq, bucketize_eq]
  exact List.map_congr_left fun i _ => h.countP_eq _

/-! ### Where the scan stops -/

/-- The boundary below a bucket, zero below the first. -/
def edge (boundaries : List ℚ) : ℕ → ℚ
  | 0 => 0
  | i + 1 => boundaries.getD i 0

/-- The number of samples below a bucket. -/
def below (samples boundaries : List ℚ) (i : ℕ) : ℕ :=
  samples.countP fun s => place boundaries s < i

/-- What the scan answers at a counter. -/
def estimate (samples boundaries : List ℚ) (target : ℚ) (i : ℕ) : ℚ × Bool :=
  if i = boundaries.length then (edge boundaries i, true)
  else
    (edge boundaries i + (edge boundaries (i + 1) - edge boundaries i) *
      ((target - below samples boundaries i) /
        (below samples boundaries (i + 1) - below samples boundaries i)), false)

theorem below_zero (samples boundaries : List ℚ) : below samples boundaries 0 = 0 := by
  simp [below]

theorem below_last (samples boundaries : List ℚ) :
    below samples boundaries (boundaries.length + 1) = samples.length := by
  refine List.countP_eq_length.mpr fun s _ => decide_eq_true ?_
  exact Nat.lt_succ_of_le (place_le boundaries s)

theorem below_mono (samples boundaries : List ℚ) : Monotone (below samples boundaries) :=
  fun _ _ hij => List.countP_mono_left fun _ _ h =>
    decide_eq_true ((of_decide_eq_true h).trans_le hij)

theorem getElem?_bucketize (samples boundaries : List ℚ) {i : ℕ} (hi : i ≤ boundaries.length) :
    (bucketize samples boundaries)[i]? = some (below samples boundaries (i + 1)) := by
  rw [bucketize_eq, List.getElem?_map, List.getElem?_range (Nat.lt_succ_of_le hi), Option.map_some]
  simp only [below, Nat.lt_succ_iff]

theorem length_bucketize (samples boundaries : List ℚ) :
    (bucketize samples boundaries).length = boundaries.length + 1 := by
  rw [bucketize_eq, List.length_map, List.length_range]

theorem getLast?_bucketize (samples boundaries : List ℚ) :
    (bucketize samples boundaries).getLast? = some samples.length := by
  rw [List.getLast?_eq_getElem?, length_bucketize, Nat.add_sub_cancel,
    getElem?_bucketize samples boundaries le_rfl, below_last]

/-- The first counter that reaches a target between none and all of the samples. -/
theorem exists_findIdx? (samples boundaries : List ℚ) {target : ℚ} (hpos : 0 < target)
    (hle : target ≤ samples.length) :
    ∃ i ≤ boundaries.length,
      (bucketize samples boundaries).findIdx? (fun cum : ℕ => target ≤ cum) = some i ∧
        below samples boundaries i < target ∧ target ≤ below samples boundaries (i + 1) := by
  have hlast : samples.length ∈ bucketize samples boundaries :=
    List.mem_of_getLast? (getLast?_bucketize samples boundaries)
  cases hfind : (bucketize samples boundaries).findIdx? (fun cum : ℕ => target ≤ cum) with
  | none =>
    have hall := List.findIdx?_eq_none_iff.mp hfind _ hlast
    exact absurd hle (of_decide_eq_false hall)
  | some i =>
    obtain ⟨hi, hreach, hbefore⟩ := List.findIdx?_eq_some_iff_getElem.mp hfind
    have hlen := length_bucketize samples boundaries
    have hi' : i ≤ boundaries.length := by omega
    have hget : ∀ j (hj : j < (bucketize samples boundaries).length),
        (bucketize samples boundaries)[j] = below samples boundaries (j + 1) := fun j hj =>
      (List.getElem_eq_iff hj).mpr (getElem?_bucketize samples boundaries (by omega))
    refine ⟨i, hi', rfl, ?_, ?_⟩
    · cases i with
      | zero => simpa [below_zero] using hpos
      | succ j =>
        have hj := hbefore j (Nat.lt_succ_self j)
        rw [hget j ((Nat.lt_succ_self j).trans hi)] at hj
        simpa using hj
    · rw [hget i hi] at hreach
      simpa using hreach

theorem edge_succ {boundaries : List ℚ} {i : ℕ} (hi : i < boundaries.length) :
    edge boundaries (i + 1) = boundaries[i] := by
  rw [edge, List.getD_eq_getElem?_getD, List.getElem?_eq_getElem hi, Option.getD_some]

theorem getLast?_eq_edge {boundaries : List ℚ} (hb : boundaries ≠ []) :
    boundaries.getLast? = some (edge boundaries boundaries.length) := by
  obtain ⟨k, hk⟩ := Nat.exists_eq_succ_of_ne_zero (List.length_pos_of_ne_nil hb).ne'
  have hlt : k < boundaries.length := by omega
  rw [List.getLast?_eq_getElem?, hk, Nat.succ_sub_one, List.getElem?_eq_getElem hlt,
    edge_succ hlt]

theorem getElem?_eq_edge {boundaries : List ℚ} {i : ℕ} (hi : i < boundaries.length) :
    boundaries[i]? = some (edge boundaries (i + 1)) := by
  rw [edge_succ hi, List.getElem?_eq_getElem hi]

/-- **Where the scan stops**, and what it answers there. -/
theorem histogramQuantile_eq {samples boundaries : List ℚ} (hs : samples ≠ [])
    (hb : boundaries ≠ []) {q : ℚ} (hq : 0 < q) (hq1 : q ≤ 1) :
    ∃ i ≤ boundaries.length,
      below samples boundaries i < q * samples.length ∧
        q * samples.length ≤ below samples boundaries (i + 1) ∧
          histogramQuantile q (bucketize samples boundaries) boundaries =
            some (some (estimate samples boundaries (q * samples.length) i)) := by
  have hn : (0 : ℚ) < samples.length := by exact_mod_cast List.length_pos_of_ne_nil hs
  have htotal : samples.length ≠ 0 := (List.length_pos_of_ne_nil hs).ne'
  obtain ⟨i, hi, hfind, hlow, hhigh⟩ := exists_findIdx? samples boundaries (mul_pos hq hn)
    (by nlinarith only [hq1, hn])
  refine ⟨i, hi, hlow, hhigh, ?_⟩
  rw [histogramQuantile, getLast?_bucketize]
  simp only [Option.pure_def, Option.bind_eq_bind, Option.bind_some, if_neg htotal, hfind]
  by_cases hlast : i = boundaries.length
  · subst hlast
    simp [estimate, getLast?_eq_edge hb]
  · have hlt : i < boundaries.length := lt_of_le_of_ne hi hlast
    have hspan : (below samples boundaries (i + 1) : ℚ) - below samples boundaries i ≠ 0 :=
      (sub_pos.mpr (hlow.trans_le hhigh)).ne'
    rw [if_neg hlast, getElem?_eq_edge hlt, getElem?_bucketize samples boundaries hi, estimate,
      if_neg hlast]
    cases i with
    | zero =>
      have hone : below samples boundaries 1 ≠ 0 := by simpa [below_zero] using hspan
      simp [edge, below_zero, hone]
    | succ j =>
      rw [Nat.add_sub_cancel, getElem?_eq_edge (Nat.lt_of_succ_lt hlt),
        getElem?_bucketize samples boundaries (Nat.le_of_succ_le hi)]
      simp [hspan]

/-! ### Buckets -/

section
variable {boundaries : List ℚ} (hpos : ∀ b ∈ boundaries, 0 < b)
  (hsorted : boundaries.Pairwise (· < ·))
include hpos hsorted

theorem edge_strictMono {i j : ℕ} (hij : i < j) (hj : j ≤ boundaries.length) :
    edge boundaries i < edge boundaries j := by
  obtain ⟨j, rfl⟩ : ∃ k, j = k + 1 := ⟨j - 1, by omega⟩
  rw [edge_succ hj]
  cases i with
  | zero => exact hpos _ (List.getElem_mem hj)
  | succ i =>
    have hi : i < boundaries.length := by omega
    rw [edge_succ hi]
    exact List.pairwise_iff_getElem.mp hsorted i j hi hj (Nat.lt_of_succ_lt_succ hij)

theorem edge_mono {i j : ℕ} (hij : i ≤ j) (hj : j ≤ boundaries.length) :
    edge boundaries i ≤ edge boundaries j := by
  rcases hij.lt_or_eq with h | rfl
  · exact (edge_strictMono hpos hsorted h hj).le
  · exact le_rfl

/-- The straight line stays between the two boundaries. -/
theorem estimate_mem {samples : List ℚ} {target : ℚ} {i : ℕ} (hi : i < boundaries.length)
    (hlow : below samples boundaries i < target)
    (hhigh : target ≤ below samples boundaries (i + 1)) :
    edge boundaries i < (estimate samples boundaries target i).1 ∧
      (estimate samples boundaries target i).1 ≤ edge boundaries (i + 1) := by
  have hedge := edge_strictMono hpos hsorted (Nat.lt_succ_self i) hi
  have hspan : (0 : ℚ) < below samples boundaries (i + 1) - below samples boundaries i :=
    sub_pos.mpr (hlow.trans_le hhigh)
  have hfrac : 0 < (target - below samples boundaries i) /
      (below samples boundaries (i + 1) - below samples boundaries i) :=
    div_pos (sub_pos.mpr hlow) hspan
  have hone : (target - below samples boundaries i) /
      (below samples boundaries (i + 1) - below samples boundaries i) ≤ 1 :=
    (div_le_one hspan).mpr (by linarith only [hhigh])
  rw [estimate, if_neg hi.ne]
  constructor
  · nlinarith only [hedge, hfrac]
  · nlinarith only [hedge, hone]

theorem edge_le_estimate {samples : List ℚ} {target : ℚ} {i : ℕ} (hi : i ≤ boundaries.length)
    (hlow : below samples boundaries i < target)
    (hhigh : target ≤ below samples boundaries (i + 1)) :
    edge boundaries i ≤ (estimate samples boundaries target i).1 := by
  rcases hi.lt_or_eq with hlt | rfl
  · exact (estimate_mem hpos hsorted hlt hlow hhigh).1.le
  · rw [estimate, if_pos rfl]

/-- A higher target is read off at the same counter or at a later one, and higher up. -/
theorem estimate_mono {samples : List ℚ} {target target' : ℚ} (hle : target ≤ target') {i i' : ℕ}
    (hi : i ≤ boundaries.length) (hi' : i' ≤ boundaries.length)
    (hlow : below samples boundaries i < target)
    (hhigh : target ≤ below samples boundaries (i + 1))
    (hlow' : below samples boundaries i' < target')
    (hhigh' : target' ≤ below samples boundaries (i' + 1)) :
    (estimate samples boundaries target i).1 ≤ (estimate samples boundaries target' i').1 := by
  rcases lt_trichotomy i i' with hlt | rfl | hgt
  · calc (estimate samples boundaries target i).1 ≤ edge boundaries (i + 1) :=
          (estimate_mem hpos hsorted (hlt.trans_le hi') hlow hhigh).2
      _ ≤ edge boundaries i' := edge_mono hpos hsorted hlt hi'
      _ ≤ _ := edge_le_estimate hpos hsorted hi' hlow' hhigh'
  · unfold estimate
    split
    · exact le_rfl
    · next hne =>
      have hedge := edge_strictMono hpos hsorted (Nat.lt_succ_self i) (lt_of_le_of_ne hi hne)
      have hspan : (0 : ℚ) < below samples boundaries (i + 1) - below samples boundaries i :=
        sub_pos.mpr (hlow.trans_le hhigh)
      have hfrac := div_le_div_of_nonneg_right
        (sub_le_sub_right hle (below samples boundaries i : ℚ)) hspan.le
      exact (add_le_add_iff_left _).mpr
        (mul_le_mul_of_nonneg_left hfrac (sub_pos.mpr hedge).le)
  · -- the later counter was reached by the lower target, so the earlier one was not
    have hmono : (below samples boundaries (i' + 1) : ℚ) ≤ below samples boundaries i := by
      exact_mod_cast below_mono samples boundaries hgt
    linarith

omit hpos in
/-- The true quantile has its place where the scan stops. -/
theorem place_kthSmallest {samples : List ℚ} {target x : ℚ} {i : ℕ}
    (hx : kthSmallest samples ⌈target⌉₊ = some x) (hi : i ≤ boundaries.length)
    (hlow : below samples boundaries i < target)
    (hhigh : target ≤ below samples boundaries (i + 1)) : place boundaries x = i := by
  have hcover : ∀ j < boundaries.length,
      (place boundaries x ≤ j ↔ target ≤ below samples boundaries (j + 1)) := by
    intro j hj
    rw [place_le_iff hsorted hj, kthSmallest_le_iff hx, Nat.ceil_le]
    simp only [below, Nat.lt_succ_iff, place_le_iff hsorted hj]
  apply le_antisymm
  · rcases hi.lt_or_eq with hlt | rfl
    · exact (hcover i hlt).mpr hhigh
    · exact place_le boundaries x
  · by_contra hlt
    have hlt := not_le.mp hlt
    have hreach := (hcover _ (hlt.trans_le hi)).mp le_rfl
    have hmono : (below samples boundaries (place boundaries x + 1) : ℚ) ≤
        below samples boundaries i := by
      exact_mod_cast below_mono samples boundaries hlt
    linarith

end

/-- A bucket lies between its edges. -/
theorem inBucket_iff {boundaries : List ℚ} {i : ℕ} (hi : i < boundaries.length) (x : ℚ) :
    InBucket boundaries i x ↔
      x ≤ edge boundaries (i + 1) ∧ if 0 < i then edge boundaries i < x else 0 ≤ x := by
  cases i with
  | zero => simp [InBucket, edge_succ hi, hi]
  | succ j => simp [InBucket, edge_succ hi, edge_succ (Nat.lt_of_succ_lt hi), hi,
      Nat.lt_of_succ_lt hi]

/-- A sample that has its place at a boundary is in the bucket there. -/
theorem inBucket_place {boundaries : List ℚ} (hsorted : boundaries.Pairwise (· < ·)) {x : ℚ}
    (hx : 0 ≤ x) (hlt : place boundaries x < boundaries.length) :
    InBucket boundaries (place boundaries x) x := by
  rw [inBucket_iff hlt]
  refine ⟨?_, ?_⟩
  · rw [edge_succ hlt]
    exact (place_le_iff hsorted hlt x).mp le_rfl
  · split
    · next hpos =>
      obtain ⟨j, hj⟩ := Nat.exists_eq_succ_of_ne_zero hpos.ne'
      have hlt' : j < boundaries.length := by omega
      rw [hj, edge_succ hlt', ← not_le, ← place_le_iff hsorted hlt' x, hj]
      exact Nat.not_succ_le_self j
    · exact hx

/-- A sample above every boundary has its place above them. -/
theorem place_eq_length_iff {boundaries : List ℚ} (hsorted : boundaries.Pairwise (· < ·))
    (hb : boundaries ≠ []) (x : ℚ) :
    place boundaries x = boundaries.length ↔ boundaries.getLast hb < x := by
  have hlt : boundaries.length - 1 < boundaries.length :=
    Nat.sub_lt (List.length_pos_of_ne_nil hb) Nat.one_pos
  rw [List.getLast_eq_getElem, ← not_le, ← place_le_iff hsorted hlt]
  have hle := place_le boundaries x
  omega

/-- **The estimate brackets the true quantile.** For samples not below zero and ascending
positive boundaries the `q`-quantile of the counters is clamped just when the `⌈q n⌉`-th smallest
sample is above every boundary, and is otherwise in the bucket of that sample; it rises with
`q`; and however the samples are split over pods, the counters of the pods add up to theirs. -/
theorem histogramQuantile_brackets {samples boundaries : List ℚ} (hs : samples ≠ [])
    (hnonneg : ∀ s ∈ samples, 0 ≤ s) (hb : boundaries ≠ []) (hpos : ∀ b ∈ boundaries, 0 < b)
    (hsorted : boundaries.Pairwise (· < ·)) :
    (∀ q : ℚ, 0 < q → q ≤ 1 → ∃ x est clamped,
      kthSmallest samples ⌈q * samples.length⌉₊ = some x ∧
        histogramQuantile q (bucketize samples boundaries) boundaries =
          some (some (est, clamped)) ∧
        (clamped = true ↔ boundaries.getLast hb < x) ∧
        (clamped = true → est = boundaries.getLast hb) ∧
        (clamped = false → ∃ i, InBucket boundaries i x ∧ InBucket boundaries i est)) ∧
    (∀ (q q' est est' : ℚ) (clamped clamped' : Bool), 0 < q → q ≤ q' → q' ≤ 1 →
      histogramQuantile q (bucketize samples boundaries) boundaries = some (some (est, clamped)) →
      histogramQuantile q' (bucketize samples boundaries) boundaries =
        some (some (est', clamped')) →
      est ≤ est') ∧
    ∀ pods : List (List ℚ), pods.flatten.Perm samples →
      merge pods boundaries = bucketize samples boundaries ∧
        ∀ q : ℚ, histogramQuantile q (merge pods boundaries) boundaries =
          histogramQuantile q (bucketize samples boundaries) boundaries := by
  refine ⟨fun q hq hq1 => ?_, ?_, fun pods hperm => ?_⟩
  · obtain ⟨i, hi, hlow, hhigh, hrun⟩ := histogramQuantile_eq hs hb hq hq1
    have hn : (0 : ℚ) < samples.length := by exact_mod_cast List.length_pos_of_ne_nil hs
    have hk₁ : 1 ≤ ⌈q * samples.length⌉₊ := Nat.one_le_ceil_iff.mpr (mul_pos hq hn)
    have hk : ⌈q * samples.length⌉₊ ≤ samples.length :=
      Nat.ceil_le.mpr (by nlinarith only [hq1, hn])
    obtain ⟨x, hmem, hx⟩ := exists_kthSmallest hk₁ hk
    have hplace := place_kthSmallest hsorted hx hi hlow hhigh
    let answer := estimate samples boundaries (q * samples.length) i
    refine ⟨x, answer.1, answer.2, hx, hrun, ?_, ?_, ?_⟩ <;> simp only [answer]
    · rw [← place_eq_length_iff hsorted hb, hplace, estimate]
      by_cases hlast : i = boundaries.length <;> simp [hlast]
    · rw [estimate]
      split
      · next hlast =>
        have hedge := getLast?_eq_edge hb
        rw [List.getLast?_eq_some_getLast hb, Option.some_inj] at hedge
        exact fun _ => hlast ▸ hedge.symm
      · exact fun h => absurd h Bool.false_ne_true
    · intro hclamped
      have hlt : i < boundaries.length := by
        refine lt_of_le_of_ne hi fun hlast => ?_
        rw [estimate, if_pos hlast] at hclamped
        exact Bool.noConfusion hclamped
      have hest := estimate_mem hpos hsorted hlt hlow hhigh
      have hzero : 0 ≤ edge boundaries i := edge_mono hpos hsorted (Nat.zero_le i) hi
      refine ⟨i, ?_, (inBucket_iff hlt _).mpr ⟨hest.2, ?_⟩⟩
      · rw [← hplace] at hlt ⊢
        exact inBucket_place hsorted (hnonneg x hmem) hlt
      · split
        · exact hest.1
        · exact hzero.trans hest.1.le
  · intro q q' est est' clamped clamped' hq hqq' hq' hrun hrun'
    obtain ⟨i, hi, hlow, hhigh, heq⟩ := histogramQuantile_eq hs hb hq (hqq'.trans hq')
    obtain ⟨i', hi', hlow', hhigh', heq'⟩ := histogramQuantile_eq hs hb (hq.trans_le hqq') hq'
    have hle : q * samples.length ≤ q' * samples.length :=
      mul_le_mul_of_nonneg_right hqq' (Nat.cast_nonneg _)
    have hmono := estimate_mono hpos hsorted hle hi hi' hlow hhigh hlow' hhigh'
    rw [hrun, Option.some_inj, Option.some_inj] at heq
    rw [hrun', Option.some_inj, Option.some_inj] at heq'
    rwa [← heq, ← heq'] at hmono
  · have hmerge : merge pods boundaries = bucketize samples boundaries := by
      rw [merge_eq, bucketize_perm hperm]
    exact ⟨hmerge, fun q => by rw [hmerge]⟩

theorem histogramQuantile_brackets_three :
    ∃ (x est : ℚ) (clamped : Bool), kthSmallest [1 / 2, 3 / 2, 3] ⌈(1 / 2 : ℚ) * 3⌉₊ = some x ∧
      histogramQuantile (1 / 2) (bucketize [1 / 2, 3 / 2, 3] [1, 2]) [1, 2] =
        some (some (est, clamped)) ∧
      (clamped = true ↔ 2 < x) := by
  have hs : ([1 / 2, 3 / 2, 3] : List ℚ) ≠ [] := by decide
  have hb : ([1, 2] : List ℚ) ≠ [] := by decide
  obtain ⟨x, est, clamped, hx, hrun, hclamped, -⟩ :=
    (histogramQuantile_brackets hs (by simp; norm_num) hb (by simp) (by simp)).1
      (1 / 2) (by norm_num) (by norm_num)
  exact ⟨x, est, clamped, by simpa using hx, hrun, by simpa using hclamped⟩

end RealP99
end SepLab
