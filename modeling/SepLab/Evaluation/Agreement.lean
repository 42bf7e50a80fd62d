import Mathlib.Algebra.BigOperators.Field
import Mathlib.Algebra.BigOperators.Intervals
import Mathlib.Data.Rat.Cast.Order
import Mathlib.Tactic.FieldSimp
import Mathlib.Tactic.Positivity
import SepLab.Lib.PairCounts
import SepLab.Lib.StableSort

/-!
# Agreement between raters, corrected for chance

Raters label items, not every rater every item. Cohen's kappa compares two raters over one list of
items; Krippendorff's alpha fills a matrix with the pairs of labels that the items carry, an item
of `m` labels giving each of its ordered pairs the weight `1 / (m - 1)`, and compares what lies
off the diagonal with what the row sums lead one to expect there. Arithmetic is that of the
rationals, and `none` stands for a result that is not a number.

## Main definitions

* `cohenKappa` — kappa, the observed agreement and the agreement by chance.
* `coincidence`, `nTotal`, `marginals` — the matrix, its sum and its row sums.
* `krippendorffAlpha` — alpha, out of the matrix.

## Main results

* `coincidence_eq` — what the loops have counted in a cell.
* `krippendorffAlpha_eq` — **alpha without the matrix**: the disagreements within the items over
  those among all their labels.
* `krippendorff_alpha_nominal` — the matrix, when there is an alpha, what it says, what it does
  not depend on, and what it is for two raters.
-/

namespace SepLab
namespace Evaluation

variable {ι κ ρ ρ' L L' : Type*} [DecidableEq L] [DecidableEq L']

/-- Kappa of two raters, the observed agreement and the chance agreement; nothing for lists that
are empty or not of one length. -/
def cohenKappa (a b : List L) : Option (Option ℚ × ℚ × ℚ) :=
  if a.length = b.length ∧ a ≠ [] then
    let n : ℚ := a.length
    -- the labels are also sorted, which a sum does not notice
    let labels := (a ++ b).dedup
    let observed : ℚ := ((a.zip b).countP fun p => p.1 = p.2) / n
    let chance := (labels.map fun l => (a.count l / n) * (b.count l / n)).sum
    if 1 ≤ chance then some (none, observed, chance)
    else some (some ((observed - chance) / (1 - chance)), observed, chance)
  else none

/-- The labels of the items that have at least two. -/
def units (ratings : List (ι × List (ρ × L))) : List (List L) :=
  (ratings.map fun item => item.2.map Prod.snd).filter fun u => 2 ≤ u.length

/-- The different labels, in the order of the texts they are written as. -/
def labels (str : L → String) (units : List (List L)) : List L :=
  sortBy (fun a b => compare (str a) (str b)) units.flatten.dedup

/-- A pair of labels adds its weight to one cell. -/
def addPair (index : L → ℕ) (weight : ℚ) (coincidence : List (List ℚ)) (p : L × L) :
    List (List ℚ) :=
  coincidence.modify (index p.1) fun row => row.modify (index p.2) (· + weight)

/-- The matrix of the pairs of labels, row by row. -/
def coincidence (labels : List L) (units : List (List L)) : List (List ℚ) :=
  units.foldl (fun c unit =>
      (orderedPairs unit).foldl (addPair labels.idxOf (1 / (unit.length - 1))) c)
    (List.replicate labels.length (List.replicate labels.length 0))

/-- A cell of the matrix. -/
def entry (c : List (List ℚ)) (i j : ℕ) : ℚ := (c.getD i []).getD j 0

/-- `n_total`, the sum of all cells. -/
def nTotal (c : List (List ℚ)) : ℚ := (c.map List.sum).sum

/-- `marginals`, the sums of the rows. -/
def marginals (c : List (List ℚ)) : List ℚ := c.map List.sum

/-- The sum over the cells off the diagonal. -/
def offDiagonal (k : ℕ) (f : ℕ → ℕ → ℚ) : ℚ :=
  ((List.range k).flatMap fun i => ((List.range k).filter fun j => i ≠ j).map (f i)).sum

/-- `observed_disagreement` -/
def observedDisagreement (c : List (List ℚ)) : ℚ := offDiagonal c.length (entry c)

/-- `expected_disagreement` -/
def expectedDisagreement (c : List (List ℚ)) : ℚ :=
  offDiagonal c.length fun i j =>
    (marginals c).getD i 0 * (marginals c).getD j 0 / (nTotal c - 1)

/-- Alpha for labels that are equal or not. -/
def krippendorffAlpha (str : L → String) (ratings : List (ι × List (ρ × L))) : Option ℚ :=
  let units := units ratings
  if units = [] then none
  else
    let c := coincidence (labels str units) units
    if expectedDisagreement c = 0 then none
    else some (1 - observedDisagreement c / expectedDisagreement c)

/-! ### What a cell of the matrix holds -/

/-- The weight of a pair of labels in all items. -/
def weight (units : List (List L)) (a b : L) : ℚ :=
  (units.map fun u => ((orderedPairs u).count (a, b) : ℚ) / (u.length - 1)).sum

/-- A table over the labels. -/
def table (labels : List L) (f : L → L → ℚ) : List (List ℚ) := labels.map fun a => labels.map (f a)

theorem modify_idxOf {α : Type*} {labels : List L} (hnodup : labels.Nodup) {x : L}
    (hx : x ∈ labels) (g : L → α) (h : α → α) :
    (labels.map g).modify (labels.idxOf x) h =
      labels.map fun a => if a = x then h (g a) else g a := by
  induction labels with
  | nil => exact absurd hx List.not_mem_nil
  | cons l labels ih =>
    obtain ⟨hl, hnodup⟩ := List.nodup_cons.mp hnodup
    by_cases hlx : l = x
    · subst hlx
      have hrest : ∀ a ∈ labels, (if a = l then h (g a) else g a) = g a := fun a ha =>
        if_neg fun hal : a = l => hl (hal ▸ ha)
      rw [List.idxOf_cons_self, List.map_cons, List.modify_zero_cons, List.map_cons, if_pos rfl,
        List.map_congr_left hrest]
    · have hx : x ∈ labels := (List.mem_cons.mp hx).resolve_left (Ne.symm hlx)
      rw [List.idxOf_cons_ne _ hlx, List.map_cons, List.modify_succ_cons, ih hnodup hx,
        List.map_cons, if_neg hlx]

theorem addPair_table {labels : List L} (hnodup : labels.Nodup) {p : L × L} (h₁ : p.1 ∈ labels)
    (h₂ : p.2 ∈ labels) (w : ℚ) (f : L → L → ℚ) :
    addPair labels.idxOf w (table labels f) p =
      table labels fun a b => f a b + if (a, b) = p then w else 0 := by
  rw [addPair, table, modify_idxOf hnodup h₁]
  refine List.map_congr_left fun a _ => ?_
  by_cases ha : a = p.1
  · rw [if_pos ha, modify_idxOf hnodup h₂]
    refine List.map_congr_left fun b _ => ?_
    by_cases hb : b = p.2 <;> simp [Prod.ext_iff, ha, hb]
  · rw [if_neg ha]
    refine List.map_congr_left fun b _ => ?_
    simp [Prod.ext_iff, ha]

theorem foldl_addPair_table {labels : List L} (hnodup : labels.Nodup) {ps : List (L × L)}
    (h₁ : ∀ p ∈ ps, p.1 ∈ labels) (h₂ : ∀ p ∈ ps, p.2 ∈ labels) (w : ℚ) (f : L → L → ℚ) :
    ps.foldl (addPair labels.idxOf w) (table labels f) =
      table labels fun a b => f a b + ps.count (a, b) * w := by
  induction ps generalizing f with
  | nil => simp
  | cons p ps ih =>
    obtain ⟨h₁, h₁'⟩ := List.forall_mem_cons.mp h₁
    obtain ⟨h₂, h₂'⟩ := List.forall_mem_cons.mp h₂
    rw [List.foldl_cons, addPair_table hnodup h₁ h₂, ih h₁' h₂']
    congr 1
    funext a b
    rw [List.count_cons]
    by_cases hp : p = (a, b)
    · simp [hp]
      ring
    · simp [hp, Ne.symm hp]

omit [DecidableEq L] in
theorem mem_of_mem_orderedPairs {xs : List L} {p : L × L} (hp : p ∈ orderedPairs xs) :
    p.1 ∈ xs ∧ p.2 ∈ xs := by
  obtain ⟨q, hq, hp⟩ := List.mem_flatMap.mp hp
  obtain ⟨y, hy, rfl⟩ := List.mem_map.mp hp
  exact ⟨List.fst_mem_of_mem_zipIdx hq, List.mem_of_mem_eraseIdx hy⟩

/-- **What the loops have counted** in each cell. -/
theorem coincidence_eq {labels : List L} (hnodup : labels.Nodup) {units : List (List L)}
    (hmem : ∀ u ∈ units, ∀ x ∈ u, x ∈ labels) :
    coincidence labels units = table labels (weight units) := by
  unfold coincidence
  induction units using List.reverseRecOn with
  | nil =>
    have hzero : table labels (weight []) = labels.map fun _ => labels.map fun _ => 0 := rfl
    rw [List.foldl_nil, hzero, List.map_const', List.map_const']
  | append_singleton units u ih =>
    have hu : ∀ x ∈ u, x ∈ labels := hmem u (by simp)
    rw [List.foldl_append, ih fun v hv => hmem v (by simp [hv]), List.foldl_cons, List.foldl_nil,
      foldl_addPair_table hnodup (fun p hp => hu _ (mem_of_mem_orderedPairs hp).1)
        fun p hp => hu _ (mem_of_mem_orderedPairs hp).2]
    congr 1
    funext a b
    simp [weight, div_eq_mul_inv]

/-! ### The sums of the matrix -/

/-- A pair of labels, by the number of each in the items. -/
theorem weight_eq {units : List (List L)} (a b : L) :
    weight units a b =
      (units.map fun u => ((u.count a : ℚ) * u.count b - if a = b then (u.count a : ℚ) else 0) /
        (u.length - 1)).sum := by
  refine congrArg List.sum (List.map_congr_left fun u _ => ?_)
  have hcount := count_orderedPairs u a b
  rw [eq_sub_of_add_eq (show ((orderedPairs u).count (a, b) : ℚ) +
    (if a = b then (u.count a : ℚ) else 0) = u.count a * u.count b by exact_mod_cast hcount)]

theorem weight_comm (units : List (List L)) (a b : L) : weight units a b = weight units b a := by
  rw [weight_eq, weight_eq]
  refine congrArg List.sum (List.map_congr_left fun u _ => ?_)
  by_cases hab : a = b
  · rw [hab]
  · rw [if_neg hab, if_neg (Ne.symm hab), mul_comm]

omit [DecidableEq L] in
theorem sum_sum_list {α : Type*} (T : Finset L) (units : List α) (f : α → L → ℚ) :
    ∑ b ∈ T, (units.map fun u => f u b).sum = (units.map fun u => ∑ b ∈ T, f u b).sum := by
  induction units with
  | nil => simp
  | cons u units ih => simp only [List.map_cons, List.sum_cons, Finset.sum_add_distrib, ih]

section
variable {S : Finset L} {units : List (List L)} (hmem : ∀ u ∈ units, ∀ x ∈ u, x ∈ S)
  (htwo : ∀ u ∈ units, 2 ≤ u.length)
include hmem

include htwo in
/-- A row adds up to the number of times its label occurs. -/
theorem sum_weight {a : L} (ha : a ∈ S) :
    ∑ b ∈ S, weight units a b = units.flatten.count a := by
  simp only [weight_eq]
  rw [sum_sum_list, List.count_flatten, Nat.cast_list_sum, List.map_map]
  refine congrArg List.sum (List.map_congr_left fun u hu => ?_)
  have hlen : (u.length : ℚ) - 1 ≠ 0 := by
    have := htwo u hu
    have hone : (1 : ℚ) < u.length := by exact_mod_cast this
    linarith
  have hsum : ∑ b ∈ S, (u.count b : ℚ) = u.length := by exact_mod_cast sum_count (hmem u hu)
  rw [← Finset.sum_div, Finset.sum_sub_distrib, ← Finset.mul_sum, hsum, Finset.sum_ite_eq,
    if_pos ha, div_eq_iff hlen, Function.comp_apply]
  ring

/-- What lies off the diagonal are the disagreements within the items. -/
theorem sum_weight_ne :
    ∑ a ∈ S, ∑ b ∈ S with a ≠ b, weight units a b =
      (units.map fun u => (disagreements u : ℚ) / (u.length - 1)).sum := by
  simp only [weight_eq, sum_sum_list]
  refine congrArg List.sum (List.map_congr_left fun u hu => ?_)
  rw [disagreements_eq_sum (hmem u hu), Nat.cast_sum, Finset.sum_div]
  refine Finset.sum_congr rfl fun a _ => ?_
  rw [Nat.cast_sum, Finset.sum_div]
  refine Finset.sum_congr rfl fun b hb => ?_
  rw [if_neg (Finset.mem_filter.mp hb).2, sub_zero, Nat.cast_mul]

/-- What is to be expected there are the disagreements among all labels. -/
theorem sum_count_ne (d : ℚ) :
    ∑ a ∈ S, ∑ b ∈ S with a ≠ b, (units.flatten.count a : ℚ) * units.flatten.count b / d =
      disagreements units.flatten / d := by
  have hall : ∀ x ∈ units.flatten, x ∈ S := fun x hx => by
    obtain ⟨u, hu, hxu⟩ := List.mem_flatten.mp hx
    exact hmem u hu x hxu
  rw [disagreements_eq_sum hall, Nat.cast_sum, Finset.sum_div]
  refine Finset.sum_congr rfl fun a _ => ?_
  rw [Nat.cast_sum, Finset.sum_div]
  exact Finset.sum_congr rfl fun b _ => by rw [Nat.cast_mul]

end

/-! ### The matrix as the code reads it -/

section
variable {labels : List L} (hnodup : labels.Nodup)
include hnodup

/-- A sum over the places is a sum over the labels. -/
theorem sum_range_map {f : ℕ → ℚ} {g : L → ℚ}
    (h : ∀ i (hi : i < labels.length), f i = g labels[i]) :
    ((List.range labels.length).map f).sum = ∑ a ∈ labels.toFinset, g a := by
  rw [List.sum_toFinset g hnodup]
  refine congrArg List.sum (List.ext_getElem (by simp) fun i hi hi' => ?_)
  rw [List.getElem_map, List.getElem_range, List.getElem_map]
  exact h i (by simpa using hi)

theorem offDiagonal_eq {f : ℕ → ℕ → ℚ} {g : L → L → ℚ}
    (h : ∀ i j (hi : i < labels.length) (hj : j < labels.length), f i j = g labels[i] labels[j]) :
    offDiagonal labels.length f =
      ∑ a ∈ labels.toFinset, ∑ b ∈ labels.toFinset with a ≠ b, g a b := by
  have hrow : ∀ i, (((List.range labels.length).filter fun j => i ≠ j).map (f i)).sum =
      ((List.range labels.length).map fun j => if i ≠ j then f i j else 0).sum := by
    intro i
    induction List.range labels.length with
    | nil => rfl
    | cons j js ih => by_cases hij : i = j <;> simp_all
  -- the loops of the source as one sum over pairs of positions
  have hsplit : offDiagonal labels.length f =
      ((List.range labels.length).map fun i =>
        ((List.range labels.length).map fun j => if i ≠ j then f i j else 0).sum).sum := by
    rw [offDiagonal, List.flatMap_def, List.sum_flatten, List.map_map]
    exact congrArg List.sum (List.map_congr_left fun i _ => hrow i)
  rw [hsplit]
  refine sum_range_map hnodup fun i hi => ?_
  rw [Finset.sum_filter]
  refine sum_range_map hnodup fun j hj => ?_
  rw [h i j hi hj]
  -- labels differ exactly at different positions, since none occurs twice
  exact if_congr (not_congr (hnodup.getElem_inj_iff).symm) rfl rfl

end

omit [DecidableEq L] in
theorem entry_table {labels : List L} (f : L → L → ℚ) {i j : ℕ} (hi : i < labels.length)
    (hj : j < labels.length) : entry (table labels f) i j = f labels[i] labels[j] := by
  simp [entry, table, hi, hj]

/-! ### Alpha -/

section
variable (str : L → String)

theorem mem_labels {units : List (List L)} {x : L} :
    x ∈ labels str units ↔ x ∈ units.flatten := by
  rw [labels, sortBy, List.mem_insertionSort, List.mem_dedup]

theorem nodup_labels (units : List (List L)) : (labels str units).Nodup :=
  (List.perm_insertionSort _ _).nodup_iff.mpr (List.nodup_dedup _)

/-- The matrix of the items of a table of ratings. -/
theorem coincidence_labels (units : List (List L)) :
    coincidence (labels str units) units = table (labels str units) (weight units) :=
  coincidence_eq (nodup_labels str units) fun _ hu _ hx =>
    (mem_labels str).mpr (List.mem_flatten.mpr ⟨_, hu, hx⟩)

variable {units : List (List L)} (htwo : ∀ u ∈ units, 2 ≤ u.length)

theorem mem_toFinset_labels : ∀ u ∈ units, ∀ x ∈ u, x ∈ (labels str units).toFinset :=
  fun u hu _ hx => List.mem_toFinset.mpr ((mem_labels str).mpr (List.mem_flatten.mpr ⟨u, hu, hx⟩))

include htwo

/-- Each row adds up to the number of times its label occurs. -/
theorem marginals_eq :
    marginals (coincidence (labels str units) units) =
      (labels str units).map fun l => (units.flatten.count l : ℚ) := by
  rw [coincidence_labels, marginals, table, List.map_map]
  refine List.map_congr_left fun a ha => ?_
  rw [Function.comp_apply, ← List.sum_toFinset _ (nodup_labels str units)]
  exact sum_weight (mem_toFinset_labels str) htwo (List.mem_toFinset.mpr ha)

/-- The matrix adds up to the number of labels. -/
theorem nTotal_eq :
    nTotal (coincidence (labels str units) units) = (units.flatten.length : ℚ) := by
  have hall : ∀ x ∈ units.flatten, x ∈ (labels str units).toFinset := fun x hx =>
    List.mem_toFinset.mpr ((mem_labels str).mpr hx)
  rw [nTotal, ← marginals, marginals_eq str htwo, ← List.sum_toFinset _ (nodup_labels str units)]
  exact_mod_cast sum_count hall

omit htwo in
theorem observedDisagreement_eq :
    observedDisagreement (coincidence (labels str units) units) =
      (units.map fun u => (disagreements u : ℚ) / (u.length - 1)).sum := by
  rw [← sum_weight_ne (mem_toFinset_labels str), observedDisagreement, coincidence_labels]
  have hlen : (table (labels str units) (weight units)).length = (labels str units).length :=
    List.length_map _
  rw [hlen]
  exact offDiagonal_eq (nodup_labels str units) fun i j hi hj => entry_table _ hi hj

theorem expectedDisagreement_eq :
    expectedDisagreement (coincidence (labels str units) units) =
      disagreements units.flatten / ((units.flatten.length : ℚ) - 1) := by
  rw [← sum_count_ne (mem_toFinset_labels str), expectedDisagreement, marginals_eq str htwo,
    nTotal_eq str htwo, coincidence_labels]
  have hlen : (table (labels str units) (weight units)).length = (labels str units).length :=
    List.length_map _
  rw [hlen]
  refine offDiagonal_eq (nodup_labels str units) fun i j hi hj => ?_
  simp [hi, hj]

end

/-- Alpha without the matrix: the disagreements within the items, each weighted by its number of
labels, over those among all labels. -/
def alpha (units : List (List L)) : Option ℚ :=
  if disagreements units.flatten = 0 then none
  else some (1 - (units.map fun u => (disagreements u : ℚ) / (u.length - 1)).sum /
    (disagreements units.flatten / ((units.flatten.length : ℚ) - 1)))

omit [DecidableEq L] in
theorem two_le_length_of_mem_units {ratings : List (ι × List (ρ × L))} {u : List L}
    (hu : u ∈ units ratings) : 2 ≤ u.length := by
  simpa using List.of_mem_filter hu

/-- **Alpha without the matrix.** -/
theorem krippendorffAlpha_eq (str : L → String) (ratings : List (ι × List (ρ × L))) :
    krippendorffAlpha str ratings = alpha (units ratings) := by
  have htwo : ∀ u ∈ units ratings, 2 ≤ u.length := fun u hu => two_le_length_of_mem_units hu
  rw [krippendorffAlpha]
  by_cases hempty : units ratings = []
  · rw [if_pos hempty, hempty]
    rfl
  · obtain ⟨u, hu⟩ := List.exists_mem_of_ne_nil _ hempty
    have hlen : 2 ≤ (units ratings).flatten.length :=
      (htwo u hu).trans (List.Sublist.length_le (List.sublist_flatten_of_mem hu))
    have hone : (1 : ℚ) < (units ratings).flatten.length := by exact_mod_cast hlen
    have hpos : ((units ratings).flatten.length : ℚ) - 1 ≠ 0 := by linarith
    rw [if_neg hempty, alpha]
    simp only [observedDisagreement_eq, expectedDisagreement_eq str htwo, div_eq_zero_iff, hpos,
      or_false, Nat.cast_eq_zero]

/-! ### When there is an alpha, and what it says -/

theorem alpha_eq_none_iff {units : List (List L)} :
    alpha units = none ↔ units.flatten.toFinset.card < 2 := by
  have hcard : units.flatten.toFinset.card < 2 ↔ disagreements units.flatten = 0 := by
    rw [Nat.lt_succ_iff, Finset.card_le_one, disagreements_eq_zero_iff]
    simp only [List.mem_toFinset]
  rw [hcard, alpha]
  split <;> simp_all

theorem alpha_le_one {units : List (List L)} (htwo : ∀ u ∈ units, 2 ≤ u.length) {α : ℚ}
    (h : alpha units = some α) :
    α ≤ 1 ∧ (α = 1 ↔ ∀ u ∈ units, ∀ a ∈ u, ∀ b ∈ u, a = b) := by
  unfold alpha at h
  split at h
  · exact absurd h (by simp)
  · next hne =>
    obtain rfl := Option.some_inj.mp h
    -- a unit with two values or more has a positive weight
    have hterm : ∀ u ∈ units, (0 : ℚ) < (u.length : ℚ) - 1 := by
      intro u hu
      have hone : (1 : ℚ) < u.length := by exact_mod_cast htwo u hu
      linarith
    have hnonneg : ∀ q ∈ units.map fun u => (disagreements u : ℚ) / (u.length - 1), 0 ≤ q := by
      intro q hq
      obtain ⟨u, hu, rfl⟩ := List.mem_map.mp hq
      exact div_nonneg (Nat.cast_nonneg _) (hterm u hu).le
    -- some two values differ, so the expected disagreement is not zero
    have hexp : 0 < (disagreements units.flatten : ℚ) / ((units.flatten.length : ℚ) - 1) := by
      have hsome : units.flatten ≠ [] := fun hnil => hne (by rw [hnil]; rfl)
      obtain ⟨x, hx⟩ := List.exists_mem_of_ne_nil _ hsome
      obtain ⟨u, hu, -⟩ := List.mem_flatten.mp hx
      have hlen : u.length ≤ units.flatten.length :=
        List.Sublist.length_le (List.sublist_flatten_of_mem hu)
      have hlen' : (u.length : ℚ) ≤ units.flatten.length := by exact_mod_cast hlen
      have hpos : (0 : ℚ) < disagreements units.flatten := by
        exact_mod_cast Nat.pos_of_ne_zero hne
      exact div_pos hpos (by linarith [hterm u hu])
    refine ⟨by linarith [div_nonneg (List.sum_nonneg hnonneg) hexp.le], ?_⟩
    -- a sum of disagreements is zero only if each is
    have hzero : (units.map fun u => (disagreements u : ℚ) / (u.length - 1)).sum = 0 ↔
        ∀ q ∈ units.map fun u => (disagreements u : ℚ) / (u.length - 1), q = 0 :=
      ⟨fun h _ hq => List.all_zero_of_le_zero_le_of_sum_eq_zero hnonneg h hq,
        fun h => List.sum_eq_zero h⟩
    rw [sub_eq_self, div_eq_zero_iff, or_iff_left hexp.ne', hzero]
    simp only [List.forall_mem_map]
    refine forall₂_congr fun u hu => ?_
    rw [div_eq_zero_iff, or_iff_left (hterm u hu).ne', Nat.cast_eq_zero,
      disagreements_eq_zero_iff]

/-! ### What alpha does not depend on -/

theorem alpha_perm {units units' : List (List L)} (h : units.Perm units') :
    alpha units = alpha units' := by
  unfold alpha
  rw [disagreements_perm h.flatten, h.flatten.length_eq, (h.map _).sum_eq]

/-- The order of the labels of an item. -/
theorem alpha_forall₂ {units units' : List (List L)} (h : List.Forall₂ List.Perm units units') :
    alpha units = alpha units' := by
  have hflat : units.flatten.Perm units'.flatten := by
    induction h with
    | nil => exact List.Perm.refl _
    | cons hu _ ih => exact hu.append ih
  have hsum : (units.map fun u => (disagreements u : ℚ) / (u.length - 1)).sum =
      (units'.map fun u => (disagreements u : ℚ) / (u.length - 1)).sum := by
    clear hflat
    induction h with
    | nil => rfl
    | cons hu _ ih =>
      simp only [List.map_cons, List.sum_cons, ih, disagreements_perm hu, hu.length_eq]
  unfold alpha
  rw [disagreements_perm hflat, hflat.length_eq, hsum]

theorem alpha_map {f : L → L'} (hf : Function.Injective f) (units : List (List L)) :
    alpha (units.map (List.map f)) = alpha units := by
  unfold alpha
  rw [← List.map_flatten, disagreements_map hf, List.map_map, List.length_map]
  simp only [Function.comp_def, disagreements_map hf, List.length_map]

omit [DecidableEq L] in
theorem units_rename (g : ι → ρ → ρ') (ratings : List (ι × List (ρ × L))) :
    units (ratings.map fun item => (item.1, item.2.map fun v => (g item.1 v.1, v.2))) =
      units ratings := by
  simp only [units, List.map_map, Function.comp_def]

omit [DecidableEq L] [DecidableEq L'] in
theorem units_relabel (f : L → L') (ratings : List (ι × List (ρ × L))) :
    units (ratings.map fun item => (item.1, item.2.map fun v => (v.1, f v.2))) =
      (units ratings).map (List.map f) := by
  simp only [units, List.map_map, List.filter_map, Function.comp_def, List.length_map]

omit [DecidableEq L] in
/-- Whoever gave the labels of an item, and in whatever order. -/
theorem forall₂_units {ratings : List (ι × List (ρ × L))} {ratings' : List (κ × List (ρ' × L))}
    (h : List.Forall₂ (fun item item' => (item.2.map Prod.snd).Perm (item'.2.map Prod.snd))
      ratings ratings') : List.Forall₂ List.Perm (units ratings) (units ratings') := by
  unfold units
  induction h with
  | nil => exact List.Forall₂.nil
  | @cons item item' _ _ hitem _ ih =>
    rw [List.map_cons, List.map_cons]
    by_cases hlen : 2 ≤ (item.2.map Prod.snd).length
    · rw [List.filter_cons_of_pos (by simpa using hlen),
        List.filter_cons_of_pos (by simpa [← hitem.length_eq] using hlen)]
      exact List.Forall₂.cons hitem ih
    · rw [List.filter_cons_of_neg (by simpa using hlen),
        List.filter_cons_of_neg (by simpa [← hitem.length_eq] using hlen)]
      exact ih

omit [DecidableEq L] in
theorem units_perm {ratings ratings' : List (ι × List (ρ × L))} (h : ratings.Perm ratings') :
    (units ratings).Perm (units ratings') :=
  (h.map _).filter _

/-! ### Two raters -/

/-- The share of a label among all labels that two raters gave. -/
def pooled (a b : List L) (c : L) : ℚ := ((a ++ b).count c : ℚ) / (2 * a.length)

theorem sum_disagreements_pairs (xys : List (L × L)) :
    ((xys.map fun xy => [xy.1, xy.2]).map fun u =>
      (disagreements u : ℚ) / (u.length - 1)).sum =
      2 * (xys.length - (xys.countP fun xy => xy.1 = xy.2 : ℕ)) := by
  induction xys with
  | nil => simp
  | cons xy xys ih =>
    rw [List.map_cons, List.map_cons, List.sum_cons, ih, List.countP_cons]
    simp only [List.length_cons, List.length_nil]
    -- a pair that differs counts twice, once in each order
    by_cases h : xy.1 = xy.2
    · have hzero : disagreements [xy.1, xy.2] = 0 := by simp [disagreements, h]
      rw [hzero, if_pos (by simpa using h)]
      push_cast
      ring
    · have htwo : disagreements [xy.1, xy.2] = 2 := by
        simp [disagreements, h, Ne.symm h]
      rw [htwo, if_neg (by simpa using h)]
      push_cast
      ring

omit [DecidableEq L] in
theorem flatten_pairs_perm (xys : List (L × L)) :
    (xys.map fun xy => [xy.1, xy.2]).flatten.Perm (xys.map Prod.fst ++ xys.map Prod.snd) := by
  induction xys with
  | nil => exact List.Perm.refl _
  | cons xy xys ih =>
    rw [List.map_cons, List.flatten_cons, List.map_cons, List.map_cons, List.cons_append,
      List.cons_append, List.cons_append, List.nil_append]
    exact ((ih.cons xy.2).trans List.perm_middle.symm).cons xy.1

/-- The shares of the labels make up the disagreements among all of them. -/
theorem one_sub_sum_pooled {a b : List L} (hlen : a.length = b.length) (ha : a ≠ []) :
    1 - ((a ++ b).dedup.map fun c => pooled a b c ^ 2).sum =
      disagreements (a ++ b) / (2 * a.length) ^ 2 := by
  have hn : (a.length : ℚ) ≠ 0 := by
    exact_mod_cast (List.length_pos_of_ne_nil ha).ne'
  have hS : ∀ x ∈ a ++ b, x ∈ (a ++ b).dedup.toFinset := fun x hx => by simpa using hx
  -- the pairs of values that agree and those that do not are all pairs
  have hadd : (disagreements (a ++ b) : ℚ) +
      ∑ c ∈ (a ++ b).dedup.toFinset, ((a ++ b).count c : ℚ) * (a ++ b).count c =
        (2 * a.length) * (2 * a.length) := by
    have hnat := disagreements_add_sum hS
    have htwo : (a ++ b).length = 2 * a.length := by rw [List.length_append, ← hlen, two_mul]
    rw [htwo] at hnat
    exact_mod_cast hnat
  -- those that agree are counted label by label
  have hsquares : ((a ++ b).dedup.map fun c => pooled a b c ^ 2).sum =
      (∑ c ∈ (a ++ b).dedup.toFinset, ((a ++ b).count c : ℚ) * (a ++ b).count c) /
        (2 * a.length) ^ 2 := by
    rw [← List.sum_toFinset _ (List.nodup_dedup _), Finset.sum_div]
    refine Finset.sum_congr rfl fun c _ => ?_
    rw [pooled, div_pow, pow_two ((a ++ b).count c : ℚ)]
  rw [hsquares, eq_div_iff (by positivity), sub_mul, one_mul,
    div_mul_cancel₀ _ (by positivity)]
  linarith

/-- **Alpha of two raters** who both labelled every item. -/
theorem alpha_two_raters {a b : List L} {xys : List (L × L)} (ha : a = xys.map Prod.fst)
    (hb : b = xys.map Prod.snd) {us : List (List L)}
    (hus : List.Forall₂ List.Perm us (xys.map fun xy => [xy.1, xy.2])) {kappa : Option ℚ}
    {observed chance : ℚ} (hkappa : cohenKappa a b = some (kappa, observed, chance)) {α : ℚ}
    (h : alpha us = some α) :
    α = 1 - (2 * a.length - 1) / (2 * a.length) * (1 - observed) /
      (1 - ((a ++ b).dedup.map fun c => pooled a b c ^ 2).sum) := by
  have hlen : a.length = b.length := by rw [ha, hb, List.length_map, List.length_map]
  have hcount : a.length = xys.length := by rw [ha, List.length_map]
  have hzip : a.zip b = xys := by
    rw [ha, hb, List.zip_map']
    exact List.map_id xys
  have hne : a ≠ [] := by
    rintro rfl
    simp [cohenKappa] at hkappa
  have hn : (a.length : ℚ) ≠ 0 := by exact_mod_cast (List.length_pos_of_ne_nil hne).ne'
  -- what `cohenKappa` calls observed is the share of items on which the two agree
  have hobserved : observed = ((xys.countP fun xy => xy.1 = xy.2 : ℕ) : ℚ) / a.length := by
    rw [cohenKappa, if_pos ⟨hlen, hne⟩, hzip] at hkappa
    dsimp only at hkappa
    split at hkappa
    · exact (Prod.ext_iff.mp (Prod.ext_iff.mp (Option.some_inj.mp hkappa)).2).1.symm
    · exact (Prod.ext_iff.mp (Prod.ext_iff.mp (Option.some_inj.mp hkappa)).2).1.symm
  -- the values of all units are those of both raters
  have hflat : (xys.map fun xy => [xy.1, xy.2]).flatten.Perm (a ++ b) := by
    rw [ha, hb]
    exact flatten_pairs_perm xys
  have htotal : (a ++ b).length = 2 * a.length := by rw [List.length_append, ← hlen, two_mul]
  rw [alpha_forall₂ hus, alpha, disagreements_perm hflat, hflat.length_eq, htotal] at h
  -- without any disagreement there is no alpha
  split at h
  · exact absurd h (by simp)
  · next hdis =>
    have hdis' : (disagreements (a ++ b) : ℚ) ≠ 0 := by exact_mod_cast hdis
    rw [one_sub_sum_pooled hlen hne, ← Option.some_inj.mp h, sum_disagreements_pairs, hobserved,
      ← hcount]
    push_cast
    field_simp

/-- **Krippendorff's alpha, for any labels that are missing.** The matrix is symmetric, adds up to
the number of labels in the items that have at least two, and its rows to the occurrences of each
label there. There is no alpha just when these labels are fewer than two different ones; it is at
most one, and one just when every item is unanimous; it does not depend on the raters' names, on
the order of anything, nor on the labels but for which are equal; and for two raters, whom
Cohen's kappa compares whenever they have labelled something, it is what the observed agreement
and the pooled shares of the labels make of it. -/
theorem krippendorff_alpha_nominal (str : L → String) (ratings : List (ι × List (ρ × L))) :
    (∀ i j, i < (labels str (units ratings)).length → j < (labels str (units ratings)).length →
      entry (coincidence (labels str (units ratings)) (units ratings)) i j =
        entry (coincidence (labels str (units ratings)) (units ratings)) j i) ∧
    nTotal (coincidence (labels str (units ratings)) (units ratings)) =
      (units ratings).flatten.length ∧
    marginals (coincidence (labels str (units ratings)) (units ratings)) =
      (labels str (units ratings)).map (fun l => ((units ratings).flatten.count l : ℚ)) ∧
    (krippendorffAlpha str ratings = none ↔ (units ratings).flatten.toFinset.card < 2) ∧
    (∀ α, krippendorffAlpha str ratings = some α →
      α ≤ 1 ∧ (α = 1 ↔ ∀ u ∈ units ratings, ∀ a ∈ u, ∀ b ∈ u, a = b)) ∧
    (∀ g : ι → ρ → ρ', krippendorffAlpha str
      (ratings.map fun item => (item.1, item.2.map fun v => (g item.1 v.1, v.2))) =
        krippendorffAlpha str ratings) ∧
    (∀ ratings' : List (κ × List (ρ' × L)),
      List.Forall₂ (fun item item' => (item.2.map Prod.snd).Perm (item'.2.map Prod.snd))
        ratings ratings' → krippendorffAlpha str ratings' = krippendorffAlpha str ratings) ∧
    (∀ ratings', ratings.Perm ratings' →
      krippendorffAlpha str ratings' = krippendorffAlpha str ratings) ∧
    (∀ (str' : L' → String) (f : L → L'), Function.Injective f → krippendorffAlpha str'
      (ratings.map fun item => (item.1, item.2.map fun v => (v.1, f v.2))) =
        krippendorffAlpha str ratings) ∧
    (∀ a b : List L, a.length = b.length → a ≠ [] → (cohenKappa a b).isSome = true) ∧
    ∀ (r r' : ρ) (xys : List (L × L)),
      List.Forall₂ (fun item xy => item.2.Perm [(r, xy.1), (r', xy.2)]) ratings xys →
      ∀ kappa observed chance, cohenKappa (xys.map Prod.fst) (xys.map Prod.snd) =
        some (kappa, observed, chance) →
      ∀ α, krippendorffAlpha str ratings = some α →
        α = 1 - (2 * xys.length - 1) / (2 * xys.length) * (1 - observed) /
          (1 - ((xys.map Prod.fst ++ xys.map Prod.snd).dedup.map fun l =>
            pooled (xys.map Prod.fst) (xys.map Prod.snd) l ^ 2).sum) := by
  have htwo : ∀ u ∈ units ratings, 2 ≤ u.length := fun u hu => two_le_length_of_mem_units hu
  refine ⟨fun i j hi hj => ?_, nTotal_eq str htwo, marginals_eq str htwo, ?_, fun α hα => ?_,
    fun g => ?_, fun ratings' h => ?_, fun ratings' h => ?_, fun str' f hf => ?_,
    fun a b hlen hne => ?_, ?_⟩
  · rw [coincidence_labels, entry_table _ hi hj, entry_table _ hj hi, weight_comm]
  · rw [krippendorffAlpha_eq, alpha_eq_none_iff]
  · rw [krippendorffAlpha_eq] at hα
    exact alpha_le_one htwo hα
  · rw [krippendorffAlpha_eq, krippendorffAlpha_eq, units_rename]
  · rw [krippendorffAlpha_eq, krippendorffAlpha_eq, alpha_forall₂ (forall₂_units h)]
  · rw [krippendorffAlpha_eq, krippendorffAlpha_eq, alpha_perm (units_perm h)]
  · rw [krippendorffAlpha_eq, krippendorffAlpha_eq, units_relabel, alpha_map hf]
  · rw [cohenKappa, if_pos ⟨hlen, hne⟩]
    dsimp only
    split <;> rfl
  · intro r r' xys h kappa observed chance hkappa α hα
    rw [krippendorffAlpha_eq] at hα
    -- the table with the raters always in the same order
    have hpairs : units (xys.map fun xy => ((), [(r, xy.1), (r', xy.2)])) =
        xys.map fun xy => [xy.1, xy.2] := by
      refine (congrArg (List.filter _) (List.map_map ..)).trans (List.filter_eq_self.mpr ?_)
      exact fun u hu => by
        obtain ⟨xy, -, rfl⟩ := List.mem_map.mp hu
        rfl
    have hus : List.Forall₂ List.Perm (units ratings) (xys.map fun xy => [xy.1, xy.2]) := by
      rw [← hpairs]
      refine forall₂_units (List.forall₂_map_right_iff.mpr (h.imp fun item xy hitem => ?_))
      exact hitem.map Prod.snd
    have hresult := alpha_two_raters rfl rfl hus hkappa hα
    rwa [List.length_map] at hresult

/-- Three items that two raters have labelled, in either order. -/
def twoRaters : List (ℕ × List (Bool × Bool)) :=
  [(0, [(false, true), (true, true)]), (1, [(true, false), (false, true)]),
    (2, [(false, false), (true, false)])]

/-- They agree on two of the three, with each label as often as the other. -/
theorem krippendorff_alpha_nominal_twoRaters :
    (cohenKappa [true, true, false] [true, false, false]).isSome = true ∧
    krippendorffAlpha toString twoRaters = some (4 / 9) ∧
    (4 / 9 : ℚ) = 1 - (2 * (3 : ℕ) - 1) / (2 * (3 : ℕ)) * (1 - 2 / 3) /
      (1 - (([true, true, false] ++ [true, false, false]).dedup.map fun l =>
        pooled [true, true, false] [true, false, false] l ^ 2).sum) := by
  -- the second item lists the raters in the other order
  have hpairs : List.Forall₂
      (fun (item : ℕ × List (Bool × Bool)) (xy : Bool × Bool) =>
        item.2.Perm [(false, xy.1), (true, xy.2)])
      twoRaters [(true, true), (true, false), (false, false)] :=
    .cons (.refl _) (.cons (.swap ..) (.cons (.refl _) .nil))
  have hkappa : cohenKappa [true, true, false] [true, false, false] =
      some (some (2 / 5), 2 / 3, 4 / 9) := by decide +kernel
  have halpha : krippendorffAlpha toString twoRaters = some (4 / 9) := by
    rw [krippendorffAlpha_eq]
    decide +kernel
  obtain ⟨-, -, -, -, -, -, -, -, -, hsome, htwo⟩ :=
    @krippendorff_alpha_nominal ℕ ℕ Bool Bool Bool Bool _ _ toString twoRaters
  exact ⟨hsome _ _ rfl (by decide), halpha, htwo false true _ hpairs _ _ _ hkappa _ halpha⟩

end Evaluation
end SepLab
