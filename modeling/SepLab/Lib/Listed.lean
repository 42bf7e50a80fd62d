import Mathlib.Data.List.Nodup
import Mathlib.Logic.Function.Basic

/-!
# Lists of those who are in a phase

A list of the processes that are in one phase, kept while they change their phases
one at a time: who comes into the phase is put at the end, and who leaves it is
taken out.

## Main definitions

* `Listed xs phase a` — `xs` lists those whose phase is `a`, each once.
* `relist xs i b` — the list with `i` at its end, or without `i`.

## Main results

* `Listed.other`, `Listed.enter`, `Listed.leave` — the list after a change of phase.
* `Listed.relist`, `Listed.length_relist` — the same for any change.
* `countP_update`, `filter_update` — those of any list whose phases a condition picks.
* `mem_iff_update`, `mem_concat_iff_update` — a list of those who have left a phase for good.
-/

namespace SepLab

variable {ι P : Type*} [DecidableEq ι]

omit [DecidableEq ι] in
theorem nodup_append_singleton {xs : List ι} {i : ι} (h : xs.Nodup) (hi : i ∉ xs) :
    (xs ++ [i]).Nodup := by
  rw [← List.concat_eq_append]
  exact h.concat hi

omit [DecidableEq ι] in
/-- The list of those whose phase is `a`. -/
structure Listed (xs : List ι) (phase : ι → P) (a : P) : Prop where
  nodup : xs.Nodup
  mem : ∀ i, i ∈ xs ↔ phase i = a

namespace Listed

variable {xs : List ι} {phase : ι → P} {a p : P} {i : ι}

omit [DecidableEq ι] in
theorem nil (h : ∀ i, phase i ≠ a) : Listed [] phase a where
  nodup := List.nodup_nil
  mem i := iff_of_false List.not_mem_nil (h i)

/-- A change between two other phases. -/
theorem other (h : Listed xs phase a) (hold : phase i ≠ a) (hnew : p ≠ a) :
    Listed xs (Function.update phase i p) a where
  nodup := h.nodup
  mem j := by
    by_cases hj : j = i
    · subst hj
      rw [Function.update_self, h.mem]
      exact iff_of_false hold hnew
    · rw [Function.update_of_ne hj]
      exact h.mem j

/-- Somebody comes into the phase. -/
theorem enter (h : Listed xs phase a) (hold : phase i ≠ a) :
    Listed (xs ++ [i]) (Function.update phase i a) a where
  nodup := nodup_append_singleton h.nodup fun hmem => hold ((h.mem i).mp hmem)
  mem j := by
    rw [List.mem_append, List.mem_singleton]
    by_cases hj : j = i
    · simp [hj]
    · rw [Function.update_of_ne hj, ← h.mem j]
      simp [hj]

/-- Somebody leaves the phase. -/
theorem leave (h : Listed xs phase a) (hnew : p ≠ a) :
    Listed (xs.erase i) (Function.update phase i p) a where
  nodup := h.nodup.erase i
  mem j := by
    rw [h.nodup.mem_erase_iff]
    by_cases hj : j = i
    · simp [hj, hnew]
    · rw [Function.update_of_ne hj, ← h.mem j]
      simp [hj]

/-- The list without somebody in the phase is shorter by one of those that `q` holds of. -/
theorem countP_erase (h : Listed xs phase a) (hphase : phase i = a) (q : ι → Bool) :
    xs.countP q = (xs.erase i).countP q + if q i then 1 else 0 := by
  have hperm := List.perm_cons_erase ((h.mem i).mpr hphase)
  rw [hperm.countP_eq, List.countP_cons]

theorem length_erase (h : Listed xs phase a) (hphase : phase i = a) :
    xs.length = (xs.erase i).length + 1 :=
  (List.perm_cons_erase ((h.mem i).mpr hphase)).length_eq

end Listed

/-- The list with `i` at its end, or without `i`. -/
def relist (xs : List ι) (i : ι) (b : Bool) : List ι :=
  if b then xs.erase i ++ [i] else xs.erase i

namespace Listed

variable {xs : List ι} {phase : ι → P} {a p : P} {i : ι}

/-- The list after any change of phase. -/
theorem relist [DecidableEq P] (h : Listed xs phase a) :
    Listed (relist xs i (p = a)) (Function.update phase i p) a where
  nodup := by
    -- whoever is put back stands at the end once
    unfold SepLab.relist
    split
    · exact nodup_append_singleton (h.nodup.erase i) h.nodup.not_mem_erase
    · exact h.nodup.erase i
  mem j := by
    unfold SepLab.relist
    by_cases hj : j = i
    · subst hj
      -- the one that changes its phase is in the list if the phase is the listed one
      rw [Function.update_self]
      split
      · next hp => simpa using hp
      · next hp =>
        rw [h.nodup.mem_erase_iff]
        simpa using hp
    · rw [Function.update_of_ne hj, ← h.mem j]
      split <;> simp [hj, h.nodup.mem_erase_iff]

/-- How long the list is after a change of phase. -/
theorem length_relist [DecidableEq P] (h : Listed xs phase a) (i : ι) (b : Bool) :
    (SepLab.relist xs i b).length + (if phase i = a then 1 else 0)
      = xs.length + if b then 1 else 0 := by
  have herase : (xs.erase i).length + (if phase i = a then 1 else 0) = xs.length := by
    split
    · next hi => exact (h.length_erase hi).symm
    · next hi => rw [List.erase_of_not_mem fun hmem => hi ((h.mem i).mp hmem), Nat.add_zero]
  unfold SepLab.relist
  split
  · rw [List.length_append, List.length_singleton]
    omega
  · omega

end Listed

/-- A count by phase, after `i` of the list has changed its phase. -/
theorem countP_update {xs : List ι} {f : ι → P} {i : ι} (hnodup : xs.Nodup) (hi : i ∈ xs)
    (q : P → Bool) (p : P) :
    (xs.countP fun j => q (Function.update f i p j)) + (q (f i)).toNat =
      (xs.countP fun j => q (f j)) + (q p).toNat := by
  have hperm := List.perm_cons_erase hi
  have hrest : ((xs.erase i).countP fun j => q (Function.update f i p j)) =
      (xs.erase i).countP fun j => q (f j) := by
    refine List.countP_congr fun j hj => ?_
    have hne : j ≠ i := (hnodup.mem_erase_iff.mp hj).1
    rw [Function.update_of_ne hne]
  rw [hperm.countP_eq, hperm.countP_eq, List.countP_cons, List.countP_cons, hrest,
    Function.update_self]
  cases q (f i) <;> cases q p <;> simp

/-- A sublist by phase, after `i` has changed its phase and not whether it is picked. -/
theorem filter_update {xs : List ι} {f : ι → P} {i : ι} (q : P → Bool) {p : P}
    (h : i ∈ xs → q p = q (f i)) :
    (xs.filter fun j => q (Function.update f i p j)) = xs.filter fun j => q (f j) := by
  refine List.filter_congr fun j hj => ?_
  by_cases hji : j = i
  · subst hji
    rw [Function.update_self, h hj]
  · rw [Function.update_of_ne hji]

/-- A sublist by phase, after `i` has come to a phase that is not picked. -/
theorem filter_update_erase {xs : List ι} {f : ι → P} {i : ι} (hnodup : xs.Nodup) (q : P → Bool)
    {p : P} (h : q p = false) :
    (xs.filter fun j => q (Function.update f i p j)) = (xs.filter fun j => q (f j)).erase i := by
  rw [(hnodup.filter _).erase_eq_filter, List.filter_filter]
  refine List.filter_congr fun j _ => ?_
  by_cases hj : j = i
  · rw [hj, Function.update_self, h]
    simp
  · rw [Function.update_of_ne hj]
    simp [hj]

/-- A count by phase, after `i` has come to the list in a phase that is not counted. -/
theorem countP_concat_update {xs : List ι} {f : ι → P} {i : ι} (hi : i ∉ xs) (q : P → Bool) {p : P}
    (h : q p = false) :
    ((xs ++ [i]).countP fun j => q (Function.update f i p j)) = xs.countP fun j => q (f j) := by
  rw [List.countP_append, List.countP_singleton, Function.update_self, h, if_neg Bool.false_ne_true,
    Nat.add_zero]
  refine List.countP_congr fun j hj => ?_
  have hne : j ≠ i := fun heq => hi (heq ▸ hj)
  rw [Function.update_of_ne hne]

/-! ### Those who have left a phase -/

section Left

variable {xs xs' : List ι} {f : ι → P} {i : ι} {a b p : P}

/-- Somebody who has left the phase `a` goes on. -/
theorem mem_iff_update (h : ∀ j, j ∈ xs ↔ f j ≠ a) (hi : f i ≠ a) (hp : p ≠ a) (j : ι) :
    j ∈ xs ↔ Function.update f i p j ≠ a := by
  rw [h]
  by_cases hj : j = i
  · rw [hj, Function.update_self]
    exact iff_of_true hi hp
  · rw [Function.update_of_ne hj]

/-- Somebody leaves the phase `a`. -/
theorem mem_concat_iff_update (h : ∀ j, j ∈ xs ↔ f j ≠ a) (hp : p ≠ a) (j : ι) :
    j ∈ xs ++ [i] ↔ Function.update f i p j ≠ a := by
  rw [List.mem_append, List.mem_singleton, h]
  by_cases hj : j = i
  · rw [hj, Function.update_self]
    exact iff_of_true (Or.inr rfl) hp
  · rw [Function.update_of_ne hj, or_iff_left hj]

omit [DecidableEq ι] in
/-- Those who come to the list come from the phase `b`, in which nobody on it is. -/
theorem nodup_of_come (h : xs.Nodup) (hf : ∀ j ∈ xs, f j ≠ b)
    (hxs : xs' = xs ∨ xs' = xs ++ [i] ∧ f i = b) : xs'.Nodup := by
  rcases hxs with rfl | ⟨rfl, hi⟩
  · exact h
  · exact nodup_append_singleton h fun hmem => hf i hmem hi

/-- Whoever is on the list stays out of a phase that nobody comes to. -/
theorem ne_of_come (hf : ∀ j ∈ xs, f j ≠ a) (hp : p ≠ a) (hxs : xs' = xs ∨ xs' = xs ++ [i])
    {j : ι} (hj : j ∈ xs') : Function.update f i p j ≠ a := by
  by_cases hji : j = i
  · rw [hji, Function.update_self]
    exact hp
  · rw [Function.update_of_ne hji]
    refine hf j ?_
    rcases hxs with rfl | rfl
    · exact hj
    · rw [List.mem_append, List.mem_singleton] at hj
      exact hj.resolve_right hji

/-- A flag that is set in the phase `a`. -/
theorem flag_update [DecidableEq P] {flag : ι → Bool} (h : ∀ j, flag j = true ↔ f j = a) (j : ι) :
    Function.update flag i (decide (p = a)) j = true ↔ Function.update f i p j = a := by
  by_cases hj : j = i
  · rw [hj, Function.update_self, Function.update_self, decide_eq_true_eq]
  · rw [Function.update_of_ne hj, Function.update_of_ne hj, h]

theorem flag_other {flag : ι → Bool} (h : ∀ j, flag j = true ↔ f j = a) (hi : f i ≠ a) :
    flag = Function.update flag i false := by
  refine (Function.update_eq_self_iff.mpr ?_).symm
  exact (Bool.eq_false_iff.mpr fun ht => hi ((h i).mp ht)).symm

end Left
end SepLab
