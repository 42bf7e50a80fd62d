import Mathlib.Algebra.BigOperators.Group.List.Basic
import Mathlib.Algebra.Group.Basic
import Mathlib.Algebra.Group.Hom.Defs
import Mathlib.Data.List.Induction
import Mathlib.Tactic.Tauto

/-!
# Tallies

A dictionary that adds up the values of each key, with its keys in the order of their
first arrival, and the sums that it is meant to hold.

## Main definitions

* `bump k v d` — the dictionary after `v` has been added to the entry of `k`.
* `group f d` — the tally of the entries under a coarser key.
* `relabel f φ d` — other keys, and the values under a homomorphism.
* `arrivals ks` — the distinct keys in order of first arrival.
* `sumOf p h`, `share k h` — the sum of the values of a history whose keys meet `p`, or are `k`.
* `rows f ks` — the dictionary with the keys `ks` and the values `f`.

## Main results

* `bump_rows` — adding to one row.
* `total_bump`, `total_group` — totals.
* `total_rows` — the rows of distinct keys add up to what came under these keys.
* `sumOf_relabel`, `group_relabel` — sums under other keys.
-/

namespace SepLab
namespace Tally

variable {κ ν M : Type*} [DecidableEq κ] [DecidableEq ν]

/-! ### Arrivals -/

/-- The distinct keys in order of first arrival. -/
def arrivals (ks : List κ) : List κ :=
  ks.foldl (fun seen k => if k ∈ seen then seen else seen ++ [k]) []

@[simp] theorem arrivals_nil : arrivals ([] : List κ) = [] := rfl

theorem arrivals_concat (ks : List κ) (k : κ) :
    arrivals (ks ++ [k]) = if k ∈ arrivals ks then arrivals ks else arrivals ks ++ [k] := by
  unfold arrivals
  rw [List.foldl_append]
  rfl

theorem mem_arrivals {ks : List κ} {k : κ} : k ∈ arrivals ks ↔ k ∈ ks := by
  induction ks using List.reverseRecOn with
  | nil => rfl
  | append_singleton ks k' ih =>
    rw [arrivals_concat, List.mem_append, List.mem_singleton, ← ih]
    split
    · next hk' =>
      constructor
      · exact Or.inl
      · rintro (hk | rfl)
        · exact hk
        · exact hk'
    · rw [List.mem_append, List.mem_singleton]

theorem nodup_arrivals (ks : List κ) : (arrivals ks).Nodup := by
  induction ks using List.reverseRecOn with
  | nil => exact List.nodup_nil
  | append_singleton ks k ih =>
    rw [arrivals_concat]
    split
    · exact ih
    · next hk =>
      rw [List.nodup_append]
      refine ⟨ih, List.pairwise_singleton _ _, ?_⟩
      intro a ha b hb hab
      rw [hab, List.mem_singleton.mp hb] at ha
      exact hk ha

/-! ### Dictionaries -/

/-- The keys of a dictionary. -/
def keys (d : List (κ × M)) : List κ := d.map Prod.fst

/-- The dictionary with the keys `ks` and the values `f`. -/
def rows (f : κ → M) (ks : List κ) : List (κ × M) := ks.map fun k => (k, f k)

omit [DecidableEq κ] in
@[simp] theorem keys_append (d e : List (κ × M)) : keys (d ++ e) = keys d ++ keys e :=
  List.map_append

omit [DecidableEq κ] in
@[simp] theorem keys_rows (f : κ → M) (ks : List κ) : keys (rows f ks) = ks := by
  unfold keys rows
  rw [List.map_map]
  exact List.map_id ks

omit [DecidableEq κ] in
@[simp] theorem length_rows (f : κ → M) (ks : List κ) : (rows f ks).length = ks.length :=
  List.length_map _

omit [DecidableEq κ] in
theorem rows_concat (f : κ → M) (ks : List κ) (k : κ) :
    rows f (ks ++ [k]) = rows f ks ++ [(k, f k)] :=
  List.map_append

omit [DecidableEq κ] in
/-- Rows depend on the values of their keys only. -/
theorem rows_congr {f g : κ → M} {ks : List κ} (h : ∀ k ∈ ks, f k = g k) : rows f ks = rows g ks :=
  List.map_congr_left fun k hk => by rw [h k hk]

omit [DecidableEq κ] in
/-- The value of a row. -/
theorem lookup_rows [BEq κ] [LawfulBEq κ] {f : κ → M} {ks : List κ} {k : κ} (h : k ∈ ks)
    (d : List (κ × M)) : (rows f ks ++ d).lookup k = some (f k) := by
  induction ks with
  | nil => exact absurd h List.not_mem_nil
  | cons k' ks ih =>
    show ((k', f k') :: (rows f ks ++ d)).lookup k = _
    by_cases hk : k = k'
    · subst hk
      rw [List.lookup_cons_self]
    · rw [List.lookup_cons, beq_false_of_ne hk]
      exact ih ((List.mem_cons.mp h).resolve_left hk)

omit [DecidableEq κ] in
/-- A key without an entry. -/
theorem lookup_append_of_notMem [BEq κ] [LawfulBEq κ] {d e : List (κ × M)} {k : κ}
    (h : k ∉ keys d) : (d ++ e).lookup k = e.lookup k := by
  induction d with
  | nil => rfl
  | cons p d ih =>
    obtain ⟨k', m⟩ := p
    obtain ⟨hne, hd⟩ := not_or.mp (mt List.mem_cons.mpr h)
    rw [List.cons_append, List.lookup_cons, beq_false_of_ne hne]
    exact ih hd

variable [AddCommMonoid M]

/-- `d[k] = d.get(k, 0) + v`; a new key is the last one. -/
def bump (k : κ) (v : M) : List (κ × M) → List (κ × M)
  | [] => [(k, v)]
  | (k', m) :: d => if k' = k then (k', m + v) :: d else (k', m) :: bump k v d

/-- The sum of all values. -/
def total (d : List (κ × M)) : M := (d.map Prod.snd).sum

omit [DecidableEq κ] in
@[simp] theorem total_nil : total ([] : List (κ × M)) = 0 := rfl

omit [DecidableEq κ] in
@[simp] theorem total_cons (k : κ) (m : M) (d : List (κ × M)) :
    total ((k, m) :: d) = m + total d := List.sum_cons

omit [DecidableEq κ] in
@[simp] theorem total_append (d e : List (κ × M)) : total (d ++ e) = total d + total e := by
  unfold total
  rw [List.map_append, List.sum_append]

/-- Whatever the key, the value is added to the total. -/
theorem total_bump (k : κ) (v : M) (d : List (κ × M)) : total (bump k v d) = total d + v := by
  induction d with
  | nil => simp [bump]
  | cons p d ih =>
    obtain ⟨k', m⟩ := p
    unfold bump
    split
    · rw [total_cons, total_cons, add_right_comm]
    · rw [total_cons, total_cons, ih, add_assoc]

/-- Adding to a key brings no other one. -/
theorem mem_keys_bump {k k' : κ} {v : M} {d : List (κ × M)} :
    k' ∈ keys (bump k v d) ↔ k' = k ∨ k' ∈ keys d := by
  induction d with
  | nil => simp [bump, keys]
  | cons p d ih =>
    obtain ⟨k₀, m⟩ := p
    unfold bump
    by_cases hk : k₀ = k
    · subst hk
      rw [if_pos rfl]
      simp [keys]
    · rw [if_neg hk]
      show k' ∈ k₀ :: keys (bump k v d) ↔ k' = k ∨ k' ∈ k₀ :: keys d
      rw [List.mem_cons, List.mem_cons, ih]
      tauto

/-- The entry is behind what has no entry for the key. -/
theorem bump_append_of_notMem {d e : List (κ × M)} {k : κ} {v : M} (h : k ∉ keys d) :
    bump k v (d ++ e) = d ++ bump k v e := by
  induction d with
  | nil => rfl
  | cons p d ih =>
    obtain ⟨k', m⟩ := p
    obtain ⟨hne, hd⟩ := not_or.mp (mt List.mem_cons.mpr h)
    rw [List.cons_append, bump, if_neg (Ne.symm hne), ih hd]
    rfl

/-- **Adding to one row.** -/
theorem bump_rows {f : κ → M} {ks : List κ} {k : κ} (hk : k ∈ ks) (hnodup : ks.Nodup) (v : M)
    (d : List (κ × M)) :
    bump k v (rows f ks ++ d) = rows (fun k' => if k' = k then f k' + v else f k') ks ++ d := by
  induction ks with
  | nil => exact absurd hk List.not_mem_nil
  | cons k' ks ih =>
    obtain ⟨hnot, hks⟩ := List.nodup_cons.mp hnodup
    show bump k v ((k', f k') :: (rows f ks ++ d)) =
      (k', if k' = k then f k' + v else f k') :: (rows _ ks ++ d)
    unfold bump
    by_cases heq : k' = k
    · subst heq
      have hrest : rows (fun k => if k = k' then f k + v else f k) ks = rows f ks :=
        rows_congr fun k hk => if_neg fun h : k = k' => hnot (h ▸ hk)
      rw [if_pos rfl, if_pos rfl, hrest]
    · rw [if_neg heq, if_neg heq, ih ((List.mem_cons.mp hk).resolve_left (Ne.symm heq)) hks]

/-! ### Sums of a history -/

/-- The sum of the values whose keys meet `p`. -/
def sumOf (p : κ → Bool) (h : List (κ × M)) : M := total (h.filter fun e => p e.1)

omit [DecidableEq κ] in
@[simp] theorem sumOf_nil (p : κ → Bool) : sumOf p ([] : List (κ × M)) = 0 := rfl

omit [DecidableEq κ] in
theorem sumOf_cons (p : κ → Bool) (k : κ) (v : M) (h : List (κ × M)) :
    sumOf p ((k, v) :: h) = (if p k then v else 0) + sumOf p h := by
  unfold sumOf
  rw [List.filter_cons]
  split
  · exact total_cons ..
  · rw [zero_add]

omit [DecidableEq κ] in
theorem sumOf_concat (p : κ → Bool) (h : List (κ × M)) (k : κ) (v : M) :
    sumOf p (h ++ [(k, v)]) = sumOf p h + if p k then v else 0 := by
  unfold sumOf
  rw [List.filter_append, total_append, List.filter_singleton]
  cases p k <;> simp

omit [DecidableEq κ] in
theorem sumOf_congr {p q : κ → Bool} {h : List (κ × M)} (hpq : ∀ k ∈ keys h, p k = q k) :
    sumOf p h = sumOf q h := by
  unfold sumOf
  congr 1
  exact List.filter_congr fun e he => hpq e.1 (List.mem_map_of_mem he)

omit [DecidableEq κ] in
/-- Where no key meets the condition there is nothing to add. -/
theorem sumOf_eq_zero {p : κ → Bool} {h : List (κ × M)} (hp : ∀ k ∈ keys h, p k = false) :
    sumOf p h = 0 := by
  rw [sumOf_congr hp]
  unfold sumOf
  simp

omit [DecidableEq κ] in
/-- Where all keys meet the condition everything is added. -/
theorem sumOf_eq_total {p : κ → Bool} {h : List (κ × M)} (hp : ∀ k ∈ keys h, p k = true) :
    sumOf p h = total h := by
  rw [sumOf_congr hp]
  unfold sumOf
  simp

omit [DecidableEq κ] in
theorem sumOf_append (p : κ → Bool) (h h' : List (κ × M)) :
    sumOf p (h ++ h') = sumOf p h + sumOf p h' := by
  unfold sumOf
  rw [List.filter_append, total_append]

omit [DecidableEq κ] in
/-- Conditions that exclude one another. -/
theorem sumOf_add_sumOf {p q : κ → Bool} (hpq : ∀ k, p k = true → q k = false)
    (h : List (κ × M)) : sumOf p h + sumOf q h = sumOf (fun k => p k || q k) h := by
  induction h with
  | nil => simp
  | cons e h ih =>
    obtain ⟨k, v⟩ := e
    rw [sumOf_cons, sumOf_cons, sumOf_cons, ← ih]
    cases hp : p k with
    | false => simp [add_left_comm]
    | true => simp [hpq k hp, add_assoc]

omit [DecidableEq κ] in
/-- A sum is the part that meets a condition and the part that does not. -/
theorem sumOf_add_sumOf_not (p : κ → Bool) (h : List (κ × M)) :
    sumOf p h + sumOf (fun k => !p k) h = total h := by
  rw [sumOf_add_sumOf fun k hk => by rw [hk]; rfl]
  unfold sumOf
  simp

/-- The sum of the values of one key. -/
def share (k : κ) (h : List (κ × M)) : M := sumOf (fun k' => decide (k' = k)) h

/-- **The rows of distinct keys add up to what came under these keys.** -/
theorem total_rows {ks : List κ} (hnodup : ks.Nodup) (h : List (κ × M)) :
    total (rows (fun k => share k h) ks) = sumOf (fun k => decide (k ∈ ks)) h := by
  induction ks with
  | nil =>
    rw [sumOf_eq_zero fun k _ => decide_eq_false List.not_mem_nil]
    rfl
  | cons k ks ih =>
    obtain ⟨hnot, hks⟩ := List.nodup_cons.mp hnodup
    have hpq : ∀ k', decide (k' = k) = true → decide (k' ∈ ks) = false := by
      intro k' hk'
      rw [of_decide_eq_true hk']
      exact decide_eq_false hnot
    show total ((k, share k h) :: rows _ ks) = _
    rw [total_cons, ih hks, share, sumOf_add_sumOf hpq]
    exact sumOf_congr fun k' _ => by simp

/-! ### Coarser keys -/

/-- The tally of the entries under the keys that `f` gives them; those without one are left
out. -/
def group (f : κ → Option ν) (d : List (κ × M)) : List (ν × M) :=
  d.foldl (fun out e => (f e.1).elim out fun x => bump x e.2 out) []

omit [DecidableEq κ] in
theorem group_concat (f : κ → Option ν) (d : List (κ × M)) (k : κ) (m : M) :
    group f (d ++ [(k, m)]) = (f k).elim (group f d) fun x => bump x m (group f d) := by
  unfold group
  rw [List.foldl_append]
  rfl

omit [DecidableEq κ] in
/-- What is left out is missing from the total. -/
theorem total_group (f : κ → Option ν) (d : List (κ × M)) :
    total (group f d) = sumOf (fun k => (f k).isSome) d := by
  induction d using List.reverseRecOn with
  | nil => rfl
  | append_singleton d e ih =>
    obtain ⟨k, m⟩ := e
    rw [group_concat, sumOf_concat, ← ih]
    cases f k with
    | none => simp
    | some x => simp [total_bump]

/-! ### Other keys and values -/

variable {κ' ν' N : Type*} [DecidableEq κ'] [DecidableEq ν'] [AddCommMonoid N]

/-- Other keys, and the values under a homomorphism. -/
def relabel (f : κ → κ') (φ : M →+ N) (d : List (κ × M)) : List (κ' × N) :=
  d.map fun e => (f e.1, φ e.2)

omit [DecidableEq κ] [DecidableEq κ'] in
@[simp] theorem relabel_nil (f : κ → κ') (φ : M →+ N) : relabel f φ ([] : List (κ × M)) = [] := rfl

omit [DecidableEq κ] [DecidableEq κ'] in
@[simp] theorem relabel_cons (f : κ → κ') (φ : M →+ N) (k : κ) (m : M) (d : List (κ × M)) :
    relabel f φ ((k, m) :: d) = (f k, φ m) :: relabel f φ d := rfl

omit [DecidableEq κ] [DecidableEq κ'] in
theorem relabel_append (f : κ → κ') (φ : M →+ N) (d e : List (κ × M)) :
    relabel f φ (d ++ e) = relabel f φ d ++ relabel f φ e :=
  List.map_append

omit [DecidableEq κ] [DecidableEq κ'] in
theorem keys_relabel (f : κ → κ') (φ : M →+ N) (d : List (κ × M)) :
    keys (relabel f φ d) = (keys d).map f := by
  unfold keys relabel
  rw [List.map_map, List.map_map]
  rfl

omit [DecidableEq κ] [DecidableEq κ'] in
/-- The rows of other keys. -/
theorem relabel_rows (f : κ → κ') (φ : M →+ N) (g : κ → M) (ks : List κ) :
    relabel f φ (rows g ks) = ks.map fun k => (f k, φ (g k)) := by
  unfold relabel rows
  rw [List.map_map]
  rfl

omit [DecidableEq κ] [DecidableEq κ'] in
theorem sumOf_relabel (f : κ → κ') (φ : M →+ N) (p : κ' → Bool) (h : List (κ × M)) :
    sumOf p (relabel f φ h) = φ (sumOf (fun k => p (f k)) h) := by
  induction h with
  | nil => exact (map_zero φ).symm
  | cons e h ih =>
    obtain ⟨k, m⟩ := e
    rw [relabel_cons, sumOf_cons, sumOf_cons, ih, map_add]
    split
    · rfl
    · rw [map_zero]

omit [DecidableEq κ] [DecidableEq κ'] in
theorem total_relabel (f : κ → κ') (φ : M →+ N) (h : List (κ × M)) :
    total (relabel f φ h) = φ (total h) := by
  induction h with
  | nil => exact (map_zero φ).symm
  | cons e h ih =>
    obtain ⟨k, m⟩ := e
    rw [relabel_cons, total_cons, total_cons, ih, map_add]

/-- Adding under another name for the key. -/
theorem bump_relabel {f : κ → κ'} (hf : Function.Injective f) (φ : M →+ N) (k : κ) (v : M)
    (d : List (κ × M)) : bump (f k) (φ v) (relabel f φ d) = relabel f φ (bump k v d) := by
  induction d with
  | nil => rfl
  | cons e d ih =>
    obtain ⟨k', m⟩ := e
    rw [relabel_cons, bump, bump]
    by_cases hk : k' = k
    · rw [if_pos (congrArg f hk), if_pos hk, relabel_cons, map_add]
    · rw [if_neg fun h => hk (hf h), if_neg hk, relabel_cons, ih]

omit [DecidableEq κ] [DecidableEq κ'] in
/-- **Coarser keys under other names.** -/
theorem group_relabel {f : κ → κ'} {g : κ → Option ν} {g' : κ' → Option ν'} {x : ν → ν'}
    (hx : Function.Injective x) (φ : M →+ N) {d : List (κ × M)}
    (hg : ∀ k ∈ keys d, g' (f k) = (g k).map x) :
    group g' (relabel f φ d) = relabel x φ (group g d) := by
  induction d using List.reverseRecOn with
  | nil => rfl
  | append_singleton d e ih =>
    obtain ⟨k, m⟩ := e
    rw [keys_append] at hg
    have hk := hg k (List.mem_append_right _ (List.mem_singleton_self _))
    rw [relabel_append, relabel_cons, relabel_nil, group_concat, group_concat, hk,
      ih fun k' hk' => hg k' (List.mem_append_left _ hk')]
    cases g k with
    | none => rfl
    | some y => exact bump_relabel hx φ y m (group g d)

end Tally
end SepLab
