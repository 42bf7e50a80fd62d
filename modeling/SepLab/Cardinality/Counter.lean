import Mathlib.Data.String.Basic
import Mathlib.Order.RelClasses
import SepLab.Cardinality.Series

/-!
# The counter of the Python program

The cardinality topic's `Counter`, whose keys are the sorted attributes of an addition.

## Main definitions

* `Attributes`, `Counter.add`, `Counter.sumBy` — the methods.
* `LosesNothing yes limit calls c` — what the counter is meant to hold after the calls.

## Main results

* `Attributes.key_eq_iff` — keys are equal just when the attribute sets are.
* `losesNothing_addAll` — **nothing is lost**.
* `not_total_sumBy` — the label that the overflow series itself carries.
-/

namespace SepLab
namespace Cardinality

open Tally

variable {M : Type} [AddCommMonoid M]

/-- Keyword arguments: no name comes twice. -/
structure Attributes (V : Type) where
  items : List (String × V)
  nodup : (items.map Prod.fst).Nodup

variable {V : Type} [DecidableEq V]

/-- `tuple(sorted(attributes.items()))`; as names are distinct, values are never compared. -/
def Attributes.key (a : Attributes V) : List (String × V) :=
  a.items.mergeSort fun p q => decide (p.1 ≤ q.1)

/-- `OVERFLOW`, where `yes` is `True`. -/
def overflowKey (yes : V) : List (String × V) := [("otel.metric.overflow", yes)]

/-- `add` -/
def Counter.add (yes : V) (c : Counter (List (String × V)) M) (value : M) (a : Attributes V) :
    Counter (List (String × V)) M :=
  c.addKey (overflowKey yes) value a.key

/-- `sum_by` -/
def Counter.sumBy (c : Counter (List (String × V)) M) (label : String) : List (V × M) :=
  group (fun key => key.lookup label) c.series

/-- Calls of `add` on a new counter. -/
def addAll (yes : V) (limit : Option ℤ) (calls : List (Attributes V × M)) :
    Counter (List (String × V)) M :=
  calls.foldl (fun c e => c.add yes e.2 e.1) (.init limit)

/-- The keys and values of the calls. -/
def history (calls : List (Attributes V × M)) : List (List (String × V) × M) :=
  calls.map fun e => (e.1.key, e.2)

theorem addAll_eq_run (yes : V) (limit : Option ℤ) (calls : List (Attributes V × M)) :
    addAll yes limit calls = .run (overflowKey yes) limit (history calls) := by
  unfold addAll Counter.run history
  rw [List.foldl_map]
  rfl

omit [DecidableEq V] in
theorem Attributes.key_perm (a : Attributes V) : a.key.Perm a.items := List.mergeSort_perm _ _

omit [DecidableEq V] in
/-- A key is in the order of the names. -/
theorem Attributes.sorted_key (a : Attributes V) : a.key.Pairwise fun p q => p.1 ≤ q.1 := by
  have hsorted : a.key.Pairwise fun p q => decide (p.1 ≤ q.1) = true := by
    apply List.pairwise_mergeSort
    · intro p q r hpq hqr
      exact decide_eq_true (le_trans (of_decide_eq_true hpq) (of_decide_eq_true hqr))
    · intro p q
      simpa using le_total p.1 q.1
  exact hsorted.imp fun hle => of_decide_eq_true hle

omit [DecidableEq V] in
/-- **Keys are equal just when the attribute sets are**, in whatever order they are given. -/
theorem Attributes.key_eq_iff {a b : Attributes V} : a.key = b.key ↔ a.items.Perm b.items := by
  constructor
  · intro h
    have ha := a.key_perm
    rw [h] at ha
    exact ha.symm.trans b.key_perm
  · intro h
    have hperm : a.key.Perm b.key := a.key_perm.trans (h.trans b.key_perm.symm)
    refine List.Perm.eq_of_pairwise ?_ a.sorted_key b.sorted_key hperm
    -- equal names, and so one entry
    intro p q hp hq hpq hqp
    have hp' : p ∈ b.items := h.subset (a.key_perm.subset hp)
    exact List.inj_on_of_nodup_map b.nodup hp' (b.key_perm.subset hq) (le_antisymm hpq hqp)

omit [DecidableEq V] in
theorem Attributes.lookup_key_isSome {a : Attributes V} {label : String} :
    (a.key.lookup label).isSome = true ↔ label ∈ a.items.map Prod.fst := by
  rw [List.lookup_isSome_iff, List.mem_map]
  constructor
  · rintro ⟨p, hp, heq⟩
    exact ⟨p, a.key_perm.subset hp, (eq_of_beq heq).symm⟩
  · rintro ⟨p, hp, rfl⟩
    exact ⟨p, a.key_perm.symm.subset hp, beq_self_eq_true _⟩

omit [DecidableEq V] in
/-- `dict(key)` is the attributes again. -/
theorem Attributes.lookup_key {a : Attributes V} {label : String} {x : V} :
    a.key.lookup label = some x ↔ (label, x) ∈ a.items := by
  have hmem : ∀ y, a.key.lookup label = some y → (label, y) ∈ a.items := by
    intro y hy
    obtain ⟨l₁, l₂, hkey, -⟩ := List.lookup_eq_some_iff.mp hy
    apply a.key_perm.subset
    rw [hkey]
    exact List.mem_append_right _ List.mem_cons_self
  constructor
  · exact hmem x
  · intro hx
    have hsome : (a.key.lookup label).isSome = true :=
      lookup_key_isSome.mpr (List.mem_map_of_mem hx)
    obtain ⟨y, hy⟩ := Option.isSome_iff_exists.mp hsome
    have heq := List.inj_on_of_nodup_map a.nodup hx (hmem y hy) rfl
    rw [hy, (Prod.mk.inj heq).2]

/-- What the counter is meant to hold after the calls. -/
structure LosesNothing (yes : V) (limit : Option ℤ) (calls : List (Attributes V × M))
    (c : Counter (List (String × V)) M) : Prop where
  /-- All series together, the overflow series included, are all that was added. -/
  total : c.total = (calls.map Prod.snd).sum
  bounded : ∀ n, limit = some n → 1 ≤ n → (c.series.length : ℤ) ≤ n
  /-- The first sets have series of their own. -/
  kept : ∀ k ∈ admitted limit (sets (history calls)),
    c.series.lookup k = some (share k (history calls))
  unlimited : limit = none ∨ limit = some 0 → ∀ k ∈ sets (history calls),
    c.series.lookup k = some (share k (history calls))
  rejected : ∀ k, k ∈ c.rejectedAttributeSets ↔
    k ∈ sets (history calls) ∧ k ∉ admitted limit (sets (history calls))
  /-- What came with the others is what overflowed, and the value of the overflow series. -/
  overflowed : c.overflowedMeasurements = spilt limit (history calls)
  overflowSeries : (c.series.lookup (overflowKey yes)).getD 0 = c.overflowedMeasurements
  /-- A label that all sets carry, unless it is that of the overflow series. -/
  byLabel : ∀ label, label ≠ "otel.metric.overflow" →
    (∀ e ∈ calls, label ∈ e.1.items.map Prod.fst) →
      Tally.total (c.sumBy label) + c.overflowedMeasurements = c.total

omit [DecidableEq V] [AddCommMonoid M] in
theorem keys_history (calls : List (Attributes V × M)) :
    keys (history calls) = calls.map fun e => e.1.key := by
  unfold keys history
  rw [List.map_map]
  rfl

omit [DecidableEq V] in
theorem total_history (calls : List (Attributes V × M)) :
    Tally.total (history calls) = (calls.map Prod.snd).sum := by
  unfold Tally.total history
  rw [List.map_map]
  rfl

/-- A label that all sets carry is missing from the overflow series alone. -/
theorem total_sumBy {yes : V} {limit : Option ℤ} {calls : List (Attributes V × M)}
    {label : String} (hlabel : label ≠ "otel.metric.overflow")
    (hall : ∀ e ∈ calls, label ∈ e.1.items.map Prod.fst) :
    Tally.total ((holding (overflowKey yes) limit (history calls)).sumBy label) +
      spilt limit (history calls) = Tally.total (history calls) := by
  -- a series of its own has the label, and the overflow series has not
  have hcarried : ∀ k ∈ kept limit (history calls), (k.lookup label).isSome = true := by
    intro k hk
    have hmem : k ∈ keys (history calls) := mem_sets.mp (mem_of_mem_admitted hk)
    rw [keys_history] at hmem
    obtain ⟨e, he, rfl⟩ := List.mem_map.mp hmem
    exact Attributes.lookup_key_isSome.mpr (hall e he)
  have hmissing : ((overflowKey yes).lookup label).isSome = false := by
    unfold overflowKey
    rw [List.lookup_cons, beq_false_of_ne hlabel]
    rfl
  have hrows : sumOf (fun k => (k.lookup label).isSome)
      (rows (fun k => share k (history calls)) (kept limit (history calls))) =
      Tally.total (rows (fun k => share k (history calls)) (kept limit (history calls))) := by
    apply sumOf_eq_total
    rwa [keys_rows]
  -- so that the overflow row falls out of the sum, and it is what was spilt
  have hrow : sumOf (fun k => (k.lookup label).isSome)
      (overflowRow (overflowKey yes) limit (history calls)) = 0 := by
    apply sumOf_eq_zero
    intro k hk
    unfold overflowRow at hk
    split at hk
    · rw [List.mem_singleton.mp hk]
      exact hmissing
    · exact absurd hk List.not_mem_nil
  unfold Counter.sumBy
  rw [total_group]
  show sumOf _ (rows _ _ ++ _) + _ = _
  rw [sumOf_append, hrows, hrow, add_zero, total_rows_add_spilt]

/-- **The counter loses nothing**, unless somebody adds to the overflow series itself. -/
theorem losesNothing_addAll (yes : V) (limit : Option ℤ) (calls : List (Attributes V × M))
    -- the overflow key is nobody's own, which is what the general counter asks for
    (h : ∀ e ∈ calls, e.1.key ≠ overflowKey yes) :
    LosesNothing yes limit calls (addAll yes limit calls) := by
  have ho : overflowKey yes ∉ keys (history calls) := by
    rw [keys_history]
    intro hmem
    obtain ⟨e, he, heq⟩ := List.mem_map.mp hmem
    exact h e he heq
  rw [addAll_eq_run, Counter.run_eq limit ho]
  constructor
  · rw [total_holding, total_history]
  · rintro n rfl hn
    exact length_holding_le hn _
  · intro k hk
    exact lookup_rows hk _
  · intro hlimit k hk
    have hall : kept limit (history calls) = sets (history calls) := by
      rcases hlimit with rfl | rfl <;> rfl
    rw [← hall] at hk
    exact lookup_rows hk _
  · intro k
    rw [mem_sets]
    exact mem_rejected
  · rfl
  · exact lookup_overflow ho
  · intro label hlabel hall
    rw [total_holding]
    exact total_sumBy hlabel hall

/-- Two customers and a limit of two: one of them overflows. -/
theorem losesNothing_addAll_two :
    LosesNothing true (some 2) [(⟨[("a", true)], by simp⟩, (5 : ℤ)), (⟨[("b", true)], by simp⟩, 7)]
      (addAll true (some 2)
        [(⟨[("a", true)], by simp⟩, (5 : ℤ)), (⟨[("b", true)], by simp⟩, 7)]) := by
  apply losesNothing_addAll
  simp [Attributes.key, overflowKey]

/-- **The label of the overflow series** may be carried by all sets; its sums have the overflow
series in them, which is then counted twice. -/
theorem not_total_sumBy :
    ¬ ∀ (limit : ℤ) (calls : List (Attributes Bool × ℤ)) (label : String), 1 ≤ limit →
      (∀ e ∈ calls, e.1.key ≠ overflowKey true) →
      (∀ e ∈ calls, label ∈ e.1.items.map Prod.fst) →
        Tally.total ((addAll true (some limit) calls).sumBy label) +
          (addAll true (some limit) calls).overflowedMeasurements =
            (addAll true (some limit) calls).total := by
  intro h
  have hsum := h 1 [(⟨[("otel.metric.overflow", false)], by simp⟩, 5)] "otel.metric.overflow"
    (by decide) (by simp [Attributes.key, overflowKey]) (by simp)
  simp [addAll, Counter.add, Counter.addKey, Counter.init, Counter.room, unlimited, keys, bump,
    Attributes.key, overflowKey, Counter.sumBy, group, Counter.total, Tally.total] at hsum

end Cardinality
end SepLab
