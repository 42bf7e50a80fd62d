import Mathlib.Data.BitVec
import Mathlib.Data.String.Basic
import SepLab.Cardinality.Counter

/-!
# The counter of the Go program

The cardinality topic's Go `Counter`, which names a series by the text of its labels, and whose
sums are 64-bit integers.

## Main definitions

* `Labels`, `AttrSet`, `AttrSet.key` — attribute sets and the names of their series.
* `GoCounter`, `GoCounter.add`, `GoCounter.sumBy` — the methods.
* `Agrees limit calls` — the Go counter agrees with that of the Python program.
* `Told limit calls`, `Fits limit calls` — the names tell the sets with series apart from all
  others, and all sums are 64-bit integers.

## Main results

* `GoCounter.add_toCounter` — with names for keys the Go counter is that of the Python program.
* `agrees_iff` — **when the two agree**.
* `not_agrees_comma` — a route with a comma in it.
-/

namespace SepLab
namespace Cardinality

open Tally

/-! ### The Go program -/

/-- The labels of an addition; no customer is the empty string. -/
structure Labels where
  route : String
  method : String
  status : ℤ
  customerId : String
deriving DecidableEq

/-- `attrSet` -/
structure AttrSet where
  labels : Labels
  overflow : Bool
deriving DecidableEq

/-- `attrSet{overflow: true}` -/
def AttrSet.ofOverflow : AttrSet := ⟨⟨"", "", 0, ""⟩, true⟩

/-- What `Sprintf` makes of the labels. -/
def Labels.key (l : Labels) : String :=
  "route=" ++ l.route ++ ",method=" ++ l.method ++ ",status=" ++ toString l.status ++
    ",customer_id=" ++ l.customerId

/-- The name of the overflow series. -/
def goOverflow : String := "otel.metric.overflow=true"

/-- `key` -/
def AttrSet.key (a : AttrSet) : String := if a.overflow then goOverflow else a.labels.key

/-- A counter with its stream. -/
structure GoCounter where
  aggregationCardinalityLimit : ℤ
  attributeFilter : Option (AttrSet → AttrSet)
  series : List (String × BitVec 64)
  attrs : String → Option AttrSet
  overflowedPoints : BitVec 64
  rejectedAttrSets : Finset String

namespace GoCounter

/-- `NewCounter` -/
def new (limit : ℤ) (filter : Option (AttrSet → AttrSet)) : GoCounter :=
  ⟨limit, filter, [], fun _ => none, 0, ∅⟩

/-- Whether a series can be added. -/
def room (c : GoCounter) : Bool :=
  decide (c.aggregationCardinalityLimit = 0) ||
    decide ((c.series.length : ℤ) < c.aggregationCardinalityLimit - 1)

/-- The attributes that are counted: the filter runs before the limit. -/
def filtered (c : GoCounter) (a : AttrSet) : AttrSet := c.attributeFilter.elim a fun f => f a

/-- `Add` -/
def add (c : GoCounter) (value : BitVec 64) (a : AttrSet) : GoCounter :=
  let a := c.filtered a
  let k := a.key
  if k ∈ keys c.series then { c with series := bump k value c.series }
  else if c.room then
    { c with
      series := c.series ++ [(k, value)]
      attrs := Function.update c.attrs k (some a) }
  else
    let ok := AttrSet.ofOverflow.key
    { c with
      series := bump ok value c.series
      attrs := Function.update c.attrs ok (some .ofOverflow)
      overflowedPoints := c.overflowedPoints + value
      rejectedAttrSets := insert k c.rejectedAttrSets }

/-- `Total` -/
def total (c : GoCounter) : BitVec 64 := Tally.total c.series

/-- `c.attrs[k]`; a name without attributes has the zero value. -/
def attrsOf (c : GoCounter) (k : String) : AttrSet := (c.attrs k).getD ⟨⟨"", "", 0, ""⟩, false⟩

/-- `SumBy`, which panics at a series that is not the overflow if it does not know the label. -/
def sumBy (c : GoCounter) (label : String) : Option (List (String × BitVec 64)) :=
  c.series.foldlM (fun out e =>
    let a := c.attrsOf e.1
    if a.overflow then some out
    else if label = "customer_id" then
      if a.labels.customerId = "" then some out else some (bump a.labels.customerId e.2 out)
    else if label = "route" then some (bump a.labels.route e.2 out)
    else none) []

/-- The series to which `Add` adds. -/
def landing (c : GoCounter) (a : AttrSet) : String :=
  if (c.filtered a).key ∈ keys c.series ∨ c.room = true then (c.filtered a).key else goOverflow

/-- The series as they are exported: attributes and value. -/
def exported (c : GoCounter) : List (AttrSet × BitVec 64) :=
  c.series.map fun e => (c.attrsOf e.1, e.2)

end GoCounter

/-- Additions of labels to a new counter without a filter. -/
def goAddAll (limit : ℤ) (calls : List (Labels × BitVec 64)) : GoCounter :=
  calls.foldl (fun c e => c.add e.2 ⟨e.1, false⟩) (.new limit none)

/-- An addition of the labels `l` goes to the series `s`. -/
def LandsIn (limit : ℤ) (calls : List (Labels × BitVec 64)) (l : Labels) (s : String) : Prop :=
  ∃ before v after, calls = before ++ (l, v) :: after ∧
    (goAddAll limit before).landing ⟨l, false⟩ = s

/-! ### The same additions in the Python program -/

/-- The values of labels; `True` is the number one. -/
inductive Value
  | str (s : String)
  | int (n : ℤ)
deriving DecidableEq

/-- The keyword arguments for the labels. -/
def Labels.toAttributes (l : Labels) : Attributes Value where
  items :=
    [("route", .str l.route), ("method", .str l.method), ("status", .int l.status)] ++
      if l.customerId = "" then [] else [("customer_id", .str l.customerId)]
  nodup := by split <;> simp

/-- The key of the attribute set. -/
def AttrSet.setKey (a : AttrSet) : List (String × Value) :=
  if a.overflow then overflowKey (.int 1) else a.labels.toAttributes.key

/-- The additions in the Python program, whose integers have no bounds. -/
def pyAddAll (limit : ℤ) (calls : List (Labels × BitVec 64)) :
    Counter (List (String × Value)) ℤ :=
  addAll (.int 1) (some limit) (calls.map fun e => (e.1.toAttributes, e.2.toInt))

/-- **The two counters agree**: additions go to one series just when their labels are the same
or both overflow, and what the counters export, their totals, their sums by label and what has
overflowed are the same. -/
structure Agrees (limit : ℤ) (calls : List (Labels × BitVec 64)) : Prop where
  lands : ∀ l s l' s', LandsIn limit calls l s → LandsIn limit calls l' s' →
    (s = s' ↔ l = l' ∨ s = goOverflow ∧ s' = goOverflow)
  series : ((goAddAll limit calls).exported.map fun e => (e.1.setKey, e.2.toInt)).Perm
    (pyAddAll limit calls).series
  total : (goAddAll limit calls).total.toInt = (pyAddAll limit calls).total
  sumBy : ∀ label ∈ ["customer_id", "route"], ∃ out,
    (goAddAll limit calls).sumBy label = some out ∧
      (out.map fun e => (Value.str e.1, e.2.toInt)).Perm ((pyAddAll limit calls).sumBy label)
  overflowed : (goAddAll limit calls).overflowedPoints.toInt =
    (pyAddAll limit calls).overflowedMeasurements

/-! ### The condition -/

/-- What is added, as integers. -/
def added (calls : List (Labels × BitVec 64)) : List (AttrSet × ℤ) :=
  calls.map fun e => (⟨e.1, false⟩, e.2.toInt)

/-- The series that the additions are meant to have. -/
def meant (limit : ℤ) (calls : List (Labels × BitVec 64)) : Counter AttrSet ℤ :=
  holding .ofOverflow (some limit) (added calls)

/-- The value of a label that `SumBy` knows. -/
def AttrSet.get (a : AttrSet) (label : String) : Option String :=
  if a.overflow then none
  else if label = "customer_id" then
    if a.labels.customerId = "" then none else some a.labels.customerId
  else if label = "route" then some a.labels.route
  else none

/-- The text of the labels tells the sets with series of their own from all others. -/
def Told (limit : ℤ) (calls : List (Labels × BitVec 64)) : Prop :=
  ∀ a ∈ kept (some limit) (added calls), ∀ b ∈ keys (added calls), a.key = b.key → a = b

/-- A 64-bit integer. -/
def Int64 (x : ℤ) : Prop := -2 ^ 63 ≤ x ∧ x < 2 ^ 63

/-- The sums of the series, of what spills, of everything and by label are 64-bit integers. -/
structure Fits (limit : ℤ) (calls : List (Labels × BitVec 64)) : Prop where
  series : ∀ e ∈ (meant limit calls).series, Int64 e.2
  spilt : Int64 (spilt (some limit) (added calls))
  total : Int64 (Tally.total (added calls))
  sumBy : ∀ label ∈ ["customer_id", "route"],
    ∀ e ∈ group (AttrSet.get · label) (meant limit calls).series, Int64 e.2

/-! ### The keys -/

/-- A name of labels is not that of the overflow series. -/
theorem Labels.key_ne_goOverflow (l : Labels) : l.key ≠ goOverflow := by
  intro h
  have hkey : l.key.toList.head? = some 'r' := by
    simp only [Labels.key, String.toList_append, List.append_assoc]
    rfl
  rw [h] at hkey
  exact absurd hkey (by decide)

theorem key_ofOverflow : AttrSet.ofOverflow.key = goOverflow := rfl

theorem key_ofLabels (l : Labels) : AttrSet.key ⟨l, false⟩ = l.key := rfl

/-- The attributes of labels, by name. -/
theorem setKey_lookup (l : Labels) :
    (AttrSet.setKey ⟨l, false⟩).lookup "route" = some (.str l.route) ∧
    (AttrSet.setKey ⟨l, false⟩).lookup "method" = some (.str l.method) ∧
    (AttrSet.setKey ⟨l, false⟩).lookup "status" = some (.int l.status) ∧
    (AttrSet.setKey ⟨l, false⟩).lookup "customer_id" =
      if l.customerId = "" then none else some (.str l.customerId) := by
  refine ⟨?_, ?_, ?_, ?_⟩
  · exact Attributes.lookup_key.mpr (by simp [Labels.toAttributes])
  · exact Attributes.lookup_key.mpr (by simp [Labels.toAttributes])
  · exact Attributes.lookup_key.mpr (by simp [Labels.toAttributes])
  · by_cases hc : l.customerId = ""
    · rw [if_pos hc, ← Option.not_isSome_iff_eq_none]
      refine mt Attributes.lookup_key_isSome.mp ?_
      simp [Labels.toAttributes, hc]
    · rw [if_neg hc]
      exact Attributes.lookup_key.mpr (by simp [Labels.toAttributes, hc])

/-- The keys of the Python program tell labels apart. -/
theorem setKey_inj {l l' : Labels} (h : AttrSet.setKey ⟨l, false⟩ = AttrSet.setKey ⟨l', false⟩) :
    l = l' := by
  obtain ⟨hroute, hmethod, hstatus, hcustomer⟩ := setKey_lookup l
  obtain ⟨hroute', hmethod', hstatus', hcustomer'⟩ := setKey_lookup l'
  rw [h] at hroute hmethod hstatus hcustomer
  rw [hroute] at hroute'
  rw [hmethod] at hmethod'
  rw [hstatus] at hstatus'
  rw [hcustomer] at hcustomer'
  obtain ⟨route, method, status, customerId⟩ := l
  obtain ⟨route', method', status', customerId'⟩ := l'
  simp only [Option.some.injEq, Value.str.injEq, Value.int.injEq] at hroute' hmethod' hstatus'
  subst hroute' hmethod' hstatus'
  have hid : customerId = customerId' := by
    by_cases hc : customerId = "" <;> by_cases hc' : customerId' = "" <;> simp_all
  rw [hid]

/-- The overflow series has none of the labels. -/
theorem setKey_lookup_get (a : AttrSet) {label : String}
    (hlabel : label ∈ ["customer_id", "route"]) :
    a.setKey.lookup label = (a.get label).map Value.str := by
  obtain ⟨l, o⟩ := a
  obtain ⟨hroute, -, -, hcustomer⟩ := setKey_lookup l
  cases o with
  | true =>
    -- the overflow set knows neither label
    show (overflowKey _).lookup label = none
    rcases List.mem_cons.mp hlabel with rfl | hlabel
    · rfl
    · rw [List.mem_singleton.mp hlabel]
      rfl
  | false =>
    rcases List.mem_cons.mp hlabel with rfl | hlabel
    · rw [hcustomer]
      unfold AttrSet.get
      rw [if_neg Bool.false_ne_true, if_pos rfl]
      split <;> rfl
    · rw [List.mem_singleton.mp hlabel, hroute]
      unfold AttrSet.get
      rw [if_neg Bool.false_ne_true, if_neg (by decide), if_pos rfl]
      rfl

/-! ### The counters with other keys -/

/-- What an addition leaves of an integer. -/
def wrap : ℤ →+ BitVec 64 where
  toFun := BitVec.ofInt 64
  map_zero' := rfl
  map_add' := BitVec.ofInt_add

theorem wrap_toInt (v : BitVec 64) : wrap v.toInt = v := BitVec.ofInt_toInt

theorem toInt_wrap {x : ℤ} (h : Int64 x) : (wrap x).toInt = x :=
  BitVec.toInt_ofInt_eq_self (by decide) h.1 h.2

theorem int64_toInt (v : BitVec 64) : Int64 v.toInt := ⟨BitVec.le_toInt v, BitVec.toInt_lt⟩

/-- The Go counter without the attributes. -/
def GoCounter.toCounter (c : GoCounter) : Counter String (BitVec 64) :=
  ⟨some c.aggregationCardinalityLimit, c.series, c.overflowedPoints, c.rejectedAttrSets⟩

/-- **With names for keys the Go counter is that of the Python program.** -/
theorem GoCounter.add_toCounter {c : GoCounter} (hc : c.attributeFilter = none) (v : BitVec 64)
    (a : AttrSet) : (c.add v a).toCounter = c.toCounter.addKey goOverflow v a.key := by
  have hfiltered : c.filtered a = a := by
    unfold filtered
    rw [hc]
    rfl
  have hroom : c.toCounter.room = c.room := rfl
  unfold add Counter.addKey
  rw [hfiltered, hroom]
  by_cases hmem : a.key ∈ keys c.series
  · rw [if_pos hmem, if_pos (show a.key ∈ keys c.toCounter.series from hmem)]
    rfl
  · rw [if_neg hmem, if_neg (show a.key ∉ keys c.toCounter.series from hmem)]
    cases c.room <;> rfl

theorem goAddAll_concat (limit : ℤ) (calls : List (Labels × BitVec 64)) (l : Labels)
    (v : BitVec 64) :
    goAddAll limit (calls ++ [(l, v)]) = (goAddAll limit calls).add v ⟨l, false⟩ := by
  unfold goAddAll
  rw [List.foldl_append]
  rfl

theorem GoCounter.add_attributeFilter (c : GoCounter) (v : BitVec 64) (a : AttrSet) :
    (c.add v a).attributeFilter = c.attributeFilter := by
  unfold add
  simp only
  split
  · rfl
  · split <;> rfl

theorem goAddAll_attributeFilter (limit : ℤ) (calls : List (Labels × BitVec 64)) :
    (goAddAll limit calls).attributeFilter = none := by
  induction calls using List.reverseRecOn with
  | nil => rfl
  | append_singleton calls e ih =>
    obtain ⟨l, v⟩ := e
    rw [goAddAll_concat, GoCounter.add_attributeFilter, ih]

theorem added_concat (calls : List (Labels × BitVec 64)) (l : Labels) (v : BitVec 64) :
    added (calls ++ [(l, v)]) = added calls ++ [(⟨l, false⟩, v.toInt)] :=
  List.map_append

theorem mem_keys_added {calls : List (Labels × BitVec 64)} {a : AttrSet} :
    a ∈ keys (added calls) ↔ a.overflow = false ∧ ∃ v, (a.labels, v) ∈ calls := by
  unfold keys added
  rw [List.map_map, List.mem_map]
  constructor
  · rintro ⟨e, he, rfl⟩
    exact ⟨rfl, e.2, he⟩
  · rintro ⟨ho, v, hv⟩
    refine ⟨_, hv, ?_⟩
    obtain ⟨l, o⟩ := a
    exact congrArg _ ho.symm

theorem goOverflow_notMem (calls : List (Labels × BitVec 64)) :
    goOverflow ∉ keys (relabel AttrSet.key wrap (added calls)) := by
  rw [keys_relabel]
  intro hmem
  obtain ⟨a, ha, heq⟩ := List.mem_map.mp hmem
  obtain ⟨ho, -⟩ := mem_keys_added.mp ha
  unfold AttrSet.key at heq
  rw [ho] at heq
  exact a.labels.key_ne_goOverflow heq

/-- The Go counter, written out under the names. -/
theorem toCounter_goAddAll (limit : ℤ) (calls : List (Labels × BitVec 64)) :
    (goAddAll limit calls).toCounter =
      holding goOverflow (some limit) (relabel AttrSet.key wrap (added calls)) := by
  rw [← Counter.run_eq _ (goOverflow_notMem calls)]
  induction calls using List.reverseRecOn with
  | nil => rfl
  | append_singleton calls e ih =>
    obtain ⟨l, v⟩ := e
    rw [goAddAll_concat, GoCounter.add_toCounter (goAddAll_attributeFilter limit calls), ih,
      added_concat, relabel_append, relabel_cons, relabel_nil, Counter.run_concat, wrap_toInt]

/-- The counter of the Python program, written out. -/
theorem pyAddAll_eq (limit : ℤ) (calls : List (Labels × BitVec 64)) :
    pyAddAll limit calls = holding (overflowKey (.int 1)) (some limit)
      (relabel AttrSet.setKey (AddMonoidHom.id ℤ) (added calls)) := by
  have hhistory : history (calls.map fun e => (e.1.toAttributes, e.2.toInt)) =
      relabel AttrSet.setKey (AddMonoidHom.id ℤ) (added calls) := by
    unfold history relabel added
    rw [List.map_map, List.map_map]
    rfl
  have hnot : overflowKey (.int 1) ∉
      keys (relabel AttrSet.setKey (AddMonoidHom.id ℤ) (added calls)) := by
    rw [keys_relabel]
    intro hmem
    obtain ⟨⟨l, o⟩, ha, heq⟩ := List.mem_map.mp hmem
    obtain ⟨rfl, -⟩ := mem_keys_added.mp ha
    -- labels have a route, and the overflow series has none
    have hroute := (setKey_lookup l).1
    have hnone : (overflowKey (Value.int 1)).lookup "route" = none := rfl
    rw [heq, hnone] at hroute
    simp at hroute
  unfold pyAddAll
  rw [addAll_eq_run, hhistory, Counter.run_eq _ hnot]

theorem told_setKey (limit : ℤ) (calls : List (Labels × BitVec 64)) :
    ∀ a ∈ kept (some limit) (added calls), ∀ b ∈ keys (added calls),
      a.setKey = b.setKey → a = b := by
  rintro ⟨l, o⟩ ha ⟨l', o'⟩ hb heq
  obtain ⟨rfl, -⟩ := mem_keys_added.mp (mem_sets.mp (mem_of_mem_admitted ha))
  obtain ⟨rfl, -⟩ := mem_keys_added.mp hb
  rw [setKey_inj heq]

/-- The series of the Python program are those that are meant. -/
theorem series_pyAddAll (limit : ℤ) (calls : List (Labels × BitVec 64)) :
    (pyAddAll limit calls).series =
      relabel AttrSet.setKey (AddMonoidHom.id ℤ) (meant limit calls).series := by
  rw [pyAddAll_eq]
  exact series_relabel AttrSet.ofOverflow (AddMonoidHom.id ℤ) (told_setKey limit calls)

/-- So are those of the Go program, if the names tell them apart. -/
theorem series_goAddAll {limit : ℤ} {calls : List (Labels × BitVec 64)} (h : Told limit calls) :
    (goAddAll limit calls).series = relabel AttrSet.key wrap (meant limit calls).series := by
  have hseries := congrArg Counter.series (toCounter_goAddAll limit calls)
  have hrelabel := series_relabel AttrSet.ofOverflow wrap h
  rw [key_ofOverflow] at hrelabel
  exact hseries.trans hrelabel

/-! ### The attributes of the series -/

/-- Every series has attributes of its name, and they have been added, or are the overflow's. -/
theorem attrs_goAddAll {limit : ℤ} {calls : List (Labels × BitVec 64)} {k : String}
    (hk : k ∈ keys (goAddAll limit calls).series) :
    ∃ a, (goAddAll limit calls).attrs k = some a ∧ a.key = k ∧
      (a ∈ keys (added calls) ∨ a = .ofOverflow) := by
  induction calls using List.reverseRecOn with
  | nil => exact absurd hk List.not_mem_nil
  | append_singleton calls e ih =>
    obtain ⟨l, v⟩ := e
    have hnew : (⟨l, false⟩ : AttrSet) ∈ keys (added (calls ++ [(l, v)])) := by
      rw [added_concat, keys_append]
      exact List.mem_append_right _ (List.mem_singleton_self _)
    have hold : ∀ a ∈ keys (added calls), a ∈ keys (added (calls ++ [(l, v)])) := by
      intro a ha
      rw [added_concat, keys_append]
      exact List.mem_append_left _ ha
    have hih : k ∈ keys (goAddAll limit calls).series →
        ∃ a, (goAddAll limit calls).attrs k = some a ∧ a.key = k ∧
          (a ∈ keys (added (calls ++ [(l, v)])) ∨ a = .ofOverflow) := by
      intro hk
      obtain ⟨a, hattrs, hkey, hadded⟩ := ih hk
      exact ⟨a, hattrs, hkey, hadded.imp_left (hold a)⟩
    -- no filter has been set
    have hfiltered : (goAddAll limit calls).filtered ⟨l, false⟩ = ⟨l, false⟩ := by
      unfold GoCounter.filtered
      rw [goAddAll_attributeFilter]
      rfl
    rw [goAddAll_concat] at hk ⊢
    unfold GoCounter.add at hk ⊢
    rw [hfiltered] at hk ⊢
    simp only at hk ⊢
    by_cases hmem : AttrSet.key ⟨l, false⟩ ∈ keys (goAddAll limit calls).series
    -- the series is there already, and so is the description of every series
    · rw [if_pos hmem] at hk ⊢
      rcases mem_keys_bump.mp hk with rfl | hk
      · exact hih hmem
      · exact hih hk
    · rw [if_neg hmem] at hk ⊢
      by_cases hroom : (goAddAll limit calls).room = true
      -- a series of its own
      · rw [if_pos hroom] at hk ⊢
        by_cases heq : k = AttrSet.key ⟨l, false⟩
        · rw [heq]
          exact ⟨⟨l, false⟩, by simp only [Function.update_self], rfl, Or.inl hnew⟩
        · simp only [keys_append, List.mem_append] at hk
          simp only [Function.update_of_ne heq]
          rcases hk with hk | hk
          · exact hih hk
          · exact absurd (List.mem_singleton.mp hk) heq
      · rw [if_neg hroom] at hk ⊢
        -- no room: the overflow set is described
        by_cases heq : k = AttrSet.ofOverflow.key
        · rw [heq]
          exact ⟨.ofOverflow, by simp only [Function.update_self], rfl, Or.inr rfl⟩
        · simp only [Function.update_of_ne heq]
          exact hih ((mem_keys_bump.mp hk).resolve_left heq)

/-- Where the names tell the series apart, they are found under their names. -/
theorem attrsOf_key {limit : ℤ} {calls : List (Labels × BitVec 64)} (h : Told limit calls)
    {a : AttrSet} (ha : a ∈ keys (meant limit calls).series) :
    (goAddAll limit calls).attrsOf a.key = a := by
  have hk : a.key ∈ keys (goAddAll limit calls).series := by
    rw [series_goAddAll h, keys_relabel]
    exact List.mem_map_of_mem ha
  obtain ⟨b, hb, hkey, hadded⟩ := attrs_goAddAll hk
  have hname : ∀ c ∈ keys (added calls), c.key ≠ goOverflow := by
    rintro ⟨l, o⟩ hc heq
    obtain ⟨rfl, -⟩ := mem_keys_added.mp hc
    exact l.key_ne_goOverflow heq
  have hab : a = b := by
    rcases eq_of_mem_keys_holding ha with hkept | rfl
    · rcases hadded with hadded | rfl
      -- two sets under one key are the same one, by assumption
      · exact h a hkept b hadded hkey.symm
      · exact absurd hkey.symm (hname a (mem_sets.mp (mem_of_mem_admitted hkept)))
    · rcases hadded with hadded | rfl
      · exact absurd hkey (hname b hadded)
      · rfl
  unfold GoCounter.attrsOf
  rw [hb, hab]
  rfl

/-! ### Where the additions land -/

/-- An addition has a series of its name just when the name has one in the end. -/
theorem LandsIn.eq {limit : ℤ} {calls : List (Labels × BitVec 64)} {l : Labels} {s : String}
    (h : LandsIn limit calls l s) : (⟨l, false⟩ : AttrSet) ∈ keys (added calls) ∧
      s = if l.key ∈ kept (some limit) (relabel AttrSet.key wrap (added calls)) then l.key
        else goOverflow := by
  obtain ⟨before, v, after, rfl, rfl⟩ := h
  refine ⟨mem_keys_added.mpr ⟨rfl, v, List.mem_append_right _ List.mem_cons_self⟩, ?_⟩
  have hcounter := toCounter_goAddAll limit before
  have hfiltered : (goAddAll limit before).filtered ⟨l, false⟩ = ⟨l, false⟩ := by
    unfold GoCounter.filtered
    rw [goAddAll_attributeFilter]
    rfl
  have hmem : l.key ∈ keys (goAddAll limit before).series ↔
      l.key ∈ kept (some limit) (relabel AttrSet.key wrap (added before)) := by
    rw [← mem_keys_holding l.key_ne_goOverflow, ← hcounter]
    rfl
  have hroom : (goAddAll limit before).room = true ↔ unlimited (some limit) = true ∨
      ((sets (relabel AttrSet.key wrap (added before))).length : ℤ) < limit - 1 := by
    have hiff : (holding goOverflow (some limit)
        (relabel AttrSet.key wrap (added before))).room = true ↔ _ := room_holding
    rw [← hcounter] at hiff
    exact hiff
  -- the name in the end: no addition after this one gives it a series, or takes it
  have hsplit : relabel AttrSet.key wrap (added (before ++ (l, v) :: after)) =
      (relabel AttrSet.key wrap (added before) ++ [(l.key, v)]) ++
        relabel AttrSet.key wrap (added after) := by
    have hadded : added (before ++ (l, v) :: after) =
        added before ++ ((⟨l, false⟩, v.toInt) :: added after) := List.map_append
    rw [hadded, relabel_append, relabel_cons, wrap_toInt, List.append_assoc]
    rfl
  have hcome : l.key ∈ sets (relabel AttrSet.key wrap (added before) ++ [(l.key, v)]) := by
    rw [mem_sets, keys_append]
    exact List.mem_append_right _ (List.mem_singleton_self _)
  have hend : (l.key ∈ keys (goAddAll limit before).series ∨
      (goAddAll limit before).room = true) ↔
      l.key ∈ kept (some limit)
        (relabel AttrSet.key wrap (added (before ++ (l, v) :: after))) := by
    rw [hsplit, mem_kept_append hcome, mem_kept_concat_self, hmem, hroom]
    rfl
  unfold GoCounter.landing
  rw [hfiltered, key_ofLabels]
  by_cases hin : l.key ∈ keys (goAddAll limit before).series ∨
      (goAddAll limit before).room = true
  · rw [if_pos hin, if_pos (hend.mp hin)]
  · rw [if_neg hin, if_neg (mt hend.mpr hin)]

/-- Every addition lands somewhere. -/
theorem exists_landsIn {limit : ℤ} {calls : List (Labels × BitVec 64)} {l : Labels}
    (h : (⟨l, false⟩ : AttrSet) ∈ keys (added calls)) : ∃ s, LandsIn limit calls l s := by
  obtain ⟨-, v, hv⟩ := mem_keys_added.mp h
  obtain ⟨before, after, hcalls⟩ := List.append_of_mem hv
  exact ⟨_, before, v, after, hcalls, rfl⟩

/-- **Additions land together just when their labels are the same or both overflow**, if and
only if the names tell the sets with series from all others. -/
theorem told_iff {limit : ℤ} {calls : List (Labels × BitVec 64)} :
    Told limit calls ↔ ∀ l s l' s', LandsIn limit calls l s → LandsIn limit calls l' s' →
      (s = s' ↔ l = l' ∨ s = goOverflow ∧ s' = goOverflow) := by
  constructor
  · intro h l s l' s' hs hs'
    obtain ⟨hl, heq⟩ := hs.eq
    obtain ⟨hl', heq'⟩ := hs'.eq
    have hmem : ∀ m, (⟨m, false⟩ : AttrSet) ∈ keys (added calls) →
        (m.key ∈ kept (some limit) (relabel AttrSet.key wrap (added calls)) ↔
          (⟨m, false⟩ : AttrSet) ∈ kept (some limit) (added calls)) := by
      intro m hm
      rw [kept_relabel wrap h, ← key_ofLabels]
      exact mem_map_iff fun a ha => h a ha _ hm
    simp only [hmem l hl] at heq
    simp only [hmem l' hl'] at heq'
    constructor
    · intro hss
      rw [heq, heq'] at hss
      by_cases hin : (⟨l, false⟩ : AttrSet) ∈ kept (some limit) (added calls)
      · rw [if_pos hin] at hss
        split at hss
        · exact Or.inl (AttrSet.mk.inj (h _ hin _ hl' hss)).1
        · exact absurd hss l.key_ne_goOverflow
      · rw [if_neg hin] at heq hss
        split at hss
        · exact absurd hss.symm l'.key_ne_goOverflow
        · next hin' =>
          rw [if_neg hin'] at heq'
          exact Or.inr ⟨heq, heq'⟩
    · rintro (rfl | ⟨rfl, rfl⟩)
      · rw [heq, heq']
      · rfl
  · rintro h ⟨l, o⟩ hl ⟨l', o'⟩ hl' hkey
    obtain ⟨rfl, -⟩ := mem_keys_added.mp (mem_sets.mp (mem_of_mem_admitted hl))
    obtain ⟨rfl, -⟩ := mem_keys_added.mp hl'
    have hin := mem_kept_relabel AttrSet.key wrap hl
    obtain ⟨s, hs⟩ : ∃ s, LandsIn limit calls l s :=
      exists_landsIn (mem_sets.mp (mem_of_mem_admitted hl))
    obtain ⟨s', hs'⟩ : ∃ s', LandsIn limit calls l' s' := exists_landsIn hl'
    -- the name has a series, and so both land in it
    have heq := hs.eq.2
    have heq' := hs'.eq.2
    rw [key_ofLabels, key_ofLabels] at hkey
    rw [key_ofLabels] at hin
    rw [if_pos hin] at heq
    rw [← hkey, if_pos hin] at heq'
    rcases (h l s l' s' hs hs').mp (heq.trans heq'.symm) with rfl | ⟨hover, -⟩
    · rfl
    · exact absurd (heq.symm.trans hover) l.key_ne_goOverflow

/-! ### Agreement -/

/-- With a label that it knows `SumBy` does not panic. -/
theorem GoCounter.sumBy_eq (c : GoCounter) {label : String}
    (hlabel : label ∈ ["customer_id", "route"]) :
    c.sumBy label = some (group (fun k => (c.attrsOf k).get label) c.series) := by
  have hknown : label ≠ "customer_id" → label = "route" := by
    intro hne
    rcases List.mem_cons.mp hlabel with rfl | hlabel
    · exact absurd rfl hne
    · exact List.mem_singleton.mp hlabel
  unfold sumBy group
  rw [← Option.pure_def, ← List.foldlM_pure]
  congr 1
  funext out e
  unfold AttrSet.get
  simp only
  cases (c.attrsOf e.1).overflow with
  -- the overflow series has no labels in either
  | true => rfl
  | false =>
    rw [if_neg Bool.false_ne_true, if_neg Bool.false_ne_true]
    by_cases hc : label = "customer_id"
    · rw [if_pos hc, if_pos hc]
      split <;> rfl
    · rw [if_neg hc, if_neg hc, if_pos (hknown hc), if_pos (hknown hc)]
      rfl

/-- The Go program's sums by a label that it knows. -/
theorem sumBy_goAddAll {limit : ℤ} {calls : List (Labels × BitVec 64)} (h : Told limit calls)
    {label : String} (hlabel : label ∈ ["customer_id", "route"]) :
    (goAddAll limit calls).sumBy label =
      some (relabel id wrap (group (AttrSet.get · label) (meant limit calls).series)) := by
  rw [GoCounter.sumBy_eq _ hlabel, series_goAddAll h]
  congr 1
  apply group_relabel Function.injective_id
  intro a ha
  rw [attrsOf_key h ha, Option.map_id]
  rfl

theorem sumBy_pyAddAll (limit : ℤ) (calls : List (Labels × BitVec 64)) {label : String}
    (hlabel : label ∈ ["customer_id", "route"]) :
    (pyAddAll limit calls).sumBy label = relabel Value.str (AddMonoidHom.id ℤ)
      (group (AttrSet.get · label) (meant limit calls).series) := by
  unfold Counter.sumBy
  rw [series_pyAddAll]
  apply group_relabel
  · intro s s' heq
    exact Value.str.inj heq
  · intro a _
    exact setKey_lookup_get a hlabel

theorem exported_goAddAll {limit : ℤ} {calls : List (Labels × BitVec 64)} (h : Told limit calls) :
    (goAddAll limit calls).exported = relabel id wrap (meant limit calls).series := by
  unfold GoCounter.exported
  rw [series_goAddAll h]
  unfold relabel
  rw [List.map_map]
  refine List.map_congr_left fun e he => ?_
  show ((goAddAll limit calls).attrsOf e.1.key, _) = _
  rw [attrsOf_key h (List.mem_map_of_mem he)]
  rfl

theorem total_pyAddAll (limit : ℤ) (calls : List (Labels × BitVec 64)) :
    (pyAddAll limit calls).total = Tally.total (added calls) := by
  rw [pyAddAll_eq, total_holding, total_relabel]
  rfl

theorem total_goAddAll (limit : ℤ) (calls : List (Labels × BitVec 64)) :
    (goAddAll limit calls).total = wrap (Tally.total (added calls)) := by
  have htotal := congrArg Counter.total (toCounter_goAddAll limit calls)
  rw [total_holding, total_relabel] at htotal
  exact htotal

theorem overflowed_pyAddAll (limit : ℤ) (calls : List (Labels × BitVec 64)) :
    (pyAddAll limit calls).overflowedMeasurements = spilt (some limit) (added calls) := by
  rw [pyAddAll_eq]
  exact spilt_relabel (AddMonoidHom.id ℤ) (told_setKey limit calls)

theorem overflowed_goAddAll {limit : ℤ} {calls : List (Labels × BitVec 64)}
    (h : Told limit calls) :
    (goAddAll limit calls).overflowedPoints = wrap (spilt (some limit) (added calls)) := by
  have hspilt := congrArg Counter.overflowedMeasurements (toCounter_goAddAll limit calls)
  exact hspilt.trans (spilt_relabel wrap h)

/-- Tallies with 64-bit sums are what they are as integers. -/
theorem relabel_toInt {ν ν' : Type} {x : ν → ν'} {d : List (ν × ℤ)} (h : ∀ e ∈ d, Int64 e.2) :
    (relabel id wrap d).map (fun e => (x e.1, e.2.toInt)) = relabel x (AddMonoidHom.id ℤ) d := by
  unfold relabel
  rw [List.map_map]
  refine List.map_congr_left fun e he => ?_
  show (x e.1, (wrap e.2).toInt) = _
  rw [toInt_wrap (h e he)]
  rfl

/-- Integers that are the values of a 64-bit tally. -/
theorem int64_of_perm {ν ν' : Type} {x : ν → ν'} {d : List (ν × ℤ)} {κ' : Type}
    {y : κ' → ν'} {out : List (κ' × BitVec 64)}
    (h : (out.map fun e => (y e.1, e.2.toInt)).Perm (relabel x (AddMonoidHom.id ℤ) d)) :
    ∀ e ∈ d, Int64 e.2 := by
  intro e he
  have hmem : (x e.1, e.2) ∈ relabel x (AddMonoidHom.id ℤ) d := List.mem_map.mpr ⟨e, he, rfl⟩
  obtain ⟨e', -, heq⟩ := List.mem_map.mp (h.symm.subset hmem)
  rw [← (Prod.mk.inj heq).2]
  exact int64_toInt e'.2

/-- **When the two programs agree**: just when the text of the labels tells the sets with series
of their own from all other sets, and no sum leaves the 64-bit integers. -/
theorem agrees_iff (limit : ℤ) (calls : List (Labels × BitVec 64)) :
    Agrees limit calls ↔ Told limit calls ∧ Fits limit calls := by
  constructor
  · intro h
    refine ⟨told_iff.mpr h.lands, ?_, ?_, ?_, ?_⟩
    -- whatever a Go counter exports is in the range of its integers
    · have hseries := h.series
      rw [series_pyAddAll] at hseries
      exact int64_of_perm hseries
    · rw [← overflowed_pyAddAll, ← h.overflowed]
      exact int64_toInt _
    · rw [← total_pyAddAll limit, ← h.total]
      exact int64_toInt _
    · intro label hlabel
      obtain ⟨out, -, hperm⟩ := h.sumBy label hlabel
      rw [sumBy_pyAddAll limit calls hlabel] at hperm
      exact int64_of_perm hperm
  · rintro ⟨htold, hfits⟩
    refine ⟨told_iff.mp htold, ?_, ?_, ?_, ?_⟩
    -- and within the range nothing wraps
    · rw [exported_goAddAll htold, series_pyAddAll, relabel_toInt hfits.series]
    · rw [total_goAddAll, total_pyAddAll, toInt_wrap hfits.total]
    · intro label hlabel
      refine ⟨_, sumBy_goAddAll htold hlabel, ?_⟩
      rw [sumBy_pyAddAll limit calls hlabel, relabel_toInt (hfits.sumBy label hlabel)]
    · rw [overflowed_goAddAll htold, overflowed_pyAddAll, toInt_wrap hfits.spilt]

/-- **A comma in a label**: two routes and methods that make the same text, and so one series. -/
theorem not_agrees_comma : ¬ Agrees 2000
    [(⟨"/x,method=GET", "POST", 200, "cust-1"⟩, 1),
      (⟨"/x", "GET,method=POST", 200, "cust-1"⟩, 2)] := by
  intro h
  have htold := told_iff.mpr h.lands
  have heq := htold ⟨⟨"/x,method=GET", "POST", 200, "cust-1"⟩, false⟩ (by decide +kernel)
    ⟨⟨"/x", "GET,method=POST", 200, "cust-1"⟩, false⟩ (by decide +kernel) (by decide +kernel)
  exact absurd heq (by decide)

end Cardinality
end SepLab
