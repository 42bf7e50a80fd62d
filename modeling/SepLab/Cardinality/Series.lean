import Mathlib.Data.Finset.Insert
import SepLab.Lib.Tally

/-!
# Series with a cardinality limit

The counter of the cardinality topic, over any kind of keys: a dictionary from attribute sets
to sums that keeps one slot for the overflow series and counts under it what comes with any
other set once the rest is taken.

## Main definitions

* `Counter`, `Counter.addKey`, `Counter.run` — the counter, and additions to a new one.
* `admitted limit sets` — the sets that get series of their own.
* `holding overflow limit h` — what the additions `h` amount to.

## Main results

* `Counter.run_eq` — **the counter, written out** in terms of the additions.
* `total_holding`, `length_holding_le`, `lookup_overflow` — its totals and its size.
* `kept_relabel`, `series_relabel` — keys that tell the sets with series apart from all others
  only rename the series.
-/

namespace SepLab
namespace Cardinality

open Tally

/-- A counter; the name is not used by its methods. -/
structure Counter (κ M : Type) where
  limit : Option ℤ
  series : List (κ × M)
  overflowedMeasurements : M
  rejectedAttributeSets : Finset κ

/-- `not self.limit`: zero or nothing means unlimited. -/
def unlimited (limit : Option ℤ) : Bool := limit.all fun n => decide (n = 0)

variable {κ M : Type} [DecidableEq κ] [AddCommMonoid M]

namespace Counter

/-- A new counter. -/
def init (limit : Option ℤ) : Counter κ M := ⟨limit, [], 0, ∅⟩

/-- Whether a series can be added; one slot is kept for the overflow series. -/
def room (c : Counter κ M) : Bool :=
  unlimited c.limit || decide ((c.series.length : ℤ) < c.limit.getD 0 - 1)

/-- The body of `add`, with the key of the attributes. -/
def addKey (overflow : κ) (c : Counter κ M) (value : M) (key : κ) : Counter κ M :=
  if key ∈ keys c.series then { c with series := bump key value c.series }
  else if c.room then { c with series := c.series ++ [(key, value)] }
  else
    { c with
      series := bump overflow value c.series
      overflowedMeasurements := c.overflowedMeasurements + value
      rejectedAttributeSets := insert key c.rejectedAttributeSets }

/-- Additions, one after the other, to a new counter. -/
def run (overflow : κ) (limit : Option ℤ) (h : List (κ × M)) : Counter κ M :=
  h.foldl (fun c e => c.addKey overflow e.2 e.1) (init limit)

/-- `total` -/
def total (c : Counter κ M) : M := Tally.total c.series

@[simp] theorem run_nil (overflow : κ) (limit : Option ℤ) :
    run overflow limit ([] : List (κ × M)) = init limit := rfl

theorem run_concat (overflow : κ) (limit : Option ℤ) (h : List (κ × M)) (k : κ) (v : M) :
    run overflow limit (h ++ [(k, v)]) = (run overflow limit h).addKey overflow v k := by
  unfold run
  rw [List.foldl_append]
  rfl

end Counter

/-! ### What the counter holds -/

/-- The sets that get series of their own: all, or as many as leave one slot. -/
def admitted (limit : Option ℤ) (sets : List κ) : List κ :=
  if unlimited limit then sets else sets.take (limit.getD 0 - 1).toNat

omit [DecidableEq κ] in
theorem prefix_of_admitted (limit : Option ℤ) (sets : List κ) : admitted limit sets <+: sets := by
  unfold admitted
  split
  · exact List.prefix_refl _
  · exact List.take_prefix _ _

omit [DecidableEq κ] in
theorem mem_of_mem_admitted {limit : Option ℤ} {sets : List κ} {k : κ}
    (h : k ∈ admitted limit sets) : k ∈ sets :=
  (prefix_of_admitted limit sets).subset h

omit [DecidableEq κ] in
/-- Either all sets are admitted, or there are more of them than slots. -/
theorem admitted_eq_or (limit : Option ℤ) (sets : List κ) :
    admitted limit sets = sets ∨
      unlimited limit = false ∧ (admitted limit sets).length < sets.length ∧
        (admitted limit sets).length = (limit.getD 0 - 1).toNat := by
  unfold admitted
  cases unlimited limit with
  | true => exact Or.inl rfl
  | false =>
    rcases Nat.lt_or_ge (limit.getD 0 - 1).toNat sets.length with hlt | hge
    · refine Or.inr ⟨rfl, ?_, ?_⟩
      · rw [if_neg Bool.false_ne_true, List.length_take]
        omega
      · rw [if_neg Bool.false_ne_true, List.length_take]
        omega
    · exact Or.inl (List.take_of_length_le hge)

omit [DecidableEq κ] in
/-- As many sets as there are slots are all admitted. -/
theorem admitted_of_le {limit : Option ℤ} {sets : List κ}
    (h : unlimited limit = true ∨ (sets.length : ℤ) ≤ limit.getD 0 - 1) :
    admitted limit sets = sets := by
  unfold admitted
  cases hu : unlimited limit with
  | true => rfl
  | false =>
    have hle : (sets.length : ℤ) ≤ limit.getD 0 - 1 := by
      rcases h with h | h
      · rw [hu] at h
        exact absurd h Bool.false_ne_true
      · exact h
    exact List.take_of_length_le (by omega)

omit [DecidableEq κ] in
theorem admitted_of_room {limit : Option ℤ} {sets : List κ}
    (h : unlimited limit = true ∨ (sets.length : ℤ) < limit.getD 0 - 1) :
    admitted limit sets = sets := admitted_of_le (h.imp_right le_of_lt)

omit [DecidableEq κ] in
/-- With a slot left the next set is admitted. -/
theorem admitted_concat_of_room {limit : Option ℤ} {sets : List κ}
    (h : unlimited limit = true ∨ (sets.length : ℤ) < limit.getD 0 - 1) (k : κ) :
    admitted limit (sets ++ [k]) = sets ++ [k] := by
  apply admitted_of_le
  rw [List.length_append, List.length_singleton]
  exact h.imp_right fun hlt => by omega

omit [DecidableEq κ] in
/-- Without one the admitted sets stay the same. -/
theorem admitted_concat_of_full {limit : Option ℤ} {sets : List κ}
    (hu : unlimited limit = false) (hfull : limit.getD 0 - 1 ≤ sets.length) (k : κ) :
    admitted limit (sets ++ [k]) = admitted limit sets := by
  unfold admitted
  rw [hu, if_neg Bool.false_ne_true, if_neg Bool.false_ne_true]
  exact List.take_append_of_le_length (by omega)

/-- The distinct sets of the additions `h`. -/
def sets (h : List (κ × M)) : List κ := arrivals (keys h)

/-- Those of them that have series of their own. -/
def kept (limit : Option ℤ) (h : List (κ × M)) : List κ := admitted limit (sets h)

/-- The sum of what came under other sets. -/
def spilt (limit : Option ℤ) (h : List (κ × M)) : M :=
  sumOf (fun k => decide (k ∉ kept limit h)) h

/-- The overflow series, once there is one. -/
def overflowRow (overflow : κ) (limit : Option ℤ) (h : List (κ × M)) : List (κ × M) :=
  if (kept limit h).length < (sets h).length then [(overflow, spilt limit h)] else []

/-- The sets without a series. -/
def rejected (limit : Option ℤ) (h : List (κ × M)) : Finset κ :=
  ((sets h).filter fun k => decide (k ∉ kept limit h)).toFinset

/-- The counter after the additions `h`. -/
def holding (overflow : κ) (limit : Option ℤ) (h : List (κ × M)) : Counter κ M where
  limit := limit
  series := rows (fun k => share k h) (kept limit h) ++ overflowRow overflow limit h
  overflowedMeasurements := spilt limit h
  rejectedAttributeSets := rejected limit h

variable {overflow : κ} {limit : Option ℤ} {h : List (κ × M)} {k : κ} {v : M}

omit [AddCommMonoid M] in
theorem mem_sets : k ∈ sets h ↔ k ∈ keys h := mem_arrivals

omit [AddCommMonoid M] in
theorem sets_concat (h : List (κ × M)) (k : κ) (v : M) :
    sets (h ++ [(k, v)]) = if k ∈ sets h then sets h else sets h ++ [k] := by
  unfold sets
  rw [keys_append]
  exact arrivals_concat (keys h) k

omit [AddCommMonoid M] in
theorem nodup_kept (limit : Option ℤ) (h : List (κ × M)) : (kept limit h).Nodup :=
  (nodup_arrivals (keys h)).sublist (prefix_of_admitted limit (sets h)).sublist

omit [AddCommMonoid M] in
theorem kept_concat_of_mem (hmem : k ∈ kept limit h) (v : M) :
    kept limit (h ++ [(k, v)]) = kept limit h := by
  unfold kept
  rw [sets_concat, if_pos (mem_of_mem_admitted hmem)]

omit [AddCommMonoid M] in
/-- With a slot left all sets have series, and a new one gets one. -/
theorem kept_concat_of_room
    (hroom : unlimited limit = true ∨ ((sets h).length : ℤ) < limit.getD 0 - 1)
    (hmem : k ∉ sets h) (v : M) :
    kept limit h = sets h ∧ kept limit (h ++ [(k, v)]) = sets h ++ [k] := by
  unfold kept
  rw [sets_concat, if_neg hmem]
  exact ⟨admitted_of_room hroom, admitted_concat_of_room hroom k⟩

omit [AddCommMonoid M] in
/-- Without one the series stay those that there are. -/
theorem kept_concat_of_full
    (hfull : ¬(unlimited limit = true ∨ ((sets h).length : ℤ) < limit.getD 0 - 1)) (k : κ) (v : M) :
    kept limit (h ++ [(k, v)]) = kept limit h := by
  rw [not_or, not_lt, Bool.not_eq_true] at hfull
  unfold kept
  rw [sets_concat]
  split
  · rfl
  · exact admitted_concat_of_full hfull.1 hfull.2 k

theorem share_concat (h : List (κ × M)) (k k' : κ) (v : M) :
    share k' (h ++ [(k, v)]) = share k' h + if k = k' then v else 0 := by
  unfold share
  rw [sumOf_concat]
  simp

/-- Where all sets are admitted nothing spills. -/
theorem spilt_eq_zero (hall : kept limit h = sets h) : spilt limit h = 0 := by
  apply sumOf_eq_zero
  intro k hk
  rw [hall, decide_eq_false]
  exact not_not_intro (mem_sets.mpr hk)

omit [AddCommMonoid M] in
theorem mem_rejected : k ∈ rejected limit h ↔ k ∈ keys h ∧ k ∉ kept limit h := by
  unfold rejected
  rw [List.mem_toFinset, List.mem_filter, mem_sets, decide_eq_true_iff]

omit [AddCommMonoid M] in
theorem rejected_eq_empty (hall : kept limit h = sets h) : rejected limit h = ∅ := by
  ext k
  rw [mem_rejected, hall, mem_sets]
  simp

theorem overflowRow_eq_nil (hall : kept limit h = sets h) : overflowRow overflow limit h = [] := by
  unfold overflowRow
  rw [hall, if_neg (Nat.lt_irrefl _)]

/-- The series that a counter has for a set other than the overflow. -/
theorem mem_keys_holding (hk : k ≠ overflow) :
    k ∈ keys (holding overflow limit h).series ↔ k ∈ kept limit h := by
  have hrow : k ∉ keys (overflowRow overflow limit h) := by
    unfold overflowRow
    split
    · exact List.not_mem_cons_of_ne_of_not_mem hk List.not_mem_nil
    · exact List.not_mem_nil
  show k ∈ keys (rows _ _ ++ _) ↔ _
  rw [keys_append, keys_rows, List.mem_append]
  exact or_iff_left hrow

/-- The keys of the series: sets, and perhaps the overflow. -/
theorem eq_of_mem_keys_holding (hk : k ∈ keys (holding overflow limit h).series) :
    k ∈ kept limit h ∨ k = overflow := by
  by_cases heq : k = overflow
  · exact Or.inr heq
  · exact Or.inl ((mem_keys_holding heq).mp hk)

/-- There is room for one more set just when all were admitted and there still is a slot. -/
theorem room_holding : (holding overflow limit h).room = true ↔
    unlimited limit = true ∨ ((sets h).length : ℤ) < limit.getD 0 - 1 := by
  have hlen : (holding overflow limit h).series.length =
      (kept limit h).length + (overflowRow overflow limit h).length := by
    show (rows _ _ ++ _).length = _
    rw [List.length_append, length_rows]
  unfold Counter.room
  rw [Bool.or_eq_true, decide_eq_true_iff, hlen]
  show unlimited limit = true ∨ _ < limit.getD 0 - 1 ↔ _
  rcases admitted_eq_or limit (sets h) with hall | ⟨hu, hlt, heq⟩
  -- nothing has been spilt, so there is no overflow row
  · have hkept : kept limit h = sets h := hall
    rw [hkept, overflowRow_eq_nil hkept]
    rfl
  · have hkept : (kept limit h).length < (sets h).length := hlt
    -- something has: the sets with series of their own fill all slots but one
    have hslots : (kept limit h).length = (limit.getD 0 - 1).toNat := heq
    rw [hu]
    unfold overflowRow
    rw [if_pos hkept, List.length_singleton]
    constructor
    · rintro (h | h)
      · exact Or.inl h
      · omega
    · rintro (h | h)
      · exact Or.inl h
      · omega

/-- The addition goes to a series that is there. -/
theorem addKey_of_mem (hk : k ≠ overflow) (hmem : k ∈ kept limit h) :
    (holding overflow limit h).addKey overflow v k = holding overflow limit (h ++ [(k, v)]) := by
  have hsets : sets (h ++ [(k, v)]) = sets h := by
    rw [sets_concat, if_pos (mem_of_mem_admitted hmem)]
  have hkept : kept limit (h ++ [(k, v)]) = kept limit h := kept_concat_of_mem hmem v
  -- the call adds to a series of its own, so what is spilt stays
  have hspilt : spilt limit (h ++ [(k, v)]) = spilt limit h := by
    unfold spilt
    rw [hkept, sumOf_concat, if_neg (by simpa using hmem), add_zero]
  have hshare : rows (fun k' => share k' (h ++ [(k, v)])) (kept limit h) =
      rows (fun k' => if k' = k then share k' h + v else share k' h) (kept limit h) := by
    refine rows_congr fun k' _ => ?_
    rw [share_concat]
    by_cases heq : k' = k
    · rw [if_pos heq, if_pos heq.symm]
    · rw [if_neg heq, if_neg (Ne.symm heq), add_zero]
  have hrejected : rejected limit (h ++ [(k, v)]) = rejected limit h := by
    unfold rejected
    rw [hsets, hkept]
  unfold Counter.addKey
  rw [if_pos ((mem_keys_holding hk).mpr hmem)]
  unfold holding overflowRow
  rw [hsets, hkept, hspilt, hshare, hrejected, bump_rows hmem (nodup_kept limit h)]

/-- The addition opens a series. -/
theorem addKey_of_room (hk : k ≠ overflow) (hmem : k ∉ kept limit h)
    (hroom : (holding overflow limit h).room = true) :
    (holding overflow limit h).addKey overflow v k = holding overflow limit (h ++ [(k, v)]) := by
  -- with room left, every set so far has a series
  have hkept : kept limit h = sets h := admitted_of_room (room_holding.mp hroom)
  rw [hkept] at hmem
  have hsets : sets (h ++ [(k, v)]) = sets h ++ [k] := by
    rw [sets_concat, if_neg hmem]
  have hkept' : kept limit (h ++ [(k, v)]) = sets (h ++ [(k, v)]) := by
    rw [hsets]
    exact (kept_concat_of_room (room_holding.mp hroom) hmem v).2
  have hnew : share k (h ++ [(k, v)]) = v := by
    have hzero : share k h = 0 := by
      apply sumOf_eq_zero
      intro k' hk'
      exact decide_eq_false fun heq : k' = k => hmem (mem_sets.mpr (heq ▸ hk'))
    rw [share_concat, hzero, if_pos rfl, zero_add]
  -- and a new set changes the share of no other
  have hold : rows (fun k' => share k' (h ++ [(k, v)])) (sets h) =
      rows (fun k' => share k' h) (sets h) := by
    refine rows_congr fun k' hk' => ?_
    rw [share_concat, if_neg fun heq : k = k' => hmem (heq ▸ hk'), add_zero]
  unfold Counter.addKey
  rw [if_neg (by rwa [mem_keys_holding hk, hkept]), if_pos hroom]
  unfold holding
  rw [hkept, hkept', spilt_eq_zero hkept, spilt_eq_zero hkept', overflowRow_eq_nil hkept,
    overflowRow_eq_nil hkept', rejected_eq_empty hkept, rejected_eq_empty hkept', hsets,
    rows_concat, hold, hnew, List.append_nil, List.append_nil]

/-- The addition spills. -/
theorem addKey_of_full (ho : overflow ∉ keys h) (hk : k ≠ overflow) (hmem : k ∉ kept limit h)
    (hroom : (holding overflow limit h).room = false) :
    (holding overflow limit h).addKey overflow v k = holding overflow limit (h ++ [(k, v)]) := by
  have hnot : ¬(holding overflow limit h).room = true := by
    rw [hroom]
    exact Bool.false_ne_true
  have hkept : kept limit (h ++ [(k, v)]) = kept limit h :=
    kept_concat_of_full (mt room_holding.mpr hnot) k v
  -- more sets than series: the new one, or one that has come before
  have hmore : (kept limit h).length < (sets (h ++ [(k, v)])).length := by
    have hle : (kept limit h).length ≤ (sets h).length :=
      (prefix_of_admitted limit (sets h)).length_le
    rw [sets_concat]
    split
    · next hin =>
      refine lt_of_le_of_ne hle fun heq => hmem ?_
      have hall : kept limit h = sets h := (prefix_of_admitted limit (sets h)).eq_of_length heq
      rwa [hall]
    · rw [List.length_append, List.length_singleton]
      omega
  have hspilt : spilt limit (h ++ [(k, v)]) = spilt limit h + v := by
    unfold spilt
    rw [hkept, sumOf_concat, if_pos (by simpa using hmem)]
  have hrow : bump overflow v (overflowRow overflow limit h) = [(overflow, spilt limit h + v)] := by
    unfold overflowRow
    split
    · exact if_pos rfl
    · next hlt =>
      have hall : kept limit h = sets h :=
        (prefix_of_admitted limit (sets h)).eq_of_length_le (not_lt.mp hlt)
      rw [spilt_eq_zero hall, zero_add]
      rfl
  have hshare : rows (fun k' => share k' (h ++ [(k, v)])) (kept limit h) =
      rows (fun k' => share k' h) (kept limit h) := by
    refine rows_congr fun k' hk' => ?_
    rw [share_concat, if_neg fun heq : k = k' => hmem (heq ▸ hk'), add_zero]
  have hrejected : rejected limit (h ++ [(k, v)]) = insert k (rejected limit h) := by
    ext k'
    rw [Finset.mem_insert, mem_rejected, mem_rejected, hkept, keys_append, List.mem_append]
    constructor
    · rintro ⟨hk' | hk', hnot⟩
      · exact Or.inr ⟨hk', hnot⟩
      · exact Or.inl (List.mem_singleton.mp hk')
    · rintro (rfl | ⟨hk', hnot⟩)
      · exact ⟨Or.inr (List.mem_singleton_self _), hmem⟩
      · exact ⟨Or.inl hk', hnot⟩
  have habsent : overflow ∉ keys (rows (fun k' => share k' h) (kept limit h)) := by
    rw [keys_rows]
    exact fun hin => ho (mem_sets.mp (mem_of_mem_admitted hin))
  have hrow' : overflowRow overflow limit (h ++ [(k, v)]) = [(overflow, spilt limit h + v)] := by
    unfold overflowRow
    rw [hkept, hspilt, if_pos hmore]
  unfold Counter.addKey
  rw [if_neg (by rwa [mem_keys_holding hk]), if_neg hnot]
  unfold holding
  rw [hkept, hspilt, hshare, hrejected, hrow', bump_append_of_notMem habsent, hrow]

/-- **The counter, written out**, as long as nobody adds to the overflow series itself. -/
theorem Counter.run_eq (limit : Option ℤ) {h : List (κ × M)} (ho : overflow ∉ keys h) :
    Counter.run overflow limit h = holding overflow limit h := by
  induction h using List.reverseRecOn with
  | nil =>
    have hall : kept limit ([] : List (κ × M)) = sets ([] : List (κ × M)) :=
      List.prefix_nil.mp (prefix_of_admitted limit [])
    unfold holding
    rw [spilt_eq_zero hall, overflowRow_eq_nil hall, rejected_eq_empty hall, hall]
    rfl
  | append_singleton h e ih =>
    obtain ⟨k, v⟩ := e
    rw [keys_append, List.mem_append, not_or] at ho
    have hk : k ≠ overflow := fun heq => ho.2 (heq ▸ List.mem_singleton_self _)
    rw [run_concat, ih ho.1]
    -- the three branches of the source's `add`: a known key, room for another, or the overflow
    by_cases hmem : k ∈ kept limit h
    · exact addKey_of_mem hk hmem
    · cases hroom : (holding overflow limit h).room with
      | true => exact addKey_of_room hk hmem hroom
      | false => exact addKey_of_full ho.1 hk hmem hroom

/-! ### Totals -/

theorem total_overflowRow (overflow : κ) (limit : Option ℤ) (h : List (κ × M)) :
    Tally.total (overflowRow overflow limit h) = spilt limit h := by
  unfold overflowRow
  split
  · rw [total_cons, total_nil, add_zero]
  · next hlt =>
    have hall : kept limit h = sets h :=
      (prefix_of_admitted limit (sets h)).eq_of_length_le (not_lt.mp hlt)
    rw [spilt_eq_zero hall]
    rfl

/-- The series with a set of their own, and what spilt, are all that was added. -/
theorem total_rows_add_spilt (limit : Option ℤ) (h : List (κ × M)) :
    Tally.total (rows (fun k => share k h) (kept limit h)) + spilt limit h = Tally.total h := by
  rw [total_rows (nodup_kept limit h), ← sumOf_add_sumOf_not fun k => decide (k ∈ kept limit h)]
  congr 1
  exact sumOf_congr fun k _ => decide_not ..

theorem total_holding (overflow : κ) (limit : Option ℤ) (h : List (κ × M)) :
    (holding overflow limit h).total = Tally.total h := by
  show Tally.total (rows _ _ ++ _) = _
  rw [total_append, total_overflowRow, total_rows_add_spilt]

/-- The slot that was kept is enough for the overflow series. -/
theorem length_holding_le {n : ℤ} (hn : 1 ≤ n) (h : List (κ × M)) :
    ((holding overflow (some n) h).series.length : ℤ) ≤ n := by
  have hkept : (kept (some n) h).length ≤ (n - 1).toNat := by
    have hu : unlimited (some n) = false := decide_eq_false (by omega)
    unfold kept admitted
    rw [hu, if_neg Bool.false_ne_true]
    exact List.length_take_le _ _
  have hrow : (overflowRow overflow (some n) h).length ≤ 1 := by
    unfold overflowRow
    split <;> simp
  show ((rows _ _ ++ _).length : ℤ) ≤ n
  rw [List.length_append, length_rows]
  omega

/-- The value of the overflow series, if it is there, is what spilt. -/
theorem lookup_overflow [BEq κ] [LawfulBEq κ] (ho : overflow ∉ keys h) :
    ((holding overflow limit h).series.lookup overflow).getD 0 = spilt limit h := by
  have hnot : overflow ∉ keys (rows (fun k' => share k' h) (kept limit h)) := by
    rw [keys_rows]
    exact fun hin => ho (mem_sets.mp (mem_of_mem_admitted hin))
  show ((rows _ _ ++ _).lookup overflow).getD 0 = _
  rw [lookup_append_of_notMem hnot]
  unfold overflowRow
  split
  · rw [List.lookup_cons_self]
    rfl
  · next hlt =>
    have hall : kept limit h = sets h :=
      (prefix_of_admitted limit (sets h)).eq_of_length_le (not_lt.mp hlt)
    rw [spilt_eq_zero hall]
    rfl

/-! ### Other keys -/

omit [AddCommMonoid M] in
/-- A set that has come keeps its series, or stays without one. -/
theorem mem_kept_concat {k' : κ} (hk' : k' ∈ sets h) (k : κ) (v : M) :
    k' ∈ kept limit (h ++ [(k, v)]) ↔ k' ∈ kept limit h := by
  by_cases hmem : k ∈ kept limit h
  · rw [kept_concat_of_mem hmem]
  · by_cases hroom : unlimited limit = true ∨ ((sets h).length : ℤ) < limit.getD 0 - 1
    · have hall : kept limit h = sets h := admitted_of_room hroom
      rw [hall] at hmem
      obtain ⟨-, hnext⟩ := kept_concat_of_room hroom hmem v
      rw [hnext, hall, List.mem_append]
      exact ⟨fun _ => hk', Or.inl⟩
    · rw [kept_concat_of_full hroom]

omit [AddCommMonoid M] in
/-- The set of the last addition has a series if there is one or room for one. -/
theorem mem_kept_concat_self (k : κ) (v : M) : k ∈ kept limit (h ++ [(k, v)]) ↔
    k ∈ kept limit h ∨ unlimited limit = true ∨ ((sets h).length : ℤ) < limit.getD 0 - 1 := by
  by_cases hmem : k ∈ kept limit h
  · rw [kept_concat_of_mem hmem]
    exact ⟨Or.inl, fun _ => hmem⟩
  · rw [or_iff_right hmem]
    by_cases hroom : unlimited limit = true ∨ ((sets h).length : ℤ) < limit.getD 0 - 1
    · have hall : kept limit h = sets h := admitted_of_room hroom
      rw [hall] at hmem
      rw [(kept_concat_of_room hroom hmem v).2]
      exact ⟨fun _ => hroom, fun _ => List.mem_append_right _ (List.mem_singleton_self _)⟩
    · rw [kept_concat_of_full hroom]
      exact ⟨fun h => absurd h hmem, fun h => absurd h hroom⟩

omit [AddCommMonoid M] in
/-- The same after any more additions. -/
theorem mem_kept_append (hk : k ∈ sets h) (h' : List (κ × M)) :
    k ∈ kept limit (h ++ h') ↔ k ∈ kept limit h := by
  induction h' using List.reverseRecOn with
  | nil => rw [List.append_nil]
  | append_singleton h' e ih =>
    obtain ⟨k', v⟩ := e
    have hk' : k ∈ sets (h ++ h') := by
      rw [mem_sets, keys_append]
      exact List.mem_append_left _ (mem_sets.mp hk)
    rw [← List.append_assoc, mem_kept_concat hk', ih]

variable {κ' N : Type} [DecidableEq κ'] [AddCommMonoid N]

/-- Under other keys there are no more sets than before. -/
theorem length_sets_relabel_le (f : κ → κ') (φ : M →+ N) (h : List (κ × M)) :
    (sets (relabel f φ h)).length ≤ (sets h).length := by
  have hsub : sets (relabel f φ h) ⊆ (sets h).map f := by
    intro k' hk'
    rw [mem_sets, keys_relabel] at hk'
    obtain ⟨k, hk, rfl⟩ := List.mem_map.mp hk'
    exact List.mem_map_of_mem (mem_sets.mpr hk)
  have hle := ((nodup_arrivals (keys (relabel f φ h))).subperm hsub).length_le
  rwa [List.length_map] at hle

/-- What has a series of its own has one under other keys, though perhaps not for itself. -/
theorem mem_kept_relabel (f : κ → κ') (φ : M →+ N) {h : List (κ × M)} {k : κ}
    (hk : k ∈ kept limit h) : f k ∈ kept limit (relabel f φ h) := by
  induction h using List.reverseRecOn with
  | nil => exact absurd (mem_of_mem_admitted hk) List.not_mem_nil
  | append_singleton h e ih =>
    obtain ⟨k', v⟩ := e
    rw [relabel_append, relabel_cons, relabel_nil]
    by_cases hold : k ∈ sets h
    · have hk' : f k ∈ sets (relabel f φ h) := by
        rw [mem_sets, keys_relabel]
        exact List.mem_map_of_mem (mem_sets.mp hold)
      exact (mem_kept_concat hk' _ _).mpr (ih ((mem_kept_concat hold _ _).mp hk))
    · -- it is new: there was room for it, and so there is room for its new key
      have hkeys : k ∈ sets (h ++ [(k', v)]) := mem_of_mem_admitted hk
      rw [mem_sets, keys_append, List.mem_append, ← mem_sets, or_iff_right hold] at hkeys
      obtain rfl : k = k' := List.mem_singleton.mp hkeys
      rw [mem_kept_concat_self] at hk ⊢
      rcases hk with hk | hu | hlt
      · exact absurd (mem_of_mem_admitted hk) hold
      · exact Or.inr (Or.inl hu)
      · have hle := length_sets_relabel_le f φ h
        exact Or.inr (Or.inr (by omega))

/-- Where the sets with series have only changed their names, no slot has become free. -/
theorem not_room_relabel {f : κ → κ'} (φ : M →+ N) {h : List (κ × M)}
    (hkept : kept limit (relabel f φ h) = (kept limit h).map f)
    (hroom : ¬(unlimited limit = true ∨ ((sets h).length : ℤ) < limit.getD 0 - 1)) :
    ¬(unlimited limit = true ∨
      ((sets (relabel f φ h)).length : ℤ) < limit.getD 0 - 1) := by
  intro hroom'
  have hall' : kept limit (relabel f φ h) = sets (relabel f φ h) :=
    admitted_of_room hroom'
  have hlen : (sets (relabel f φ h)).length = (kept limit h).length := by
    rw [← hall', hkept, List.length_map]
  -- had something been spilt before the relabelling, it would still be
  rcases admitted_eq_or limit (sets h) with hall | ⟨hu, -, hslots⟩
  · have hsets : kept limit h = sets h := hall
    rw [hlen, hsets] at hroom'
    exact hroom hroom'
  · have hslots' : (kept limit h).length = (limit.getD 0 - 1).toNat := hslots
    rw [hu] at hroom'
    rcases hroom' with hu' | hlt
    · exact Bool.false_ne_true hu'
    · omega

/-- **Keys that tell the sets with series apart** from all others change nothing but the names
of the series. -/
theorem kept_relabel {f : κ → κ'} (φ : M →+ N) {h : List (κ × M)}
    (hinj : ∀ a ∈ kept limit h, ∀ b ∈ keys h, f a = f b → a = b) :
    kept limit (relabel f φ h) = (kept limit h).map f := by
  induction h using List.reverseRecOn with
  | nil =>
    have hall : kept limit ([] : List (κ × M)) = [] :=
      List.prefix_nil.mp (prefix_of_admitted limit _)
    have hall' : kept limit (relabel f φ ([] : List (κ × M))) = [] :=
      List.prefix_nil.mp (prefix_of_admitted limit _)
    rw [hall, hall', List.map_nil]
  | append_singleton h e ih =>
    obtain ⟨k, v⟩ := e
    have hstay : ∀ a ∈ kept limit h, a ∈ kept limit (h ++ [(k, v)]) := fun a ha =>
      (mem_kept_concat (mem_of_mem_admitted ha) k v).mpr ha
    have hkeys : ∀ b ∈ keys h, b ∈ keys (h ++ [(k, v)]) := fun b hb => by
      rw [keys_append]
      exact List.mem_append_left _ hb
    have hk : k ∈ keys (h ++ [(k, v)]) := by
      rw [keys_append]
      exact List.mem_append_right _ (List.mem_singleton_self k)
    have hih := ih fun a ha b hb => hinj a (hstay a ha) b (hkeys b hb)
    rw [relabel_append, relabel_cons, relabel_nil]
    by_cases hmem : k ∈ kept limit h
    · have hmem' : f k ∈ kept limit (relabel f φ h) := by
        rw [hih]
        exact List.mem_map_of_mem hmem
      rw [kept_concat_of_mem hmem, kept_concat_of_mem hmem', hih]
    · have hmem' : f k ∉ kept limit (relabel f φ h) := by
        rw [hih]
        intro hin
        obtain ⟨a, ha, heq⟩ := List.mem_map.mp hin
        exact hmem (hinj a (hstay a ha) k hk heq ▸ ha)
      by_cases hroom : unlimited limit = true ∨ ((sets h).length : ℤ) < limit.getD 0 - 1
      · -- room on this side is room on the other
        have hroom' : unlimited limit = true ∨
            ((sets (relabel f φ h)).length : ℤ) < limit.getD 0 - 1 := by
          have hle := length_sets_relabel_le f φ h
          exact hroom.imp_right fun hlt => by omega
        have hall : kept limit h = sets h := admitted_of_room hroom
        have hall' : kept limit (relabel f φ h) = sets (relabel f φ h) :=
          admitted_of_room hroom'
        rw [(kept_concat_of_room hroom (hall ▸ hmem) v).2,
          (kept_concat_of_room hroom' (hall' ▸ hmem') _).2, ← hall', hih, hall, List.map_append]
        rfl
      · -- all slots are taken on this side, and so on the other
        have hroom' := not_room_relabel φ hih hroom
        rw [kept_concat_of_full hroom, kept_concat_of_full hroom', hih]

omit [DecidableEq κ] [AddCommMonoid M] [DecidableEq κ'] in
/-- Membership under a map that tells `k` from the others. -/
theorem mem_map_iff {f : κ → κ'} {ks : List κ} {k : κ} (hinj : ∀ a ∈ ks, f a = f k → a = k) :
    f k ∈ ks.map f ↔ k ∈ ks := by
  constructor
  · intro h
    obtain ⟨a, ha, heq⟩ := List.mem_map.mp h
    exact hinj a ha heq ▸ ha
  · exact List.mem_map_of_mem

theorem share_relabel {f : κ → κ'} (φ : M →+ N) {h : List (κ × M)} {k : κ}
    (hinj : ∀ b ∈ keys h, f k = f b → k = b) :
    share (f k) (relabel f φ h) = φ (share k h) := by
  unfold share
  rw [sumOf_relabel]
  congr 1
  refine sumOf_congr fun b hb => decide_eq_decide.mpr ?_
  exact ⟨fun heq => (hinj b hb heq.symm).symm, congrArg f⟩

theorem spilt_relabel {f : κ → κ'} (φ : M →+ N) {h : List (κ × M)}
    (hinj : ∀ a ∈ kept limit h, ∀ b ∈ keys h, f a = f b → a = b) :
    spilt limit (relabel f φ h) = φ (spilt limit h) := by
  unfold spilt
  rw [sumOf_relabel, kept_relabel φ hinj]
  congr 1
  refine sumOf_congr fun b hb => decide_eq_decide.mpr (not_congr ?_)
  exact mem_map_iff fun a ha => hinj a ha b hb

omit [AddCommMonoid M] in
/-- Something spills just when a set has no series. -/
theorem length_kept_lt_iff :
    (kept limit h).length < (sets h).length ↔ ∃ k ∈ keys h, k ∉ kept limit h := by
  constructor
  · intro hlt
    by_contra hnone
    push Not at hnone
    have hsub : sets h ⊆ kept limit h := fun k hk => hnone k (mem_sets.mp hk)
    have hle := ((nodup_arrivals (keys h)).subperm hsub).length_le
    exact absurd hlt (not_lt.mpr hle)
  · rintro ⟨k, hk, hnot⟩
    refine lt_of_not_ge fun hle => hnot ?_
    have hall : kept limit h = sets h :=
      (prefix_of_admitted limit (sets h)).eq_of_length_le hle
    rw [hall]
    exact mem_sets.mpr hk

/-- **Keys that tell the sets with series apart** from all others: the series have other names,
and the same sums. -/
theorem series_relabel (overflow : κ) {f : κ → κ'} (φ : M →+ N) {h : List (κ × M)}
    (hinj : ∀ a ∈ kept limit h, ∀ b ∈ keys h, f a = f b → a = b) :
    (holding (f overflow) limit (relabel f φ h)).series =
      relabel f φ (holding overflow limit h).series := by
  have hrows : rows (fun k' => share k' (relabel f φ h)) ((kept limit h).map f) =
      relabel f φ (rows (fun k => share k h) (kept limit h)) := by
    rw [relabel_rows]
    unfold rows
    rw [List.map_map]
    refine List.map_congr_left fun k hk => ?_
    show (f k, share (f k) (relabel f φ h)) = _
    rw [share_relabel φ (hinj k hk)]
  have hspills : (kept limit (relabel f φ h)).length < (sets (relabel f φ h)).length ↔
      (kept limit h).length < (sets h).length := by
    -- no two sets fall together, so the overflow row appears in both or in neither
    rw [length_kept_lt_iff, length_kept_lt_iff, kept_relabel φ hinj, keys_relabel]
    constructor
    · rintro ⟨k', hk', hnot⟩
      obtain ⟨k, hk, rfl⟩ := List.mem_map.mp hk'
      exact ⟨k, hk, fun hin => hnot (List.mem_map_of_mem hin)⟩
    · rintro ⟨k, hk, hnot⟩
      exact ⟨f k, List.mem_map_of_mem hk,
        fun hin => hnot ((mem_map_iff fun a ha => hinj a ha k hk).mp hin)⟩
  have hrow : overflowRow (f overflow) limit (relabel f φ h) =
      relabel f φ (overflowRow overflow limit h) := by
    unfold overflowRow
    rw [spilt_relabel φ hinj]
    by_cases hlt : (kept limit h).length < (sets h).length
    · rw [if_pos hlt, if_pos (hspills.mpr hlt)]
      rfl
    · rw [if_neg hlt, if_neg (mt hspills.mp hlt)]
      rfl
  show rows _ (kept limit (relabel f φ h)) ++ _ = relabel f φ (rows _ _ ++ _)
  rw [relabel_append, kept_relabel φ hinj, hrows, hrow]

end Cardinality
end SepLab
