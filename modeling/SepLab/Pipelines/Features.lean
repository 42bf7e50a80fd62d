import Mathlib.Data.Finset.Max
import Mathlib.Data.List.Sort
import Mathlib.Data.Rat.Floor
import Mathlib.Tactic.FieldSimp
import SepLab.Lib.Grouping
import SepLab.Lib.HalfEven

/-!
# One feature vector, computed three times

Spend, count, average and recency of every user over the seven days before a time, from a log of
events. The transform has its home in Python; the Go and the Node program compute it again, with a
`conform` mode that follows the Python docstring. Decimals and floats are exact rationals here; the
integers of the Go program are 64 bits wide.

## Main definitions

* `IsFeatures`, `IsTable` — what the docstring asks of a row, and of all rows together.
* `Python.computeAll`, `Go.compute`, `Node.compute` — the three programs.
* `Fits` — a sum that 64 bits hold.

## Main results

* `IsTable.unique` — **the docstring leaves no choice**.
* `Python.isTable`, `Node.isTable` — the two programs with exact numbers follow it.
* `Go.spend_loop` — what the Go loop has added up, modulo `2 ^ 64`.
* `three_programs_agree_iff` — **the three agree just when no user's window overflows**.
-/

namespace SepLab
namespace Pipelines

/-- A day, in milliseconds. -/
def dayMs : ℤ := 86400000

/-- Seven days. -/
def windowMs : ℤ := 7 * dayMs

/-- An event, its numbers in a type of the program's own. -/
structure Event (ν : Type) where
  userId : ν
  tsMs : ν
  amount : ν
  deriving DecidableEq, Repr

/-- A row of the feature table. -/
structure Features where
  userId : ℤ
  spend : ℤ
  count : ℤ
  avg : ℚ
  recency : ℤ
  deriving DecidableEq, Repr

/-! ### The docstring -/

/-- The events of a user in the window: from seven days before the time on, up to the time and
without it. -/
def windowOf (events : List (Event ℤ)) (asOf user : ℤ) : List (Event ℤ) :=
  events.filter fun e => e.userId = user ∧ asOf - windowMs ≤ e.tsMs ∧ e.tsMs < asOf

/-- What the docstring asks of a user's row. -/
structure IsFeatures (events : List (Event ℤ)) (asOf : ℤ) (row : Features) : Prop where
  /-- The sum of the amounts. -/
  spend : row.spend = ((windowOf events asOf row.userId).map Event.amount).sum
  /-- The number of events. -/
  count : row.count = (windowOf events asOf row.userId).length
  /-- Zero for an empty window. -/
  avg_empty : windowOf events asOf row.userId = [] → row.avg = 0
  /-- Spend over count, rounded to two places, ties to the even one. -/
  avg : windowOf events asOf row.userId ≠ [] →
    ∃ n : ℤ, row.avg = n / 100 ∧ IsHalfEven ((row.spend : ℚ) / row.count * 100) n
  /-- Minus one for an empty window. -/
  recency_empty : windowOf events asOf row.userId = [] → row.recency = -1
  /-- The whole days since the latest event. -/
  recency : ∀ latest ∈ windowOf events asOf row.userId,
    (∀ e ∈ windowOf events asOf row.userId, e.tsMs ≤ latest.tsMs) →
      row.recency = ⌊((asOf - latest.tsMs : ℤ) : ℚ) / dayMs⌋

/-- One row for each user, in ascending order, as the docstring asks. -/
structure IsTable (events : List (Event ℤ)) (asOf : ℤ) (rows : List Features) : Prop where
  ascending : (rows.map Features.userId).Pairwise (· < ·)
  users : ∀ u, u ∈ rows.map Features.userId ↔ ∃ e ∈ events, e.userId = u
  rows : ∀ row ∈ rows, IsFeatures events asOf row

/-! ### The Python program -/

namespace Python

/-- `Decimal.quantize` to a number of places. -/
def roundHalfEven (value : ℚ) (places : ℕ) : ℚ :=
  let quantum : ℚ := 1 / 10 ^ places
  SepLab.roundHalfEven (value / quantum) * quantum

/-- `compute`, for one user. -/
def compute (events : List (Event ℤ)) (userId asOf : ℤ) : Features :=
  let lower := asOf - windowMs
  let window := events.filter fun e => e.userId = userId ∧ lower ≤ e.tsMs ∧ e.tsMs < asOf
  match window with
  | [] => ⟨userId, 0, 0, 0, -1⟩
  | first :: rest =>
    let spend := ((first :: rest).map Event.amount).sum
    let count := (first :: rest).length
    let avg := roundHalfEven (spend / count) 2
    let latest := rest.foldl (fun latest e => max latest e.tsMs) first.tsMs
    ⟨userId, spend, count, avg, (asOf - latest).fdiv dayMs⟩

/-- `compute_all`: a row for each user, in ascending order. -/
def computeAll (events : List (Event ℤ)) (asOf : ℤ) (userIds : Option (List ℤ) := none) :
    List Features :=
  let userIds := userIds.getD ((events.map Event.userId).dedup.insertionSort (· ≤ ·))
  let byUser := groupBy Event.userId events
  userIds.map fun uid => compute (groupOf byUser uid) uid asOf

end Python

/-! ### The Go program -/

namespace Go

/-- `dayMs` -/
def dayMs : Int64 := 86400000

/-- `windowMs` -/
def windowMs : Int64 := 7 * dayMs

/-- `Features` -/
structure Features where
  userID : Int64
  spend : Int64
  -- elements of a slice are counted, which an int64 holds
  count : ℕ
  avgCents : ℚ
  recencyDays : Int64

/-- What the loop over a user's events keeps. -/
structure Loop where
  spend : Int64 := 0
  count : ℕ := 0
  latest : Int64 := -1

/-- `math.RoundToEven` at a number of places. -/
def roundHalfEven (v : ℚ) (places : ℕ) : ℚ :=
  let scale : ℚ := 10 ^ places
  SepLab.roundHalfEven (v * scale) / scale

/-- `math.Round`, half away from zero, at a number of places. -/
def roundNative (v : ℚ) (places : ℕ) : ℚ :=
  let scale : ℚ := 10 ^ places
  let round (x : ℚ) : ℤ := if 0 ≤ x then ⌊x + 1 / 2⌋ else -⌊-x + 1 / 2⌋
  round (v * scale) / scale

/-- One turn of the loop over a user's events. -/
def Loop.add (conform : Bool) (lower asOf : Int64) (s : Loop) (e : Event Int64) : Loop :=
  let inWindow :=
    if conform then lower ≤ e.tsMs ∧ e.tsMs < asOf
    else lower < e.tsMs ∧ e.tsMs ≤ asOf
  if inWindow then
    ⟨s.spend + e.amount, s.count + 1, if s.latest < e.tsMs then e.tsMs else s.latest⟩
  else s

/-- The row that the loop has led to. -/
def row (conform : Bool) (asOf id : Int64) (s : Loop) : Features :=
  if s.count = 0 then
    ⟨id, s.spend, s.count, 0, if conform then -1 else 0⟩
  else
    let avg : ℚ := s.spend.toInt / s.count
    ⟨id, s.spend, s.count, if conform then roundHalfEven avg 2 else roundNative avg 2,
      (asOf - s.latest) / dayMs⟩

/-- `compute`: a row for each user, the keys of the map sorted. -/
def compute (events : List (Event Int64)) (asOf : Int64) (conform : Bool) : List Features :=
  let byUser := groupBy Event.userId events
  -- the keys come in any order and are sorted
  let ids := (byUser.map Prod.fst).insertionSort (· ≤ ·)
  let lower := asOf - windowMs
  ids.map fun id => row conform asOf id ((groupOf byUser id).foldl (Loop.add conform lower asOf) {})

end Go

/-! ### The Node program -/

namespace Node

/-- What the loop over a user's events keeps. -/
structure Loop where
  spend : ℤ := 0
  count : ℕ := 0
  latest : ℤ := -1

/-- `roundHalfEven`: half a unit goes to the even neighbour. -/
def roundHalfEven (value : ℚ) (places : ℕ) : ℚ :=
  let scale : ℚ := 10 ^ places
  let scaled := value * scale
  let floor := ⌊scaled⌋
  let diff := scaled - floor
  let rounded :=
    if diff > 1 / 2 then floor + 1
    else if diff < 1 / 2 then floor
    else if floor.tmod 2 = 0 then floor else floor + 1
  rounded / scale

/-- `Math.round`, half up, at a number of places. -/
def roundNative (value : ℚ) (places : ℕ) : ℚ :=
  let scale : ℚ := 10 ^ places
  ⌊value * scale + 1 / 2⌋ / scale

/-- One turn of the loop over a user's events. -/
def Loop.add (conform : Bool) (lower asOf : ℤ) (s : Loop) (e : Event ℤ) : Loop :=
  let inWindow :=
    if conform then lower ≤ e.tsMs ∧ e.tsMs < asOf
    else lower ≤ e.tsMs ∧ e.tsMs ≤ asOf
  if inWindow then
    ⟨s.spend + e.amount, s.count + 1, if s.latest < e.tsMs then e.tsMs else s.latest⟩
  else s

/-- The row that the loop has led to. -/
def row (conform : Bool) (asOf id : ℤ) (s : Loop) : Features :=
  if 0 < s.count then
    let raw : ℚ := s.spend / s.count
    let days : ℚ := ((asOf - s.latest : ℤ) : ℚ) / dayMs
    ⟨id, s.spend, s.count, if conform then roundHalfEven raw 2 else roundNative raw 2,
      if conform then ⌊days⌋ else ⌊days + 1 / 2⌋⟩
  else
    ⟨id, s.spend, s.count, 0, -1⟩

/-- `compute`: a row for each user, in ascending order. -/
def compute (events : List (Event ℤ)) (asOf : ℤ) (conform : Bool) : List Features :=
  let byUser := groupBy Event.userId events
  let lower := asOf - windowMs
  let ids := (byUser.map Prod.fst).insertionSort (· ≤ ·)
  ids.map fun id => row conform asOf id ((groupOf byUser id).foldl (Loop.add conform lower asOf) {})

end Node

/-! ### The docstring leaves no choice -/

theorem exists_latest {window : List (Event ℤ)} (h : window ≠ []) :
    ∃ latest ∈ window, ∀ e ∈ window, e.tsMs ≤ latest.tsMs := by
  obtain ⟨latest, hmem, hmax⟩ :=
    window.toFinset.exists_max_image Event.tsMs (by simpa using h)
  exact ⟨latest, List.mem_toFinset.mp hmem, fun e he => hmax e (List.mem_toFinset.mpr he)⟩

theorem IsFeatures.unique {events : List (Event ℤ)} {asOf : ℤ} {row row' : Features}
    (h : IsFeatures events asOf row) (h' : IsFeatures events asOf row')
    (huser : row.userId = row'.userId) : row = row' := by
  have hspend : row.spend = row'.spend := by rw [h.spend, h'.spend, huser]
  have hcount : row.count = row'.count := by rw [h.count, h'.count, huser]
  -- a user without events in the window has no average, and no recency either
  by_cases hempty : windowOf events asOf row.userId = []
  · have hempty' : windowOf events asOf row'.userId = [] := huser ▸ hempty
    cases row
    cases row'
    simp only [Features.mk.injEq]
    exact ⟨huser, hspend, hcount, (h.avg_empty hempty).trans (h'.avg_empty hempty').symm,
      (h.recency_empty hempty).trans (h'.recency_empty hempty').symm⟩
  · have hempty' : windowOf events asOf row'.userId ≠ [] := huser ▸ hempty
    obtain ⟨n, havg, hn⟩ := h.avg hempty
    obtain ⟨n', havg', hn'⟩ := h'.avg hempty'
    rw [← hspend, ← hcount] at hn'
    obtain rfl := hn.unique hn'
    -- both recencies count from the latest event
    obtain ⟨latest, hmem, hmax⟩ := exists_latest hempty
    have hrecency := h.recency latest hmem hmax
    have hrecency' := h'.recency latest (huser ▸ hmem) (huser ▸ hmax)
    cases row
    cases row'
    simp only [Features.mk.injEq]
    exact ⟨huser, hspend, hcount, havg.trans havg'.symm, hrecency.trans hrecency'.symm⟩

/-- **The docstring leaves no choice.** -/
theorem IsTable.unique {events : List (Event ℤ)} {asOf : ℤ} {rows rows' : List Features}
    (h : IsTable events asOf rows) (h' : IsTable events asOf rows') : rows = rows' := by
  have hids : rows.map Features.userId = rows'.map Features.userId :=
    h.ascending.eq_of_mem_iff h'.ascending fun u => (h.users u).trans (h'.users u).symm
  have hrow : ∀ row ∈ rows, ∀ row' ∈ rows', row.userId = row'.userId → row = row' :=
    fun row hr row' hr' => (h.rows row hr).unique (h'.rows row' hr')
  clear h h'
  induction rows generalizing rows' with
  | nil => exact (List.map_eq_nil_iff.mp hids.symm).symm
  | cons row rows ih =>
    cases rows' with
    | nil => exact absurd hids (List.cons_ne_nil _ _)
    | cons row' rows' =>
      obtain ⟨huser, hids⟩ := List.cons.inj hids
      rw [hrow row List.mem_cons_self row' List.mem_cons_self huser,
        ih hids fun r hr r' hr' => hrow r (List.mem_cons_of_mem row hr) r'
          (List.mem_cons_of_mem row' hr')]

/-- Only the window of the user matters. -/
theorem IsFeatures.congr {events events' : List (Event ℤ)} {asOf : ℤ} {row : Features}
    (hwindow : windowOf events asOf row.userId = windowOf events' asOf row.userId)
    (h : IsFeatures events asOf row) : IsFeatures events' asOf row where
  spend := hwindow ▸ h.spend
  count := hwindow ▸ h.count
  avg_empty := hwindow ▸ h.avg_empty
  avg := hwindow ▸ h.avg
  recency_empty := hwindow ▸ h.recency_empty
  recency := hwindow ▸ h.recency

/-- The window of a user within the user's own events. -/
theorem windowOf_filter (events : List (Event ℤ)) (asOf user : ℤ) :
    windowOf (events.filter fun e => e.userId = user) asOf user = windowOf events asOf user := by
  rw [windowOf, windowOf, List.filter_filter]
  refine List.filter_congr fun e _ => ?_
  by_cases h : e.userId = user <;> simp [h]

theorem foldl_max_le_iff {window : List (Event ℤ)} {m b : ℤ} :
    window.foldl (fun m e => max m e.tsMs) m ≤ b ↔ m ≤ b ∧ ∀ e ∈ window, e.tsMs ≤ b := by
  induction window generalizing m with
  | nil => simp
  | cons e window ih => rw [List.foldl_cons, ih, max_le_iff, List.forall_mem_cons, and_assoc]

/-- The latest of the events, from any time before it on. -/
theorem foldl_max_eq {window : List (Event ℤ)} {latest : Event ℤ} (hmem : latest ∈ window)
    (hmax : ∀ e ∈ window, e.tsMs ≤ latest.tsMs) {m : ℤ} (hm : m ≤ latest.tsMs) :
    window.foldl (fun m e => max m e.tsMs) m = latest.tsMs :=
  le_antisymm (foldl_max_le_iff.mpr ⟨hm, hmax⟩) ((foldl_max_le_iff.mp le_rfl).2 latest hmem)

/-- The whole days between two times. -/
theorem floor_days (x : ℤ) : ⌊(x : ℚ) / dayMs⌋ = x.fdiv dayMs := by
  rw [Int.fdiv_eq_ediv_of_nonneg x (show (0 : ℤ) ≤ dayMs by decide)]
  exact Rat.floor_intCast_div_natCast x 86400000

/-- The row of a user with no event in the window. -/
theorem isFeatures_empty {events : List (Event ℤ)} {asOf user : ℤ}
    (h : windowOf events asOf user = []) : IsFeatures events asOf ⟨user, 0, 0, 0, -1⟩ where
  spend := by simp only [h, List.map_nil, List.sum_nil]
  count := by simp only [h, List.length_nil, Nat.cast_zero]
  avg_empty _ := rfl
  avg hne := absurd h hne
  recency_empty _ := rfl
  recency latest hmem := absurd (h ▸ hmem) List.not_mem_nil

/-- The row of a user with events in the window, the latest of them looked for from any time on
that is not after it. -/
theorem isFeatures_of_ne_nil {events : List (Event ℤ)} {asOf user : ℤ}
    (h : windowOf events asOf user ≠ []) {avg : ℚ}
    (havg : ∃ n : ℤ, avg = n / 100 ∧
      IsHalfEven ((((windowOf events asOf user).map Event.amount).sum : ℤ) /
        ((windowOf events asOf user).length : ℚ) * 100) n) {m : ℤ}
    (hm : ∀ latest ∈ windowOf events asOf user,
      (∀ e ∈ windowOf events asOf user, e.tsMs ≤ latest.tsMs) → m ≤ latest.tsMs) :
    IsFeatures events asOf ⟨user, ((windowOf events asOf user).map Event.amount).sum,
      (windowOf events asOf user).length, avg,
      (asOf - (windowOf events asOf user).foldl (fun m e => max m e.tsMs) m).fdiv dayMs⟩ where
  spend := rfl
  count := rfl
  avg_empty hempty := absurd hempty h
  avg _ := havg
  recency_empty hempty := absurd hempty h
  recency latest hmem hmax := by
    rw [floor_days, foldl_max_eq hmem hmax (hm latest hmem hmax)]

theorem pairwise_lt_insertionSort {ids : List ℤ} (h : ids.Nodup) :
    (ids.insertionSort (· ≤ ·)).Pairwise (· < ·) :=
  (List.pairwise_insertionSort (· ≤ ·) ids).sortedLE.sortedLT_of_nodup
    ((List.perm_insertionSort (· ≤ ·) ids).nodup_iff.mpr h) |>.pairwise

/-! ### The Python program -/

namespace Python

theorem roundHalfEven_two (x : ℚ) :
    ∃ n : ℤ, roundHalfEven x 2 = n / 100 ∧ IsHalfEven (x * 100) n := by
  have hscale : x / (1 / 10 ^ 2) = x * 100 := by
    rw [div_div_eq_mul_div, div_one]
    norm_num
  have hquantum : (1 : ℚ) / 10 ^ 2 = 1 / 100 := by norm_num
  refine ⟨SepLab.roundHalfEven (x * 100), ?_, isHalfEven_roundHalfEven _⟩
  rw [roundHalfEven, hscale, hquantum, mul_one_div]

theorem compute_isFeatures (events : List (Event ℤ)) (userId asOf : ℤ) :
    (compute events userId asOf).userId = userId ∧
      IsFeatures events asOf (compute events userId asOf) := by
  unfold compute
  dsimp only
  split
  · next h => exact ⟨rfl, isFeatures_empty h⟩
  · next first rest h =>
    have hwindow : windowOf events asOf userId = first :: rest := h
    have hrow := isFeatures_of_ne_nil (hwindow ▸ List.cons_ne_nil first rest)
      (roundHalfEven_two (((windowOf events asOf userId).map Event.amount).sum /
        ((windowOf events asOf userId).length : ℚ)))
      fun latest _ hmax => hmax first (hwindow ▸ List.mem_cons_self)
    rw [hwindow, List.foldl_cons, max_self] at hrow
    exact ⟨rfl, hrow⟩

/-- **The Python program follows the docstring.** -/
theorem isTable (events : List (Event ℤ)) (asOf : ℤ) :
    IsTable events asOf (computeAll events asOf) := by
  have hids : (computeAll events asOf).map Features.userId =
      (events.map Event.userId).dedup.insertionSort (· ≤ ·) := by
    rw [computeAll, List.map_map]
    exact (List.map_congr_left fun u _ => (compute_isFeatures _ u asOf).1).trans (List.map_id _)
  refine ⟨?_, fun u => ?_, fun row hrow => ?_⟩
  · rw [hids]
    exact pairwise_lt_insertionSort (List.nodup_dedup _)
  · rw [hids, List.mem_insertionSort, List.mem_dedup, List.mem_map]
  · obtain ⟨u, -, rfl⟩ := List.mem_map.mp hrow
    have hfeatures := compute_isFeatures (groupOf (groupBy Event.userId events) u) u asOf
    refine hfeatures.2.congr ?_
    rw [hfeatures.1, groupOf_groupBy, windowOf_filter]

end Python

/-! ### The Node program -/

namespace Node

/-- The window of a user, as the loop walks over the user's events. -/
theorem filter_groupOf (events : List (Event ℤ)) (asOf user : ℤ) :
    (groupOf (groupBy Event.userId events) user).filter
        (fun e => asOf - windowMs ≤ e.tsMs ∧ e.tsMs < asOf) = windowOf events asOf user := by
  rw [groupOf_groupBy, List.filter_filter, windowOf]
  refine List.filter_congr fun e _ => ?_
  by_cases h : e.userId = user <;> simp [h]

theorem Loop.add_conform (lower asOf : ℤ) (s : Loop) (e : Event ℤ) :
    s.add true lower asOf e =
      if lower ≤ e.tsMs ∧ e.tsMs < asOf then
        ⟨s.spend + e.amount, s.count + 1, if s.latest < e.tsMs then e.tsMs else s.latest⟩
      else s := by
  simp only [Loop.add, if_true]

theorem foldl_add (lower asOf : ℤ) (es : List (Event ℤ)) (s : Loop) :
    es.foldl (Loop.add true lower asOf) s =
      ⟨s.spend + ((es.filter fun e => lower ≤ e.tsMs ∧ e.tsMs < asOf).map Event.amount).sum,
        s.count + (es.filter fun e => lower ≤ e.tsMs ∧ e.tsMs < asOf).length,
        (es.filter fun e => lower ≤ e.tsMs ∧ e.tsMs < asOf).foldl
          (fun m e => max m e.tsMs) s.latest⟩ := by
  induction es generalizing s with
  | nil => simp
  | cons e es ih =>
    rw [List.foldl_cons, ih]
    by_cases h : lower ≤ e.tsMs ∧ e.tsMs < asOf
    · rw [Loop.add_conform, if_pos h, ← max_def_lt, List.filter_cons_of_pos (by simpa using h),
        List.map_cons, List.sum_cons, List.length_cons, List.foldl_cons]
      simp only [Loop.mk.injEq]
      exact ⟨by ring, by ring, trivial⟩
    · rw [Loop.add_conform, if_neg h, List.filter_cons_of_neg (by simpa using h)]

theorem roundHalfEven_eq (x : ℚ) (places : ℕ) :
    roundHalfEven x places = SepLab.roundHalfEven (x * 10 ^ places) / 10 ^ places := by
  have heven : ∀ n : ℤ, n.tmod 2 = 0 ↔ Even n := fun n => by
    rw [← Int.dvd_iff_tmod_eq_zero, even_iff_two_dvd]
  simp only [roundHalfEven, SepLab.roundHalfEven, Int.self_sub_floor, gt_iff_lt, heven]
  congr 1
  rcases lt_trichotomy (Int.fract (x * 10 ^ places)) (1 / 2) with hlt | heq | hgt
  · rw [if_neg hlt.not_gt, if_pos hlt, if_pos hlt]
  · rw [if_neg heq.not_gt, if_neg heq.not_lt, if_neg heq.not_lt, if_neg heq.not_gt]
  · rw [if_pos hgt, if_neg hgt.not_gt, if_pos hgt]

/-- The row that the loop over a user's events leads to. -/
theorem row_isFeatures {events : List (Event ℤ)} (hts : ∀ e ∈ events, 0 ≤ e.tsMs)
    (asOf user : ℤ) :
    IsFeatures events asOf (row true asOf user
      ((groupOf (groupBy Event.userId events) user).foldl
        (Loop.add true (asOf - windowMs) asOf) {})) := by
  rw [foldl_add, filter_groupOf]
  by_cases hempty : windowOf events asOf user = []
  · simpa [row, hempty] using isFeatures_empty hempty
  · have hlen : 0 < (windowOf events asOf user).length := List.length_pos_of_ne_nil hempty
    have hhundred : (10 : ℚ) ^ 2 = 100 := by norm_num
    have hrow := isFeatures_of_ne_nil hempty ⟨_, rfl, isHalfEven_roundHalfEven _⟩ (m := -1)
      fun latest hmem _ => by
        have hzero := hts latest (List.mem_of_mem_filter hmem)
        omega
    simpa only [row, zero_add, hlen, if_true, floor_days, roundHalfEven_eq, hhundred] using hrow

/-- **The Node program follows the docstring** on events that are not before the epoch. -/
theorem isTable {events : List (Event ℤ)} (hts : ∀ e ∈ events, 0 ≤ e.tsMs) (asOf : ℤ) :
    IsTable events asOf (compute events asOf true) := by
  have hids : (compute events asOf true).map Features.userId =
      ((groupBy Event.userId events).map Prod.fst).insertionSort (· ≤ ·) := by
    rw [compute, List.map_map]
    refine (List.map_congr_left fun u _ => ?_).trans (List.map_id _)
    rw [Function.comp_apply, row]
    split <;> rfl
  refine ⟨?_, fun u => ?_, fun r hr => ?_⟩
  · rw [hids]
    exact pairwise_lt_insertionSort (nodup_keys_groupBy _ _)
  · rw [hids, List.mem_insertionSort, mem_keys_groupBy]
  · obtain ⟨u, -, rfl⟩ := List.mem_map.mp hr
    exact row_isFeatures hts asOf u

end Node

/-! ### The Go program -/

/-- An event that the Go program can hold, for the programs without such a bound. -/
def Event.toInt (e : Event Int64) : Event ℤ := ⟨e.userId.toInt, e.tsMs.toInt, e.amount.toInt⟩

/-- A sum that 64 bits hold. -/
def Fits (x : ℤ) : Prop := -2 ^ 63 ≤ x ∧ x < 2 ^ 63

theorem Fits.bmod_eq {x : ℤ} (h : Fits x) : x.bmod (2 ^ 64) = x := by
  apply Int.bmod_eq_of_le <;> have := h.1 <;> have := h.2 <;> omega

namespace Go

/-- A row of the Go program with its numbers unbounded. -/
def Features.toFeatures (f : Go.Features) : Pipelines.Features :=
  ⟨f.userID.toInt, f.spend.toInt, f.count, f.avgCents, f.recencyDays.toInt⟩

/-- The loop of the Go program keeps what that of the Node program keeps, but for a spend that
wraps around. -/
structure Sim (g : Loop) (n : Node.Loop) : Prop where
  spend : g.spend.toInt = n.spend.bmod (2 ^ 64)
  count : g.count = n.count
  latest : g.latest.toInt = n.latest

/-- The window has the same events, although its lower end may wrap around: no event that is not
before the epoch is before a time as early as that. -/
theorem inWindow_iff {ts : Int64} (hts : 0 ≤ ts.toInt) (asOf : Int64) :
    (asOf - windowMs ≤ ts ∧ ts < asOf) ↔
      (asOf.toInt - Pipelines.windowMs ≤ ts.toInt ∧ ts.toInt < asOf.toInt) := by
  have hwindow : windowMs.toInt = 604800000 := by decide
  have hwindow' : Pipelines.windowMs = 604800000 := rfl
  have hlow := asOf.le_toInt
  have hhigh := asOf.toInt_lt
  rw [Int64.le_iff_toInt_le, Int64.lt_iff_toInt_lt, Int64.toInt_sub, hwindow, hwindow']
  by_cases hwrap : asOf.toInt - 604800000 < -2 ^ 63
  · constructor <;> intro h <;> omega
  · have hfits : Fits (asOf.toInt - 604800000) := ⟨by omega, by omega⟩
    rw [hfits.bmod_eq]

theorem Loop.add_conform (lower asOf : Int64) (s : Loop) (e : Event Int64) :
    s.add true lower asOf e =
      if lower ≤ e.tsMs ∧ e.tsMs < asOf then
        ⟨s.spend + e.amount, s.count + 1, if s.latest < e.tsMs then e.tsMs else s.latest⟩
      else s := by
  simp only [Loop.add, if_true]

theorem Sim.add {g : Loop} {n : Node.Loop} (h : Sim g n) {e : Event Int64}
    (hts : 0 ≤ e.tsMs.toInt) (asOf : Int64) :
    Sim (g.add true (asOf - windowMs) asOf e)
      (n.add true (asOf.toInt - Pipelines.windowMs) asOf.toInt e.toInt) := by
  have hiff : asOf - windowMs ≤ e.tsMs ∧ e.tsMs < asOf ↔
      asOf.toInt - Pipelines.windowMs ≤ e.toInt.tsMs ∧ e.toInt.tsMs < asOf.toInt :=
    inWindow_iff hts asOf
  rw [Loop.add_conform, Node.Loop.add_conform]
  -- the event is in the window of both programs, or of neither
  by_cases hin : asOf - windowMs ≤ e.tsMs ∧ e.tsMs < asOf
  · rw [if_pos hin, if_pos (hiff.mp hin)]
    refine ⟨?_, congrArg (· + 1) h.count, ?_⟩
    · change (g.spend + e.amount).toInt = (n.spend + e.amount.toInt).bmod (2 ^ 64)
      rw [Int64.toInt_add, h.spend, Int.bmod_add_bmod]
    · change (if g.latest < e.tsMs then e.tsMs else g.latest).toInt =
        if n.latest < e.tsMs.toInt then e.tsMs.toInt else n.latest
      rw [← h.latest]
      by_cases hlt : g.latest < e.tsMs
      · rw [if_pos hlt, if_pos (Int64.lt_iff_toInt_lt.mp hlt)]
      · rw [if_neg hlt, if_neg (mt Int64.lt_iff_toInt_lt.mpr hlt)]
  · rw [if_neg hin, if_neg (mt hiff.mpr hin)]
    exact h

theorem Sim.foldl {g : Loop} {n : Node.Loop} (h : Sim g n) {es : List (Event Int64)}
    (hts : ∀ e ∈ es, 0 ≤ e.tsMs.toInt) (asOf : Int64) :
    Sim (es.foldl (Loop.add true (asOf - windowMs) asOf) g)
      ((es.map Event.toInt).foldl
        (Node.Loop.add true (asOf.toInt - Pipelines.windowMs) asOf.toInt) n) := by
  induction es generalizing g n with
  | nil => exact h
  | cons e es ih =>
    obtain ⟨he, hes⟩ := List.forall_mem_cons.mp hts
    exact ih (h.add he asOf) hes

theorem groupOf_toInt (events : List (Event Int64)) (id : Int64) :
    (groupOf (groupBy Event.userId events) id).map Event.toInt =
      groupOf (groupBy Event.userId (events.map Event.toInt)) id.toInt := by
  rw [groupOf_groupBy, groupOf_groupBy, List.filter_map]
  refine congrArg (List.map _) (List.filter_congr fun e _ => ?_)
  simp [Event.toInt, Int64.toInt_inj]

/-- What the loop over a user's events leads to. -/
def loopOf (events : List (Event Int64)) (asOf id : Int64) : Loop :=
  (groupOf (groupBy Event.userId events) id).foldl (Loop.add true (asOf - windowMs) asOf) {}

/-- The amounts of a user in the window, in exact numbers. -/
def exactSpend (events : List (Event Int64)) (asOf : Int64) (user : ℤ) : ℤ :=
  ((windowOf (events.map Event.toInt) asOf.toInt user).map Event.amount).sum

section
variable {events : List (Event Int64)} (hts : ∀ e ∈ events, 0 ≤ e.tsMs.toInt) (asOf id : Int64)
include hts

theorem sim_loopOf :
    Sim (loopOf events asOf id)
      ⟨exactSpend events asOf id.toInt,
        (windowOf (events.map Event.toInt) asOf.toInt id.toInt).length,
        (windowOf (events.map Event.toInt) asOf.toInt id.toInt).foldl
          (fun m e => max m e.tsMs) (-1)⟩ := by
  have hstart : Sim ({} : Loop) ({} : Node.Loop) := ⟨by decide, rfl, by decide⟩
  have hgroup : ∀ e ∈ groupOf (groupBy Event.userId events) id, 0 ≤ e.tsMs.toInt := by
    intro e he
    rw [groupOf_groupBy] at he
    exact hts e (List.mem_of_mem_filter he)
  have hrun := hstart.foldl hgroup asOf
  rw [groupOf_toInt, Node.foldl_add, Node.filter_groupOf, zero_add, zero_add] at hrun
  exact hrun

/-- **What the Go loop has added up**, modulo `2 ^ 64`. -/
theorem spend_loop :
    (loopOf events asOf id).spend.toInt = (exactSpend events asOf id.toInt).bmod (2 ^ 64) :=
  (sim_loopOf hts asOf id).spend

/-- The row is that of the Node program, if the spend does not wrap around. -/
theorem row_isFeatures (hfits : Fits (exactSpend events asOf id.toInt)) :
    IsFeatures (events.map Event.toInt) asOf.toInt
      (row true asOf id (loopOf events asOf id)).toFeatures := by
  have hsim := sim_loopOf hts asOf id
  have hspend : (loopOf events asOf id).spend.toInt = exactSpend events asOf id.toInt := by
    rw [spend_loop hts asOf id, hfits.bmod_eq]
  by_cases hempty : windowOf (events.map Event.toInt) asOf.toInt id.toInt = []
  · have hzero : (loopOf events asOf id).count = 0 := by rw [hsim.count, hempty, List.length_nil]
    -- an empty window leaves the loop's zeroes, which the row reports as such
    have hrow : (row true asOf id (loopOf events asOf id)).toFeatures =
        ⟨id.toInt, 0, 0, 0, -1⟩ := by
      rw [row, if_pos hzero, Features.toFeatures, hspend, hzero, exactSpend, hempty]
      rfl
    rw [hrow]
    exact isFeatures_empty hempty
  · obtain ⟨latest, hmem, hmax⟩ := exists_latest hempty
    have hwindow := List.of_mem_filter hmem
    have hnonneg : 0 ≤ latest.tsMs := by
      obtain ⟨e, he, rfl⟩ := List.mem_map.mp (List.mem_of_mem_filter hmem)
      exact hts e he
    have hbefore : latest.tsMs < asOf.toInt := (of_decide_eq_true hwindow).2.2
    -- the loop keeps the latest stamp of the window
    have hlatest : (loopOf events asOf id).latest.toInt = latest.tsMs := by
      rw [hsim.latest]
      exact foldl_max_eq hmem hmax (by omega)
    have hcount : (loopOf events asOf id).count ≠ 0 := by
      rw [hsim.count]
      exact (List.length_pos_of_ne_nil hempty).ne'
    -- neither the difference nor its quotient overflows, for stamps are not negative
    have hrecency : ((asOf - (loopOf events asOf id).latest) / dayMs).toInt =
        (asOf.toInt - latest.tsMs).fdiv Pipelines.dayMs := by
      have hhigh := asOf.toInt_lt
      have hfits : Fits (asOf.toInt - latest.tsMs) := ⟨by omega, by omega⟩
      have hday : dayMs.toInt = Pipelines.dayMs := by decide
      rw [Int64.toInt_div_of_ne_right _ _ (by decide), Int64.toInt_sub, hlatest, hfits.bmod_eq,
        hday, Int.fdiv_eq_tdiv_of_nonneg (by omega) (by decide)]
    have hrow := isFeatures_of_ne_nil hempty ⟨_, rfl, isHalfEven_roundHalfEven _⟩ (m := -1)
      fun e hmem _ => by
        obtain ⟨e', he', rfl⟩ := List.mem_map.mp (List.mem_of_mem_filter hmem)
        have hzero := hts e' he'
        change -1 ≤ e'.tsMs.toInt
        omega
    have hhundred : (10 : ℚ) ^ 2 = 100 := by norm_num
    rw [foldl_max_eq hmem hmax (by omega)] at hrow
    rw [row, if_neg hcount, Features.toFeatures]
    simp only [hspend, hrecency, hsim.count, if_true, roundHalfEven, hhundred]
    exact hrow

end

theorem compute_eq (events : List (Event Int64)) (asOf : Int64) :
    compute events asOf true =
      (((groupBy Event.userId events).map Prod.fst).insertionSort (· ≤ ·)).map fun id =>
        row true asOf id (loopOf events asOf id) := rfl

theorem row_userID (asOf id : Int64) (s : Loop) : (row true asOf id s).userID = id := by
  unfold row
  split <;> rfl

/-- **The Go program follows the docstring** as long as no spend overflows. -/
theorem isTable {events : List (Event Int64)} (hts : ∀ e ∈ events, 0 ≤ e.tsMs.toInt)
    (asOf : Int64) (hfits : ∀ u, Fits (exactSpend events asOf u)) :
    IsTable (events.map Event.toInt) asOf.toInt
      ((compute events asOf true).map Features.toFeatures) := by
  have hids : ((compute events asOf true).map Features.toFeatures).map Features.userId =
      (((groupBy Event.userId events).map Prod.fst).map Int64.toInt).insertionSort (· ≤ ·) := by
    rw [compute_eq, List.map_map, List.map_map, ← List.map_insertionSort (· ≤ ·) (· ≤ ·) _ _
      fun _ _ _ _ => Int64.le_iff_toInt_le]
    refine List.map_congr_left fun id _ => ?_
    change (row true asOf id _).userID.toInt = _
    rw [row_userID]
  refine ⟨?_, fun u => ?_, fun r hr => ?_⟩
  · rw [hids]
    exact pairwise_lt_insertionSort
      ((nodup_keys_groupBy _ _).map fun _ _ => Int64.toInt_inj.mp)
  · rw [hids, List.mem_insertionSort, List.mem_map]
    constructor
    · rintro ⟨id, hid, rfl⟩
      obtain ⟨e, he, rfl⟩ := mem_keys_groupBy.mp hid
      exact ⟨e.toInt, List.mem_map_of_mem he, rfl⟩
    · rintro ⟨e', he', rfl⟩
      obtain ⟨e, he, rfl⟩ := List.mem_map.mp he'
      exact ⟨e.userId, mem_keys_groupBy.mpr ⟨e, he, rfl⟩, rfl⟩
  · obtain ⟨g, hg, rfl⟩ := List.mem_map.mp hr
    rw [compute_eq] at hg
    obtain ⟨id, -, rfl⟩ := List.mem_map.mp hg
    exact row_isFeatures hts asOf id (hfits id.toInt)

/-- A table that follows the docstring has no spend that overflows. -/
theorem fits_of_isTable {events : List (Event Int64)} {asOf : Int64}
    (h : IsTable (events.map Event.toInt) asOf.toInt
      ((compute events asOf true).map Features.toFeatures)) (u : ℤ) :
    Fits (exactSpend events asOf u) := by
  by_cases hu : ∃ e ∈ events.map Event.toInt, e.userId = u
  · obtain ⟨r, hr, rfl⟩ := List.mem_map.mp ((h.users u).mpr hu)
    have hspend := (h.rows r hr).spend
    obtain ⟨g, -, rfl⟩ := List.mem_map.mp hr
    rw [exactSpend, ← hspend]
    exact ⟨g.spend.le_toInt, g.spend.toInt_lt⟩
  · have hempty : windowOf (events.map Event.toInt) asOf.toInt u = [] :=
      List.filter_eq_nil_iff.mpr fun e he hin => hu ⟨e, he, (of_decide_eq_true hin).1⟩
    rw [exactSpend, hempty]
    exact ⟨by decide, by decide⟩

end Go

/-- **The three programs agree just when no sum overflows.** The Python and the Node program, whose
numbers are exact here, follow the docstring on every log of events not before the epoch; the Go
program returns the same rows if and only if the amounts of each user in the window add up to what
64 bits hold. -/
theorem three_programs_agree_iff {events : List (Event ℤ)} (hts : ∀ e ∈ events, 0 ≤ e.tsMs)
    (asOf : ℤ) :
    (Node.compute events asOf true = Python.computeAll events asOf ∧
      IsTable events asOf (Python.computeAll events asOf)) ∧
    ∀ (events' : List (Event Int64)) (asOf' : Int64), events'.map Event.toInt = events →
      asOf'.toInt = asOf →
      ((Go.compute events' asOf' true).map Go.Features.toFeatures =
          Python.computeAll events asOf ∧
        Node.compute events asOf true = Python.computeAll events asOf ∧
        IsTable events asOf (Python.computeAll events asOf) ↔
      ∀ u, Fits ((windowOf events asOf u).map Event.amount).sum) := by
  have hpython : IsTable events asOf (Python.computeAll events asOf) := Python.isTable events asOf
  -- both tables are the one that the events determine
  have hnode : Node.compute events asOf true = Python.computeAll events asOf :=
    (Node.isTable hts asOf).unique hpython
  refine ⟨⟨hnode, hpython⟩, fun events' asOf' hevents hasOf => ?_⟩
  subst hevents hasOf
  constructor
  · rintro ⟨hgo, -, -⟩
    exact Go.fits_of_isTable (hgo ▸ hpython)
  · intro hfits
    have hts' : ∀ e ∈ events', 0 ≤ e.tsMs.toInt := by simpa [Event.toInt] using hts
    exact ⟨(Go.isTable hts' asOf' hfits).unique hpython, hnode, hpython⟩

/-- Two users, the first with eight events whose average of `0.125` is a tie, and with an amount
below zero; of the second one event is in the window and one is before it. -/
def twoUsers : List (Event Int64) :=
  [⟨2, 0, 700⟩, ⟨1, 604800000, 5⟩, ⟨1, 604800000, -4⟩, ⟨2, 691199999, -300⟩] ++
    List.replicate 6 ⟨1, 604800000, 0⟩

theorem three_programs_agree_twoUsers :
    Node.compute (twoUsers.map Event.toInt) 691200000 true =
      Python.computeAll (twoUsers.map Event.toInt) 691200000 ∧
    (Go.compute twoUsers 691200000 true).map Go.Features.toFeatures =
      [⟨1, 1, 8, 12 / 100, 1⟩, ⟨2, -300, 1, -300, 0⟩] := by
  have hts : ∀ e ∈ twoUsers.map Event.toInt, 0 ≤ e.tsMs := by decide
  obtain ⟨⟨hnode, -⟩, hgo⟩ := three_programs_agree_iff hts 691200000
  have hfits : ∀ u,
      Fits ((windowOf (twoUsers.map Event.toInt) 691200000 u).map Event.amount).sum := by
    intro u
    by_cases h₁ : u = 1
    · subst h₁
      exact ⟨by decide, by decide⟩
    by_cases h₂ : u = 2
    · subst h₂
      exact ⟨by decide, by decide⟩
    -- nobody else has an event
    have hempty : windowOf (twoUsers.map Event.toInt) 691200000 u = [] := by
      have husers : ∀ e ∈ twoUsers.map Event.toInt, e.userId = 1 ∨ e.userId = 2 := by decide
      refine List.filter_eq_nil_iff.mpr fun e he hin => ?_
      have huser : e.userId = u := (of_decide_eq_true hin).1
      rcases husers e he with h | h
      · exact h₁ (huser.symm.trans h)
      · exact h₂ (huser.symm.trans h)
    rw [hempty]
    exact ⟨by decide, by decide⟩
  have hrows : Python.computeAll (twoUsers.map Event.toInt) 691200000 =
      [⟨1, 1, 8, 12 / 100, 1⟩, ⟨2, -300, 1, -300, 0⟩] := by decide +kernel
  have hagree := (hgo twoUsers 691200000 rfl (by decide)).mpr hfits
  exact ⟨hnode, hagree.1.trans hrows⟩

/-- One user with the largest amount there is and one cent more. -/
def overflowing : List (Event Int64) := [⟨1, 0, 9223372036854775807⟩, ⟨1, 0, 1⟩]

theorem go_differs_from_python :
    (∀ e ∈ overflowing, 0 ≤ e.tsMs.toInt) ∧
      (Go.compute overflowing 86400000 true).map Go.Features.toFeatures ≠
        Python.computeAll (overflowing.map Event.toInt) 86400000 := by
  refine ⟨by decide, fun heq => ?_⟩
  have htable := Python.isTable (overflowing.map Event.toInt) (86400000 : Int64).toInt
  have hfits := Go.fits_of_isTable (heq.symm ▸ htable) 1
  exact absurd hfits.2 (by decide)

end Pipelines
end SepLab
