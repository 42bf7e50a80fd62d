import Mathlib.Data.List.Induction
import Mathlib.Logic.Function.Basic
import SepLab.Lib.Transition

/-!
# Read, decide, write

Requests that each read some rows, decide from what they have read, and write one row or none, in
a transaction of a multi-version database that has row locks.  A `SELECT` sees the commits so
far; an `UPDATE` waits for the lock of its row, and fails where the transaction has a snapshot
that is older than the row.

## Main definitions

* `Request`, `Mode` — what a request does, and how its reads are protected.
* `Db.step` — the statements of the requests, in any order.
* `after` — the rows after some commits.
* `Inv` — what holds at any time.

## Main results

* `Inv.step` — every statement keeps the invariant.
* `Entry.Snapshot` — **every write was decided on the rows as they were at one time.**
* `Inv.serial` — **if the mode protects what a request reads, its write was decided on the rows
  as they were at its commit.**
-/

namespace SepLab
namespace Isolation

/-- The rows that a request reads, and the row and the value that it then writes, if any. -/
structure Request (K V : Type) where
  reads : List K
  write : List V → Option (K × V)

/-- How the reads of a request are protected. -/
inductive Mode
  /-- READ COMMITTED, a `SELECT` and then the `UPDATE`. -/
  | readCommitted
  /-- REPEATABLE READ, a `SELECT` and then the `UPDATE`. -/
  | repeatableRead
  /-- READ COMMITTED, a `SELECT … FOR UPDATE` and then the `UPDATE`. -/
  | forUpdate
  /-- READ COMMITTED, one `UPDATE` that reads what it writes. -/
  | statement
  deriving DecidableEq, Repr

/-- How far a request has got. -/
inductive Phase (K V : Type)
  | idle
  /-- The first rows are locked, and have been read. -/
  | locking (values : List V)
  /-- All rows have been read, and it is decided what to write. -/
  | decided (w : Option (K × V))
  | wrote (row : K) (value : V)
  /-- The transaction has committed its write. -/
  | committed
  /-- The transaction has committed, and there was nothing to write. -/
  | declined
  /-- The transaction was rolled back with `40001`. -/
  | failed
  /-- The last attempt was rolled back with `40001`. -/
  | gaveUp
  /-- The transaction was rolled back with another error. -/
  | raised
  deriving DecidableEq, Repr

/-- A commit, with the number of commits that its transaction had seen when it decided. -/
structure Entry (ι K V : Type) where
  request : ι
  row : K
  value : V
  snapshot : ℕ
  deriving DecidableEq, Repr

variable {ι K V : Type} [DecidableEq K]

/-- The rows after the commits of `log`. -/
def after (rows : K → V) (log : List (Entry ι K V)) : K → V :=
  log.foldl (fun rows e => Function.update rows e.row e.value) rows

/-- A database and the requests.  `version` is the number of the commit that wrote the row. -/
structure Db (ι K V : Type) where
  rows : K → V
  version : K → ℕ
  lock : K → Option ι
  phase : ι → Phase K V
  snapshot : ι → ℕ
  attempt : ι → ℕ
  log : List (Entry ι K V)

/-- What happens to a request. -/
inductive Action (ι : Type)
  /-- The next statement of the request. -/
  | next (i : ι)
  /-- The transaction fails for another reason, and is rolled back. -/
  | fail (i : ι)
  deriving DecidableEq, Repr

namespace Db

omit [DecidableEq K] in
/-- Rows that nobody has locked, and requests that have not begun. -/
def init (rows : K → V) : Db ι K V :=
  ⟨rows, fun _ => 0, fun _ => none, fun _ => .idle, fun _ => 0, fun _ => 0, []⟩

variable [DecidableEq ι]

omit [DecidableEq K] in
/-- The request moves on to `p`. -/
def enter (s : Db ι K V) (i : ι) (p : Phase K V) : Db ι K V :=
  { s with phase := Function.update s.phase i p }

omit [DecidableEq K] in
/-- All commits so far are in the snapshot of the request. -/
def see (s : Db ι K V) (i : ι) : Db ι K V :=
  { s with snapshot := Function.update s.snapshot i s.log.length }

omit [DecidableEq K] in
/-- No other request has locked the row. -/
def free (s : Db ι K V) (i : ι) (k : K) : Bool := s.lock k = none ∨ s.lock k = some i

/-- The transaction of the request locks the row. -/
def take (s : Db ι K V) (i : ι) (k : K) : Db ι K V :=
  { s with lock := Function.update s.lock k (some i) }

omit [DecidableEq K] in
/-- The transaction has ended, and its locks are gone. -/
def release (s : Db ι K V) (i : ι) : Db ι K V :=
  { s with lock := fun k => if s.lock k = some i then none else s.lock k }

/-- `COMMIT` of a write. -/
def commit (s : Db ι K V) (i : ι) (k : K) (v : V) : Db ι K V :=
  { s with
    rows := Function.update s.rows k v
    version := Function.update s.version k (s.log.length + 1)
    log := s.log ++ [⟨i, k, v, s.snapshot i⟩] }

/-- The next statement of request `i`; it is `none` while the request waits, and after its end. -/
def next (mode : Mode) (maxRetries : ℕ) (req : Request K V) (s : Db ι K V) (i : ι) :
    Option (Db ι K V) :=
  match s.phase i with
  | .idle =>
    match mode with
    | .readCommitted | .repeatableRead =>
      some ((s.see i).enter i (.decided (req.write (req.reads.map s.rows))))
    | .forUpdate => some (s.enter i (.locking []))
    | .statement =>
      match req.write (req.reads.map s.rows) with
      | none => some ((s.see i).enter i .declined)
      | some (k, v) => if s.free i k then some (((s.see i).take i k).enter i (.wrote k v)) else none
  | .locking values =>
    match req.reads[values.length]? with
    | some k =>
      if s.free i k then some ((s.take i k).enter i (.locking (values ++ [s.rows k]))) else none
    | none => some ((s.see i).enter i (.decided (req.write values)))
  | .decided none => some ((s.release i).enter i .declined)
  | .decided (some (k, v)) =>
    if s.free i k then
      -- the row has been written since the snapshot
      if mode = .repeatableRead ∧ s.snapshot i < s.version k then
        some ((s.release i).enter i .failed)
      else some ((s.take i k).enter i (.wrote k v))
    else none
  | .wrote k v => some (((s.commit i k v).release i).enter i .committed)
  | .failed =>
    if s.attempt i < maxRetries then
      some ({ s with attempt := Function.update s.attempt i (s.attempt i + 1) }.enter i .idle)
    else some (s.enter i .gaveUp)
  | _ => none

omit [DecidableEq K] in
/-- Only a transaction that is open fails. -/
def fail (s : Db ι K V) (i : ι) : Option (Db ι K V) :=
  match s.phase i with
  | .locking _ | .decided _ | .wrote _ _ => some ((s.release i).enter i .raised)
  | _ => none

/-- One statement, or one failure. -/
def step (mode : Mode) (maxRetries : ℕ) (req : ι → Request K V) (s : Db ι K V) :
    Action ι → Option (Db ι K V)
  | .next i => s.next mode maxRetries (req i) i
  | .fail i => s.fail i

end Db

/-! ### The rows after some commits -/

theorem after_concat (rows : K → V) (log : List (Entry ι K V)) (e : Entry ι K V) :
    after rows (log ++ [e]) = Function.update (after rows log) e.row e.value := by
  rw [after, List.foldl_append]
  rfl

/-- A row that was not written is as it was. -/
theorem after_append {rows : K → V} {log log' : List (Entry ι K V)} {k : K}
    (h : ∀ e ∈ log', e.row ≠ k) : after rows (log ++ log') k = after rows log k := by
  induction log' using List.reverseRecOn with
  | nil => rw [List.append_nil]
  | append_singleton log' e ih =>
    have hne : k ≠ e.row := fun heq => h e (by simp) heq.symm
    rw [← List.append_assoc, after_concat, Function.update_of_ne hne]
    exact ih fun e' he' => h e' (by simp [he'])

/-- So are the rows of a list. -/
theorem map_after_take {rows : K → V} {log : List (Entry ι K V)} {ks : List K} {m n : ℕ}
    (hmn : m ≤ n) (h : ∀ l e, m ≤ l → l < n → log[l]? = some e → e.row ∉ ks) :
    ks.map (after rows (log.take n)) = ks.map (after rows (log.take m)) := by
  refine List.map_congr_left fun k hk => ?_
  have htake : (log.take n).take m = log.take m := by rw [List.take_take, Nat.min_eq_left hmn]
  rw [← List.take_append_drop m (log.take n), htake, after_append]
  rintro e he rfl
  obtain ⟨l, hl⟩ := List.mem_iff_getElem?.mp he
  rw [List.getElem?_drop, List.getElem?_take] at hl
  split at hl
  · next hlt => exact h (m + l) e (Nat.le_add_right m l) hlt hl hk
  · cases hl

/-! ### The invariant -/

/-- The rows that cannot change between the time of the decision and the commit. -/
def Mode.kept (mode : Mode) (reads : List K) (row : K) : List K :=
  match mode with
  | .readCommitted => []
  | .forUpdate => reads
  | .repeatableRead | .statement => [row]

/-- The `l`-th commit was decided on the rows after the commits that it had seen. -/
def Entry.Snapshot (req : ι → Request K V) (start : K → V) (log : List (Entry ι K V)) (l : ℕ)
    (e : Entry ι K V) : Prop :=
  e.snapshot ≤ l ∧ (req e.request).write
    ((req e.request).reads.map (after start (log.take e.snapshot))) = some (e.row, e.value)

/-- No commit in between has written a row that is protected. -/
def Entry.Kept (mode : Mode) (req : ι → Request K V) (log : List (Entry ι K V)) (l : ℕ)
    (e : Entry ι K V) : Prop :=
  ∀ m e', e.snapshot ≤ m → m < l → log[m]? = some e' →
    e'.row ∉ mode.kept (req e.request).reads e.row

namespace Db

omit [DecidableEq K] in
/-- The request has locked the rows, and nobody has written them since its snapshot. -/
def Guarded (s : Db ι K V) (i : ι) (ks : List K) : Prop :=
  ∀ k ∈ ks, s.lock k = some i ∧ s.version k ≤ s.snapshot i

/-- What request `r` has read. -/
def seen (r : Request K V) (start : K → V) (s : Db ι K V) (i : ι) : List V :=
  r.reads.map (after start (s.log.take (s.snapshot i)))

/-- What holds of a request in this phase. -/
def Sound (mode : Mode) (r : Request K V) (start : K → V) (s : Db ι K V) (i : ι) :
    Phase K V → Prop
  | .locking values => mode = .forUpdate ∧ values = (r.reads.take values.length).map s.rows ∧
      ∀ k ∈ r.reads.take values.length, s.lock k = some i
  | .decided w => mode ≠ .statement ∧ r.write (s.seen r start i) = w ∧
      (mode = .forUpdate → s.Guarded i r.reads)
  | .wrote k v => r.write (s.seen r start i) = some (k, v) ∧ s.lock k = some i ∧
      s.Guarded i (mode.kept r.reads k)
  | .declined => r.write (s.seen r start i) = none
  | .failed | .gaveUp => mode = .repeatableRead
  | _ => True

omit [DecidableEq K] in
/-- A request in this phase may have locked the row. -/
def Holds (mode : Mode) (r : Request K V) (k : K) : Phase K V → Prop
  | .locking values => k ∈ r.reads.take values.length
  | .decided _ => mode = .forUpdate
  | .wrote _ _ => True
  | _ => False

end Db

/-- What holds at any time. -/
structure Inv (mode : Mode) (req : ι → Request K V) (start : K → V) (s : Db ι K V) : Prop where
  rows : s.rows = after start s.log
  version : ∀ k n, s.version k ≤ n ↔ ∀ l e, n ≤ l → s.log[l]? = some e → e.row ≠ k
  snapshot : ∀ i, s.snapshot i ≤ s.log.length
  entry : ∀ l (e : Entry ι K V), s.log[l]? = some e →
    e.Snapshot req start s.log l ∧ e.Kept mode req s.log l
  sound : ∀ i, s.Sound mode (req i) start i (s.phase i)
  lock : ∀ k i, s.lock k = some i → Db.Holds mode (req i) k (s.phase i)

variable {mode : Mode} {maxRetries : ℕ} {req : ι → Request K V} {start : K → V} {s s' : Db ι K V}
  {i j : ι} {k : K} {v : V} {p : Phase K V}

theorem Inv.init (mode : Mode) (req : ι → Request K V) (start : K → V) :
    Inv mode req start (Db.init start) where
  rows := rfl
  version k n := iff_of_true (Nat.zero_le n) fun l e _ he => by cases he
  snapshot i := Nat.le_refl 0
  entry l e he := by cases he
  sound i := trivial
  lock k i h := by cases h

/-- What another request does leaves a request as it is. -/
theorem Db.Sound.keep {r : Request K V} (h : s.Sound mode r start j p)
    (hlock : ∀ k, s.lock k = some j →
      s'.lock k = some j ∧ s'.rows k = s.rows k ∧ s'.version k = s.version k)
    (hsnapshot : s'.snapshot j = s.snapshot j)
    (hlog : s'.log.take (s.snapshot j) = s.log.take (s.snapshot j)) :
    s'.Sound mode r start j p := by
  have hseen : s'.seen r start j = s.seen r start j := by rw [seen, seen, hsnapshot, hlog]
  -- the rows that a transaction guards are locked, and so they stay as they were
  have hguard : ∀ {ks}, s.Guarded j ks → s'.Guarded j ks := by
    intro ks hks k hk
    obtain ⟨hl, hv⟩ := hks k hk
    obtain ⟨hl', -, hv'⟩ := hlock k hl
    rw [hv', hsnapshot]
    exact ⟨hl', hv⟩
  -- what each phase says rests on the snapshot and on locked rows
  cases p with
  | locking values =>
    obtain ⟨hmode, hvalues, hlocked⟩ := h
    refine ⟨hmode, ?_, fun k hk => (hlock k (hlocked k hk)).1⟩
    refine hvalues.trans (List.map_congr_left fun k hk => ?_)
    exact (hlock k (hlocked k hk)).2.1.symm
  | decided w => exact ⟨h.1, hseen ▸ h.2.1, fun hmode => hguard (h.2.2 hmode)⟩
  | wrote k v => exact ⟨hseen ▸ h.1, (hlock k h.2.1).1, hguard h.2.2⟩
  | declined =>
    show r.write (s'.seen r start j) = none
    rw [hseen]
    exact h
  | failed => exact h
  | gaveUp => exact h
  | _ => trivial

variable [DecidableEq ι]

/-- **A request goes on** without a commit, and the locks of the others stay. -/
theorem Inv.act (h : Inv mode req start s) (hphase : s'.phase = Function.update s.phase i p)
    (hrows : s'.rows = s.rows) (hversion : s'.version = s.version) (hlog : s'.log = s.log)
    (hsnapshot : s'.snapshot = s.snapshot ∨ s'.snapshot = (s.see i).snapshot)
    (hother : ∀ k j, j ≠ i → (s'.lock k = some j ↔ s.lock k = some j))
    (hheld : ∀ k, s'.lock k = some i → Db.Holds mode (req i) k p)
    (hp : s'.Sound mode (req i) start i p) : Inv mode req start s' := by
  -- only the transaction that acts may take a snapshot
  have hsnap : ∀ j, j ≠ i → s'.snapshot j = s.snapshot j := by
    intro j hj
    rcases hsnapshot with heq | heq <;> rw [heq]
    exact Function.update_of_ne hj ..
  refine ⟨by rw [hrows, hlog]; exact h.rows, by rw [hversion, hlog]; exact h.version,
    fun j => ?_, by rw [hlog]; exact h.entry, fun j => ?_, fun k j hk => ?_⟩
  · rw [hlog]
    rcases hsnapshot with heq | heq <;> rw [heq]
    · exact h.snapshot j
    · show Function.update s.snapshot i s.log.length j ≤ _
      by_cases hj : j = i
      · subst hj
        exact Nat.le_of_eq (Function.update_self ..)
      · rw [Function.update_of_ne hj]
        exact h.snapshot j
  · rw [hphase]
    -- the transaction that acts, and the others
    by_cases hj : j = i
    · subst hj
      rw [Function.update_self]
      exact hp
    · rw [Function.update_of_ne hj]
      refine (h.sound j).keep (fun k hk => ⟨(hother k j hj).mpr hk, ?_, ?_⟩) (hsnap j hj) ?_
      · rw [hrows]
      · rw [hversion]
      · rw [hlog]
  · rw [hphase]
    by_cases hj : j = i
    · subst hj
      rw [Function.update_self]
      exact hheld k hk
    · rw [Function.update_of_ne hj]
      exact h.lock k j ((hother k j hj).mp hk)

/-! ### The locks of a request -/

omit [DecidableEq K] in
theorem Db.free_iff : s.free i k = true ↔ ∀ j, s.lock k = some j → j = i := by
  rw [free, decide_eq_true_eq]
  cases h : s.lock k with
  | none => simp
  | some j => simp [eq_comm]

omit [DecidableEq K] in
theorem Db.lock_release : (s.release i).lock k = some j ↔ j ≠ i ∧ s.lock k = some j := by
  show (if s.lock k = some i then none else s.lock k) = some j ↔ _
  split
  · next hk =>
    rw [hk, Option.some_inj]
    exact iff_of_false nofun fun hj => hj.1 hj.2.symm
  · next hk =>
    refine ⟨fun hj => ⟨?_, hj⟩, fun hj => hj.2⟩
    rintro rfl
    exact hk hj

/-- A lock that is taken was free, or its holder's already. -/
theorem Db.lock_take (hfree : s.free i k = true) {x : K} (hj : j ≠ i) :
    (s.take i k).lock x = some j ↔ s.lock x = some j := by
  show Function.update s.lock k (some i) x = some j ↔ _
  by_cases hx : x = k
  · subst hx
    rw [Function.update_self]
    exact iff_of_false (fun heq => hj (Option.some_inj.mp heq).symm)
      fun hl => hj (Db.free_iff.mp hfree j hl)
  · rw [Function.update_of_ne hx]

omit [DecidableEq ι] in
theorem Db.lock_take_of_lock {x : K} (hx : s.lock x = some i) : (s.take i k).lock x = some i := by
  show Function.update s.lock k (some i) x = some i
  by_cases hxk : x = k
  · rw [hxk, Function.update_self]
  · rw [Function.update_of_ne hxk, hx]

omit [DecidableEq K] in
/-- **A transaction ends** without a commit of a write. -/
theorem Inv.release [DecidableEq K] (h : Inv mode req start s)
    (hp : (s.release i).Sound mode (req i) start i p) :
    Inv mode req start ((s.release i).enter i p) :=
  h.act rfl rfl rfl rfl (Or.inl rfl) (fun k j hj => Db.lock_release.trans (and_iff_right hj))
    (fun k hk => absurd rfl (Db.lock_release.mp hk).1) (by cases p <;> exact hp)

/-! ### A commit -/

omit [DecidableEq ι] in
theorem Inv.version_le (h : Inv mode req start s) (k : K) : s.version k ≤ s.log.length :=
  (h.version k _).mpr fun l e hl he => by
    rw [List.getElem?_eq_none hl] at he
    cases he

/-- **A write is committed.** -/
theorem Inv.commit (h : Inv mode req start s) (hi : s.phase i = .wrote k v) :
    Inv mode req start (((s.commit i k v).release i).enter i .committed) := by
  have hsound := h.sound i
  rw [hi] at hsound
  obtain ⟨hwrite, hlock, hguard⟩ := hsound
  let e₀ : Entry ι K V := ⟨i, k, v, s.snapshot i⟩
  have hlog : ∀ {l}, l ≤ s.log.length → (s.log ++ [e₀]).take l = s.log.take l :=
    fun hl => List.take_append_of_le_length hl
  have hget : ∀ l e, (s.log ++ [e₀])[l]? = some e →
      s.log[l]? = some e ∧ l < s.log.length ∨ l = s.log.length ∧ e = e₀ := by
    intro l e he
    rw [List.getElem?_append] at he
    split at he
    · next hl => exact Or.inl ⟨he, hl⟩
    · next hl =>
      rw [List.getElem?_singleton] at he
      split at he
      · exact Or.inr ⟨by omega, (Option.some_inj.mp he).symm⟩
      · cases he
  -- nobody else has locked the row that is written
  have hne : ∀ {j x}, j ≠ i → s.lock x = some j → x ≠ k := by
    rintro j x hj hx rfl
    exact hj (Option.some_inj.mp (hx.symm.trans hlock))
  refine ⟨?_, fun x n => ?_, fun j => ?_, fun l e he => ?_, fun j => ?_, fun x j hx => ?_⟩
  · exact (congrArg (Function.update · k v) h.rows).trans (after_concat start s.log e₀).symm
  · show Function.update s.version k (s.log.length + 1) x ≤ n ↔
      ∀ l e, n ≤ l → (s.log ++ [e₀])[l]? = some e → e.row ≠ x
    by_cases hx : x = k
    · subst hx
      rw [Function.update_self]
      constructor
      · intro hn l e hl he
        rw [List.getElem?_eq_none (by rw [List.length_append]; exact Nat.le_trans hn hl)] at he
        cases he
      · intro hall
        by_contra hn
        exact hall s.log.length _ (by omega) List.getElem?_concat_length rfl
    · rw [Function.update_of_ne hx, h.version]
      constructor
      · intro hall l e hl he
        rcases hget l e he with ⟨he, -⟩ | ⟨-, rfl⟩
        · exact hall l e hl he
        · exact Ne.symm hx
      · intro hall l e hl he
        refine hall l e hl ?_
        rw [List.getElem?_append_left (List.getElem?_eq_some_iff.mp he).1]
        exact he
  · show s.snapshot j ≤ (s.log ++ [e₀]).length
    rw [List.length_append]
    exact Nat.le_add_right_of_le (h.snapshot j)
  · rcases hget l e he with ⟨he, hl⟩ | ⟨rfl, rfl⟩
    · obtain ⟨⟨hle, hdecided⟩, hkept⟩ := h.entry l e he
      refine ⟨⟨hle, ?_⟩, fun m e' hm hml he' => ?_⟩
      · show (req e.request).write (List.map (after start ((s.log ++ [e₀]).take e.snapshot)) _) = _
        rw [hlog (Nat.le_trans hle (Nat.le_of_lt hl))]
        exact hdecided
      · rcases hget m e' he' with ⟨he', -⟩ | ⟨rfl, -⟩
        · exact hkept m e' hm hml he'
        · exact absurd (Nat.lt_trans hml hl) (Nat.lt_irrefl _)
    · refine ⟨⟨h.snapshot i, ?_⟩, fun m e' hm hml he' hmem => ?_⟩
      · show (req i).write (List.map (after start ((s.log ++ [e₀]).take (s.snapshot i))) _) = _
        rw [hlog (h.snapshot i)]
        exact hwrite
      · rcases hget m e' he' with ⟨he', -⟩ | ⟨rfl, -⟩
        · exact (h.version _ _).mp (hguard _ hmem).2 m e' hm he' rfl
        · exact Nat.lt_irrefl _ hml
  · show Db.Sound mode (req j) start _ j (Function.update s.phase i .committed j)
    by_cases hj : j = i
    · rw [hj, Function.update_self]
      trivial
    · rw [Function.update_of_ne hj]
      refine (h.sound j).keep (fun x hx => ⟨Db.lock_release.mpr ⟨hj, hx⟩, ?_, ?_⟩) rfl
        (hlog (h.snapshot j))
      · exact Function.update_of_ne (hne hj hx) ..
      · exact Function.update_of_ne (hne hj hx) ..
  · obtain ⟨hj, hx⟩ := Db.lock_release.mp hx
    show Db.Holds mode (req j) x (Function.update s.phase i .committed j)
    rw [Function.update_of_ne hj]
    exact h.lock x j hx

/-! ### Every statement -/

/-- What a request sees that has all commits so far in its snapshot. -/
theorem Inv.seen_see (h : Inv mode req start s) (r : Request K V) (i : ι) :
    (s.see i).seen r start i = r.reads.map s.rows := by
  show r.reads.map (after start (s.log.take (Function.update s.snapshot i s.log.length i))) = _
  rw [Function.update_self, List.take_length, h.rows]

/-- A `SELECT`, which is not in the way of others. -/
theorem Inv.decide (h : Inv mode req start s) (hmode : mode ≠ .statement)
    (hheld : ∀ k, s.lock k = some i → mode = .forUpdate)
    (hguard : mode = .forUpdate → ∀ k ∈ (req i).reads, s.lock k = some i) :
    Inv mode req start
      ((s.see i).enter i (.decided ((req i).write ((req i).reads.map s.rows)))) := by
  refine h.act rfl rfl rfl rfl (Or.inr rfl) (fun _ _ _ => Iff.rfl) hheld
    ⟨hmode, congrArg _ (h.seen_see (req i) i), fun hupdate k hk => ⟨hguard hupdate k hk, ?_⟩⟩
  show s.version k ≤ Function.update s.snapshot i s.log.length i
  rw [Function.update_self]
  exact h.version_le k

omit [DecidableEq ι] in
/-- Before it begins a request has no locks. -/
theorem Inv.not_lock_idle (h : Inv mode req start s) (hi : s.phase i = .idle) (k : K) :
    s.lock k ≠ some i := by
  intro hk
  have hheld := h.lock k i hk
  rw [hi] at hheld
  exact hheld

omit [DecidableEq ι] in
/-- Nor has it any after it has failed. -/
theorem Inv.not_lock_failed (h : Inv mode req start s) (hi : s.phase i = .failed) (k : K) :
    s.lock k ≠ some i := by
  intro hk
  have hheld := h.lock k i hk
  rw [hi] at hheld
  exact hheld

/-- **A statement.** -/
theorem Inv.next (h : Inv mode req start s) (hs : s.next mode maxRetries (req i) i = some s') :
    Inv mode req start s' := by
  have hsound := h.sound i
  unfold Db.next at hs
  cases hi : s.phase i with
  | idle =>
    have hnone := h.not_lock_idle hi
    simp only [hi] at hs
    -- a request takes its snapshot, and decides at once unless it reads under locks
    cases mode with
    | readCommitted =>
      obtain rfl := Option.some_inj.mp hs
      exact h.decide nofun (fun k hk => absurd hk (hnone k)) nofun
    | repeatableRead =>
      obtain rfl := Option.some_inj.mp hs
      exact h.decide nofun (fun k hk => absurd hk (hnone k)) nofun
    | forUpdate =>
      obtain rfl := Option.some_inj.mp hs
      exact h.act rfl rfl rfl rfl (Or.inl rfl) (fun _ _ _ => Iff.rfl)
        (fun k hk => absurd hk (hnone k)) ⟨rfl, rfl, nofun⟩
    | statement =>
      dsimp only at hs
      split at hs
      · next hw =>
        obtain rfl := Option.some_inj.mp hs
        exact h.act rfl rfl rfl rfl (Or.inr rfl) (fun _ _ _ => Iff.rfl)
          (fun k hk => absurd hk (hnone k)) ((congrArg _ (h.seen_see (req i) i)).trans hw)
      -- the statement takes the lock together with its snapshot, so the row is as it was seen
      · next k v hw =>
        obtain ⟨hfree, hs⟩ := Option.ite_none_right_eq_some.mp hs
        obtain rfl := Option.some_inj.mp hs
        refine h.act rfl rfl rfl rfl (Or.inr rfl) (fun x j hj => Db.lock_take hfree hj)
          (fun _ _ => trivial) ⟨(congrArg _ (h.seen_see (req i) i)).trans hw,
            Function.update_self .., fun x hx => ?_⟩
        obtain rfl := List.mem_singleton.mp hx
        refine ⟨Function.update_self .., ?_⟩
        show s.version x ≤ Function.update s.snapshot i s.log.length i
        rw [Function.update_self]
        exact h.version_le x
  | locking values =>
    rw [hi] at hsound
    obtain ⟨rfl, hvalues, hlocked⟩ := hsound
    simp only [hi] at hs
    split at hs
    -- the next row is locked, and read as it stands
    · next k hk =>
      obtain ⟨hfree, hs⟩ := Option.ite_none_right_eq_some.mp hs
      obtain rfl := Option.some_inj.mp hs
      have htake : (req i).reads.take (values.length + 1) =
          (req i).reads.take values.length ++ [k] := by
        rw [List.take_add_one, hk]
        rfl
      refine h.act rfl rfl rfl rfl (Or.inl rfl) (fun x j hj => Db.lock_take hfree hj)
        (fun x hx => ?_) ⟨rfl, ?_, fun x hx => ?_⟩
      · show x ∈ (req i).reads.take (values ++ [_]).length
        rw [List.length_append, List.length_singleton, htake, List.mem_append, List.mem_singleton]
        by_cases hxk : x = k
        · exact Or.inr hxk
        · have hheld := h.lock x i ((Function.update_of_ne hxk ..).symm.trans hx)
          rw [hi] at hheld
          exact Or.inl hheld
      · rw [List.length_append, List.length_singleton, htake, List.map_append]
        exact congrArg (· ++ _) hvalues
      · rw [List.length_append, List.length_singleton, htake, List.mem_append,
          List.mem_singleton] at hx
        rcases hx with hx | rfl
        · exact Db.lock_take_of_lock (hlocked x hx)
        · exact Function.update_self ..
    -- all rows are locked, and what was read is what they hold
    · next hk =>
      obtain rfl := Option.some_inj.mp hs
      rw [List.take_of_length_le (List.getElem?_eq_none_iff.mp hk)] at hvalues hlocked
      rw [hvalues]
      exact h.decide nofun (fun _ _ => rfl) fun _ => hlocked
  | decided w =>
    rw [hi] at hsound
    obtain ⟨hmode, hwrite, hguard⟩ := hsound
    cases w with
    | none =>
      simp only [hi] at hs
      obtain rfl := Option.some_inj.mp hs
      exact h.release hwrite
    | some w =>
      obtain ⟨k, v⟩ := w
      simp only [hi] at hs
      obtain ⟨hfree, hs⟩ := Option.ite_none_right_eq_some.mp hs
      split at hs
      -- the row has changed since the snapshot: the request gives up its locks
      · next hold =>
        obtain rfl := Option.some_inj.mp hs
        exact h.release hold.1
      · next hold =>
        obtain rfl := Option.some_inj.mp hs
        refine h.act rfl rfl rfl rfl (Or.inl rfl) (fun x j hj => Db.lock_take hfree hj)
          (fun _ _ => trivial) ⟨hwrite, Function.update_self .., fun x hx => ?_⟩
        -- what is written rests on a row that has not changed since
        cases mode with
        | readCommitted => cases hx
        | repeatableRead =>
          obtain rfl := List.mem_singleton.mp hx
          exact ⟨Function.update_self .., Nat.le_of_not_lt fun hlt => hold ⟨rfl, hlt⟩⟩
        | forUpdate =>
          obtain ⟨hlock, hversion⟩ := hguard rfl x hx
          exact ⟨Db.lock_take_of_lock hlock, hversion⟩
        | statement => exact absurd rfl hmode
  | wrote k v =>
    simp only [hi] at hs
    obtain rfl := Option.some_inj.mp hs
    exact h.commit hi
  | failed =>
    have hnone := h.not_lock_failed hi
    rw [hi] at hsound
    simp only [hi] at hs
    -- after a failure it retries, or gives up
    split at hs <;> obtain rfl := Option.some_inj.mp hs
    · exact h.act rfl rfl rfl rfl (Or.inl rfl) (fun _ _ _ => Iff.rfl)
        (fun k hk => absurd hk (hnone k)) trivial
    · exact h.act rfl rfl rfl rfl (Or.inl rfl) (fun _ _ _ => Iff.rfl)
        (fun k hk => absurd hk (hnone k)) hsound
  | _ =>
    simp only [hi] at hs
    cases hs

/-- **Every statement and every failure keeps the invariant.** -/
theorem Inv.step (h : Inv mode req start s) {a : Action ι}
    (hs : Db.step mode maxRetries req s a = some s') : Inv mode req start s' := by
  cases a with
  | next i => exact h.next hs
  | fail i =>
    simp only [Db.step, Db.fail] at hs
    split at hs
    · exact Option.some_inj.mp hs ▸ h.release trivial
    · exact Option.some_inj.mp hs ▸ h.release trivial
    · exact Option.some_inj.mp hs ▸ h.release trivial
    · cases hs

theorem Inv.of_reach (h : Reach (Db.step mode maxRetries req) (Db.init start) s) :
    Inv mode req start s :=
  h.invariant (Inv.init mode req start) fun _ _ _ h hs => h.step hs

omit [DecidableEq ι] in
/-- **Protected reads are serializable.**  Where the rows that a request reads are protected up
to its commit, its write was decided on the rows as they were just before. -/
theorem Inv.serial (h : Inv mode req start s) {l : ℕ} {e : Entry ι K V} (he : s.log[l]? = some e)
    (hkept : ∀ k ∈ (req e.request).reads, k ∈ mode.kept (req e.request).reads e.row) :
    (req e.request).write ((req e.request).reads.map (after start (s.log.take l))) =
      some (e.row, e.value) := by
  obtain ⟨⟨hle, hwrite⟩, hk⟩ := h.entry l e he
  rw [map_after_take hle fun m e' hm hml he' hmem => hk m e' hm hml he' (hkept _ hmem)]
  exact hwrite

end Isolation
end SepLab
