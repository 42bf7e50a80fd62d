import SepLab.Lib.EachAfter
import SepLab.Lib.ReadCommitted
import SepLab.Lib.Transition

/-!
# Writers that share a row

`write_v1` and `write_v2` of `lww_writers.py`, called by any number of writers on the rows
of `lww_items`.  Each write is one statement, `INSERT … ON CONFLICT DO UPDATE … WHERE`, in a
transaction of its own: it takes the transaction's `now()` first, then the snapshot of the
common table expression and the values to insert, and waits for its turn on the row.  When
that has come it finds the newest committed row, which it locks even if the condition does
not hold.  A write that lost reads the row once more, to say what it lost to.

The clock of the database does not go back, and may stand still.

## Main definitions

* `Item`, `LogEntry` — the rows of `lww_items` and of `lww_write_log`.
* `Phase`, `State`, `Action`, `step` — the writes, in any interleaving of their statements.
* `Inv` — what rows and calls have to do with the histories.
* `Frame` — what a step of one call leaves alone.

## Main results

* `Frame.fits` — what is known of the other calls stays so.
* `Inv.of_frame` — a step keeps the invariant if its own call has something to show for it.
-/

namespace SepLab
namespace ClocksLie

/-- The two ways to write a row: last writer wins by time, or compare and set by version. -/
inductive Variant
  | v1
  | v2
deriving DecidableEq

/-- What is told to the writer. -/
inductive Outcome
  | applied
  | rejectedLww
  | rejectedCas
deriving DecidableEq

/-- The `reject_outcome` of a variant. -/
def Variant.rejectOutcome : Variant → Outcome
  | .v1 => .rejectedLww
  | .v2 => .rejectedCas

/-- A row of `lww_items`, with the call whose value and writer it has. -/
structure Item (ι τ : Type) where
  writer : ι
  version : ℤ
  updatedAt : τ
  appliedDbTs : τ
deriving DecidableEq

/-- A row of `lww_write_log`. -/
structure LogEntry (ι τ : Type) where
  writer : ι
  submittedDbTs : τ
  executedDbTs : τ
  winnerDbTs : Option τ
  outcome : Outcome
deriving DecidableEq

/-- How far a call has come; `submitted` is the clock it read before the write, `now` the start
of its transaction, and `cur` the version in its snapshot. -/
inductive Phase (ι τ : Type)
  | idle
  | submitted (submitted : τ)
  | begun (submitted now : τ)
  | snapshot (submitted now : τ) (cur : Option ℤ)
  /-- Its row to insert is ready, and it waits for its turn. -/
  | inserting (submitted now : τ) (cur : Option ℤ) (valuesAt : τ)
  /-- It has the row; `won` says that it has written it. -/
  | decided (submitted : τ) (won : Bool)
  | executed (submitted executedAt : τ) (won : Bool)
  | committed (submitted executedAt : τ) (won : Bool)
  /-- `_apply` has returned. -/
  | reported (entry : LogEntry ι τ)
  | logged
  /-- The connection has failed, or there was no row to read. -/
  | failed

/-- The rows and the log, and the calls.  `applied` has the rows that were committed under a
key, `seen` those that were when a call took its snapshot, and `found` those that were when
its turn came. -/
structure State (ι K τ : Type) where
  clock : τ
  items : Table K ι (Item ι τ)
  log : List (LogEntry ι τ)
  phase : ι → Phase ι τ
  applied : K → List (Item ι τ)
  seen : ι → List (Item ι τ)
  found : ι → List (Item ι τ)

/-- The statements of a write, and the passing of time. -/
inductive Action (ι τ : Type)
  | tick (now : τ)
  /-- `SELECT clock_timestamp()`, before the write. -/
  | submit (i : ι)
  /-- The transaction of the write begins. -/
  | begin (i : ι)
  | snapshot (i : ι)
  /-- The row to insert is computed. -/
  | values (i : ι)
  /-- The call inserts or updates the row, or only locks it. -/
  | turn (i : ι)
  /-- The result of the statement is computed. -/
  | execute (i : ι)
  | commit (i : ι)
  /-- `_apply` returns, after it has read the winner if the write lost. -/
  | report (i : ι)
  | log (i : ι)
  | abort (i : ι)

variable {ι K τ : Type} [DecidableEq ι] [DecidableEq K] [LinearOrder τ]

/-- The version that a new row is inserted with: the default of the column, or
`coalesce((SELECT version FROM cur), 0) + 1`. -/
def insertVersion (cur : Option ℤ) : Variant → ℤ
  | .v1 => 0
  | .v2 => cur.getD 0 + 1

/-- The version that a row is updated to. -/
def updateVersion (r : Item ι τ) : Variant → ℤ
  | .v1 => r.version
  | .v2 => r.version + 1

/-- The `WHERE` of the update: `lww_items.updated_at < now()`, or
`lww_items.version = coalesce((SELECT version FROM cur), -1)`. -/
def wins (r : Item ι τ) (now : τ) (cur : Option ℤ) : Variant → Bool
  | .v1 => r.updatedAt < now
  | .v2 => r.version = cur.getD (-1)

namespace State

/-- Before the first write, with empty tables. -/
def init (clock : τ) : State ι K τ :=
  ⟨clock, fun _ => .empty, [], fun _ => .idle, fun _ => [], fun _ => [], fun _ => []⟩

/-- The call `i` goes on to `p`. -/
def enter (s : State ι K τ) (i : ι) (p : Phase ι τ) : State ι K τ :=
  { s with phase := Function.update s.phase i p }

/-- The turn of a call that has the key `k`: without a row it inserts its own. -/
def turn (variant : Variant) (s : State ι K τ) (i : ι) (k : K) (submitted now : τ)
    (cur : Option ℤ) (valuesAt : τ) : State ι K τ :=
  let s := { s with found := Function.update s.found i (s.applied k) }
  match (s.items k).committed with
  | none =>
    { s with items := s.items.put k i (some ⟨i, insertVersion cur variant, now, valuesAt⟩) }.enter i
      (.decided submitted true)
  | some r =>
    if wins r now cur variant then
      { s with items := s.items.put k i (some ⟨i, updateVersion r variant, now, s.clock⟩) }.enter i
        (.decided submitted true)
    else { s with items := s.items.put k i (some r) }.enter i (.decided submitted false)

/-- The transaction of a call that has the key `k` commits. -/
def commit (s : State ι K τ) (i : ι) (k : K) (submitted executedAt : τ) (won : Bool) :
    State ι K τ :=
  { s with
    items := s.items.commit i
    applied := if won then Function.update s.applied k
        (s.applied k ++ ((s.items k).commit i).committed.toList) else s.applied }.enter i
    (.committed submitted executedAt won)

/-- `_apply`, after its statement: what it returns. -/
def report (variant : Variant) (s : State ι K τ) (i : ι) (k : K) (submitted executedAt : τ)
    (won : Bool) : State ι K τ :=
  if won then s.enter i (.reported ⟨i, submitted, executedAt, none, .applied⟩)
  else
    match (s.items k).committed with
    | none => s.enter i .failed
    | some r => s.enter i
        (.reported ⟨i, submitted, executedAt, some r.appliedDbTs, variant.rejectOutcome⟩)

end State

/-- One statement; `key` has the keys of the calls. -/
def step (variant : Variant) (key : ι → K) (s : State ι K τ) : Action ι τ → Option (State ι K τ)
  | .tick now => if s.clock ≤ now then some { s with clock := now } else none
  | .submit i =>
    match s.phase i with
    | .idle => some (s.enter i (.submitted s.clock))
    | _ => none
  | .begin i =>
    match s.phase i with
    | .submitted submitted => some (s.enter i (.begun submitted s.clock))
    | _ => none
  | .snapshot i =>
    match s.phase i with
    | .begun submitted now =>
      some ({ s with seen := Function.update s.seen i (s.applied (key i)) }.enter i
        (.snapshot submitted now ((s.items (key i)).committed.map Item.version)))
    | _ => none
  | .values i =>
    match s.phase i with
    | .snapshot submitted now cur => some (s.enter i (.inserting submitted now cur s.clock))
    | _ => none
  | .turn i =>
    match s.phase i with
    | .inserting submitted now cur valuesAt =>
      if (s.items (key i)).free i then
        some (s.turn variant i (key i) submitted now cur valuesAt)
      else none
    | _ => none
  | .execute i =>
    match s.phase i with
    | .decided submitted won => some (s.enter i (.executed submitted s.clock won))
    | _ => none
  | .commit i =>
    match s.phase i with
    | .executed submitted executedAt won => some (s.commit i (key i) submitted executedAt won)
    | _ => none
  | .report i =>
    match s.phase i with
    | .committed submitted executedAt won =>
      some (s.report variant i (key i) submitted executedAt won)
    | _ => none
  | .log i =>
    match s.phase i with
    | .reported entry => some ({ s with log := s.log ++ [entry] }.enter i .logged)
    | _ => none
  | .abort i => some ({ s with items := s.items.rollback i }.enter i .failed)

/-! ### The invariant -/

/-- The call has the row locked. -/
def Phase.holds : Phase ι τ → Bool
  | .decided _ _ => true
  | .executed _ _ _ => true
  | _ => false

/-- The transaction of the call is over. -/
def Phase.ended : Phase ι τ → Bool
  | .committed _ _ _ => true
  | .reported _ => true
  | .logged => true
  | .failed => true
  | _ => false

/-- What a row that is written has to do with the one it is written over. -/
def Follows (old : Option (Item ι τ)) (new : Item ι τ) : Variant → Prop
  | .v1 => (∀ r, old = some r → r.updatedAt < new.updatedAt) ∧ new.updatedAt ≤ new.appliedDbTs
  | .v2 => new.version = (old.map Item.version).getD 0 + 1

/-- What the decision has to do with the writes that the call saw and those that it found. -/
def Judged (submitted : τ) (won : Bool) (seen found : List (Item ι τ)) : Variant → Prop
  | .v1 => won = false → ∃ r, found.getLast? = some r ∧ submitted ≤ r.updatedAt
  | .v2 => won = true ↔ found = seen

section Inv

variable (variant : Variant) (key : ι → K) (s : State ι K τ)

/-- A write that was applied under the key `k` after the writes `pre`. -/
structure Applied (k : K) (pre : List (Item ι τ)) (new : Item ι τ) : Prop where
  key : key new.writer = k
  follows : Follows pre.getLast? new variant
  found : s.found new.writer = pre
  seen : variant = .v2 → s.seen new.writer = pre
  ended : (s.phase new.writer).ended = true

/-- A call has seen the writes `s.seen i`, the last of which has the version `cur`. -/
structure Snapshot (i : ι) (cur : Option ℤ) : Prop where
  seen : s.seen i <+: s.applied (key i)
  cur : cur = (s.seen i).getLast?.map Item.version

/-- A call has the row of its key, and has written it if `won`. -/
structure Holds (i : ι) (won : Bool) : Prop where
  found : s.found i = s.applied (key i)
  written : won = true → ∃ new, (s.items (key i)).pending = some (i, some new) ∧ new.writer = i ∧
    Follows (s.applied (key i)).getLast? new variant
  locked : won = false → (s.items (key i)).pending = some (i, (s.items (key i)).committed)

/-- A call has been judged by the writes that it found. -/
structure Verdict (i : ι) (submitted : τ) (won : Bool) : Prop where
  seen : s.seen i <+: s.found i
  found : s.found i <+: s.applied (key i)
  judged : Judged submitted won (s.seen i) (s.found i) variant

/-- What `_apply` has returned. -/
structure Entry (e : LogEntry ι τ) : Prop where
  outcome : e.outcome = .applied ∨ e.outcome = variant.rejectOutcome
  verdict : Verdict variant key s e.writer e.submittedDbTs (decide (e.outcome = .applied))
  applied : e.outcome = .applied → ∃ new ∈ s.applied (key e.writer), new.writer = e.writer
  winner : e.outcome ≠ .applied → ∃ w, e.winnerDbTs = some w ∧
    (variant = .v1 → e.submittedDbTs ≤ w)

/-- What is known of a call in its phase. -/
def Fits (i : ι) : Phase ι τ → Prop
  | .idle => True
  | .submitted submitted => submitted ≤ s.clock
  | .begun submitted now => submitted ≤ now ∧ now ≤ s.clock
  | .snapshot submitted now cur => submitted ≤ now ∧ now ≤ s.clock ∧ Snapshot key s i cur
  | .inserting submitted now cur valuesAt =>
    submitted ≤ now ∧ now ≤ valuesAt ∧ valuesAt ≤ s.clock ∧ Snapshot key s i cur
  | .decided submitted won => Holds variant key s i won ∧ Verdict variant key s i submitted won
  | .executed submitted _ won => Holds variant key s i won ∧ Verdict variant key s i submitted won
  | .committed submitted _ won =>
    Verdict variant key s i submitted won ∧
      (won = true → ∃ new ∈ s.applied (key i), new.writer = i)
  | .reported e => e.writer = i ∧ Entry variant key s e
  | .logged => True
  | .failed => True

/-- The rows are those applied last, and each write is in order. -/
structure Inv : Prop where
  committed : ∀ k, (s.items k).committed = (s.applied k).getLast?
  applied : ∀ k, EachAfter (Applied variant key s k) (s.applied k)
  pending : ∀ k i v, (s.items k).pending = some (i, v) → key i = k ∧ (s.phase i).holds = true
  calls : ∀ i, Fits variant key s i (s.phase i)
  log : ∀ e ∈ s.log, (s.phase e.writer).ended = true ∧ Entry variant key s e

end Inv

/-! ### What a step leaves alone -/

/-- A step of the call `i`, or of nobody: the others keep what they know, the histories grow,
and whoever has a row locked finds it as it was. -/
structure Frame (s s' : State ι K τ) (i : ι) : Prop where
  clock : s.clock ≤ s'.clock
  phase : ∀ j, j ≠ i → s'.phase j = s.phase j
  seen : ∀ j, j ≠ i ∨ (s.phase i).ended = true → s'.seen j = s.seen j
  found : ∀ j, j ≠ i ∨ (s.phase i).ended = true → s'.found j = s.found j
  ended : (s.phase i).ended = true → (s'.phase i).ended = true
  applied : ∀ k, s.applied k <+: s'.applied k
  held : ∀ j, j ≠ i → ∀ k v, (s.items k).pending = some (j, v) →
    s'.items k = s.items k ∧ s'.applied k = s.applied k

section Frame

omit [DecidableEq ι] [DecidableEq K]

variable {variant : Variant} {key : ι → K} {s s' : State ι K τ} {i j : ι}

namespace Frame

theorem of_ended (h : Frame s s' i) (hj : (s.phase j).ended = true) :
    (s'.phase j).ended = true ∧ s'.seen j = s.seen j ∧ s'.found j = s.found j := by
  by_cases hji : j = i
  · subst hji
    exact ⟨h.ended hj, h.seen j (Or.inr hj), h.found j (Or.inr hj)⟩
  · rw [h.phase j hji]
    exact ⟨hj, h.seen j (Or.inl hji), h.found j (Or.inl hji)⟩

theorem applied_of (h : Frame s s' i) {k : K} {pre : List (Item ι τ)} {new : Item ι τ}
    (ha : Applied variant key s k pre new) : Applied variant key s' k pre new := by
  obtain ⟨hended, hseen, hfound⟩ := h.of_ended ha.ended
  exact ⟨ha.key, ha.follows, hfound.trans ha.found, fun hv => hseen.trans (ha.seen hv), hended⟩

theorem verdict (h : Frame s s' i) {submitted : τ} {won : Bool} (hseen : s'.seen j = s.seen j)
    (hfound : s'.found j = s.found j) (hv : Verdict variant key s j submitted won) :
    Verdict variant key s' j submitted won := by
  refine ⟨?_, ?_, ?_⟩
  · rw [hseen, hfound]
    exact hv.seen
  · rw [hfound]
    exact hv.found.trans (h.applied _)
  · rw [hseen, hfound]
    exact hv.judged

theorem entry (h : Frame s s' i) {e : LogEntry ι τ} (hseen : s'.seen e.writer = s.seen e.writer)
    (hfound : s'.found e.writer = s.found e.writer) (he : Entry variant key s e) :
    Entry variant key s' e := by
  refine ⟨he.outcome, h.verdict hseen hfound he.verdict, ?_, he.winner⟩
  intro hout
  obtain ⟨new, hnew, hwriter⟩ := he.applied hout
  exact ⟨new, (h.applied _).subset hnew, hwriter⟩

theorem snapshot (h : Frame s s' i) {cur : Option ℤ} (hseen : s'.seen j = s.seen j)
    (hs : Snapshot key s j cur) : Snapshot key s' j cur := by
  refine ⟨?_, ?_⟩
  · rw [hseen]
    exact hs.seen.trans (h.applied _)
  · rw [hseen]
    exact hs.cur

theorem holds (h : Frame s s' i) (hj : j ≠ i) {won : Bool} (hh : Holds variant key s j won) :
    Holds variant key s' j won := by
  have hfound := h.found j (Or.inl hj)
  cases won with
  | true =>
    obtain ⟨new, hpending, hwriter, hfollows⟩ := hh.written rfl
    obtain ⟨hitem, happlied⟩ := h.held j hj _ _ hpending
    refine ⟨by rw [hfound, happlied, hh.found], fun _ => ⟨new, ?_, hwriter, ?_⟩, by simp⟩
    · rw [hitem]
      exact hpending
    · rw [happlied]
      exact hfollows
  | false =>
    have hpending := hh.locked rfl
    obtain ⟨hitem, happlied⟩ := h.held j hj _ _ hpending
    refine ⟨by rw [hfound, happlied, hh.found], by simp, fun _ => ?_⟩
    rw [hitem]
    exact hpending

/-- **What is known of the other calls** stays so. -/
theorem fits (h : Frame s s' i) (hj : j ≠ i) {p : Phase ι τ} (hp : Fits variant key s j p) :
    Fits variant key s' j p := by
  -- another's step leaves alone what this call has seen and found
  have hseen := h.seen j (Or.inl hj)
  have hfound := h.found j (Or.inl hj)
  cases p with
  | idle => trivial
  | submitted submitted => exact hp.trans h.clock
  | begun submitted now => exact ⟨hp.1, hp.2.trans h.clock⟩
  | snapshot submitted now cur => exact ⟨hp.1, hp.2.1.trans h.clock, h.snapshot hseen hp.2.2⟩
  | inserting submitted now cur valuesAt =>
    exact ⟨hp.1, hp.2.1, hp.2.2.1.trans h.clock, h.snapshot hseen hp.2.2.2⟩
  | decided submitted won => exact ⟨h.holds hj hp.1, h.verdict hseen hfound hp.2⟩
  | executed submitted executedAt won => exact ⟨h.holds hj hp.1, h.verdict hseen hfound hp.2⟩
  | committed submitted executedAt won =>
    refine ⟨h.verdict hseen hfound hp.1, fun hwon => ?_⟩
    obtain ⟨new, hnew, hwriter⟩ := hp.2 hwon
    exact ⟨new, (h.applied _).subset hnew, hwriter⟩
  | reported e =>
    obtain ⟨rfl, he⟩ := hp
    exact ⟨rfl, h.entry hseen hfound he⟩
  | logged => trivial
  | failed => trivial

end Frame

/-- A step of one call that keeps the rows, and what it has to show for itself. -/
theorem Inv.of_frame (h : Inv variant key s) (hf : Frame s s' i)
    (hcommitted : ∀ k, (s'.items k).committed = (s'.applied k).getLast?)
    (happlied : ∀ k, s'.applied k = s.applied k ∨
      ∃ new, s'.applied k = s.applied k ++ [new] ∧
        Applied variant key s' k (s.applied k) new)
    (hpending : ∀ k j v, (s'.items k).pending = some (j, v) →
      key j = k ∧ (s'.phase j).holds = true)
    (hcall : Fits variant key s' i (s'.phase i))
    (hlog : ∀ e ∈ s'.log, e ∈ s.log ∨ (s'.phase e.writer).ended = true ∧ Entry variant key s' e) :
    Inv variant key s' where
  committed := hcommitted
  applied k := by
    -- what was applied is judged as before, and the new row by the hypothesis
    have hold : EachAfter (Applied variant key s' k) (s.applied k) :=
      (h.applied k).mono fun _ _ _ ha => hf.applied_of ha
    rcases happlied k with heq | ⟨new, heq, hnew⟩
    · rw [heq]
      exact hold
    · rw [heq]
      exact hold.concat hnew
  pending := hpending
  calls j := by
    -- the call that takes the step; every other one is framed
    by_cases hj : j = i
    · rw [hj]
      exact hcall
    · rw [hf.phase j hj]
      exact hf.fits hj (h.calls j)
  log e he := by
    rcases hlog e he with he | he
    · obtain ⟨hended, hentry⟩ := h.log e he
      obtain ⟨hended', hseen, hfound⟩ := hf.of_ended hended
      exact ⟨hended', hf.entry hseen hfound hentry⟩
    · exact he

end Frame

end ClocksLie
end SepLab
