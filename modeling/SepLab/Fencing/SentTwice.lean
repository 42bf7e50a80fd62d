import Mathlib.Data.Fintype.Basic
import Mathlib.Data.List.Perm.Basic
import SepLab.Fencing.Safety
import SepLab.Lib.LastHit
import SepLab.Lib.Listed

/-!
# Counting duplicate payouts

`fencing_demo.py` counts the accepted writes of stale epochs from `t7_payout_attempts`,
whose rows are written, and given their times, by a statement after the payout's `UPDATE`.
What the query sees is the order of the rows, and what counts is the order in which the
payouts table has accepted the writes.

## Main definitions

* `Db.sentTwice` — the query.
* `duplicates` — the accepted writes that came after one with a higher epoch.
* `Pc.unrecorded` — the accepted write that a worker has not recorded yet.
* `Prompt` — a write is recorded before those that were accepted after it, and not lost.
* `Booked` — which row is that of which accepted write.

## Main results

* `books` — what one statement does to the accepted writes and their rows.
* `Booked.row` — the row of a write is judged as the write is.
* `sentTwice_eq_duplicates` — **the query counts the duplicates** of runs whose steps are prompt.
-/

namespace SepLab
namespace Fencing

variable {W N H R K : Type} [DecidableEq W] [DecidableEq N] [DecidableEq H] [DecidableEq R]
  [DecidableEq K]

/-! ### The query and what it is for -/

/-- The rows of accepted writes of the run. -/
def Db.taken (db : Db N H R K) (runId : R) : List (Attempt H R K) :=
  db.attempts.filter fun a => decide (a.runId = runId) && decide (0 < a.rowsUpdated)

/-- `EXISTS (SELECT 1 FROM t7_payout_attempts b WHERE b.run_id = a.run_id AND b.payout_key =
a.payout_key AND b.rows_updated > 0 AND b.epoch > a.epoch AND b.attempted_at < a.attempted_at)` -/
def Db.overtaken (db : Db N H R K) (a : Attempt H R K) : Bool :=
  db.attempts.any fun b => decide (b.runId = a.runId) && decide (b.payoutKey = a.payoutKey) &&
    decide (0 < b.rowsUpdated) && decide (a.epoch < b.epoch) &&
    decide (b.attemptedAt < a.attemptedAt)

/-- `SELECT count(*) FROM t7_payout_attempts a WHERE a.run_id = … AND a.rows_updated > 0 AND
EXISTS …` -/
def Db.sentTwice (db : Db N H R K) (runId : R) : ℕ :=
  db.attempts.countP fun a => decide (a.runId = runId) && decide (0 < a.rowsUpdated) &&
    db.overtaken a

/-- The write in the given place came after one of the same payout with a higher epoch. -/
def staleAt (accepted : List (Write W R K)) (i : ℕ) : Bool :=
  accepted[i]?.any fun a => (accepted.take i).any fun b =>
    decide (b.runId = a.runId) && decide (b.key = a.key) && decide (a.epoch < b.epoch)

/-- The writes of the run that came after one of the same payout with a higher epoch. -/
def duplicates (accepted : List (Write W R K)) (runId : R) : ℕ :=
  (List.range accepted.length).countP fun i =>
    accepted[i]?.any (fun a => decide (a.runId = runId)) && staleAt accepted i

/-! ### Writes without a row -/

/-- The payout and the epoch of an accepted write of the run that is not recorded yet. -/
def Pc.unrecorded (runId : R) : Pc R K → Option (K × ℤ)
  | .ready => none
  | .takingOver => none
  | .recording run key epoch rows => if run = runId ∧ 0 < rows then some (key, epoch) else none

/-- Where the last write of the worker stands among the accepted ones. -/
def place (s : State W N H R K) (w : W) : ℤ := lastIndex (fun a => decide (a.worker = w)) s.accepted

/-- A worker who records an accepted write comes before all who have one of the same payout with
another epoch that was accepted later, and later than the time of a row with a higher epoch; and
none fails before it has recorded its write. -/
def Prompt (runId : R) (s : State W N H R K) : Action W R K → Prop
  | .record w now => ∀ x ∈ (s.pc w).unrecorded runId,
      (∀ w', ∀ y ∈ (s.pc w').unrecorded runId, y.1 = x.1 → y.2 ≠ x.2 → place s w < place s w') ∧
      ((∃ b ∈ s.db.taken runId, b.payoutKey = x.1 ∧ x.2 < b.epoch) →
        ∃ b ∈ s.db.taken runId, b.payoutKey = x.1 ∧ x.2 < b.epoch ∧ b.attemptedAt < now)
  | .fail w => (s.pc w).unrecorded runId = none
  | _ => True

/-- The condition can be tested when there are finitely many workers. -/
instance Prompt.decidable [Fintype W] (runId : R) (s : State W N H R K) :
    ∀ a, Decidable (Prompt runId s a)
  | .acquire _ _ => .isTrue trivial
  | .renew _ _ => .isTrue trivial
  | .sendPayout _ _ _ _ => .isTrue trivial
  | .record w now => inferInstanceAs (Decidable (∀ x ∈ (s.pc w).unrecorded runId,
      (∀ w', ∀ y ∈ (s.pc w').unrecorded runId, y.1 = x.1 → y.2 ≠ x.2 → place s w < place s w') ∧
      ((∃ b ∈ s.db.taken runId, b.payoutKey = x.1 ∧ x.2 < b.epoch) →
        ∃ b ∈ s.db.taken runId, b.payoutKey = x.1 ∧ x.2 < b.epoch ∧ b.attemptedAt < now)))
  | .fail w => inferInstanceAs (Decidable ((s.pc w).unrecorded runId = none))

/-- The time that the server's clock shows, where the statement reads it. -/
def Action.time : Action W R K → Option ℤ
  | .acquire _ now => some now
  | .renew _ now => some now
  | .sendPayout _ _ _ now => some now
  | .record _ now => some now
  | .fail _ => none

/-! ### What one statement does -/

omit [DecidableEq H] [DecidableEq R] [DecidableEq K] in
@[simp] theorem Db.attempts_acquire (db : Db N H R K) (lease : N) (holder : H) (ttl now : ℤ) :
    (db.acquire lease holder ttl now).2.attempts = db.attempts := by
  unfold Db.acquire
  split
  · rfl
  · split <;> rfl

omit [DecidableEq R] [DecidableEq K] in
@[simp] theorem Db.attempts_renew (db : Db N H R K) (live : Bool) (lease : N) (holder : H)
    (epoch ttl now : ℤ) : (db.renew live lease holder epoch ttl now).2.attempts = db.attempts := by
  unfold Db.renew
  split
  · rfl
  · split <;> rfl

omit [DecidableEq N] [DecidableEq H] in
@[simp] theorem Db.attempts_updatePayout (db : Db N H R K) (accepts : ℤ → Bool) (runId : R)
    (key : K) (worker : H) (epoch now : ℤ) :
    (db.updatePayout accepts runId key worker epoch now).2.attempts = db.attempts := by
  unfold Db.updatePayout
  split
  · rfl
  · split <;> rfl

/-- What a statement does to the accepted writes of a run and to their rows. -/
inductive Books (runId : R) (s s' : State W N H R K) : Action W R K → Prop
  | same {a : Action W R K} (haccepted : s'.accepted = s.accepted)
      (htaken : s'.db.taken runId = s.db.taken runId)
      (hpc : ∀ w, (s'.pc w).unrecorded runId = (s.pc w).unrecorded runId) : Books runId s s' a
  | write {a : Action W R K} (x : Write W R K)
      (hfree : (s.pc x.worker).unrecorded runId = none)
      (haccepted : s'.accepted = s.accepted ++ [x])
      (htaken : s'.db.taken runId = s.db.taken runId)
      (hself : (s'.pc x.worker).unrecorded runId =
        if x.runId = runId then some (x.key, x.epoch) else none)
      (hothers : ∀ w, w ≠ x.worker → s'.pc w = s.pc w) : Books runId s s' a
  | row (w : W) (now : ℤ) (r : Attempt H R K)
      (hpending : (s.pc w).unrecorded runId = some (r.payoutKey, r.epoch))
      (htime : r.attemptedAt = now) (hrun : r.runId = runId)
      (haccepted : s'.accepted = s.accepted)
      (htaken : s'.db.taken runId = s.db.taken runId ++ [r])
      (hself : (s'.pc w).unrecorded runId = none)
      (hothers : ∀ w', w' ≠ w → s'.pc w' = s.pc w') : Books runId s s' (.record w now)
  | lost (w : W) (hpending : (s.pc w).unrecorded runId ≠ none) : Books runId s s' (.fail w)

section
variable {c : Config W N H} {runId : R} {s s' : State W N H R K}

omit [DecidableEq N] [DecidableEq H] [DecidableEq K] in
/-- An answer after which the worker has no write without a row, as before. -/
theorem Books.answer {a : Action W R K} {w : W} {db : Db N H R K} {epoch : Option ℤ} {pc : Pc R K}
    (hattempts : db.attempts = s.db.attempts) (hbefore : (s.pc w).unrecorded runId = none)
    (hafter : pc.unrecorded runId = none) : Books runId s (s.answer w db epoch pc) a := by
  refine .same rfl ?_ fun w' => ?_
  · show db.taken runId = s.db.taken runId
    unfold Db.taken
    rw [hattempts]
  · show (Function.update s.pc w pc w').unrecorded runId = _
    by_cases hne : w' = w
    · subst hne
      rw [Function.update_self, hafter, hbefore]
    · rw [Function.update_of_ne hne]

omit [DecidableEq N] [DecidableEq H] in
/-- The payout's `UPDATE` is counted as one row exactly when it is accepted. -/
theorem Books.updatePayout {a : Action W R K} {w : W} (run : R) (key : K) (epoch : ℤ) {now : ℤ}
    (hfree : (s.pc w).unrecorded runId = none) :
    Books runId s (s.updatePayout c .fencingDemo w run key epoch now) a := by
  set r := s.db.updatePayout (Program.fencingDemo.accepts c.fencing epoch) run key (c.name w) epoch
    now with hr
  have htaken : r.2.taken runId = s.db.taken runId := by
    unfold Db.taken
    rw [hr, Db.attempts_updatePayout]
  have hself : (s.updatePayout c .fencingDemo w run key epoch now).pc w =
      .recording run key epoch r.1 := Function.update_self ..
  have hothers : ∀ w', w' ≠ w →
      (s.updatePayout c .fencingDemo w run key epoch now).pc w' = s.pc w' :=
    fun w' hne => Function.update_of_ne hne _ _
  have haccepted : (s.updatePayout c .fencingDemo w run key epoch now).accepted =
      if r.1 = 0 then s.accepted else s.accepted ++ [⟨w, run, key, epoch⟩] := rfl
  -- no row was updated: nothing is accepted, and the worker has nothing to record
  by_cases hrows : r.1 = 0
  · refine .same (haccepted.trans (if_pos hrows)) htaken fun w' => ?_
    by_cases hne : w' = w
    · subst hne
      rw [hself, hfree, Pc.unrecorded, if_neg (by simp [hrows])]
    · rw [hothers w' hne]
  -- one was: the worker has it to record
  · refine .write ⟨w, run, key, epoch⟩ hfree (haccepted.trans (if_neg hrows)) htaken ?_ hothers
    rw [hself, Pc.unrecorded]
    simp only [Nat.pos_of_ne_zero hrows, and_true]

/-- **What a statement of a worker does to the accepted writes and their rows.** -/
theorem books {a : Action W R K} (h : fencingDemo c s a = some s') : Books runId s s' a := by
  cases a with
  | acquire w now =>
    simp only [fencingDemo] at h
    split at h
    · next hpc =>
      obtain rfl := Option.some_inj.mp h
      exact .answer (Db.attempts_acquire _ _ _ _ _) (by rw [hpc]; rfl) rfl
    · cases h
  | renew w now =>
    simp only [fencingDemo] at h
    split at h
    · next hpc _ =>
      obtain rfl := Option.some_inj.mp h
      exact .answer (Db.attempts_renew _ _ _ _ _ _ _) (by rw [hpc]; rfl) rfl
    · cases h
  | sendPayout w run key now =>
    simp only [fencingDemo] at h
    split at h
    · next hpc =>
      obtain rfl := Option.some_inj.mp h
      exact .updatePayout _ _ _ (by rw [hpc]; rfl)
    · cases h
  | record w now =>
    simp only [fencingDemo, State.record] at h
    split at h
    · next run key e rows hpc =>
      obtain rfl := Option.some_inj.mp h
      have hself : (Function.update s.pc w Pc.ready w).unrecorded runId = none := by
        rw [Function.update_self]
        rfl
      have hothers : ∀ w', w' ≠ w → Function.update s.pc w Pc.ready w' = s.pc w' :=
        fun w' hne => Function.update_of_ne hne _ _
      -- the inserted row is one of the run's if it belongs to it and counts a row
      have htaken : ∀ r : Attempt H R K, (s.db.insertAttempt r).taken runId = s.db.taken runId ++
          if r.runId = runId ∧ 0 < r.rowsUpdated then [r] else [] := by
        intro r
        unfold Db.taken Db.insertAttempt
        rw [List.filter_append, List.filter_cons, List.filter_nil]
        simp only [Bool.and_eq_true, decide_eq_true_iff]
      by_cases hcounts : run = runId ∧ 0 < rows
      · refine .row w now ⟨run, c.fencing, c.name w, key, e, rows, now⟩ ?_ rfl hcounts.1 rfl ?_
          hself hothers
        · rw [hpc, Pc.unrecorded, if_pos hcounts]
        · exact (htaken _).trans (by rw [if_pos hcounts])
      · refine .same rfl ?_ fun w' => ?_
        · exact (htaken _).trans (by rw [if_neg hcounts, List.append_nil])
        · by_cases hne : w' = w
          · subst hne
            rw [hpc, Pc.unrecorded, if_neg hcounts]
            exact hself
          · exact congrArg _ (hothers w' hne)
    · cases h
  | fail w =>
    obtain rfl := Option.some_inj.mp h
    -- a crash loses a row only if one was to be recorded
    by_cases hpending : (s.pc w).unrecorded runId = none
    · exact .answer rfl hpending rfl
    · exact .lost w hpending

/-! ### Which row is that of which write -/

/-- The rows of the run, each with the place of its write among the accepted ones. -/
structure Booked (runId : R) (s : State W N H R K) (rows : List (ℕ × Attempt H R K)) : Prop where
  taken : rows.map Prod.snd = s.db.taken runId
  nodup : (rows.map Prod.fst).Nodup
  written : ∀ i a, (i, a) ∈ rows → ∃ w, s.accepted[i]? = some ⟨w, runId, a.payoutKey, a.epoch⟩
  judged : ∀ i a, (i, a) ∈ rows → s.db.overtaken a = staleAt s.accepted i
  /-- A write without a row came after those of its payout with other epochs that have one. -/
  ordered : ∀ i a, (i, a) ∈ rows → ∀ j x, j ∉ rows.map Prod.fst → s.accepted[j]? = some x →
    x.runId = runId → x.key = a.payoutKey → x.epoch ≠ a.epoch → i < j
  pending : ∀ w x, (s.pc w).unrecorded runId = some x → ∃ i : ℕ, place s w = i ∧
    s.accepted[i]? = some ⟨w, runId, x.1, x.2⟩ ∧ i ∉ rows.map Prod.fst
  all : ∀ i a, s.accepted[i]? = some a → a.runId = runId → i ∉ rows.map Prod.fst →
    (s.pc a.worker).unrecorded runId = some (a.key, a.epoch) ∧ place s a.worker = i

namespace Booked

variable {rows : List (ℕ × Attempt H R K)}

omit [DecidableEq N] [DecidableEq H] in
theorem overtaken_iff {db : Db N H R K} {a : Attempt H R K} (ha : a.runId = runId) :
    db.overtaken a = true ↔ ∃ b ∈ db.taken runId, b.payoutKey = a.payoutKey ∧
      a.epoch < b.epoch ∧ b.attemptedAt < a.attemptedAt := by
  simp only [Db.overtaken, Db.taken, List.any_eq_true, List.mem_filter, Bool.and_eq_true,
    decide_eq_true_iff, ha]
  constructor
  · rintro ⟨b, hb, ⟨⟨⟨hrun, hkey⟩, hrows⟩, hepoch⟩, htime⟩
    exact ⟨b, ⟨hb, hrun, hrows⟩, hkey, hepoch, htime⟩
  · rintro ⟨b, ⟨hb, hrun, hrows⟩, hkey, hepoch, htime⟩
    exact ⟨b, hb, ⟨⟨⟨hrun, hkey⟩, hrows⟩, hepoch⟩, htime⟩

omit [DecidableEq W] in
theorem staleAt_iff {accepted : List (Write W R K)} {i : ℕ} {a : Write W R K}
    (ha : accepted[i]? = some a) : staleAt accepted i = true ↔
      ∃ j b, j < i ∧ accepted[j]? = some b ∧ b.runId = a.runId ∧ b.key = a.key ∧
        a.epoch < b.epoch := by
  simp only [staleAt, ha, Option.any_some, List.any_eq_true, Bool.and_eq_true, decide_eq_true_iff]
  constructor
  · rintro ⟨b, hb, ⟨hrun, hkey⟩, hepoch⟩
    obtain ⟨j, hj⟩ := List.mem_iff_getElem?.mp hb
    rw [List.getElem?_take] at hj
    split at hj
    · next hlt => exact ⟨j, b, hlt, hj, hrun, hkey, hepoch⟩
    · cases hj
  · rintro ⟨j, b, hlt, hb, hrun, hkey, hepoch⟩
    refine ⟨b, List.mem_iff_getElem?.mpr ⟨j, ?_⟩, ⟨hrun, hkey⟩, hepoch⟩
    rw [List.getElem?_take, if_pos hlt, hb]

omit [DecidableEq W] in
/-- What comes later does not make a write stale. -/
theorem staleAt_append {accepted : List (Write W R K)} {i : ℕ} (hi : i < accepted.length)
    (x : Write W R K) : staleAt (accepted ++ [x]) i = staleAt accepted i := by
  unfold staleAt
  rw [List.getElem?_append_left hi, List.take_append_of_le_length (Nat.le_of_lt hi)]

omit [DecidableEq N] [DecidableEq H] in
/-- A row is judged by the rows of its run. -/
theorem overtaken_congr {db db' : Db N H R K} (htaken : db'.taken runId = db.taken runId)
    {a : Attempt H R K} (ha : a.runId = runId) : db'.overtaken a = db.overtaken a := by
  rw [Bool.eq_iff_iff, overtaken_iff ha, overtaken_iff ha, htaken]

omit [DecidableEq N] [DecidableEq H] in
theorem run_eq (h : Booked runId s rows) {i : ℕ} {a : Attempt H R K} (ha : (i, a) ∈ rows) :
    a.runId = runId := by
  have hmem : a ∈ s.db.taken runId := h.taken ▸ List.mem_map_of_mem ha
  exact of_decide_eq_true (Bool.and_eq_true_iff.mp (List.mem_filter.mp hmem).2).1

omit [DecidableEq N] [DecidableEq H] in
/-- Nothing that the rows are concerned with has changed. -/
theorem same (h : Booked runId s rows) (haccepted : s'.accepted = s.accepted)
    (htaken : s'.db.taken runId = s.db.taken runId)
    (hpc : ∀ w, (s'.pc w).unrecorded runId = (s.pc w).unrecorded runId) :
    Booked runId s' rows where
  taken := htaken ▸ h.taken
  nodup := h.nodup
  written := haccepted ▸ h.written
  -- whether a row is overtaken depends on the rows alone
  judged i a ha := by
    rw [haccepted, overtaken_congr htaken (h.run_eq ha)]
    exact h.judged i a ha
  ordered := haccepted ▸ h.ordered
  pending w x hx := by
    rw [hpc] at hx
    rw [place, haccepted]
    exact h.pending w x hx
  all i a ha hrun hi := by
    rw [haccepted] at ha
    rw [hpc, place, haccepted]
    exact h.all i a ha hrun hi

omit [DecidableEq N] [DecidableEq H] in
/-- A write is accepted. -/
theorem write (h : Booked runId s rows) {x : Write W R K}
    (hfree : (s.pc x.worker).unrecorded runId = none) (haccepted : s'.accepted = s.accepted ++ [x])
    (htaken : s'.db.taken runId = s.db.taken runId)
    (hself : (s'.pc x.worker).unrecorded runId =
      if x.runId = runId then some (x.key, x.epoch) else none)
    (hothers : ∀ w, w ≠ x.worker → s'.pc w = s.pc w) : Booked runId s' rows := by
  have hlt : ∀ i ∈ rows.map Prod.fst, i < s.accepted.length := by
    intro i hi
    obtain ⟨⟨_, a⟩, ha, rfl⟩ := List.mem_map.mp hi
    obtain ⟨w, hw⟩ := h.written _ a ha
    exact (List.getElem?_eq_some_iff.mp hw).1
  have hold : ∀ i, i < s.accepted.length → s'.accepted[i]? = s.accepted[i]? := by
    intro i hi
    rw [haccepted, List.getElem?_append_left hi]
  have hnew : s'.accepted[s.accepted.length]? = some x := by
    rw [haccepted, List.getElem?_concat_length]
  -- a write is that one or an older one
  have hcases : ∀ j y, s'.accepted[j]? = some y →
      j < s.accepted.length ∧ s.accepted[j]? = some y ∨ j = s.accepted.length ∧ y = x := by
    intro j y hy
    have hj := (List.getElem?_eq_some_iff.mp hy).1
    rw [haccepted, List.length_append, List.length_singleton] at hj
    rcases Nat.lt_succ_iff_lt_or_eq.mp hj with hj | rfl
    · exact Or.inl ⟨hj, hold j hj ▸ hy⟩
    · exact Or.inr ⟨rfl, Option.some_inj.mp (hy.symm.trans hnew)⟩
  have hplace : ∀ w, place s' w = if x.worker = w then (s.accepted.length : ℤ) else place s w := by
    intro w
    unfold place lastIndex
    rw [haccepted, lastHit_concat]
    by_cases hw : x.worker = w
    · simp [hw]
    · simp [hw]
  constructor
  · exact htaken ▸ h.taken
  · exact h.nodup
  · intro i a ha
    obtain ⟨w, hw⟩ := h.written i a ha
    exact ⟨w, (hold i (hlt i (List.mem_map_of_mem ha))).trans hw⟩
  · intro i a ha
    rw [overtaken_congr htaken (h.run_eq ha), haccepted,
      staleAt_append (hlt i (List.mem_map_of_mem ha))]
    exact h.judged i a ha
  · intro i a ha j y hj hy hrun hkey hepoch
    rcases hcases j y hy with ⟨-, hy⟩ | ⟨rfl, -⟩
    · exact h.ordered i a ha j y hj hy hrun hkey hepoch
    · exact hlt i (List.mem_map_of_mem ha)
  · intro w y hy
    rw [hplace]
    by_cases hw : x.worker = w
    · subst hw
      rw [hself] at hy
      split at hy
      · next hrun =>
        obtain rfl := Option.some_inj.mp hy
        refine ⟨s.accepted.length, if_pos rfl, ?_, fun hmem => Nat.lt_irrefl _ (hlt _ hmem)⟩
        rw [hnew, ← hrun]
      · cases hy
    · rw [hothers w (Ne.symm hw)] at hy
      obtain ⟨i, hi, hwrite, hrow⟩ := h.pending w y hy
      refine ⟨i, (if_neg hw).trans hi, ?_, hrow⟩
      rw [hold i (List.getElem?_eq_some_iff.mp hwrite).1, hwrite]
  · intro j y hy hrun hj
    rw [hplace]
    rcases hcases j y hy with ⟨-, hy⟩ | ⟨rfl, rfl⟩
    · obtain ⟨hun, hat⟩ := h.all j y hy hrun hj
      have hne : x.worker ≠ y.worker := by
        intro heq
        rw [← heq, hfree] at hun
        cases hun
      rw [hothers _ (Ne.symm hne), if_neg hne]
      exact ⟨hun, hat⟩
    · rw [hself, if_pos hrun, if_pos rfl]
      exact ⟨rfl, rfl⟩

omit [DecidableEq N] [DecidableEq H] in
/-- **The row of a write is judged as the write is**, if it is prompt. -/
theorem row (h : Booked runId s rows) {w : W} {now : ℤ} {r : Attempt H R K}
    (hprompt : Prompt runId s (.record w now))
    (hclock : ∀ b ∈ s.db.taken runId, b.attemptedAt ≤ now)
    (hpending : (s.pc w).unrecorded runId = some (r.payoutKey, r.epoch))
    (htime : r.attemptedAt = now) (hrun : r.runId = runId) (haccepted : s'.accepted = s.accepted)
    (htaken : s'.db.taken runId = s.db.taken runId ++ [r])
    (hself : (s'.pc w).unrecorded runId = none)
    (hothers : ∀ w', w' ≠ w → s'.pc w' = s.pc w') :
    ∃ i, Booked runId s' (rows ++ [(i, r)]) := by
  obtain ⟨hbefore, hlater⟩ := hprompt (r.payoutKey, r.epoch) hpending
  obtain ⟨i, hi, hwrite, hnew⟩ := h.pending w _ hpending
  have hfst : ((rows ++ [(i, r)]).map Prod.fst) = rows.map Prod.fst ++ [i] := by
    rw [List.map_append, List.map_singleton]
  -- a row is overtaken by the older ones only
  have hjudge : ∀ a : Attempt H R K, a.runId = runId → a.attemptedAt ≤ now →
      s'.db.overtaken a = s.db.overtaken a := by
    intro a ha hle
    rw [Bool.eq_iff_iff, overtaken_iff ha, overtaken_iff ha, htaken]
    constructor
    · rintro ⟨b, hb, hkey, hepoch, hlt⟩
      rcases List.mem_append.mp hb with hb | hb
      · exact ⟨b, hb, hkey, hepoch, hlt⟩
      · obtain rfl := List.mem_singleton.mp hb
        omega
    · rintro ⟨b, hb, hrest⟩
      exact ⟨b, List.mem_append_left _ hb, hrest⟩
  refine ⟨i, ?_, ?_, ?_, ?_, ?_, ?_, ?_⟩
  · rw [List.map_append, h.taken, htaken]
    rfl
  · rw [hfst]
    exact nodup_append_singleton h.nodup hnew
  · intro j a ha
    rw [haccepted]
    rcases List.mem_append.mp ha with ha | ha
    · exact h.written j a ha
    · obtain ⟨rfl, rfl⟩ := Prod.mk.inj (List.mem_singleton.mp ha)
      exact ⟨w, hwrite⟩
  · intro j a ha
    rw [haccepted]
    rcases List.mem_append.mp ha with ha | ha
    · have hmem : a ∈ s.db.taken runId := h.taken ▸ List.mem_map_of_mem ha
      rw [hjudge a (h.run_eq ha) (hclock a hmem)]
      exact h.judged j a ha
    · obtain ⟨rfl, rfl⟩ := Prod.mk.inj (List.mem_singleton.mp ha)
      rw [hjudge a hrun (Int.le_of_eq htime), Bool.eq_iff_iff, overtaken_iff hrun,
        staleAt_iff hwrite]
      constructor
      · rintro ⟨b, hb, hkey, hepoch, -⟩
        rw [← h.taken] at hb
        obtain ⟨⟨k, _⟩, hk, rfl⟩ := List.mem_map.mp hb
        obtain ⟨u, hu⟩ := h.written k _ hk
        exact ⟨k, _, h.ordered k _ hk j _ hnew hwrite rfl hkey.symm (Int.ne_of_lt hepoch), hu, rfl,
          hkey, hepoch⟩
      · rintro ⟨k, b, hlt, hb, hbrun, hkey, hepoch⟩
        have hrow : k ∈ rows.map Prod.fst := by
          by_contra hno
          -- then its worker has yet to record it, and comes after this one
          obtain ⟨hun, hat⟩ := h.all k b hb hbrun hno
          have hle := hbefore b.worker _ hun hkey (Int.ne_of_gt hepoch)
          omega
        obtain ⟨⟨_, b'⟩, hb', rfl⟩ := List.mem_map.mp hrow
        obtain ⟨u, hu⟩ := h.written _ b' hb'
        obtain rfl := Option.some_inj.mp (hb.symm.trans hu)
        have hmem : b' ∈ s.db.taken runId := h.taken ▸ List.mem_map_of_mem hb'
        obtain ⟨b'', hmem'', hkey'', hepoch'', hlt''⟩ := hlater ⟨b', hmem, hkey, hepoch⟩
        exact ⟨b'', hmem'', hkey'', hepoch'', htime ▸ hlt''⟩
  · intro j a ha k x hk hx hxrun hkey hepoch
    rw [haccepted] at hx
    rw [hfst, List.mem_append, not_or] at hk
    rcases List.mem_append.mp ha with ha | ha
    · exact h.ordered j a ha k x hk.1 hx hxrun hkey hepoch
    · obtain ⟨rfl, rfl⟩ := Prod.mk.inj (List.mem_singleton.mp ha)
      obtain ⟨hun, hat⟩ := h.all k x hx hxrun hk.1
      have hlt := hbefore x.worker _ hun hkey hepoch
      omega
  · intro w' x hx
    by_cases hw : w' = w
    · subst hw
      rw [hself] at hx
      cases hx
    · rw [hothers w' hw] at hx
      obtain ⟨j, hj, hjwrite, hjnew⟩ := h.pending w' x hx
      refine ⟨j, by rw [place, haccepted]; exact hj, haccepted ▸ hjwrite, ?_⟩
      rw [hfst, List.mem_append, not_or, List.mem_singleton]
      refine ⟨hjnew, ?_⟩
      rintro rfl
      rw [hwrite, Option.some_inj] at hjwrite
      exact hw (congrArg Write.worker hjwrite).symm
  · intro j a ha harun hj
    rw [haccepted] at ha
    rw [hfst, List.mem_append, not_or, List.mem_singleton] at hj
    obtain ⟨hun, hat⟩ := h.all j a ha harun hj.1
    have hne : a.worker ≠ w := by
      intro heq
      rw [heq, hi] at hat
      exact hj.2 (Int.ofNat_inj.mp hat).symm
    rw [hothers _ hne, place, haccepted]
    exact ⟨hun, hat⟩

omit [DecidableEq N] [DecidableEq H] in
/-- Before the run has any. -/
theorem init {db : Db N H R K} (hnew : ∀ a ∈ db.attempts, a.runId ≠ runId) :
    Booked runId (.init db : State W N H R K) [] where
  taken := by
    refine (List.filter_eq_nil_iff.mpr fun a ha => ?_).symm
    simp [hnew a ha]
  nodup := List.nodup_nil
  written _ _ h := nomatch h
  judged _ _ h := nomatch h
  ordered _ _ h := nomatch h
  pending _ _ h := nomatch h
  all _ _ h := nomatch h

/-- **Every write of a run whose steps are prompt gets its row.** -/
theorem run {as : List (Action W R K)} (h : Booked runId s rows)
    (hclock : ∀ b ∈ s.db.taken runId, ∀ t ∈ as.filterMap Action.time, b.attemptedAt ≤ t)
    (hsorted : (as.filterMap Action.time).Pairwise (· ≤ ·))
    (hprompt : AllSteps (Prompt runId) (fencingDemo c) s as)
    (hexec : exec (fencingDemo c) s as = some s') : ∃ rows', Booked runId s' rows' := by
  induction as generalizing s rows with
  | nil =>
    obtain rfl := Option.some_inj.mp hexec
    exact ⟨rows, h⟩
  | cons a later ih =>
    rw [exec_cons] at hexec
    obtain ⟨t, ht, hlater⟩ := Option.bind_eq_some_iff.mp hexec
    obtain ⟨hok, hrest⟩ := hprompt
    -- times that come later are later, so the clock condition goes on to the rest
    have hsub : (later.filterMap Action.time).Sublist ((a :: later).filterMap Action.time) :=
      (List.sublist_cons_self a later).filterMap _
    have hsame : t.db.taken runId = s.db.taken runId →
        ∀ b ∈ t.db.taken runId, ∀ u ∈ later.filterMap Action.time, b.attemptedAt ≤ u := by
      intro htaken b hb u hu
      exact hclock b (htaken ▸ hb) u (hsub.subset hu)
    have hbooks : Books runId s t a := books ht
    cases hbooks with
    | same haccepted htaken hpc =>
      exact ih (h.same haccepted htaken hpc) (hsame htaken) (hsorted.sublist hsub) (hrest t ht)
        hlater
    | write x hfree haccepted htaken hself hothers =>
      exact ih (h.write hfree haccepted htaken hself hothers) (hsame htaken)
        (hsorted.sublist hsub) (hrest t ht) hlater
    -- the only step that inserts a row, at its own time
    | row w now r hpending htime hrun haccepted htaken hself hothers =>
      have hnow : ∀ b ∈ s.db.taken runId, b.attemptedAt ≤ now :=
        fun b hb => hclock b hb now List.mem_cons_self
      obtain ⟨i, hi⟩ := h.row hok hnow hpending htime hrun haccepted htaken hself hothers
      refine ih hi ?_ (hsorted.sublist hsub) (hrest t ht) hlater
      intro b hb u hu
      rw [htaken] at hb
      rcases List.mem_append.mp hb with hb | hb
      · exact hclock b hb u (hsub.subset hu)
      · obtain rfl := List.mem_singleton.mp hb
        rw [htime]
        exact List.rel_of_pairwise_cons hsorted hu
    -- excluded by the condition
    | lost w hpending => exact absurd hok hpending

omit [DecidableEq N] [DecidableEq H] in
/-- When every write has its row, the query counts the stale ones. -/
theorem sentTwice_eq (h : Booked runId s rows)
    (hdone : ∀ w, (s.pc w).unrecorded runId = none) :
    s.db.sentTwice runId = duplicates s.accepted runId := by
  set p : ℕ → Bool := fun i => s.accepted[i]?.any fun a => decide (a.runId = runId) with hp
  -- the places that have been recorded are those of the run's accepted writes
  have hperm : (rows.map Prod.fst).Perm ((List.range s.accepted.length).filter p) := by
    refine (List.perm_ext_iff_of_nodup h.nodup (List.nodup_range.filter _)).mpr fun i => ?_
    rw [List.mem_filter, List.mem_range]
    constructor
    · intro hi
      obtain ⟨⟨_, a⟩, ha, rfl⟩ := List.mem_map.mp hi
      obtain ⟨w, hw⟩ := h.written _ a ha
      exact ⟨(List.getElem?_eq_some_iff.mp hw).1, by simp [hp, hw]⟩
    · rintro ⟨hlt, hi⟩
      have hget : s.accepted[i]? = some s.accepted[i] := List.getElem?_eq_getElem hlt
      have hrun : s.accepted[i].runId = runId := by simpa [hp, hget] using hi
      -- a place without a row would be one that some worker has still to record
      by_contra hno
      have hpending := (h.all i _ hget hrun hno).1
      rw [hdone] at hpending
      cases hpending
  -- the query counts overtaken rows, the log its stale places
  have hquery : s.db.sentTwice runId = (s.db.taken runId).countP s.db.overtaken := by
    rw [Db.taken, List.countP_filter, Db.sentTwice]
    congr 1
    funext a
    exact Bool.and_comm _ _
  have hcount : duplicates s.accepted runId =
      ((List.range s.accepted.length).filter p).countP (staleAt s.accepted) := by
    rw [List.countP_filter, duplicates]
    congr 1
    funext i
    exact Bool.and_comm _ _
  rw [hquery, hcount, ← hperm.countP_eq, ← h.taken, List.countP_map, List.countP_map]
  exact List.countP_congr fun x hx => by rw [Function.comp, Function.comp, h.judged x.1 x.2 hx]

end Booked

omit [DecidableEq W] [DecidableEq N] [DecidableEq H] in
/-- With fencing on no accepted write is stale. -/
theorem Fenced.duplicates_eq_zero (h : Fenced s) : duplicates s.accepted runId = 0 := by
  refine List.countP_eq_zero.mpr fun i hi => ?_
  have hlt := List.mem_range.mp hi
  have hget : s.accepted[i]? = some s.accepted[i] := List.getElem?_eq_getElem hlt
  rw [Bool.and_eq_true, Booked.staleAt_iff hget]
  rintro ⟨-, j, b, hj, hb, hrun, hkey, hepoch⟩
  obtain ⟨hjlt, rfl⟩ := List.getElem?_eq_some_iff.mp hb
  have hle := List.pairwise_iff_getElem.mp h.sorted j i hjlt hlt hj hrun hkey
  omega

/-- **The query counts the duplicates** of every run whose steps are prompt, whenever no accepted
write lacks its row; with fencing on that is none. -/
theorem sentTwice_eq_duplicates (c : Config W N H) {db : Db N H R K} {runId : R}
    (hnew : ∀ a ∈ db.attempts, a.runId ≠ runId) {as : List (Action W R K)}
    (hclock : (as.filterMap Action.time).Pairwise (· ≤ ·))
    (hprompt : AllSteps (Prompt runId) (fencingDemo c) (.init db) as) {s : State W N H R K}
    (h : exec (fencingDemo c) (.init db) as = some s)
    (hdone : ∀ w, (s.pc w).unrecorded runId = none) :
    s.db.sentTwice runId = duplicates s.accepted runId ∧
      (c.fencing = true → s.db.sentTwice runId = 0) := by
  have hnone : (State.init db : State W N H R K).db.taken runId = [] :=
    (Booked.init (W := W) hnew).taken.symm
  obtain ⟨rows, hrows⟩ := (Booked.init hnew).run (fun b hb => by rw [hnone] at hb; cases hb)
    hclock hprompt h
  have heq := hrows.sentTwice_eq hdone
  refine ⟨heq, fun hfencing => ?_⟩
  rw [heq]
  exact (Fenced.of_reach (p := .fencingDemo) hfencing (.of_exec as h)).duplicates_eq_zero

end

/-- Worker `false` stops before its second payout, and without fencing its write is accepted after
that of worker `true`. -/
theorem sentTwice_eq_duplicates_paused : ∃ s : State Bool ℕ Bool ℕ ℕ,
    exec (fencingDemo ⟨fun _ => 0, id, 10, false⟩)
      (.init ⟨fun _ => none, fun _ _ => some ⟨.pending, 0, none, none⟩, []⟩)
      [.acquire false 0, .sendPayout false 7 1 1, .record false 1, .acquire true 20,
        .sendPayout true 7 1 21, .record true 21, .sendPayout false 7 1 22, .record false 22] =
        some s ∧
      s.db.sentTwice 7 = 1 ∧ s.db.sentTwice 7 = duplicates s.accepted 7 := by
  -- the old holder pauses between its payouts, and sends the second one without a fence
  have hprompt : AllSteps (Prompt 7) (fencingDemo ⟨fun _ => 0, id, 10, false⟩)
      (.init ⟨fun _ => none, fun _ _ => some ⟨.pending, 0, none, none⟩, []⟩ :
        State Bool ℕ Bool ℕ ℕ)
      [.acquire false 0, .sendPayout false 7 1 1, .record false 1, .acquire true 20,
        .sendPayout true 7 1 21, .record true 21, .sendPayout false 7 1 22, .record false 22] := by
    decide
  have hrun : ((exec (fencingDemo ⟨fun _ => 0, id, 10, false⟩)
      (.init ⟨fun _ => none, fun _ _ => some ⟨.pending, 0, none, none⟩, []⟩ :
        State Bool ℕ Bool ℕ ℕ)
      [.acquire false 0, .sendPayout false 7 1 1, .record false 1, .acquire true 20,
        .sendPayout true 7 1 21, .record true 21, .sendPayout false 7 1 22, .record false 22]).map
        fun s => ((s.pc false).unrecorded 7, (s.pc true).unrecorded 7, s.db.sentTwice 7)) =
      some (none, none, 1) := by decide
  obtain ⟨s, hs, hobs⟩ := Option.map_eq_some_iff.mp hrun
  simp only [Prod.mk.injEq] at hobs
  obtain ⟨hfalse, htrue, htwice⟩ := hobs
  have hdone : ∀ w, (s.pc w).unrecorded 7 = none := Bool.forall_bool.mpr ⟨hfalse, htrue⟩
  exact ⟨s, hs, htwice,
    (sentTwice_eq_duplicates _ (fun a ha => by cases ha) (by decide) hprompt hs hdone).1⟩

/-- Fencing is on, and worker `false` stops between its accepted write and the row of it, while
worker `true` takes over and sends the same payout with the next epoch. -/
theorem not_sentTwice_eq_duplicates : ¬ ∀ (c : Config Bool ℕ Bool) (db : Db ℕ Bool ℕ ℕ)
    (runId : ℕ) (as : List (Action Bool ℕ ℕ)) (s : State Bool ℕ Bool ℕ ℕ),
    (∀ a ∈ db.attempts, a.runId ≠ runId) → (as.filterMap Action.time).Pairwise (· ≤ ·) →
      exec (fencingDemo c) (.init db) as = some s → (∀ w, (s.pc w).unrecorded runId = none) →
      s.db.sentTwice runId = duplicates s.accepted runId := by
  intro h
  -- the order of the two INSERTs is not that of the writes
  have hrun : ((exec (fencingDemo ⟨fun _ => 0, id, 10, true⟩)
      (.init ⟨fun _ => none, fun _ _ => some ⟨.pending, 0, none, none⟩, []⟩ :
        State Bool ℕ Bool ℕ ℕ)
      [.acquire false 0, .sendPayout false 7 1 1, .acquire true 20, .sendPayout true 7 1 21,
        .record true 21, .record false 22]).map
        fun s => ((s.pc false).unrecorded 7, (s.pc true).unrecorded 7, s.db.sentTwice 7,
          duplicates s.accepted 7)) = some (none, none, 1, 0) := by decide
  obtain ⟨s, hs, hobs⟩ := Option.map_eq_some_iff.mp hrun
  simp only [Prod.mk.injEq] at hobs
  obtain ⟨hfalse, htrue, htwice, hnone⟩ := hobs
  have hdone : ∀ w, (s.pc w).unrecorded 7 = none := Bool.forall_bool.mpr ⟨hfalse, htrue⟩
  have heq := h _ _ 7 _ s (fun a ha => by cases ha) (by decide) hs hdone
  rw [htwice, hnone] at heq
  cases heq

end Fencing
end SepLab
