import SepLab.Lib.HighWater
import SepLab.Outbox.SkipLocked

/-!
# The relay that keeps a high-water mark

`relay_high_water_mark` reads the rows of `t6_outbox` beyond the largest id that
it has seen, next to the writers and the passes of the other relays.  Its `SELECT`
takes no lock and sees what is committed, and each of its statements commits by
itself.

## Main definitions

* `Hwm`, `Hwm.step` — the tables and the variables of the relay, and what happens.
* `Hwm.Visible s k` — row `k` of the run is committed.
* `Hwm.Overtaken` — the row came to light after the relay had read a higher id.

## Main results

* `State.visible_mono` — no statement hides a row, or moves it to another run.
* `Hwm.highWater_of_exec` — the rows that the relay reads are those that came to light in time.
* `relay_high_water_mark_skips` — **the relay delivers no row twice, and skips for ever just
  the rows that were overtaken.**
-/

namespace SepLab
namespace Outbox

variable {R ι : Type} [DecidableEq ι] [DecidableEq R]

/-! ### Rows stay visible -/

namespace State

variable {txn : ι → Txn R} {s s' : State ι R} {runId : R}

/-- What a statement does to `t6_outbox` and to the sequence of its ids. -/
inductive OutboxCases (s : State ι R) : Table ℕ ι (OutboxRow R) → ℕ → Prop
  | same : OutboxCases s s.outbox s.nextOutbox
  | insert (i : ι) (row : OutboxRow R) :
      OutboxCases s (s.outbox.put s.nextOutbox i (some row)) (s.nextOutbox + 1)
  | update (i : ι) (q : ℕ → OutboxRow R → Bool) (f : OutboxRow R → OutboxRow R)
      (hf : ∀ row, (f row).runId = row.runId) :
      OutboxCases s (s.outbox.updateWhere i q f) s.nextOutbox
  | commit (i : ι) : OutboxCases s (s.outbox.commit i) s.nextOutbox
  | rollback (i : ι) : OutboxCases s (s.outbox.rollback i) s.nextOutbox

/-- **What a statement does to `t6_outbox`.** -/
theorem outbox_cases {a : Action ι} (h : step txn s a = some s') :
    s.OutboxCases s'.outbox s'.nextOutbox := by
  cases a with
  | tick d =>
    obtain rfl := Option.some_inj.mp h
    exact .same
  | begin i =>
    simp only [Outbox.step, begin] at h
    split at h
    · obtain rfl := Option.some_inj.mp h
      exact .same
    · cases h
  | insertCharge i =>
    simp only [Outbox.step] at h
    split at h
    · simp only [insertCharge] at h
      split at h
      · obtain rfl := Option.some_inj.mp h
        exact .same
      · cases h
    · cases h
  | insertOutbox i =>
    simp only [Outbox.step] at h
    split at h
    · simp only [insertOutbox] at h
      split at h
      · obtain rfl := Option.some_inj.mp h
        exact .insert i _
      · cases h
    · cases h
  | stamp i =>
    simp only [Outbox.step] at h
    split at h
    · simp only [stamp] at h
      split at h
      · split at h
        · obtain rfl := Option.some_inj.mp h
          exact .update i _ _ fun _ => rfl
        · cases h
      · cases h
    · cases h
  | select i =>
    simp only [Outbox.step] at h
    split at h
    · cases h
    · simp only [select] at h
      split at h
      · split at h
        · cases h
        · obtain rfl := Option.some_inj.mp h
          exact .update i _ _ fun _ => rfl
      · cases h
  | deliver i =>
    simp only [Outbox.step] at h
    split at h
    · cases h
    · simp only [deliver] at h
      split at h
      · obtain rfl := Option.some_inj.mp h
        exact .same
      · cases h
  | mark i =>
    simp only [Outbox.step] at h
    split at h
    · cases h
    · simp only [mark] at h
      split at h
      · split at h
        · obtain rfl := Option.some_inj.mp h
          exact .update i _ _ fun _ => rfl
        · cases h
      · cases h
  | commit i =>
    simp only [Outbox.step, commit] at h
    split at h
    · obtain rfl := Option.some_inj.mp h
      exact .commit i
    · obtain rfl := Option.some_inj.mp h
      exact .commit i
    · cases h
  | abort i =>
    simp only [Outbox.step, abort] at h
    split at h
    · cases h
    · cases h
    · cases h
    · rw [Option.some_inj] at h
      subst h
      exact .rollback i

/-- Row `k` is committed, and of the run. -/
def Visible (s : State ι R) (runId : R) (k : ℕ) : Prop :=
  ∃ row, (s.outbox k).committed = some row ∧ row.runId = runId

/-- A version that is to replace a committed one is of the same run. -/
def RunKept (s : State ι R) : Prop :=
  ∀ k i row row', (s.outbox k).committed = some row → (s.outbox k).pending = some (i, some row') →
    row'.runId = row.runId

theorem runKept_step {a : Action ι} (hinv : s.Inv) (hs : s.RunKept)
    (h : step txn s a = some s') : s'.RunKept := by
  intro k i row row' hc hp
  have hcases := outbox_cases h
  generalize s'.outbox = outbox at hcases hc hp
  generalize s'.nextOutbox = next at hcases
  cases hcases with
  | same => exact hs k i row row' hc hp
  | insert j new =>
    rw [Table.committed_put] at hc
    rcases Table.pending_of_put hp with ⟨rfl, -⟩ | ⟨-, hp⟩
    · -- nobody has a committed row under the sequence's next id
      rw [hinv.fresh (Nat.le_refl _)] at hc
      cases hc
    · exact hs k i row row' hc hp
  | update j q f hf =>
    rcases Table.updateWhere_cases s.outbox j q f k with ⟨old, hseen, -, hk⟩ | hk
    · rw [hk, Row.committed_put] at hc
      rw [hk, Row.pending_put, Option.some_inj, Prod.mk.injEq] at hp
      rw [← Option.some_inj.mp hp.2, hf]
      by_cases hown : ∃ v, (s.outbox k).pending = some (j, v)
      · obtain ⟨v, hv⟩ := hown
        rw [Row.seen_of_pending hv] at hseen
        exact hs k j row old hc (hseen ▸ hv)
      · push Not at hown
        rw [Row.seen_of_ne hown, hc, Option.some_inj] at hseen
        rw [hseen]
    · rw [hk] at hc hp
      exact hs k i row row' hc hp
  | commit j =>
    obtain ⟨hp', hij⟩ := Row.pending_of_commit hp
    have hkept : s.outbox.commit j k = s.outbox k :=
      Row.commit_of_ne fun v => Row.pending_ne_of_ne hp' hij v
    rw [hkept] at hc
    exact hs k i row row' hc hp'
  | rollback j =>
    have hc' : ((s.outbox k).rollback j).committed = some row := hc
    rw [Row.committed_rollback] at hc'
    exact hs k i row row' hc' (Row.pending_of_rollback hp).1

/-- **No statement hides a row**, or moves it to another run. -/
theorem visible_mono {a : Action ι} (hinv : s.Inv) (hs : s.RunKept)
    (h : step txn s a = some s') {k : ℕ} (hk : s.Visible runId k) : s'.Visible runId k := by
  obtain ⟨row, hrow, hrun⟩ := hk
  have hcases := outbox_cases h
  unfold Visible
  -- what the step does to the table is one of five changes
  generalize s'.outbox = outbox at hcases ⊢
  generalize s'.nextOutbox = next at hcases
  cases hcases with
  | same => exact ⟨row, hrow, hrun⟩
  | insert j new => exact ⟨row, (Table.committed_put k _).trans hrow, hrun⟩
  | update j q f hf =>
    rcases Table.updateWhere_cases s.outbox j q f k with ⟨old, -, -, hk⟩ | hk
    · exact ⟨row, by rw [hk, Row.committed_put, hrow], hrun⟩
    · exact ⟨row, by rw [hk, hrow], hrun⟩
  | commit j =>
    -- the writer of the row commits it, or someone else's commit passes it by
    by_cases hown : ∃ v, (s.outbox k).pending = some (j, v)
    · obtain ⟨v, hv⟩ := hown
      obtain ⟨-, row', rfl, -⟩ := hinv.pending hv
      refine ⟨row', ?_, (hs k j row row' hrow hv).trans hrun⟩
      show ((s.outbox k).commit j).committed = _
      rw [Row.commit_of_pending hv]
    · push Not at hown
      refine ⟨row, ?_, hrun⟩
      show ((s.outbox k).commit j).committed = _
      rw [Row.commit_of_ne hown, hrow]
  | rollback j =>
    refine ⟨row, ?_, hrun⟩
    show ((s.outbox k).rollback j).committed = _
    rw [Row.committed_rollback, hrow]

/-- Ids begin at `1`. -/
def IdsFromOne (s : State ι R) : Prop := 0 < s.nextOutbox ∧ s.outbox 0 = .empty

theorem idsFromOne_step {a : Action ι} (hs : s.IdsFromOne) (h : step txn s a = some s') :
    s'.IdsFromOne := by
  obtain ⟨hpos, hzero⟩ := hs
  have hcases := outbox_cases h
  unfold IdsFromOne
  generalize s'.outbox = outbox at hcases ⊢
  generalize s'.nextOutbox = next at hcases ⊢
  cases hcases with
  | same => exact ⟨hpos, hzero⟩
  | insert i row => exact ⟨Nat.succ_pos _, (Table.put_of_ne hpos.ne).trans hzero⟩
  | update i q f hf =>
    refine ⟨hpos, (Table.updateWhere_neg fun row hrow => ?_).trans hzero⟩
    rw [hzero] at hrow
    cases hrow
  | commit i =>
    refine ⟨hpos, ?_⟩
    show (s.outbox 0).commit i = _
    rw [hzero]
    rfl
  | rollback i =>
    refine ⟨hpos, ?_⟩
    show (s.outbox 0).rollback i = _
    rw [hzero]
    rfl

end State

/-! ### The relay -/

/-- The tables and the variables of the relay: `last_seen`, the rows of the last `SELECT` that
are not delivered yet, and `stats`.  Its deliveries are listed in their order. -/
structure Hwm (ι R : Type) where
  tables : State ι R
  lastSeen : ℕ
  rows : List ℕ
  delivered : List (Delivery R)
  published : ℕ
  mark : ℕ

namespace Hwm

/-- The statements of the writers and of the relay. -/
inductive Action (ι : Type)
  /-- A statement of a writer or of another relay. -/
  | other (a : Outbox.Action ι)
  /-- `SELECT id FROM t6_outbox WHERE run_id AND id > … ORDER BY id LIMIT …`. -/
  | poll
  /-- `INSERT INTO t6_delivered`. -/
  | deliver
  deriving DecidableEq, Repr

/-- Empty tables, and nothing seen yet. -/
def init : Hwm ι R := ⟨.init, 0, [], [], 0, 0⟩

/-- The rows that meet the condition of the `SELECT`, by id. -/
def candidates (s : Hwm ι R) (runId : R) : List ℕ :=
  (List.range s.tables.nextOutbox).filter fun k => decide (s.lastSeen < k) &&
    (s.tables.outbox k).committed.any fun row => row.runId = runId

/-- The rows that it returns. -/
def found (s : Hwm ι R) (runId : R) (batch : ℤ) : List ℕ :=
  (s.candidates runId).take batch.toNat

/-- A negative `LIMIT` is an error.  The mark is reported at the end of the loop over the rows. -/
def poll (s : Hwm ι R) (runId : R) (batch : ℤ) : Option (Hwm ι R) :=
  match s.rows with
  | [] =>
    if batch < 0 then none
    else
      let rows := s.found runId batch
      some { s with rows := rows, mark := if rows.isEmpty then s.lastSeen else s.mark }
  | _ :: _ => none

/-- The first of the rows that were read is delivered, and the high-water mark moves on to it. -/
def deliver (s : Hwm ι R) (runId : R) : Option (Hwm ι R) :=
  match s.rows with
  | [] => none
  | oid :: rows =>
    let lastSeen := max s.lastSeen oid
    some { s with
      lastSeen := lastSeen
      rows := rows
      delivered := s.delivered ++ [⟨runId, "high-water-mark", none, oid⟩]
      published := s.published + 1
      mark := if rows.isEmpty then lastSeen else s.mark }

/-- One statement. -/
def step (txn : ι → Txn R) (runId : R) (batch : ℤ) (s : Hwm ι R) :
    Action ι → Option (Hwm ι R)
  | .other a => (Outbox.step txn s.tables a).map fun tables => { s with tables := tables }
  | .poll => s.poll runId batch
  | .deliver => s.deliver runId

/-- The ids that the relay has delivered, in their order. -/
def sent (s : Hwm ι R) : List ℕ := s.delivered.map Delivery.outboxId

/-- The ids that the relay has read. -/
def read (s : Hwm ι R) : List ℕ := s.sent ++ s.rows

variable (txn : ι → Txn R) (runId : R) (batch : ℤ)

/-- In the run `as`, row `k` came to light when the relay had read an id from `k` on. -/
def Overtaken (as : List (Action ι)) (k : ℕ) : Prop :=
  ∃ bs a s s', bs ++ [a] <+: as ∧ exec (step txn runId batch) init bs = some s ∧
    step txn runId batch s a = some s' ∧ s'.tables.Visible runId k ∧
    ¬ s.tables.Visible runId k ∧ HighWater.Behind s.read k

variable {txn runId batch} {as : List (Action ι)} {s s' : Hwm ι R} {a : Action ι}

theorem overtaken_concat (h : exec (step txn runId batch) init as = some s)
    (hs : step txn runId batch s a = some s') (k : ℕ) :
    Overtaken txn runId batch (as ++ [a]) k ↔ Overtaken txn runId batch as k ∨
      s'.tables.Visible runId k ∧ ¬ s.tables.Visible runId k ∧ HighWater.Behind s.read k := by
  constructor
  · rintro ⟨bs, a', s₁, s₂, hpre, hs₁, hs₂, hrest⟩
    rcases List.prefix_concat_iff.mp hpre with heq | hpre
    · obtain ⟨rfl, rfl⟩ := List.append_inj' heq rfl |>.imp_right fun h => List.singleton_inj.mp h
      obtain rfl := Option.some_inj.mp (h.symm.trans hs₁)
      obtain rfl := Option.some_inj.mp (hs.symm.trans hs₂)
      exact Or.inr hrest
    · exact Or.inl ⟨bs, a', s₁, s₂, hpre, hs₁, hs₂, hrest⟩
  · rintro (⟨bs, a', s₁, s₂, hpre, hrest⟩ | hrest)
    · exact ⟨bs, a', s₁, s₂, hpre.trans (List.prefix_append _ _), hrest⟩
    · exact ⟨as, a, s, s', List.prefix_rfl, h, hs, hrest⟩

/-- What the variables of the relay have to do with each other. -/
structure Inv (s : Hwm ι R) : Prop where
  tables : s.tables.Inv
  kept : s.tables.RunKept
  ids : s.tables.IdsFromOne
  le : ∀ k ∈ s.sent, k ≤ s.lastSeen
  mem : s.lastSeen = 0 ∨ s.lastSeen ∈ s.sent
  published : s.published = s.delivered.length
  mark : s.rows = [] → s.mark = s.lastSeen

omit [DecidableEq ι] [DecidableEq R] in
theorem Inv.init : (init : Hwm ι R).Inv where
  tables := .init
  kept k i row row' hc := by cases hc
  ids := ⟨Nat.one_pos, rfl⟩
  le k hk := by cases hk
  mem := Or.inl rfl
  published := rfl
  mark _ := rfl

/-- **Every step keeps the invariant**, and hides no row. -/
theorem Inv.step (h : s.Inv) (hs : step txn runId batch s a = some s') :
    s'.Inv ∧ ∀ k, s.tables.Visible runId k → s'.tables.Visible runId k := by
  cases a with
  | other a =>
    obtain ⟨tables, ht, rfl⟩ := Option.map_eq_some_iff.mp hs
    refine ⟨{ h with
      tables := h.tables.step ht
      kept := State.runKept_step h.tables h.kept ht
      ids := State.idsFromOne_step h.ids ht }, fun k hk => ?_⟩
    exact State.visible_mono h.tables h.kept ht hk
  | poll =>
    simp only [Hwm.step, poll] at hs
    split at hs
    · next hrows =>
      split at hs
      · cases hs
      · obtain rfl := Option.some_inj.mp hs
        refine ⟨{ h with mark := fun hnil => ?_ }, fun k hk => hk⟩
        -- nothing is above the mark, so the poll reads nothing
        have hnil' : s.found runId batch = [] := hnil
        simp [hnil']
    · cases hs
  | deliver =>
    simp only [Hwm.step, deliver] at hs
    split at hs
    · cases hs
    · next oid rows hrows =>
      obtain rfl := Option.some_inj.mp hs
      refine ⟨{ h with le := ?_, mem := ?_, published := ?_, mark := ?_ }, fun k hk => hk⟩
      · intro k hk
        rw [sent, List.map_append] at hk
        rcases List.mem_append.mp hk with hk | hk
        · exact (h.le k hk).trans (le_max_left _ _)
        · rw [List.mem_singleton.mp hk]
          exact le_max_right _ _
      · rw [sent, List.map_append]
        dsimp only
        -- the mark stays where it is, or moves on to the row
        rcases le_total oid s.lastSeen with hle | hle
        · rw [max_eq_left hle]
          exact h.mem.imp_right fun hm => List.mem_append_left _ hm
        · rw [max_eq_right hle]
          exact Or.inr (List.mem_append_right _ (List.mem_singleton_self _))
      · simp [h.published]
      · intro hnil
        dsimp only at hnil ⊢
        rw [hnil]
        rfl

omit [DecidableEq ι] [DecidableEq R] in
/-- What is behind the mark of a relay that has delivered all it has read. -/
theorem Inv.behind_iff (h : s.Inv) (hrows : s.rows = []) {k : ℕ} (hk : 0 < k) :
    HighWater.Behind s.read k ↔ k ≤ s.lastSeen := by
  have hread : s.read = s.sent := by rw [read, hrows, List.append_nil]
  rw [hread]
  constructor
  · rintro ⟨k', hk', hle⟩
    exact hle.trans (h.le k' hk')
  · intro hle
    rcases h.mem with hzero | hmem
    · omega
    · exact ⟨s.lastSeen, hmem, hle⟩

omit [DecidableEq ι] [DecidableEq R] in
theorem Inv.pos_of_visible (h : s.Inv) {k : ℕ} (hk : s.tables.Visible runId k) :
    0 < k ∧ k < s.tables.nextOutbox := by
  obtain ⟨row, hrow, -⟩ := hk
  constructor
  · rw [Nat.pos_iff_ne_zero]
    rintro rfl
    rw [h.ids.2] at hrow
    cases hrow
  · by_contra hge
    rw [h.tables.fresh (not_lt.mp hge)] at hrow
    cases hrow

omit [DecidableEq ι] in
theorem pairwise_candidates (s : Hwm ι R) (runId : R) :
    (s.candidates runId).Pairwise (· < ·) := List.pairwise_lt_range.filter _

omit [DecidableEq ι] in
theorem mem_candidates {k : ℕ} : k ∈ s.candidates runId ↔
    k < s.tables.nextOutbox ∧ s.lastSeen < k ∧ s.tables.Visible runId k := by
  rw [candidates, List.mem_filter, List.mem_range, Bool.and_eq_true, decide_eq_true_eq,
    Option.any_eq_true]
  simp only [decide_eq_true_eq, State.Visible]

/-- **A step and the mark.**  Rows come to light, in time or too late, and the relay reads a
batch of those beyond the mark. -/
theorem Inv.highWater (h : s.Inv) {late : Set ℕ}
    (hw : HighWater {k | s.tables.Visible runId k} s.read late)
    (hs : Hwm.step txn runId batch s a = some s') :
    HighWater {k | s'.tables.Visible runId k} s'.read (late ∪ {k | s'.tables.Visible runId k ∧
      ¬ s.tables.Visible runId k ∧ HighWater.Behind s.read k}) := by
  have hmono : {k | s.tables.Visible runId k} ⊆ {k | s'.tables.Visible runId k} :=
    fun k hk => (h.step hs).2 k hk
  have hshown := hw.reveal hmono
  cases a with
  | other a =>
    obtain ⟨tables, -, rfl⟩ := Option.map_eq_some_iff.mp hs
    exact hshown
  | poll =>
    simp only [Hwm.step, poll] at hs
    split at hs
    · next hrows =>
      split at hs
      · cases hs
      · obtain rfl := Option.some_inj.mp hs
        have hread : s.read = s.sent := by rw [read, hrows, List.append_nil]
        have hbeyond : ∀ k, k ∈ s.candidates runId ↔
            s.tables.Visible runId k ∧ ¬ HighWater.Behind s.read k := by
          intro k
          rw [mem_candidates]
          constructor
          · rintro ⟨-, hlt, hk⟩
            refine ⟨hk, fun hbehind => ?_⟩
            exact absurd ((h.behind_iff hrows (h.pos_of_visible hk).1).mp hbehind) (not_le.mpr hlt)
          · rintro ⟨hk, hnot⟩
            obtain ⟨hpos, hnext⟩ := h.pos_of_visible hk
            exact ⟨hnext, not_le.mp fun hle => hnot ((h.behind_iff hrows hpos).mpr hle), hk⟩
        have hpoll := hshown.poll (s.pairwise_candidates runId) hbeyond batch.toNat
        show HighWater _ (s.sent ++ s.found runId batch) _
        rw [hread] at hpoll ⊢
        exact hpoll
    · cases hs
  | deliver =>
    simp only [Hwm.step, deliver] at hs
    split at hs
    · cases hs
    · next oid rows hrows =>
      obtain rfl := Option.some_inj.mp hs
      -- the ids read are the same ones, one more of them delivered
      have hread : s.read = (s.sent ++ [oid]) ++ rows := by
        rw [read, hrows, List.append_assoc]
        rfl
      show HighWater _ ((s.delivered ++ [_]).map Delivery.outboxId ++ rows) _
      rw [List.map_append]
      rw [hread] at hshown ⊢
      exact hshown

/-- **What the relay reads** in a run are the rows that came to light in time. -/
theorem highWater_of_exec (h : exec (step txn runId batch) init as = some s) :
    s.Inv ∧ HighWater {k | s.tables.Visible runId k} s.read
      {k | Overtaken txn runId batch as k} := by
  induction as using List.reverseRecOn generalizing s with
  | nil =>
    obtain rfl := Option.some_inj.mp h
    have hlate : {k | Overtaken txn runId batch [] k} = ∅ := by
      rw [Set.eq_empty_iff_forall_notMem]
      rintro k ⟨bs, a, s₁, s₂, hpre, -⟩
      simp at hpre
    have hvisible : {k | (init : Hwm ι R).tables.Visible runId k} = ∅ := by
      rw [Set.eq_empty_iff_forall_notMem]
      rintro k ⟨row, hrow, -⟩
      cases hrow
    rw [hlate, hvisible]
    exact ⟨.init, .init⟩
  -- the last step of the run makes rows visible, or reads some of them
  | append_singleton as a ih =>
    rw [exec_concat, Option.bind_eq_some_iff] at h
    obtain ⟨s₀, hs₀, hstep⟩ := h
    obtain ⟨hinv, hw⟩ := ih hs₀
    -- a row is passed in the older steps, or by the one just taken
    have hlate : {k | Overtaken txn runId batch (as ++ [a]) k} =
        {k | Overtaken txn runId batch as k} ∪ {k | s.tables.Visible runId k ∧
          ¬ s₀.tables.Visible runId k ∧ HighWater.Behind s₀.read k} :=
      Set.ext fun k => overtaken_concat hs₀ hstep k
    rw [hlate]
    exact ⟨(hinv.step hstep).1, hinv.highWater hw hstep⟩

end Hwm

open Hwm

/-- **What the high-water mark skips.**  In every interleaving with writers and other
relays, the relay delivers committed rows of its run only and none of them twice; a row
that comes to light after a higher id has been read is never delivered; and when a
`SELECT` with a positive `LIMIT` finds nothing, these are the only ones that are not. -/
theorem relay_high_water_mark_skips (txn : ι → Txn R) (runId : R) (batch : ℤ)
    {as : List (Hwm.Action ι)} {s : Hwm ι R}
    (h : exec (Hwm.step txn runId batch) Hwm.init as = some s) :
    s.sent.Nodup ∧ (∀ k ∈ s.sent, s.tables.Visible runId k) ∧
    (∀ k, Overtaken txn runId batch as k → k ∉ s.sent) ∧
    (0 < batch → s.rows = [] → s.found runId batch = [] →
      ∀ k, s.tables.Visible runId k → (k ∈ s.sent ↔ ¬ Overtaken txn runId batch as k)) := by
  obtain ⟨hinv, hw⟩ := highWater_of_exec h
  have hsub : ∀ k, k ∈ s.sent → k ∈ s.read := fun k hk => List.mem_append_left _ hk
  refine ⟨?_, fun k hk => hw.mem_visible k (hsub k hk), ?_, ?_⟩
  · exact hw.nodup.sublist (List.sublist_append_left _ _)
  · intro k hk hmem
    exact ((hw.mem_taken_iff (hw.mem_visible k (hsub k hmem))).mp (hsub k hmem)).2 hk
  · intro hbatch hrows hfound k hk
    have hread : s.read = s.sent := by rw [Hwm.read, hrows, List.append_nil]
    rw [← hread, hw.mem_taken_iff hk]
    refine and_iff_right ?_
    -- a row beyond the mark would have been found
    obtain ⟨hpos, hnext⟩ := hinv.pos_of_visible hk
    rw [hinv.behind_iff hrows hpos]
    by_contra hgt
    rcases List.take_eq_nil_iff.mp hfound with hzero | hnil
    · omega
    · have := mem_candidates.mpr ⟨hnext, not_le.mp hgt, hk⟩
      rw [hnil] at this
      cases this

/-- Writer `i` takes the first id, writer `j` commits the second one and the relay reads it
before writer `i` commits. -/
def overtaking (i j : ι) : List (Hwm.Action ι) :=
  [.other (.begin i), .other (.insertCharge i), .other (.insertOutbox i), .other (.begin j),
    .other (.insertCharge j), .other (.insertOutbox j), .other (.stamp j), .other (.commit j),
    .poll, .deliver, .other (.stamp i), .other (.commit i), .poll]

/-- The first row is committed and never delivered. -/
theorem relay_high_water_mark_skips_overtaking : ∃ s : Hwm (Fin 6) ℕ,
    exec (Hwm.step twoWriters 6 20) Hwm.init (overtaking 0 1) = some s ∧ s.sent = [2] ∧ s.mark = 2 ∧
    s.tables.Visible 6 1 ∧ Overtaken twoWriters 6 20 (overtaking 0 1) 1 := by
  have hrun : (exec (Hwm.step twoWriters 6 20) Hwm.init (overtaking 0 1)).map (fun s =>
      (s.sent, s.mark, s.rows, s.found 6 20,
        ((s.tables.outbox 1).committed.map OutboxRow.runId))) =
      some ([2], 2, [], [], some 6) := by decide
  obtain ⟨s, hs, hobs⟩ := Option.map_eq_some_iff.mp hrun
  simp only [Prod.mk.injEq] at hobs
  obtain ⟨hsent, hmark, hrows, hfound, hrow⟩ := hobs
  obtain ⟨row, hrow, hrunId⟩ := Option.map_eq_some_iff.mp hrow
  have hvis : s.tables.Visible 6 1 := ⟨row, hrow, hrunId⟩
  obtain ⟨-, -, -, hskip⟩ := relay_high_water_mark_skips twoWriters 6 20 hs
  refine ⟨s, hs, hsent, hmark, hvis, ?_⟩
  by_contra hnot
  have := (hskip (by decide) hrows hfound 1 hvis).mpr hnot
  rw [hsent] at this
  exact absurd this (by decide)

end Outbox
end SepLab
