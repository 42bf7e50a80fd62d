import SepLab.ClocksLie.Statements

/-!
# Who wins

What the writes of both variants come to, in every interleaving.  With the clock of the
database no write is rejected that was submitted after the write it lost to.  With
versions a write is applied exactly if none has come between its snapshot and its turn.

## Main definitions

* `Reported` — what `_apply` has returned, logged or not.
* `lostUpdates` — the lost updates that are counted in the log.
* `Decided` — the turn of a call has come, and it has won or lost.

## Main results

* `last_writer_wins` — no later write is lost, and `updated_at` increases.
* `compare_and_set` — versions count the writes, and who loses was overtaken.
-/

namespace SepLab
namespace ClocksLie

variable {ι K τ : Type} [DecidableEq ι] [DecidableEq K] [LinearOrder τ]

/-- `_apply` has returned, and the writer may have logged what it returned. -/
def Reported (s : State ι K τ) (e : LogEntry ι τ) : Prop :=
  e ∈ s.log ∨ ∃ i, s.phase i = .reported e

/-- `count(*) FILTER (WHERE submitted_db_ts > winner_db_ts)` over the rejections that have a
winner. -/
def lostUpdates (log : List (LogEntry ι τ)) : ℕ :=
  log.countP fun e => e.outcome = .rejectedLww &&
    match e.winnerDbTs with
    | none => false
    | some w => w < e.submittedDbTs

/-- The call has won or lost, and may be past its result. -/
def Phase.won : Phase ι τ → Option Bool
  | .decided _ won => some won
  | .executed _ _ won => some won
  | .committed _ _ won => some won
  | .reported e => some (decide (e.outcome = .applied))
  | _ => none

/-- The turn of the call has come, and it has won or lost. -/
def Decided (s : State ι K τ) (i : ι) (won : Bool) : Prop :=
  (s.phase i).won = some won ∨ ∃ e ∈ s.log, e.writer = i ∧ won = decide (e.outcome = .applied)

variable {key : ι → K} {s : State ι K τ} {i : ι} {variant : Variant}

omit [DecidableEq ι] [DecidableEq K] in
theorem Inv.reported (h : Inv variant key s) {e : LogEntry ι τ} (he : Reported s e) :
    Entry variant key s e := by
  rcases he with he | ⟨i, hphase⟩
  · exact (h.log e he).2
  · have hfits := h.calls i
    rw [hphase] at hfits
    exact hfits.2

omit [DecidableEq ι] [DecidableEq K] in
/-- Whoever has won or lost has been judged. -/
theorem Inv.decided (h : Inv variant key s) {won : Bool} (hwon : Decided s i won) :
    ∃ submitted, Verdict variant key s i submitted won := by
  rcases hwon with hwon | ⟨e, he, rfl, rfl⟩
  -- before its entry is logged a call is in one of four phases that keep its verdict
  · have hfits := h.calls i
    cases hphase : s.phase i with
    | decided submitted w =>
      rw [hphase] at hfits hwon
      obtain rfl := Option.some_inj.mp hwon
      exact ⟨submitted, hfits.2⟩
    | executed submitted executedAt w =>
      rw [hphase] at hfits hwon
      obtain rfl := Option.some_inj.mp hwon
      exact ⟨submitted, hfits.2⟩
    | committed submitted executedAt w =>
      rw [hphase] at hfits hwon
      obtain rfl := Option.some_inj.mp hwon
      exact ⟨submitted, hfits.1⟩
    | reported e =>
      rw [hphase] at hfits hwon
      obtain rfl := Option.some_inj.mp hwon
      obtain ⟨rfl, hentry⟩ := hfits
      exact ⟨_, hentry.verdict⟩
    | _ =>
      rw [hphase] at hwon
      cases hwon
  · exact ⟨_, (h.log e he).2.verdict⟩

/-! ### The clock of the database -/

/-- **No later write is lost**: who is rejected was submitted no later than the winner was
written, so that no lost update is counted, and `updated_at` increases with every write. -/
theorem last_writer_wins {clock : τ} (hs : Reach (step .v1 key) (.init clock) s) :
    (∀ e, Reported s e → e.outcome = .rejectedLww →
      ∃ w, e.winnerDbTs = some w ∧ e.submittedDbTs ≤ w) ∧
    lostUpdates s.log = 0 ∧
    ∀ k, (s.items k).committed = (s.applied k).getLast? ∧
      (s.applied k).Pairwise fun r r' => r.updatedAt < r'.updatedAt := by
  have h := Inv.of_reach hs
  have hwinner : ∀ e, Reported s e → e.outcome = .rejectedLww →
      ∃ w, e.winnerDbTs = some w ∧ e.submittedDbTs ≤ w := by
    intro e he hout
    obtain ⟨w, hw, hle⟩ := (h.reported he).winner (by simp [hout])
    exact ⟨w, hw, hle rfl⟩
  refine ⟨hwinner, ?_, fun k => ⟨h.committed k, ?_⟩⟩
  -- no write that was applied later is counted as lost, since a rejected one names its winner
  · refine List.countP_eq_zero.mpr fun e he => ?_
    rw [Bool.not_eq_true, Bool.and_eq_false_imp]
    intro hout
    obtain ⟨w, hw, hle⟩ := hwinner e (Or.inl he) (of_decide_eq_true hout)
    rw [hw]
    exact decide_eq_false (not_lt.mpr hle)
  -- each applied write is newer than the one it follows
  · exact ((h.applied k).mono fun _ _ _ ha => ha.follows.1).sorted

/-- Call 0 begins before call 1, and has its turn after it. -/
theorem last_writer_wins_overtaken :
    ∃ s : State ℕ Unit ℕ, exec (step .v1 fun _ => ()) (.init 0)
        [.submit 0, .begin 0, .snapshot 0, .values 0, .tick 1, .submit 1, .begin 1, .snapshot 1,
          .values 1, .turn 1, .execute 1, .commit 1, .report 1, .log 1, .turn 0, .execute 0,
          .commit 0, .report 0, .log 0] = some s ∧
      s.log = [⟨1, 1, 1, none, .applied⟩, ⟨0, 0, 1, some 1, .rejectedLww⟩] ∧
      lostUpdates s.log = 0 := by
  have hrun : ((exec (step .v1 fun _ => ()) (.init 0)
      [.submit 0, .begin 0, .snapshot 0, .values 0, .tick 1, .submit 1, .begin 1, .snapshot 1,
        .values 1, .turn 1, .execute 1, .commit 1, .report 1, .log 1, .turn 0, .execute 0,
        .commit 0, .report 0, .log 0]).map fun s : State ℕ Unit ℕ => s.log) =
      some [⟨1, 1, 1, none, .applied⟩, ⟨0, 0, 1, some 1, .rejectedLww⟩] := by decide +kernel
  obtain ⟨s, hs, hlog⟩ := Option.map_eq_some_iff.mp hrun
  exact ⟨s, hs, hlog, (last_writer_wins (.of_exec _ hs)).2.1⟩

/-! ### Versions -/

omit [DecidableEq ι] [DecidableEq K] in
/-- A write that was applied found what it had seen, and a call whose write was applied has won. -/
theorem Inv.applied_writer (h : Inv .v2 key s) {k : K} {r : Item ι τ} (hr : r ∈ s.applied k) :
    key r.writer = k ∧ s.found r.writer = s.seen r.writer := by
  obtain ⟨pre, -, happlied⟩ := (h.applied k).mem hr
  exact ⟨happlied.key, happlied.found.trans (happlied.seen rfl).symm⟩

/-- **Versions are exact**: the version of a row counts the writes, of which no two started
from the same version; who wins has found what it saw; and who loses was overtaken by a write
that it could not see. -/
theorem compare_and_set {clock : τ} (hs : Reach (step .v2 key) (.init clock) s) :
    (∀ k, ((s.items k).committed.map Item.version).getD 0 = (s.applied k).length ∧
      ∀ j (hj : j < (s.applied k).length), (s.applied k)[j].version = j + 1 ∧
        key (s.applied k)[j].writer = k ∧ s.seen (s.applied k)[j].writer = (s.applied k).take j) ∧
    (∀ i won, Decided s i won →
      s.seen i <+: s.found i ∧ s.found i <+: s.applied (key i) ∧
      (won = true ↔ s.found i = s.seen i) ∧
      (won = false → ∃ r post, s.found i = s.seen i ++ r :: post ∧ r.writer ≠ i)) ∧
    ∀ e, Reported s e →
      (e.outcome = .applied ↔ ∃ r ∈ s.applied (key e.writer), r.writer = e.writer) := by
  have h := Inv.of_reach hs
  refine ⟨fun k => ⟨?_, fun j hj => ?_⟩, fun i won hwon => ?_, fun e he => ?_⟩
  · rw [h.committed k]
    exact h.version_eq List.prefix_rfl
  -- the version of the row is the number of the writes before, and one
  · have hpre : (s.applied k).take j ++ [(s.applied k)[j]] <+: s.applied k := by
      rw [List.take_append_getElem]
      exact List.take_prefix _ _
    have happlied := h.applied k _ _ hpre
    refine ⟨?_, happlied.key, happlied.seen rfl⟩
    have hversion := h.version_eq hpre
    rw [List.getLast?_concat, List.length_append, List.length_take, List.length_singleton]
      at hversion
    have hmin : min j (s.applied k).length = j := min_eq_left hj.le
    rw [hmin] at hversion
    exact_mod_cast hversion
  · obtain ⟨submitted, hverdict⟩ := h.decided hwon
    have hjudged : won = true ↔ s.found i = s.seen i := hverdict.judged
    refine ⟨hverdict.seen, hverdict.found, hjudged, ?_⟩
    -- who has lost found a version that it had not seen
    rintro rfl
    obtain ⟨rest, hrest⟩ := hverdict.seen
    cases rest with
    | nil =>
      rw [List.append_nil] at hrest
      exact absurd (hjudged.mpr hrest.symm) Bool.false_ne_true
    | cons r post =>
      refine ⟨r, post, hrest.symm, ?_⟩
      -- and it was not its own, or it would have won
      rintro rfl
      have hr : r ∈ s.applied (key r.writer) := by
        refine hverdict.found.subset ?_
        rw [← hrest]
        exact List.mem_append_right _ List.mem_cons_self
      exact Bool.false_ne_true (hjudged.mpr (h.applied_writer hr).2)
  · have hentry := h.reported he
    refine ⟨hentry.applied, ?_⟩
    rintro ⟨r, hr, hwriter⟩
    have hsame := (h.applied_writer hr).2
    rw [hwriter] at hsame
    have hjudged : decide (e.outcome = .applied) = true ↔ s.found e.writer = s.seen e.writer :=
      hentry.verdict.judged
    exact of_decide_eq_true (hjudged.mpr hsame)

/-- Two calls race to insert the first row of a key. -/
theorem compare_and_set_race :
    ∃ s : State ℕ Unit ℕ, exec (step .v2 fun _ => ()) (.init 0)
        [.submit 0, .begin 0, .snapshot 0, .values 0, .submit 1, .begin 1, .snapshot 1, .values 1,
          .turn 0, .execute 0, .commit 0, .turn 1, .execute 1, .commit 1, .report 1,
          .log 1] = some s ∧
      (s.items ()).committed = some ⟨0, 1, 0, 0⟩ ∧
      s.log = [⟨1, 0, 0, some 0, .rejectedCas⟩] ∧ (s.applied ()).length = 1 := by
  have hrun : ((exec (step .v2 fun _ => ()) (.init 0)
      [.submit 0, .begin 0, .snapshot 0, .values 0, .submit 1, .begin 1, .snapshot 1, .values 1,
        .turn 0, .execute 0, .commit 0, .turn 1, .execute 1, .commit 1, .report 1, .log 1]).map
      fun s : State ℕ Unit ℕ => ((s.items ()).committed, s.log)) =
      some (some ⟨0, 1, 0, 0⟩, [⟨1, 0, 0, some 0, .rejectedCas⟩]) := by decide +kernel
  obtain ⟨s, hs, hend⟩ := Option.map_eq_some_iff.mp hrun
  obtain ⟨hrow, hlog⟩ := Prod.mk.inj hend
  refine ⟨s, hs, hrow, hlog, ?_⟩
  have hversion := ((compare_and_set (.of_exec _ hs)).1 ()).1
  rw [hrow] at hversion
  have hone : (1 : ℤ) = (s.applied ()).length := hversion
  exact_mod_cast hone.symm

end ClocksLie
end SepLab
