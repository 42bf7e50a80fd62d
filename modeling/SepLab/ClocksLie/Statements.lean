import SepLab.ClocksLie.Writers

/-!
# The statements of the writers

Each statement of `write_v1` and `write_v2` keeps the invariant: the turn of a call on its
row, the end of its transaction, and what `_apply` returns.

## Main results

* `version_getLast` — the version of a row counts the writes.
* `Inv.wins_iff` — the comparison of versions says whether a call has found what it saw.
* `Inv.take`, `Inv.commit`, `Inv.report` — the turn of a call, its commit and its result.
* `Inv.step` — every statement keeps the invariant, in both variants.
-/

namespace SepLab
namespace ClocksLie

variable {ι K τ : Type} [DecidableEq ι] [DecidableEq K] [LinearOrder τ]

/-! ### Turns -/

omit [DecidableEq ι] [LinearOrder τ] in
/-- **The version counts the writes.** -/
theorem version_getLast {xs : List (Item ι τ)} (h : EachAfter (fun pre (new : Item ι τ) =>
    new.version = (pre.getLast?.map Item.version).getD 0 + 1) xs) :
    (xs.getLast?.map Item.version).getD 0 = xs.length := by
  induction xs using List.reverseRecOn with
  | nil => rfl
  | append_singleton xs x ih =>
    have hx : x.version = (xs.getLast?.map Item.version).getD 0 + 1 := h xs x List.prefix_rfl
    rw [ih (h.of_isPrefix (List.prefix_append xs [x]))] at hx
    rw [List.getLast?_concat, List.length_append, List.length_singleton]
    push_cast
    exact hx

variable {variant : Variant} {key : ι → K} {s s' : State ι K τ} {i j : ι}

omit [DecidableEq ι] [DecidableEq K] in
theorem Inv.version_eq (h : Inv .v2 key s) {k : K} {xs : List (Item ι τ)}
    (hxs : xs <+: s.applied k) : (xs.getLast?.map Item.version).getD 0 = xs.length :=
  version_getLast (((h.applied k).of_isPrefix hxs).mono fun _ _ _ ha => ha.follows)

omit [DecidableEq K] in
/-- A step of the call `i` that only moves it on, with the row locked as before. -/
theorem Frame.enter (s : State ι K τ) {i : ι} {p : Phase ι τ}
    (hp : (s.phase i).ended = true → p.ended = true) : Frame s (s.enter i p) i where
  clock := le_rfl
  phase _ hj := Function.update_of_ne hj _ _
  seen _ _ := rfl
  found _ _ := rfl
  ended hi := by
    show (Function.update s.phase i p i).ended = true
    rw [Function.update_self]
    exact hp hi
  applied _ := List.prefix_rfl
  held _ _ _ _ _ := ⟨rfl, rfl⟩

omit [DecidableEq K] in
/-- What is locked, after one call has moved on. -/
theorem Inv.pending_update (h : Inv variant key s) {p : Phase ι τ}
    (hp : (s.phase i).holds = true → p.holds = true) {k : K} {j : ι} {v : Option (Item ι τ)}
    (hv : (s.items k).pending = some (j, v)) :
    key j = k ∧ (Function.update s.phase i p j).holds = true := by
  obtain ⟨hkey, hholds⟩ := h.pending k j v hv
  refine ⟨hkey, ?_⟩
  by_cases hj : j = i
  · subst hj
    rw [Function.update_self]
    exact hp hholds
  · rw [Function.update_of_ne hj]
    exact hholds

omit [DecidableEq K] in
/-- **A call moves on** without touching a row. -/
theorem Inv.enter (h : Inv variant key s) {p : Phase ι τ}
    (hended : (s.phase i).ended = true → p.ended = true)
    (hholds : (s.phase i).holds = true → p.holds = true)
    (hp : Fits variant key (s.enter i p) i p) : Inv variant key (s.enter i p) := by
  refine h.of_frame (.enter s hended) h.committed (fun _ => Or.inl rfl)
    (fun k j v hv => h.pending_update hholds hv) ?_ fun e he => Or.inl he
  show Fits variant key (s.enter i p) i (Function.update s.phase i p i)
  rw [Function.update_self]
  exact hp

/-- **A call has its turn**: it locks the row with `v` in it, which it has written or not. -/
theorem Inv.take (h : Inv variant key s) {submitted now : τ} {cur : Option ℤ} {valuesAt : τ}
    (hphase : s.phase i = .inserting submitted now cur valuesAt)
    (hfree : (s.items (key i)).free i = true) {v : Option (Item ι τ)} {won : Bool}
    (hwon : won = true → ∃ new, v = some new ∧ new.writer = i ∧
      Follows (s.applied (key i)).getLast? new variant)
    (hlost : won = false → v = (s.items (key i)).committed)
    (hjudged : Judged submitted won (s.seen i) (s.applied (key i)) variant) :
    Inv variant key ({ s with
      found := Function.update s.found i (s.applied (key i))
      items := s.items.put (key i) i v }.enter i (.decided submitted won)) := by
  -- whoever holds the row is in the middle of its transaction, and the call is not
  have hnone : (s.items (key i)).pending = none := by
    cases hpending : (s.items (key i)).pending with
    | none => rfl
    | some p =>
      obtain ⟨j, w⟩ := p
      obtain rfl := Row.free_iff.mp hfree j w hpending
      have hholds := (h.pending _ _ _ hpending).2
      rw [hphase] at hholds
      cases hholds
  have hsnapshot : Snapshot key s i cur := by
    have hfits := h.calls i
    rw [hphase] at hfits
    exact hfits.2.2.2
  refine h.of_frame (i := i) ?_ ?_ (fun _ => Or.inl rfl) ?_ ?_ fun e he => Or.inl he
  · refine ⟨le_rfl, fun j hj => Function.update_of_ne hj _ _, fun _ _ => rfl, ?_, ?_,
      fun _ => List.prefix_rfl, ?_⟩
    -- the call is no reader that has ended, so others see what they saw
    · rintro j (hj | hended)
      · exact Function.update_of_ne hj _ _
      · rw [hphase] at hended
        cases hended
    · intro hended
      rw [hphase] at hended
      cases hended
    · intro j hj k w hw
      refine ⟨Table.put_of_ne ?_, rfl⟩
      rintro rfl
      rw [hnone] at hw
      cases hw
  · intro k
    show ((s.items.put (key i) i v) k).committed = _
    -- only the row of the call's own key is written, and what is committed of it stays
    by_cases hk : k = key i
    · subst hk
      rw [Table.put_self, Row.committed_put]
      exact h.committed _
    · rw [Table.put_of_ne hk]
      exact h.committed k
  · intro k j w hw
    have hw' : ((s.items.put (key i) i v) k).pending = some (j, w) := hw
    show key j = k ∧ (Function.update s.phase i _ j).holds = true
    -- the pending version of that row is now the call's
    by_cases hk : k = key i
    · subst hk
      rw [Table.put_self, Row.pending_put] at hw'
      obtain ⟨rfl, rfl⟩ := Prod.mk.inj (Option.some_inj.mp hw')
      rw [Function.update_self]
      exact ⟨rfl, rfl⟩
    · rw [Table.put_of_ne hk] at hw'
      exact h.pending_update (fun _ => rfl) hw'
  · show Fits variant key _ i (Function.update s.phase i (.decided submitted won) i)
    rw [Function.update_self]
    have hfound : Function.update s.found i (s.applied (key i)) i = s.applied (key i) :=
      Function.update_self ..
    refine ⟨⟨hfound, ?_, ?_⟩, ⟨?_, ?_, ?_⟩⟩
    -- a call that has won has written a version that follows the last one
    · intro ht
      obtain ⟨new, rfl, hwriter, hfollows⟩ := hwon ht
      refine ⟨new, ?_, hwriter, hfollows⟩
      show ((s.items.put (key i) i (some new)) (key i)).pending = _
      rw [Table.put_self, Row.pending_put]
    -- one that has lost has the row as it is, and gives it back
    · intro hf
      show ((s.items.put (key i) i v) (key i)).pending =
        some (i, ((s.items.put (key i) i v) (key i)).committed)
      rw [Table.put_self, Row.pending_put, Row.committed_put, hlost hf]
    · show s.seen i <+: Function.update s.found i (s.applied (key i)) i
      rw [hfound]
      exact hsnapshot.seen
    · show Function.update s.found i (s.applied (key i)) i <+: s.applied (key i)
      rw [hfound]
    · show Judged submitted won (s.seen i) (Function.update s.found i (s.applied (key i)) i) variant
      rw [hfound]
      exact hjudged

omit [DecidableEq ι] [DecidableEq K] in
/-- **The comparison of the versions** says whether the call has found what it saw. -/
theorem Inv.wins_iff (h : Inv .v2 key s) {cur : Option ℤ} (hs : Snapshot key s i cur)
    {r : Item ι τ} (hr : (s.applied (key i)).getLast? = some r) (now : τ) :
    wins r now cur .v2 = true ↔ s.applied (key i) = s.seen i := by
  have hfound := h.version_eq (k := key i) List.prefix_rfl
  have hseen := h.version_eq hs.seen
  rw [hr, Option.map_some, Option.getD_some] at hfound
  show decide (r.version = cur.getD (-1)) = true ↔ _
  rw [decide_eq_true_eq, hs.cur, hfound]
  cases hlast : (s.seen i).getLast? with
  | none =>
    -- a call that saw no row has found one
    have hnil : s.seen i = [] := List.getLast?_eq_none_iff.mp hlast
    rw [hnil]
    refine iff_of_false ?_ ?_
    · show ((s.applied (key i)).length : ℤ) ≠ -1
      omega
    · rintro heq
      rw [heq] at hr
      cases hr
  | some q =>
    rw [hlast, Option.map_some, Option.getD_some] at hseen
    rw [Option.map_some, Option.getD_some, hseen]
    constructor
    · intro hlength
      exact (hs.seen.eq_of_length (by omega)).symm
    · intro heq
      rw [heq]

/-- The turn of a call. -/
theorem Inv.turn (h : Inv variant key s) {submitted now : τ} {cur : Option ℤ} {valuesAt : τ}
    (hphase : s.phase i = .inserting submitted now cur valuesAt)
    (hfree : (s.items (key i)).free i = true) :
    Inv variant key (s.turn variant i (key i) submitted now cur valuesAt) := by
  have hfits := h.calls i
  rw [hphase] at hfits
  obtain ⟨hsubmitted, hnow, hvalues, hsnapshot⟩ := hfits
  have hlast := h.committed (key i)
  unfold State.turn
  simp only
  split
  -- nobody has written yet, so the call is the first
  · next hnone =>
    rw [hnone] at hlast
    have hnil : s.applied (key i) = [] := List.getLast?_eq_none_iff.mp hlast.symm
    have hseen : s.seen i = [] := List.prefix_nil.mp (hnil ▸ hsnapshot.seen)
    refine h.take hphase hfree (fun _ => ⟨_, rfl, rfl, ?_⟩) (by simp) ?_
    · cases variant with
      | v1 =>
        refine ⟨?_, hnow⟩
        rw [hnil]
        intro r hr
        cases hr
      | v2 =>
        show cur.getD 0 + 1 = _
        rw [hsnapshot.cur, hseen, hnil]
    · cases variant with
      | v1 => exact fun hwon => by cases hwon
      | v2 => exact iff_of_true rfl (hnil.trans hseen.symm)
  -- there is a row, whose writer is the last one that was applied
  · next r hr =>
    rw [hr] at hlast
    split
    -- the row gives way to the call
    · next hwins =>
      refine h.take hphase hfree (fun _ => ⟨_, rfl, rfl, ?_⟩) (by simp) ?_
      · cases variant with
        | v1 =>
          refine ⟨?_, hnow.trans hvalues⟩
          rintro r' hr'
          rw [← hlast, Option.some_inj] at hr'
          subst hr'
          exact of_decide_eq_true hwins
        | v2 =>
          show r.version + 1 = _
          rw [← hlast]
          rfl
      · cases variant with
        | v1 => exact fun hwon => by cases hwon
        | v2 => exact iff_of_true rfl ((h.wins_iff hsnapshot hlast.symm now).mp hwins)
    -- the row stays, and the call has lost to its writer
    · next hwins =>
      refine h.take hphase hfree (by simp) (fun _ => hr.symm) ?_
      cases variant with
      | v1 =>
        intro _
        refine ⟨r, hlast.symm, hsubmitted.trans ?_⟩
        exact not_lt.mp fun hlt => hwins (decide_eq_true hlt)
      | v2 =>
        refine iff_of_false Bool.false_ne_true fun heq => ?_
        exact hwins ((h.wins_iff hsnapshot hlast.symm now).mpr heq)

/-! ### The end of a transaction -/

omit [DecidableEq ι] [DecidableEq K] in
/-- A row that another key has is not the call's. -/
theorem Inv.ne_pending (h : Inv variant key s) {k : K} (hk : k ≠ key i) (v : Option (Item ι τ)) :
    (s.items k).pending ≠ some (i, v) := fun hv => hk (h.pending k i v hv).1.symm

omit [DecidableEq K] in
/-- What is locked after the transaction of a call is over: what the others had locked. -/
theorem Inv.pending_release (h : Inv variant key s) {p : Phase ι τ} {k : K} {j : ι}
    {v : Option (Item ι τ)} (hv : (s.items k).pending = some (j, v)) (hj : j ≠ i) :
    key j = k ∧ (Function.update s.phase i p j).holds = true := by
  rw [Function.update_of_ne hj]
  exact h.pending k j v hv

/-- **The transaction of a call commits**, and its write is applied next. -/
theorem Inv.commit (h : Inv variant key s) {submitted executedAt : τ} {won : Bool}
    (hphase : s.phase i = .executed submitted executedAt won) :
    Inv variant key (s.commit i (key i) submitted executedAt won) := by
  have hfits := h.calls i
  rw [hphase] at hfits
  obtain ⟨hholds, hverdict⟩ := hfits
  -- the row of the key is the call's own, and the others stay as they are
  obtain ⟨v, hpending, happlied⟩ : ∃ v, (s.items (key i)).pending = some (i, v) ∧
      (won = true → ∃ new, v = some new ∧ new.writer = i ∧
        Follows (s.applied (key i)).getLast? new variant) ∧
      (won = false → v = (s.items (key i)).committed) := by
    cases won with
    | true =>
      obtain ⟨new, hpending, hnew⟩ := hholds.written rfl
      exact ⟨_, hpending, fun _ => ⟨new, rfl, hnew⟩, by simp⟩
    | false => exact ⟨_, hholds.locked rfl, by simp, fun _ => rfl⟩
  have hmine : (s.items (key i)).commit i = ⟨v, none⟩ := Row.commit_of_pending hpending
  have hother : ∀ k, k ≠ key i → (s.items k).commit i = s.items k :=
    fun k hk => Row.commit_of_ne (h.ne_pending hk)
  have hheld : ∀ j, j ≠ i → ∀ k w, (s.items k).pending = some (j, w) → k ≠ key i := by
    rintro j hj k w hw rfl
    rw [hpending] at hw
    exact hj (Prod.mk.inj (Option.some_inj.mp hw)).1.symm
  have hgrown : ∀ k, (s.commit i (key i) submitted executedAt won).applied k =
      if won = true ∧ k = key i then s.applied k ++ v.toList else s.applied k := by
    intro k
    unfold State.commit
    cases won with
    | false => simp [State.enter]
    | true =>
      by_cases hk : k = key i
      · subst hk
        simp [State.enter, hmine]
      · simp [State.enter, hk]
  have hframe : Frame s (s.commit i (key i) submitted executedAt won) i := by
    refine ⟨le_rfl, fun j hj => Function.update_of_ne hj _ _, fun _ _ => rfl, fun _ _ => rfl, ?_,
      ?_, ?_⟩
    · intro hended
      rw [hphase] at hended
      cases hended
    · intro k
      rw [hgrown]
      split
      · exact List.prefix_append _ _
      · exact List.prefix_rfl
    · intro j hj k w hw
      have hk := hheld j hj k w hw
      rw [hgrown, if_neg fun hand => hk hand.2]
      exact ⟨hother k hk, rfl⟩
  refine h.of_frame hframe ?_ ?_ ?_ ?_ fun e he => Or.inl he
  · intro k
    rw [hgrown]
    show ((s.items k).commit i).committed = _
    by_cases hk : k = key i
    · subst hk
      rw [hmine]
      cases won with
      | true =>
        obtain ⟨new, rfl, -⟩ := happlied.1 rfl
        simp
      | false =>
        rw [happlied.2 rfl, if_neg (by simp)]
        exact h.committed _
    · rw [hother k hk, if_neg fun hand => hk hand.2]
      exact h.committed k
  · intro k
    rw [hgrown]
    split
    · next hand =>
      obtain ⟨hwon, rfl⟩ := hand
      obtain ⟨new, rfl, hwriter, hfollows⟩ := happlied.1 hwon
      refine Or.inr ⟨new, rfl, by rw [hwriter], hfollows, ?_, ?_, ?_⟩
      · rw [hwriter]
        exact hholds.found
      · rintro rfl
        have hjudged : s.found i = s.seen i := hverdict.judged.mp hwon
        rw [hwriter]
        exact hjudged.symm.trans hholds.found
      · rw [hwriter]
        show (Function.update s.phase i _ i).ended = true
        rw [Function.update_self]
        rfl
    · exact Or.inl rfl
  · intro k j w hw
    have hw' : ((s.items k).commit i).pending = some (j, w) := hw
    by_cases hk : k = key i
    · subst hk
      rw [hmine] at hw'
      cases hw'
    · rw [hother k hk] at hw'
      exact h.pending_release hw' fun hji => h.ne_pending hk w (hji ▸ hw')
  · show Fits variant key _ i (Function.update s.phase i _ i)
    rw [Function.update_self]
    refine ⟨hframe.verdict rfl rfl hverdict, ?_⟩
    intro hwon
    obtain ⟨new, rfl, hwriter, -⟩ := happlied.1 hwon
    refine ⟨new, ?_, hwriter⟩
    rw [hgrown, if_pos ⟨hwon, rfl⟩]
    exact List.mem_append_right _ List.mem_cons_self

omit [DecidableEq K] in
/-- **A transaction is rolled back**, and its lock is given back. -/
theorem Inv.abort (h : Inv variant key s) :
    Inv variant key ({ s with items := s.items.rollback i }.enter i .failed) := by
  -- what others have pending is not rolled back
  have hother : ∀ j, j ≠ i → ∀ k v, (s.items k).pending = some (j, v) →
      (s.items k).rollback i = s.items k := by
    intro j hj k v hv
    refine Row.rollback_of_ne fun w hw => ?_
    rw [hv] at hw
    exact hj (Prod.mk.inj (Option.some_inj.mp hw)).1
  refine h.of_frame (i := i) ?_ ?_ (fun _ => Or.inl rfl) ?_ ?_ fun e he => Or.inl he
  · refine ⟨le_rfl, fun j hj => Function.update_of_ne hj _ _, fun _ _ => rfl, fun _ _ => rfl, ?_,
      fun _ => List.prefix_rfl, fun j hj k v hv => ⟨hother j hj k v hv, rfl⟩⟩
    intro _
    show (Function.update s.phase i .failed i).ended = true
    rw [Function.update_self]
    rfl
  · intro k
    show ((s.items k).rollback i).committed = _
    rw [Row.committed_rollback]
    exact h.committed k
  · intro k j v hv
    obtain ⟨hv', hj⟩ := Row.pending_of_rollback hv
    exact h.pending_release hv' hj
  · show Fits variant key _ i (Function.update s.phase i .failed i)
    rw [Function.update_self]
    trivial

/-! ### Results -/

omit [DecidableEq ι] [DecidableEq K] in
/-- **The row that a lost write reads** is not older than its submission. -/
theorem Inv.winner (h : Inv variant key s) {submitted : τ} {r : Item ι τ}
    (hverdict : Verdict variant key s i submitted false)
    (hr : (s.applied (key i)).getLast? = some r) (hv : variant = .v1) :
    submitted ≤ r.appliedDbTs := by
  subst hv
  obtain ⟨q, hq, hsubmitted⟩ := hverdict.judged rfl
  have hsorted : (s.applied (key i)).Pairwise fun x y => x.updatedAt < y.updatedAt :=
    ((h.applied (key i)).mono fun _ _ _ ha => ha.follows.1).sorted
  have hmem : q ∈ s.applied (key i) := hverdict.found.subset (List.mem_of_getLast? hq)
  obtain ⟨pre, -, hlast⟩ := (h.applied (key i)).mem (List.mem_of_getLast? hr)
  calc submitted ≤ q.updatedAt := hsubmitted
    _ ≤ r.updatedAt := le_getLast hsorted hmem hr
    _ ≤ r.appliedDbTs := hlast.follows.2

omit [DecidableEq K] in
/-- **What `_apply` returns.** -/
theorem Inv.report (h : Inv variant key s) {submitted executedAt : τ} {won : Bool}
    (hphase : s.phase i = .committed submitted executedAt won) :
    Inv variant key (s.report variant i (key i) submitted executedAt won) := by
  have hfits := h.calls i
  rw [hphase] at hfits
  obtain ⟨hverdict, happlied⟩ := hfits
  -- a call that has committed holds no row any more
  have hholds : ∀ p : Phase ι τ, (s.phase i).holds = true → p.holds = true := by
    intro p hp
    rw [hphase] at hp
    cases hp
  unfold State.report
  split
  · next hwon =>
    subst hwon
    refine h.enter (fun _ => rfl) (hholds _) ⟨rfl, Or.inl rfl, ?_, fun _ => happlied rfl, ?_⟩
    · exact ⟨hverdict.seen, hverdict.found, hverdict.judged⟩
    · exact fun hout => absurd rfl hout
  -- a call that has lost asks for the row that it lost to
  · next hlost =>
    rw [Bool.not_eq_true] at hlost
    subst hlost
    split
    · next hnone => exact h.enter (fun _ => rfl) (hholds _) trivial
    · next r hr =>
      rw [h.committed] at hr
      have hne : variant.rejectOutcome ≠ .applied := by
        cases variant with
        | v1 => decide
        | v2 => decide
      refine h.enter (fun _ => rfl) (hholds _)
        ⟨rfl, Or.inr rfl, ?_, fun hout => absurd hout hne, ?_⟩
      · rw [decide_eq_false hne]
        exact ⟨hverdict.seen, hverdict.found, hverdict.judged⟩
      · exact fun _ => ⟨r.appliedDbTs, rfl, h.winner hverdict hr⟩

omit [DecidableEq K] in
/-- A call takes its snapshot. -/
theorem Inv.snapshot (h : Inv variant key s) {submitted now : τ}
    (hphase : s.phase i = .begun submitted now) :
    Inv variant key ({ s with seen := Function.update s.seen i (s.applied (key i)) }.enter i
      (.snapshot submitted now ((s.items (key i)).committed.map Item.version))) := by
  have hfits := h.calls i
  rw [hphase] at hfits
  have hseen : Function.update s.seen i (s.applied (key i)) i = s.applied (key i) :=
    Function.update_self ..
  -- only what the call itself has seen changes
  refine h.of_frame (i := i) ?_ h.committed (fun _ => Or.inl rfl) ?_ ?_ fun e he => Or.inl he
  · refine ⟨le_rfl, fun j hj => Function.update_of_ne hj _ _, ?_, fun _ _ => rfl, ?_,
      fun _ => List.prefix_rfl, fun _ _ _ _ _ => ⟨rfl, rfl⟩⟩
    · rintro j (hj | hended)
      · exact Function.update_of_ne hj _ _
      · rw [hphase] at hended
        cases hended
    · intro hended
      rw [hphase] at hended
      cases hended
  · intro k j v hv
    refine h.pending_update (fun hholds => ?_) hv
    rw [hphase] at hholds
    cases hholds
  · show Fits variant key _ i (Function.update s.phase i _ i)
    rw [Function.update_self]
    refine ⟨hfits.1, hfits.2, ?_, ?_⟩
    · show Function.update s.seen i (s.applied (key i)) i <+: s.applied (key i)
      rw [hseen]
    · show _ = (Function.update s.seen i (s.applied (key i)) i).getLast?.map Item.version
      rw [hseen, h.committed]

omit [DecidableEq K] in
/-- What has been returned is logged. -/
theorem Inv.logged (h : Inv variant key s) {e : LogEntry ι τ} (hphase : s.phase i = .reported e) :
    Inv variant key ({ s with log := s.log ++ [e] }.enter i .logged) := by
  have hfits := h.calls i
  rw [hphase] at hfits
  obtain ⟨rfl, hentry⟩ := hfits
  -- only the writer of the entry moves on, and it had ended before
  have hframe : Frame s ({ s with log := s.log ++ [e] }.enter e.writer .logged) e.writer := by
    refine ⟨le_rfl, fun j hj => Function.update_of_ne hj _ _, fun _ _ => rfl, fun _ _ => rfl,
      fun _ => ?_, fun _ => List.prefix_rfl, fun _ _ _ _ _ => ⟨rfl, rfl⟩⟩
    show (Function.update s.phase e.writer .logged e.writer).ended = true
    rw [Function.update_self]
    rfl
  refine h.of_frame hframe h.committed (fun _ => Or.inl rfl) ?_ ?_ ?_
  · intro k j v hv
    refine h.pending_update (fun hholds => ?_) hv
    rw [hphase] at hholds
    cases hholds
  · show Fits variant key _ e.writer (Function.update s.phase e.writer .logged e.writer)
    rw [Function.update_self]
    trivial
  · intro e' he'
    rcases List.mem_append.mp he' with he' | he'
    · exact Or.inl he'
    · obtain rfl := List.mem_singleton.mp he'
      refine Or.inr ⟨?_, hframe.entry rfl rfl hentry⟩
      show (Function.update s.phase e'.writer .logged e'.writer).ended = true
      rw [Function.update_self]
      rfl

omit [DecidableEq ι] [DecidableEq K] in
/-- Time passes. -/
theorem Fits.tick {now : τ} (hnow : s.clock ≤ now) {p : Phase ι τ} (hp : Fits variant key s i p) :
    Fits variant key { s with clock := now } i p := by
  cases p with
  -- the clock only bounds times from above, in each phase
  | idle => trivial
  | submitted submitted => exact hp.trans hnow
  | begun submitted start => exact ⟨hp.1, hp.2.trans hnow⟩
  | snapshot submitted start cur =>
    exact ⟨hp.1, hp.2.1.trans hnow, hp.2.2.seen, hp.2.2.cur⟩
  | inserting submitted start cur valuesAt =>
    exact ⟨hp.1, hp.2.1, hp.2.2.1.trans hnow, hp.2.2.2.seen, hp.2.2.2.cur⟩
  | decided submitted won =>
    exact ⟨⟨hp.1.found, hp.1.written, hp.1.locked⟩, hp.2.seen, hp.2.found, hp.2.judged⟩
  | executed submitted executedAt won =>
    exact ⟨⟨hp.1.found, hp.1.written, hp.1.locked⟩, hp.2.seen, hp.2.found, hp.2.judged⟩
  | committed submitted executedAt won => exact ⟨⟨hp.1.seen, hp.1.found, hp.1.judged⟩, hp.2⟩
  | reported e =>
    obtain ⟨hwriter, he⟩ := hp
    exact ⟨hwriter, he.outcome, ⟨he.verdict.seen, he.verdict.found, he.verdict.judged⟩,
      he.applied, he.winner⟩
  | logged => trivial
  | failed => trivial

/-! ### All statements -/

omit [DecidableEq ι] [DecidableEq K] in
theorem Inv.init (clock : τ) : Inv variant key (.init clock) where
  committed _ := rfl
  applied _ := .nil
  pending _ _ _ hv := by cases hv
  calls _ := trivial
  log e he := by cases he

/-- **Every statement keeps the invariant**, in both variants. -/
theorem Inv.step (s : State ι K τ) (a : Action ι τ) (s' : State ι K τ) (h : Inv variant key s)
    (hs : step variant key s a = some s') : Inv variant key s' := by
  cases a with
  | tick now =>
    simp only [ClocksLie.step] at hs
    split at hs
    · next hnow =>
      obtain rfl := Option.some_inj.mp hs
      refine ⟨h.committed, fun k => ?_, h.pending, fun j => (h.calls j).tick hnow, fun e he => ?_⟩
      -- nothing that was applied speaks of the clock
      · exact (h.applied k).mono fun _ _ _ ha => ⟨ha.key, ha.follows, ha.found, ha.seen, ha.ended⟩
      · obtain ⟨hended, hentry⟩ := h.log e he
        have hfits : Fits variant key s e.writer (.reported e) := ⟨rfl, hentry⟩
        exact ⟨hended, (hfits.tick hnow).2⟩
    · cases hs
  | submit i =>
    simp only [ClocksLie.step] at hs
    split at hs
    · next hphase =>
      obtain rfl := Option.some_inj.mp hs
      exact h.enter (by simp [hphase, Phase.ended]) (by simp [hphase, Phase.holds])
        (le_refl s.clock)
    · cases hs
  | begin i =>
    simp only [ClocksLie.step] at hs
    split at hs
    · next submitted hphase =>
      obtain rfl := Option.some_inj.mp hs
      have hfits := h.calls i
      rw [hphase] at hfits
      exact h.enter (by simp [hphase, Phase.ended]) (by simp [hphase, Phase.holds])
        ⟨hfits, le_refl s.clock⟩
    · cases hs
  | snapshot i =>
    simp only [ClocksLie.step] at hs
    split at hs
    · next hphase =>
      obtain rfl := Option.some_inj.mp hs
      exact h.snapshot hphase
    · cases hs
  | values i =>
    simp only [ClocksLie.step] at hs
    split at hs
    · next submitted now cur hphase =>
      obtain rfl := Option.some_inj.mp hs
      have hfits := h.calls i
      rw [hphase] at hfits
      exact h.enter (by simp [hphase, Phase.ended]) (by simp [hphase, Phase.holds])
        ⟨hfits.1, hfits.2.1, le_refl s.clock, hfits.2.2.seen, hfits.2.2.cur⟩
    · cases hs
  | turn i =>
    simp only [ClocksLie.step] at hs
    split at hs
    · next hphase =>
      split at hs
      · next hfree =>
        obtain rfl := Option.some_inj.mp hs
        exact h.turn hphase hfree
      · cases hs
    · cases hs
  | execute i =>
    simp only [ClocksLie.step] at hs
    split at hs
    · next submitted won hphase =>
      obtain rfl := Option.some_inj.mp hs
      have hfits := h.calls i
      rw [hphase] at hfits
      obtain ⟨hholds, hverdict⟩ := hfits
      exact h.enter (by simp [hphase, Phase.ended]) (fun _ => rfl)
        ⟨⟨hholds.found, hholds.written, hholds.locked⟩,
          hverdict.seen, hverdict.found, hverdict.judged⟩
    · cases hs
  | commit i =>
    simp only [ClocksLie.step] at hs
    split at hs
    · next hphase =>
      obtain rfl := Option.some_inj.mp hs
      exact h.commit hphase
    · cases hs
  | report i =>
    simp only [ClocksLie.step] at hs
    split at hs
    · next hphase =>
      obtain rfl := Option.some_inj.mp hs
      exact h.report hphase
    · cases hs
  | log i =>
    simp only [ClocksLie.step] at hs
    split at hs
    · next hphase =>
      obtain rfl := Option.some_inj.mp hs
      exact h.logged hphase
    · cases hs
  | abort i =>
    obtain rfl := Option.some_inj.mp hs
    exact h.abort

theorem Inv.of_reach {clock : τ} (h : Reach (ClocksLie.step variant key) (.init clock) s) :
    Inv variant key s := h.invariant (.init clock) Inv.step

end ClocksLie
end SepLab
