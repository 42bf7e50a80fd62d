import SepLab.Fencing.Safety

/-!
# When a relay steps down

A worker of `relay7.py` that holds an epoch calls `acquire_or_renew` with it, and steps down if
the call returns `None`.  A renewal that finds no row goes on to the takeover, which may hand
the worker a new epoch where it believes that it has renewed its own.

## Main definitions

* `Call`, `returned` — a call with a held epoch, and what it returns.
* `Leads c s w e` — the lease is held by `w` with epoch `e`.
* `StepsDown c s a` — a call that returns here returns the epoch it was given or `None`, and
  `None` where the lease is lost.
* `Contended c s a` — a takeover after a failed renewal finds a lease that has not expired.

## Main results

* `returned_cases` — the two ways in which a call returns.
* `Owned.stepsDown_iff_contended` — what one statement needs for it.
* `stepsDown_iff` — **when every loss of the lease makes its worker step down**.
* `not_stepsDown` — a worker whose call with epoch `1` returns epoch `3`.
-/

namespace SepLab
namespace Fencing

variable {W N H R K : Type} [DecidableEq W] [DecidableEq N] [DecidableEq H] [DecidableEq R]
  [DecidableEq K]

/-! ### The calls -/

/-- A call of `acquire_or_renew` with the epoch that the worker holds, and its result. -/
structure Call (W : Type) where
  worker : W
  held : ℤ
  result : Option ℤ
deriving DecidableEq

omit [DecidableEq W] [DecidableEq R] [DecidableEq K] in
/-- The call that returns with this statement, if the worker holds an epoch. -/
def returned (c : Config W N H) (s : State W N H R K) : Action W R K → Option (Call W)
  | .renew w now =>
    match s.pc w, s.epoch w with
    | .ready, some e =>
      if (s.db.renew false (c.lease w) (c.name w) e c.ttl now).1 = 1 then some ⟨w, e, some e⟩
      else none
    | _, _ => none
  | .acquire w now =>
    match s.pc w, s.epoch w with
    | .takingOver, some e => some ⟨w, e, (s.db.acquire (c.lease w) (c.name w) c.ttl now).1⟩
    | _, _ => none
  | _ => none

omit [DecidableEq W] [DecidableEq N] [DecidableEq H] [DecidableEq R] [DecidableEq K] in
/-- The row of the lease names `w`, with epoch `e`. -/
def Leads (c : Config W N H) (s : State W N H R K) (w : W) (e : ℤ) : Prop :=
  ∃ row, s.db.leases (c.lease w) = some row ∧ row.holder = some (c.name w) ∧ row.epoch = e

omit [DecidableEq W] [DecidableEq R] [DecidableEq K] in
/-- A call with a held epoch that returns with this statement returns this epoch or `None`, and
`None` if the lease is lost. -/
def StepsDown (c : Config W N H) (s : State W N H R K) (a : Action W R K) : Prop :=
  ∀ call, returned c s a = some call →
    (call.result = some call.held ∨ call.result = none) ∧
      (¬ Leads c s call.worker call.held → call.result = none)

omit [DecidableEq W] [DecidableEq N] [DecidableEq H] [DecidableEq R] [DecidableEq K] in
/-- A takeover by a worker whose renewal has found no row comes upon a lease that has not
expired. -/
def Contended (c : Config W N H) (s : State W N H R K) : Action W R K → Prop
  | .acquire w now =>
    match s.pc w, s.epoch w with
    | .takingOver, some _ => ∃ row, s.db.leases (c.lease w) = some row ∧ now ≤ row.expiresAt
    | _, _ => True
  | _ => True

/-! ### The two statements of a call -/

section
variable {db : Db N H R K} {lease : N} {holder : H} {ttl now : ℤ}

omit [DecidableEq R] [DecidableEq K] [DecidableEq H] in
theorem acquire_eq_none_iff :
    (db.acquire lease holder ttl now).1 = none ↔
      ∃ row, db.leases lease = some row ∧ now ≤ row.expiresAt := by
  unfold Db.acquire
  cases hrow : db.leases lease with
  | none => simp
  | some row =>
    by_cases hexp : row.expiresAt < now
    · simp only [hexp, if_true, Option.some_inj]
      constructor
      · intro h
        cases h
      · rintro ⟨row', rfl, hle⟩
        omega
    · simp only [hexp, if_false, true_iff, Option.some_inj]
      exact ⟨row, rfl, by omega⟩

omit [DecidableEq R] [DecidableEq K] [DecidableEq H] in
/-- The takeover issues an epoch past that of the row. -/
theorem lt_of_acquire {row : Lease H} (hrow : db.leases lease = some row) {e : ℤ}
    (h : (db.acquire lease holder ttl now).1 = some e) : row.epoch < e := by
  simp only [Db.acquire, hrow] at h
  split at h
  · obtain rfl := Option.some_inj.mp h
    omega
  · cases h

omit [DecidableEq R] [DecidableEq K] in
/-- The renewal finds the row of the epoch that it was given. -/
theorem row_of_renew {e : ℤ} {live : Bool}
    (h : (db.renew live lease holder e ttl now).1 = 1) :
    ∃ row, db.leases lease = some row ∧ row.holder = some holder ∧ row.epoch = e := by
  unfold Db.renew at h
  split at h
  · cases h
  · next row hrow =>
    split at h
    · next hmatch => exact ⟨row, hrow, hmatch.1, hmatch.2.1⟩
    · cases h

end

section
variable {c : Config W N H} {s s' : State W N H R K} {a : Action W R K} {call : Call W}

omit [DecidableEq W] [DecidableEq R] [DecidableEq K] in
/-- **The two ways in which a call returns.** -/
theorem returned_cases (h : returned c s a = some call) :
    (∃ w e now, a = .renew w now ∧ s.pc w = .ready ∧ s.epoch w = some e ∧
      (s.db.renew false (c.lease w) (c.name w) e c.ttl now).1 = 1 ∧ call = ⟨w, e, some e⟩) ∨
    ∃ w e now, a = .acquire w now ∧ s.pc w = .takingOver ∧ s.epoch w = some e ∧
      call = ⟨w, e, (s.db.acquire (c.lease w) (c.name w) c.ttl now).1⟩ := by
  cases a with
  | renew w now =>
    simp only [returned] at h
    split at h
    · next e hpc he =>
      split at h
      · next hrows => exact .inl ⟨w, e, now, rfl, hpc, he, hrows, (Option.some_inj.mp h).symm⟩
      · cases h
    · cases h
  | acquire w now =>
    simp only [returned] at h
    split at h
    · next e hpc he => exact .inr ⟨w, e, now, rfl, hpc, he, (Option.some_inj.mp h).symm⟩
    · cases h
  | sendPayout w runId key now => cases h
  | record w now => cases h
  | fail w => cases h

omit [DecidableEq W] [DecidableEq H] [DecidableEq R] [DecidableEq K] in
/-- Where epochs have their owners, a takeover does not hand out the one it was called with. -/
theorem Owned.acquire_ne (hs : Owned c s) {w : W} {e now : ℤ} (he : s.epoch w = some e) :
    (s.db.acquire (c.lease w) (c.name w) c.ttl now).1 ≠ some e := by
  intro h
  obtain ⟨row, hrow, hle⟩ := (hs w e he).issued
  have hlt := lt_of_acquire hrow h
  omega

omit [DecidableEq W] [DecidableEq R] [DecidableEq K] in
/-- **What one statement needs**: the call steps down just if the lease is contended. -/
theorem Owned.stepsDown_iff_contended (hs : Owned c s) : StepsDown c s a ↔ Contended c s a := by
  constructor
  · intro h
    cases a with
    | acquire w now =>
      -- a takeover returns `none` exactly if the lease is held by another, or has not run out
      simp only [Contended]
      split
      · next e hpc he =>
        have hcall : returned c s (.acquire w now) =
            some ⟨w, e, (s.db.acquire (c.lease w) (c.name w) c.ttl now).1⟩ := by
          simp only [returned, hpc, he]
        obtain ⟨hsame, -⟩ := h _ hcall
        exact acquire_eq_none_iff.mp (hsame.resolve_left (hs.acquire_ne he))
      · trivial
    | renew w now => trivial
    | sendPayout w runId key now => trivial
    | record w now => trivial
    | fail w => trivial
  · intro h call hcall
    obtain ⟨w, e, now, rfl, -, -, hrows, rfl⟩ | ⟨w, e, now, rfl, hpc, he, rfl⟩ :=
      returned_cases hcall
    -- a renewal that has changed a row is no loss
    · exact ⟨Or.inl rfl, fun hlost => absurd (row_of_renew hrows) hlost⟩
    -- a takeover that is contended returns nothing
    · simp only [Contended, hpc, he] at h
      have hnone : (s.db.acquire (c.lease w) (c.name w) c.ttl now).1 = none :=
        acquire_eq_none_iff.mpr h
      exact ⟨Or.inr hnone, fun _ => hnone⟩

end

/-! ### Runs -/

/-- **When every loss of the lease makes its worker step down.**  In a run of any number of
workers, each call with a held epoch returns this epoch or `None` exactly when no takeover after
a failed renewal comes upon an expired lease. -/
theorem stepsDown_iff (c : Config W N H) (db : Db N H R K) (as : List (Action W R K)) :
    AllSteps (StepsDown c) (Program.relay7.step c) (.init db) as ↔
      AllSteps (Contended c) (Program.relay7.step c) (.init db) as :=
  allSteps_congr (fun _ _ hreach => (Owned.of_reach hreach).stepsDown_iff_contended) as

/-- Worker `1` takes the lease over from worker `0` and lets it expire; the call of worker `0`
with its epoch `1` then returns epoch `3`. -/
theorem not_stepsDown : ¬ ∀ (c : Config ℕ ℕ ℕ) (db : Db ℕ ℕ ℕ ℕ) (as : List (Action ℕ ℕ ℕ)),
    AllSteps (StepsDown c) (Program.relay7.step c) (.init db) as := by
  intro h
  have hsteps := allSteps_iff.mp (h twoWorkers pendingPayouts
    [.acquire 0 0, .acquire 1 20, .renew 0 40, .acquire 0 41])
  have hrun : ((exec (Program.relay7.step twoWorkers) (.init pendingPayouts)
      [.acquire 0 0, .acquire 1 20, .renew 0 40]).map fun s =>
        returned twoWorkers s (.acquire 0 41)) = some (some ⟨0, 1, some 3⟩) := by decide
  obtain ⟨s, hs, hcall⟩ := Option.map_eq_some_iff.mp hrun
  have hsame := (hsteps [.acquire 0 0, .acquire 1 20, .renew 0 40] (.acquire 0 41) s
    List.prefix_rfl hs ⟨0, 1, some 3⟩ hcall).1
  exact absurd hsame (by decide)

end Fencing
end SepLab
