import SepLab.Lib.Isolation
import SepLab.Lib.Listed

/-!
# Write skew

`go_off_call` of `write_skew.py`: a doctor goes off call if more than one is on call in the shift.
Each call reads the rows of the shift and writes only its own, so that two calls of one shift
do not conflict over a row.

## Main definitions

* `Call`, `goOffCall` — the arguments, and the transaction.
* `onCall` — how many doctors of a shift are on call.
* `Overlap` — the second of two commits had not seen the first.

## Main results

* `for_update_covers` — **with `FOR UPDATE` no shift is ever left without a doctor.**
* `write_skew_iff` — **two doctors leave their shift exactly when their commits overlap.**
-/

namespace SepLab
namespace IsolationLevels

open Isolation

/-- The key of a row of `oncall`: the shift and the doctor. -/
abbrev Key := ℕ × ℕ

/-- The doctors of each shift in the order of their ids, as the rows of `oncall` have them. -/
structure Roster where
  doctors : ℕ → List ℕ
  /-- `PRIMARY KEY (shift_id, doctor_id)` -/
  sorted : ∀ shift, (doctors shift).Pairwise (· < ·)

/-- The arguments of `go_off_call`. -/
structure Call (r : Roster) where
  shift : ℕ
  doctor : ℕ
  mem : doctor ∈ r.doctors shift

variable {r : Roster} {ι : Type}

/-- The keys of the rows of a shift, `ORDER BY doctor_id`. -/
def rowsOf (r : Roster) (shift : ℕ) : List Key := (r.doctors shift).map fun d => (shift, d)

/-- The transaction of `go_off_call`. -/
def goOffCall (c : Call r) : Request Key Bool where
  reads := rowsOf r c.shift
  write flags := if 1 < flags.count true then some ((c.shift, c.doctor), false) else none

/-- `SELECT count(*) FROM oncall WHERE shift_id = shift AND on_call` -/
def onCall (r : Roster) (flags : Key → Bool) (shift : ℕ) : ℕ :=
  (r.doctors shift).countP fun d => flags (shift, d)

variable {flags : Key → Bool} {shift : ℕ} {c : Call r} {k : Key} {v : Bool}

theorem count_reads (flags : Key → Bool) (shift : ℕ) :
    ((rowsOf r shift).map flags).count true = onCall r flags shift := by
  rw [rowsOf, List.map_map, List.count_eq_countP, List.countP_map]
  exact congrArg (List.countP · _) (funext fun d => by simp)

/-- What is written: the own row, if there are others. -/
theorem write_goOffCall :
    (goOffCall c).write ((goOffCall c).reads.map flags) = some (k, v) ↔
      1 < onCall r flags c.shift ∧ k = (c.shift, c.doctor) ∧ v = false := by
  show (if 1 < ((rowsOf r c.shift).map flags).count true then _ else _) = _ ↔ _
  rw [count_reads, Option.ite_none_right_eq_some, Option.some_inj, Prod.mk.injEq, eq_comm (b := k),
    eq_comm (b := v)]

/-- The own row is one of those that are read. -/
theorem mem_reads (c : Call r) : (c.shift, c.doctor) ∈ (goOffCall c).reads :=
  List.mem_map_of_mem c.mem

theorem Roster.nodup (r : Roster) (shift : ℕ) : (r.doctors shift).Nodup :=
  (r.sorted shift).imp Nat.ne_of_lt

/-- A doctor who goes off call leaves the others. -/
theorem onCall_update (c : Call r) (flags : Key → Bool) (shift : ℕ) :
    onCall r flags shift ≤ onCall r (Function.update flags (c.shift, c.doctor) false) shift +
      if shift = c.shift then 1 else 0 := by
  by_cases hshift : shift = c.shift
  -- the one doctor who goes off call is counted once at most
  · subst hshift
    have hupdate : (fun d => Function.update flags (c.shift, c.doctor) false (c.shift, d)) =
        Function.update (fun d => flags (c.shift, d)) c.doctor false := by
      funext d
      by_cases hd : d = c.doctor
      · rw [hd, Function.update_self, Function.update_self]
      · rw [Function.update_of_ne hd, Function.update_of_ne (by simpa using hd)]
    have hcount : (r.doctors c.shift).countP
          (Function.update (fun d => flags (c.shift, d)) c.doctor false) +
        (flags (c.shift, c.doctor)).toNat = onCall r flags c.shift :=
      countP_update (f := fun d => flags (c.shift, d)) (r.nodup c.shift) c.mem id false
    have hone := Bool.toNat_le (flags (c.shift, c.doctor))
    rw [if_pos rfl, ← hcount, onCall, hupdate]
    omega
  -- another shift is not changed
  · rw [if_neg hshift, Nat.add_zero]
    refine Nat.le_of_eq (List.countP_congr fun d _ => ?_)
    rw [Function.update_of_ne (by simpa using fun h => absurd h hshift)]

/-! ### With `FOR UPDATE` -/

variable {req : ι → Call r} {start : Key → Bool}

/-- What one commit after the other keeps, each of a doctor who is not the last. -/
theorem after_covers {log : List (Entry ι Key Bool)} (hlog : ∀ l e, log[l]? = some e →
      ∃ c : Call r, 1 < onCall r (after start (log.take l)) c.shift ∧
        e.row = (c.shift, c.doctor) ∧ e.value = false)
    {shift : ℕ} (hstart : 0 < onCall r start shift) (l : ℕ) :
    0 < onCall r (after start (log.take l)) shift := by
  induction l with
  | zero => exact hstart
  | succ l ih =>
    rw [List.take_add_one]
    cases he : log[l]? with
    | none =>
      rw [Option.toList_none, List.append_nil]
      exact ih
    | some e =>
      obtain ⟨c, hmore, hrow, hvalue⟩ := hlog l e he
      -- the call saw more than one on call in its shift, so one is left
      have hleft := onCall_update c (after start (log.take l)) shift
      rw [Option.toList_some, after_concat, hrow, hvalue]
      split at hleft
      · next hshift =>
        subst hshift
        omega
      · omega

variable [DecidableEq ι] {maxRetries : ℕ} {s : Db ι Key Bool}

/-- **With `FOR UPDATE` no shift is left without a doctor.**  In every interleaving of any number of
calls, with any of them failing, each doctor who has gone off call was not the last one on
call just before that commit, and a shift that had a doctor on call still has one. -/
theorem for_update_covers (req : ι → Call r) (start : Key → Bool)
    (h : Reach (Db.step .forUpdate maxRetries fun i => goOffCall (req i)) (Db.init start) s) :
    (∀ l e, s.log[l]? = some e →
      1 < onCall r (after start (s.log.take l)) (req e.request).shift) ∧
    ∀ shift, 0 < onCall r start shift → 0 < onCall r s.rows shift := by
  have hinv := Inv.of_reach h
  have hlog : ∀ l e, s.log[l]? = some e →
      1 < onCall r (after start (s.log.take l)) (req e.request).shift ∧
        e.row = ((req e.request).shift, (req e.request).doctor) ∧ e.value = false :=
    fun l e he => write_goOffCall.mp (hinv.serial he fun k hk => hk)
  refine ⟨fun l e he => (hlog l e he).1, fun shift hstart => ?_⟩
  have hcovers := after_covers (fun l e he => ⟨req e.request, hlog l e he⟩) hstart s.log.length
  rwa [List.take_length, ← hinv.rows] at hcovers

/-- The doctors `1` and `2` of each shift. -/
def pairs : Roster := ⟨fun _ => [1, 2], fun _ => by decide⟩

/-- Both doctors of shift `7` want to go off call. -/
def bothLeave (second : Bool) : Call pairs :=
  if second then ⟨7, 2, by decide⟩ else ⟨7, 1, by decide⟩

/-- The second doctor waits for the first one, and declines. -/
theorem for_update_covers_pair : ∃ s : Db Bool Key Bool,
    s.phase true = .declined ∧ s.rows (7, 1) = false ∧ 0 < onCall pairs s.rows 7 := by
  have hrun : (exec (Db.step .forUpdate 5 fun i => goOffCall (bothLeave i))
      (Db.init fun _ => true) [.next false, .next true, .next false, .next false, .next false,
        .next false, .next false, .next true, .next true, .next true, .next true]).map
          (fun s => (s.phase true, s.rows (7, 1))) = some (.declined, false) := by decide
  obtain ⟨s, hs, hobs⟩ := Option.map_eq_some_iff.mp hrun
  obtain ⟨hphase, hrow⟩ := Prod.mk.inj hobs
  exact ⟨s, hphase, hrow, (for_update_covers bothLeave _ (.of_exec _ hs)).2 7 (by decide)⟩

/-! ### Two doctors -/

omit [DecidableEq ι] in
/-- Who has gone off call stays off call. -/
theorem after_eq_false {log : List (Entry ι Key Bool)} (hlog : ∀ e ∈ log, e.value = false)
    {k : Key} : after start log k = false ↔ start k = false ∨ ∃ e ∈ log, e.row = k := by
  induction log using List.reverseRecOn with
  | nil => simp [after]
  | append_singleton log e ih =>
    have hvalue : e.value = false := hlog e (by simp)
    specialize ih fun e' he' => hlog e' (by simp [he'])
    rw [after_concat, hvalue]
    by_cases hk : k = e.row
    · rw [hk, Function.update_self]
      exact iff_of_true rfl (Or.inr ⟨e, by simp, rfl⟩)
    · rw [Function.update_of_ne hk, ih]
      simp [Ne.symm hk]

/-- Two commits of different doctors of the shift, of which the second had not seen the first. -/
def Overlap (log : List (Entry ι Key Bool)) (shift : ℕ) : Prop :=
  ∃ (l m : ℕ) (e e' : Entry ι Key Bool), l < m ∧ log[l]? = some e ∧ log[m]? = some e' ∧
    e.row.1 = shift ∧ e'.row.1 = shift ∧ e.row ≠ e'.row ∧ e'.snapshot ≤ l

section pair

variable {mode : Mode} {a b l m : ℕ} {e e' : Entry ι Key Bool}

theorem onCall_pair_eq_zero (hdoctors : r.doctors shift = [a, b]) :
    onCall r flags shift = 0 ↔ flags (shift, a) = false ∧ flags (shift, b) = false := by
  rw [onCall, hdoctors, List.countP_eq_zero]
  simp

theorem onCall_pair_of_one_lt (hdoctors : r.doctors shift = [a, b])
    (h : 1 < onCall r flags shift) : flags (shift, a) = true ∧ flags (shift, b) = true := by
  rw [onCall, hdoctors] at h
  cases ha : flags (shift, a) <;> cases hb : flags (shift, b) <;> simp [ha, hb] at h ⊢

omit [DecidableEq ι] in
/-- What was committed: that the doctor goes off call, who was not the last one in the snapshot. -/
theorem commit_spec (h : Inv mode (fun i => goOffCall (req i)) start s) (he : s.log[l]? = some e) :
    1 < onCall r (after start (s.log.take e.snapshot)) (req e.request).shift ∧
      e.row = ((req e.request).shift, (req e.request).doctor) ∧ e.value = false :=
  write_goOffCall.mp (h.entry l e he).1.2

omit [DecidableEq ι] in
theorem value_eq_false (h : Inv mode (fun i => goOffCall (req i)) start s) (he : e ∈ s.log) :
    e.value = false := by
  obtain ⟨l, hl⟩ := List.mem_iff_getElem?.mp he
  exact (commit_spec h hl).2.2

omit [DecidableEq ι] in
/-- The row that was written is one of the two of the shift. -/
theorem row_of_pair (h : Inv mode (fun i => goOffCall (req i)) start s)
    (hdoctors : r.doctors shift = [a, b]) (he : s.log[l]? = some e) (hrow : e.row.1 = shift) :
    (req e.request).shift = shift ∧ (e.row = (shift, a) ∨ e.row = (shift, b)) := by
  obtain ⟨-, hkey, -⟩ := commit_spec h he
  have hshift : (req e.request).shift = shift := by rw [← hrow, hkey]
  have hdoctor := (req e.request).mem
  rw [hshift, hdoctors, List.mem_pair] at hdoctor
  rw [hkey, hshift]
  exact ⟨rfl, hdoctor.imp (congrArg (shift, ·)) (congrArg (shift, ·))⟩

omit [DecidableEq ι] in
/-- A doctor of a pair who sees the other one off call does not commit. -/
theorem snapshot_le (h : Inv mode (fun i => goOffCall (req i)) start s)
    (hdoctors : r.doctors shift = [a, b]) (he : s.log[l]? = some e) (he' : s.log[m]? = some e')
    (hrow : e.row.1 = shift) (hrow' : e'.row.1 = shift) : e'.snapshot ≤ l := by
  -- had the earlier commit been seen, one of the two would have been off call already
  by_contra hlt
  obtain ⟨hone, -, -⟩ := commit_spec h he'
  rw [(row_of_pair h hdoctors he' hrow').1] at hone
  obtain ⟨hfa, hfb⟩ := onCall_pair_of_one_lt hdoctors hone
  have hmem : e ∈ s.log.take e'.snapshot := by
    refine List.mem_iff_getElem?.mpr ⟨l, ?_⟩
    rw [List.getElem?_take_of_lt (Nat.lt_of_not_le hlt)]
    exact he
  have hoff : after start (s.log.take e'.snapshot) e.row = false :=
    (after_eq_false fun e₁ he₁ => value_eq_false h (List.mem_of_mem_take he₁)).mpr
      (Or.inr ⟨e, hmem, rfl⟩)
  rcases (row_of_pair h hdoctors he hrow).2 with heq | heq <;> rw [heq] at hoff
  · rw [hfa] at hoff
    cases hoff
  · rw [hfb] at hoff
    cases hoff

end pair

/-- **Write skew.**  In every mode and every interleaving of any number of calls, a shift that has
two doctors and starts with both on call is left without one exactly when commits of both have
overlapped. -/
theorem write_skew_iff {mode : Mode} (req : ι → Call r) (start : Key → Bool)
    (h : Reach (Db.step mode maxRetries fun i => goOffCall (req i)) (Db.init start) s)
    {shift a b : ℕ} (hdoctors : r.doctors shift = [a, b])
    (ha : start (shift, a) = true) (hb : start (shift, b) = true) :
    onCall r s.rows shift = 0 ↔ Overlap s.log shift := by
  have hinv := Inv.of_reach h
  have hab : a ≠ b := by
    have hnodup := r.nodup shift
    rw [hdoctors] at hnodup
    simpa using hnodup
  -- a doctor is off call if some commit says so
  have hoff : ∀ {k}, start k = true → (s.rows k = false ↔ ∃ e ∈ s.log, e.row = k) := by
    intro k hk
    rw [hinv.rows, after_eq_false fun _ => value_eq_false hinv, hk]
    exact or_iff_right nofun
  rw [onCall_pair_eq_zero hdoctors, hoff ha, hoff hb]
  constructor
  · rintro ⟨⟨e, he, hrow⟩, e', he', hrow'⟩
    obtain ⟨l, hl⟩ := List.mem_iff_getElem?.mp he
    obtain ⟨m, hm⟩ := List.mem_iff_getElem?.mp he'
    have hshift : e.row.1 = shift := congrArg Prod.fst hrow
    have hshift' : e'.row.1 = shift := congrArg Prod.fst hrow'
    have hne : e.row ≠ e'.row := by
      rw [hrow, hrow']
      exact fun heq => hab (Prod.mk.inj heq).2
    -- the two commits are of different doctors, and one is the first of them
    rcases Nat.lt_trichotomy l m with hlm | rfl | hml
    · exact ⟨l, m, e, e', hlm, hl, hm, hshift, hshift', hne,
        snapshot_le hinv hdoctors hl hm hshift hshift'⟩
    · rw [hl, Option.some_inj] at hm
      exact absurd (congrArg Entry.row hm) hne
    · exact ⟨m, l, e', e, hml, hm, hl, hshift', hshift, hne.symm,
        snapshot_le hinv hdoctors hm hl hshift' hshift⟩
  · rintro ⟨l, m, e, e', -, hl, hm, hshift, hshift', hne, -⟩
    -- two rows of a shift with two doctors, not the same, are both of its rows
    rcases (row_of_pair hinv hdoctors hl hshift).2 with hea | heb <;>
      rcases (row_of_pair hinv hdoctors hm hshift').2 with hea' | heb'
    · exact absurd (hea.trans hea'.symm) hne
    · exact ⟨⟨e, List.mem_of_getElem? hl, hea⟩, e', List.mem_of_getElem? hm, heb'⟩
    · exact ⟨⟨e', List.mem_of_getElem? hm, hea'⟩, e, List.mem_of_getElem? hl, heb⟩
    · exact absurd (heb.trans heb'.symm) hne

/-- Under REPEATABLE READ both doctors read before either of them commits. -/
theorem write_skew_iff_pair : ∃ s : Db Bool Key Bool,
    s.phase false = .committed ∧ s.phase true = .committed ∧ Overlap s.log 7 := by
  have hrun : (exec (Db.step .repeatableRead 5 fun i => goOffCall (bothLeave i))
      (Db.init fun _ => true) [.next false, .next true, .next false, .next true, .next true,
        .next false]).map
          (fun s => (s.phase false, s.phase true, onCall pairs s.rows 7)) =
        some (.committed, .committed, 0) := by decide
  obtain ⟨s, hs, hobs⟩ := Option.map_eq_some_iff.mp hrun
  simp only [Prod.mk.injEq] at hobs
  obtain ⟨hfalse, htrue, hnone⟩ := hobs
  exact ⟨s, hfalse, htrue,
    (write_skew_iff bothLeave _ (.of_exec _ hs) (a := 1) (b := 2) rfl rfl rfl).mp hnone⟩

end IsolationLevels
end SepLab
