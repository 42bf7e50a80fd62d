import Mathlib.Data.List.GetD
import Mathlib.Tactic.Ring
import SepLab.Lib.Isolation

/-!
# Lost updates

The withdrawals of `lost_update.py`: the balance of one account is read, and unless it is too low
the amount is taken from it, in two statements or in one.

## Main definitions

* `withdrawal` — `rmw` and `atomic`, which differ in the mode only.
* `Variant`, `variants` — the five of them.
* `applied` — how many withdrawals the balance reflects.

## Main results

* `lost_update_iff` — **what is missing are the withdrawals that the balance does not reflect, and
  none is missing exactly when each was decided on the balance that it has overwritten.**
* `variants_lose_nothing` — **only the two statements under READ COMMITTED lose any.**
-/

namespace SepLab
namespace IsolationLevels

open Isolation

/-- `ACCOUNT` -/
def account : ℕ := 1

/-- A withdrawal of `amount`; the keys are those of `accounts`. -/
def withdrawal (amount : ℤ) : Request ℕ ℤ where
  reads := [account]
  write
    | [balance] => if balance < amount then none else some (account, balance - amount)
    | _ => none

/-- The body of a transaction. -/
inductive Body
  /-- `SELECT`, decide, and `UPDATE` with an absolute value. -/
  | rmw
  /-- One `UPDATE` with the guard and the arithmetic. -/
  | atomic
  deriving DecidableEq, Repr

/-- The isolation levels of the variants. -/
inductive Level
  | readCommitted
  | repeatableRead
  deriving DecidableEq, Repr

/-- An element of `VARIANTS`. -/
structure Variant where
  body : Body
  isolation : Level
  lockReads : Bool
  deriving DecidableEq, Repr

/-- `VARIANTS` -/
def variants : List Variant :=
  [⟨.rmw, .readCommitted, false⟩, ⟨.atomic, .readCommitted, false⟩, ⟨.rmw, .repeatableRead, false⟩,
    ⟨.atomic, .repeatableRead, false⟩, ⟨.rmw, .readCommitted, true⟩]

/-- How the variant protects its read.  At REPEATABLE READ the one `UPDATE` takes its snapshot as
the `SELECT` does, and fails as the other `UPDATE`. -/
def Variant.mode : Variant → Mode
  | ⟨_, .repeatableRead, _⟩ => .repeatableRead
  | ⟨.atomic, .readCommitted, _⟩ => .statement
  | ⟨.rmw, .readCommitted, true⟩ => .forUpdate
  | ⟨.rmw, .readCommitted, false⟩ => .readCommitted

/-- Only the first one leaves its read unprotected. -/
example : variants.filter (·.mode = .readCommitted) = [⟨.rmw, .readCommitted, false⟩] := rfl

variable {ι : Type} {amount : ℤ} {start : ℕ → ℤ} {balances : ℕ → ℤ} {k : ℕ} {v : ℤ}

theorem write_withdrawal :
    (withdrawal amount).write ((withdrawal amount).reads.map balances) = some (k, v) ↔
      amount ≤ balances account ∧ k = account ∧ v = balances account - amount := by
  show (if balances account < amount then none else some _) = _ ↔ _
  rw [Option.ite_none_left_eq_some, Option.some_inj, Prod.mk.injEq, eq_comm (b := k),
    eq_comm (b := v), not_lt]

/-! ### What the balance reflects -/

/-- For each version of the balance how many withdrawals it reflects: one more than the version
that was read. -/
def reflected (log : List (Entry ι ℕ ℤ)) : List ℕ :=
  log.foldl (fun ns e => ns ++ [ns.getD e.snapshot 0 + 1]) [0]

/-- How many withdrawals the balance reflects after these commits. -/
def applied (log : List (Entry ι ℕ ℤ)) : ℕ := (reflected log).getD log.length 0

theorem reflected_concat (log : List (Entry ι ℕ ℤ)) (e : Entry ι ℕ ℤ) :
    reflected (log ++ [e]) = reflected log ++ [(reflected log).getD e.snapshot 0 + 1] := by
  rw [reflected, List.foldl_append]
  rfl

theorem length_reflected (log : List (Entry ι ℕ ℤ)) :
    (reflected log).length = log.length + 1 := by
  induction log using List.reverseRecOn with
  | nil => rfl
  | append_singleton log e ih =>
    rw [reflected_concat, List.length_append, List.length_append, ih]
    rfl

/-- The versions before are what they were. -/
theorem reflected_take {log : List (Entry ι ℕ ℤ)} {n : ℕ} (hn : n ≤ log.length) :
    (reflected log).getD n 0 = applied (log.take n) := by
  induction log using List.reverseRecOn with
  | nil =>
    obtain rfl := Nat.le_zero.mp hn
    rfl
  | append_singleton log e ih =>
    rcases Nat.lt_or_ge log.length n with hlt | hle
    · -- the last version
      rw [List.length_append] at hn
      obtain rfl : n = (log ++ [e]).length := by
        rw [List.length_append]
        exact Nat.le_antisymm hn hlt
      rw [List.take_length, applied]
    · rw [reflected_concat, List.getD_append _ _ _ _ (by rw [length_reflected]; omega), ih hle,
        List.take_append_of_le_length hle]

theorem applied_concat {log : List (Entry ι ℕ ℤ)} {e : Entry ι ℕ ℤ}
    (he : e.snapshot ≤ log.length) :
    applied (log ++ [e]) = applied (log.take e.snapshot) + 1 := by
  rw [applied, reflected_concat, List.length_append, List.length_singleton, ← length_reflected,
    List.getD_append_right _ _ _ _ (Nat.le_refl _), Nat.sub_self, ← reflected_take he]
  rfl

theorem write_eq_none : (withdrawal amount).write ((withdrawal amount).reads.map balances) = none ↔
    balances account < amount := by
  show (if balances account < amount then none else some _) = none ↔ _
  split
  · next h => exact iff_of_true rfl h
  · next h => exact iff_of_false nofun h

/-- Commits that were decided on what they had seen. -/
def Decided (amount : ℤ) (start : ℕ → ℤ) (log : List (Entry ι ℕ ℤ)) : Prop :=
  ∀ l (e : Entry ι ℕ ℤ), log[l]? = some e → e.snapshot ≤ l ∧
    amount ≤ after start (log.take e.snapshot) account ∧ e.row = account ∧
      e.value = after start (log.take e.snapshot) account - amount

variable {log : List (Entry ι ℕ ℤ)} {e : Entry ι ℕ ℤ}

theorem Decided.of_concat (h : Decided amount start (log ++ [e])) : Decided amount start log := by
  intro l e' he'
  have hl := (List.getElem?_eq_some_iff.mp he').1
  obtain ⟨hle, hdecided⟩ := h l e' (by rw [List.getElem?_append_left hl]; exact he')
  rw [List.take_append_of_le_length (by omega)] at hdecided
  exact ⟨hle, hdecided⟩

theorem Decided.take (h : Decided amount start log) (n : ℕ) :
    Decided amount start (log.take n) := by
  intro l e he
  rw [List.getElem?_take] at he
  split at he
  · next hl =>
    obtain ⟨hle, hdecided⟩ := h l e he
    rw [List.take_take, Nat.min_eq_left (by omega)]
    exact ⟨hle, hdecided⟩
  · cases he

theorem Decided.last (h : Decided amount start (log ++ [e])) : e.snapshot ≤ log.length ∧
    amount ≤ after start (log.take e.snapshot) account ∧ e.row = account ∧
      e.value = after start (log.take e.snapshot) account - amount := by
  obtain ⟨hle, hdecided⟩ := h log.length e List.getElem?_concat_length
  rw [List.take_append_of_le_length hle] at hdecided
  exact ⟨hle, hdecided⟩

/-- What the last commit makes of the balance. -/
theorem Decided.balance_concat (h : Decided amount start (log ++ [e])) :
    after start (log ++ [e]) account = after start (log.take e.snapshot) account - amount := by
  obtain ⟨-, -, hrow, hvalue⟩ := h.last
  rw [after_concat, hrow, Function.update_self, hvalue]

/-- **The balance of every version**, and how many withdrawals it reflects at most. -/
theorem Decided.balance (h : Decided amount start log) {n : ℕ} (hn : n ≤ log.length) :
    after start (log.take n) account = start account - amount * applied (log.take n) ∧
      applied (log.take n) ≤ n := by
  induction log using List.reverseRecOn generalizing n with
  | nil =>
    rw [List.take_nil]
    exact ⟨by simp [after, applied, reflected], Nat.zero_le n⟩
  | append_singleton log e ih =>
    -- the last entry is within the prefix: it counts on from the version that it had read
    rcases Nat.lt_or_ge log.length n with hlt | hle
    · obtain rfl : n = (log ++ [e]).length := by
        rw [List.length_append] at hn ⊢
        exact Nat.le_antisymm hn hlt
      obtain ⟨hseen, -⟩ := h.last
      obtain ⟨hbalance, hle⟩ := ih h.of_concat hseen
      rw [List.take_length, h.balance_concat, applied_concat hseen, hbalance]
      refine ⟨by push_cast; ring, ?_⟩
      rw [List.length_append]
      exact Nat.succ_le_succ (hle.trans hseen)
    -- or it is beyond it
    · rw [List.take_append_of_le_length hle]
      exact ih h.of_concat hle

/-- **Nothing is lost as long as every commit has seen the one before.** -/
theorem Decided.applied_eq_iff (h : Decided amount start log) :
    applied log = log.length ↔ ∀ l (e : Entry ι ℕ ℤ), log[l]? = some e → e.snapshot = l := by
  induction log using List.reverseRecOn with
  | nil => exact iff_of_true rfl nofun
  | append_singleton log e ih =>
    obtain ⟨hseen, -⟩ := h.last
    have hle := (h.of_concat.balance hseen).2
    rw [applied_concat hseen, List.length_append, List.length_singleton, Nat.add_right_cancel_iff]
    constructor
    · intro heq l e' he'
      -- fewer withdrawals than commits before, if one of them has not been seen
      have hlast : e.snapshot = log.length := by omega
      rw [hlast, List.take_length] at heq
      rcases Nat.lt_or_ge l log.length with hl | hl
      · rw [List.getElem?_append_left hl] at he'
        exact (ih h.of_concat).mp heq l e' he'
      · have hlen := (List.getElem?_eq_some_iff.mp he').1
        rw [List.length_append, List.length_singleton] at hlen
        obtain rfl : l = log.length := by omega
        rw [List.getElem?_concat_length, Option.some_inj] at he'
        rw [← he', hlast]
    · intro hall
      have hlast : e.snapshot = log.length := hall log.length e List.getElem?_concat_length
      rw [hlast, List.take_length]
      refine (ih h.of_concat).mpr fun l e' he' => hall l e' ?_
      rw [List.getElem?_append_left (List.getElem?_eq_some_iff.mp he').1]
      exact he'

/-- No withdrawal takes more than the balance that it has read. -/
theorem Decided.nonneg (h : Decided amount start log) (hstart : 0 ≤ start account) :
    0 ≤ after start log account := by
  induction log using List.reverseRecOn with
  | nil => exact hstart
  | append_singleton log e ih =>
    obtain ⟨-, henough, -⟩ := h.last
    rw [h.balance_concat]
    exact sub_nonneg.mpr henough

/-! ### Every run -/

section run

variable [DecidableEq ι] {mode : Mode} {maxRetries : ℕ} {s : Db ι ℕ ℤ}

omit [DecidableEq ι] in
theorem decided_of_inv (h : Inv mode (fun _ => withdrawal amount) start s) :
    Decided amount start s.log :=
  fun l e he => ⟨(h.entry l e he).1.1, write_withdrawal.mp (h.entry l e he).1.2⟩

/-- How many of the withdrawals that have committed the balance does not reflect. -/
def lost (log : List (Entry ι ℕ ℤ)) : ℕ := log.length - applied log

/-- **What is lost.**  In every mode and every interleaving of any number of withdrawals, with any
of them failing, the balance is the one to expect from the withdrawals that have committed, and
in addition the amount of those that it does not reflect; these are none exactly when each commit
was decided on the balance that it has overwritten. -/
theorem lost_update_iff (amount : ℤ) (start : ℕ → ℤ)
    (h : Reach (Db.step mode maxRetries fun _ : ι => withdrawal amount) (Db.init start) s) :
    s.rows account = start account - s.log.length * amount + lost s.log * amount ∧
    (lost s.log = 0 ↔ ∀ l (e : Entry ι ℕ ℤ), s.log[l]? = some e → e.snapshot = l) ∧
    (0 ≤ start account → 0 ≤ s.rows account) := by
  have hinv := Inv.of_reach h
  have hdecided := decided_of_inv hinv
  obtain ⟨hbalance, hle⟩ := hdecided.balance (Nat.le_refl s.log.length)
  rw [List.take_length] at hbalance hle
  refine ⟨?_, ?_, fun hstart => ?_⟩
  · rw [hinv.rows, hbalance, lost, Nat.cast_sub hle]
    ring
  · rw [← hdecided.applied_eq_iff, lost, Nat.sub_eq_zero_iff_le]
    exact ⟨hle.antisymm, fun heq => heq.ge⟩
  · rw [hinv.rows]
    exact hdecided.nonneg hstart

/-- Two withdrawals of `30` read the balance of `100`, and a third one the `70` after them. -/
theorem lost_update_iff_two : ∃ s : Db ℕ ℕ ℤ,
    s.rows account = 40 ∧ lost s.log = 1 ∧
      ¬ ∀ l (e : Entry ℕ ℕ ℤ), s.log[l]? = some e → e.snapshot = l := by
  have hrun : (exec (Db.step .readCommitted 8 fun _ : ℕ => withdrawal 30)
      (Db.init fun _ => 100) [.next 0, .next 1, .next 0, .next 0, .next 1, .next 1, .next 2,
        .next 2, .next 2]).map (fun s => (s.rows account, lost s.log)) = some (40, 1) := by decide
  obtain ⟨s, hs, hobs⟩ := Option.map_eq_some_iff.mp hrun
  obtain ⟨hrow, hlost⟩ := Prod.mk.inj hobs
  refine ⟨s, hrow, hlost, fun hall => ?_⟩
  rw [(lost_update_iff 30 _ (.of_exec _ hs)).2.1.mpr hall] at hlost
  cases hlost

omit [DecidableEq ι] in
/-- A commit whose read was protected has seen the one before. -/
theorem snapshot_eq (hmode : mode ≠ .readCommitted)
    (h : Inv mode (fun _ => withdrawal amount) start s) {l : ℕ} {e : Entry ι ℕ ℤ}
    (he : s.log[l]? = some e) : e.snapshot = l := by
  obtain ⟨⟨hle, -⟩, hkept⟩ := h.entry l e he
  by_contra hne
  have hlt : e.snapshot < s.log.length :=
    (Nat.lt_of_le_of_ne hle hne).trans (List.getElem?_eq_some_iff.mp he).1
  refine hkept e.snapshot _ (Nat.le_refl _) (Nat.lt_of_le_of_ne hle hne)
    (List.getElem?_eq_getElem hlt) ?_
  obtain ⟨-, -, hrow, -⟩ := decided_of_inv h e.snapshot _ (List.getElem?_eq_getElem hlt)
  obtain ⟨-, -, hrow', -⟩ := decided_of_inv h l e he
  rw [hrow, hrow']
  cases mode with
  | readCommitted => exact absurd rfl hmode
  | _ => exact List.mem_singleton.mpr rfl

theorem Variant.mode_eq_readCommitted {variant : Variant} (h : variant.mode = .readCommitted) :
    variant = ⟨.rmw, .readCommitted, false⟩ := by
  obtain ⟨body, isolation, lockReads⟩ := variant
  cases isolation with
  | repeatableRead => cases h
  | readCommitted =>
    cases body with
    | atomic => cases h
    | rmw =>
      cases lockReads
      · rfl
      · cases h

theorem Variant.isolation_of_mode {variant : Variant} (h : variant.mode = .repeatableRead) :
    variant.isolation = .repeatableRead := by
  obtain ⟨body, isolation, lockReads⟩ := variant
  cases isolation with
  | repeatableRead => rfl
  | readCommitted => cases body <;> cases lockReads <;> cases h

/-- **Only two statements under READ COMMITTED lose a withdrawal.**  In every run of any other
variant the balance is what the committed withdrawals leave, and never negative; who declined had
seen a balance that was too low after some of the commits; and a withdrawal fails with `40001`
under REPEATABLE READ only. -/
theorem variants_lose_nothing (variant : Variant) (hv : variant ≠ ⟨.rmw, .readCommitted, false⟩)
    (amount : ℤ) (start : ℕ → ℤ)
    (h : Reach (Db.step variant.mode maxRetries fun _ : ι => withdrawal amount) (Db.init start) s) :
    s.rows account = start account - s.log.length * amount ∧
    (0 ≤ start account → 0 ≤ s.rows account) ∧
    (∀ i, s.phase i = .declined →
      ∃ n ≤ s.log.length, start account - n * amount < amount) ∧
    ∀ i, s.phase i = .failed ∨ s.phase i = .gaveUp → variant.isolation = .repeatableRead := by
  have hinv := Inv.of_reach h
  have hmode : variant.mode ≠ .readCommitted := fun heq => hv (Variant.mode_eq_readCommitted heq)
  have hdecided := decided_of_inv hinv
  -- but for READ COMMITTED without locks, each withdrawal was decided on what it overwrote
  have happlied : ∀ {n}, n ≤ s.log.length → after start (s.log.take n) account =
      start account - n * amount := by
    intro n hn
    have hall : applied (s.log.take n) = (s.log.take n).length :=
      (hdecided.take n).applied_eq_iff.mpr fun l e he => by
        rw [List.getElem?_take] at he
        split at he
        · exact snapshot_eq hmode hinv he
        · cases he
    rw [(hdecided.balance hn).1, hall, List.length_take_of_le hn, mul_comm]
  refine ⟨?_, fun hstart => hinv.rows ▸ hdecided.nonneg hstart, fun i hi => ?_, fun i hi => ?_⟩
  · rw [hinv.rows, ← happlied (Nat.le_refl _), List.take_length]
  -- a declined call has seen a balance that is too low
  · have hsound := hinv.sound i
    rw [hi] at hsound
    refine ⟨s.snapshot i, hinv.snapshot i, ?_⟩
    rw [← happlied (hinv.snapshot i)]
    exact write_eq_none.mp hsound
  -- only a repeatable read fails at a row that has changed
  · have hsound := hinv.sound i
    refine Variant.isolation_of_mode ?_
    rcases hi with hi | hi <;> rw [hi] at hsound <;> exact hsound

/-- Under REPEATABLE READ the second of two withdrawals fails once, and declines when it has read
what the first one has left. -/
theorem variants_lose_nothing_retry : ∃ s : Db ℕ ℕ ℤ,
    s.phase 1 = .declined ∧ s.attempt 1 = 1 ∧
      s.rows account = 100 - s.log.length * 70 ∧ 0 ≤ s.rows account := by
  have hrun : (exec (Db.step (Variant.mode ⟨.rmw, .repeatableRead, false⟩) 8
        fun _ : ℕ => withdrawal 70)
      (Db.init fun _ => 100) [.next 0, .next 1, .next 0, .next 0, .next 1, .next 1, .next 1,
        .next 1]).map (fun s => (s.phase 1, s.attempt 1)) = some (.declined, 1) := by decide
  obtain ⟨s, hs, hobs⟩ := Option.map_eq_some_iff.mp hrun
  obtain ⟨hphase, hattempt⟩ := Prod.mk.inj hobs
  obtain ⟨hbalance, hnonneg, -, -⟩ :=
    variants_lose_nothing ⟨.rmw, .repeatableRead, false⟩ (by decide) 70 _ (.of_exec _ hs)
  exact ⟨s, hphase, hattempt, hbalance, hnonneg (by decide)⟩

end run

end IsolationLevels
end SepLab
