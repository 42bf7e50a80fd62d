import SepLab.IsolationLevels.LostUpdate
import SepLab.IsolationLevels.WriteSkew
import SepLab.Lib.IsolationEnds

/-!
# Calls and withdrawals end

Both programs lock one row, or the rows of a shift in the order of the doctors, so that no two of
their transactions wait for each other, and `MAX_RETRIES` bounds the attempts.

## Main results

* `calls_end`, `withdrawals_end` — **in every mode no run goes on forever, and none gets stuck
  before all requests have ended.**
-/

namespace SepLab
namespace IsolationLevels

open Isolation

variable {r : Roster} {ι : Type} [DecidableEq ι]

omit [DecidableEq ι] in
theorem ordered_goOffCall (c : Call r) : Ordered (goOffCall c) := by
  refine ⟨?_, fun flags k v hwrite => ?_⟩
  · show ((r.doctors c.shift).map fun d => (c.shift, d)).Pairwise (· < ·)
    rw [List.pairwise_map]
    exact (r.sorted c.shift).imp fun hlt => Prod.mk_lt_mk_iff_right.mpr hlt
  · obtain ⟨-, heq⟩ := Option.ite_none_right_eq_some.mp hwrite
    obtain ⟨rfl, -⟩ := Prod.mk.inj (Option.some_inj.mp heq)
    exact mem_reads c

omit [DecidableEq ι] in
theorem ordered_withdrawal (amount : ℤ) : Ordered (withdrawal amount) := by
  refine ⟨List.pairwise_singleton _ _, fun balances k v hwrite => ?_⟩
  unfold withdrawal at hwrite
  dsimp only at hwrite
  split at hwrite
  · obtain ⟨-, heq⟩ := Option.ite_none_left_eq_some.mp hwrite
    obtain ⟨rfl, -⟩ := Prod.mk.inj (Option.some_inj.mp heq)
    exact List.mem_singleton.mpr rfl
  · cases hwrite

/-- **Calls end.**  In every mode a run of finitely many calls has no more statements than their
attempts allow; as long as one of them has not ended, one can go on; and from every state that is
reached all can end. -/
theorem calls_end [Fintype ι] (mode : Mode) (maxRetries : ℕ) (req : ι → Call r)
    (start : Key → Bool) (as : List (Action ι)) {s : Db ι Key Bool}
    (h : exec (Db.step mode maxRetries fun i => goOffCall (req i)) (Db.init start) as = some s) :
    as.length ≤ ∑ i, (maxRetries * ((r.doctors (req i).shift).length + 7) +
      ((r.doctors (req i).shift).length + 6)) ∧
    ((∀ i, (s.phase i).Ended) ∨
      ∃ i s', Db.step mode maxRetries (fun i => goOffCall (req i)) s (.next i) = some s') ∧
    ∃ as' s', exec (Db.step mode maxRetries fun i => goOffCall (req i)) s as' = some s' ∧
      (∀ a ∈ as', ∃ i, a = .next i) ∧ ∀ i, (s'.phase i).Ended := by
  have hlen : ∀ i, (goOffCall (req i)).reads.length = (r.doctors (req i).shift).length :=
    fun i => List.length_map _
  obtain ⟨hle, hends⟩ := ends (fun _ i => ordered_goOffCall (req i)) as h
  simp only [hlen] at hle
  exact ⟨hle, hends⟩

/-- The second doctor waits for the first one, and both can end. -/
theorem calls_end_pair : ∃ s : Db Bool Key Bool,
    Db.step .forUpdate 5 (fun i => goOffCall (bothLeave i)) s (.next true) = none ∧
    ∃ as s', exec (Db.step .forUpdate 5 fun i => goOffCall (bothLeave i)) s as = some s' ∧
      (s'.phase true).Ended := by
  have hrun : (exec (Db.step .forUpdate 5 fun i => goOffCall (bothLeave i))
      (Db.init fun _ => true) [.next false, .next true, .next false]).map (fun s =>
        (Db.step .forUpdate 5 (fun i => goOffCall (bothLeave i)) s (.next true)).isNone) =
      some true := by decide
  obtain ⟨s, hs, hobs⟩ := Option.map_eq_some_iff.mp hrun
  obtain ⟨-, -, as, s', hs', -, hended⟩ := calls_end .forUpdate 5 bothLeave _ _ hs
  exact ⟨s, Option.isNone_iff_eq_none.mp hobs, as, s', hs', hended true⟩

/-- **Withdrawals end**, as calls do. -/
theorem withdrawals_end [Fintype ι] (mode : Mode) (maxRetries : ℕ) (amount : ℤ) (start : ℕ → ℤ)
    (as : List (Action ι)) {s : Db ι ℕ ℤ}
    (h : exec (Db.step mode maxRetries fun _ : ι => withdrawal amount) (Db.init start) as =
      some s) :
    as.length ≤ Fintype.card ι * (maxRetries * 8 + 7) ∧
    ((∀ i, (s.phase i).Ended) ∨
      ∃ i s', Db.step mode maxRetries (fun _ => withdrawal amount) s (.next i) = some s') ∧
    ∃ as' s', exec (Db.step mode maxRetries fun _ : ι => withdrawal amount) s as' = some s' ∧
      (∀ a ∈ as', ∃ i, a = .next i) ∧ ∀ i, (s'.phase i).Ended := by
  obtain ⟨hle, hends⟩ := ends (fun _ _ => ordered_withdrawal amount) as h
  rw [Finset.sum_const_nat fun _ _ => rfl] at hle
  exact ⟨hle, hends⟩

/-- Two withdrawals at REPEATABLE READ, one of which waits for the other. -/
theorem withdrawals_end_two : ∃ s : Db Bool ℕ ℤ,
    Db.step .repeatableRead 8 (fun _ => withdrawal 70) s (.next true) = none ∧
    ∃ as s', exec (Db.step .repeatableRead 8 fun _ => withdrawal 70) s as = some s' ∧
      (s'.phase true).Ended := by
  have hrun : (exec (Db.step .repeatableRead 8 fun _ : Bool => withdrawal 70)
      (Db.init fun _ => 100) [.next false, .next true, .next false]).map (fun s =>
        (Db.step .repeatableRead 8 (fun _ => withdrawal 70) s (.next true)).isNone) =
      some true := by decide
  obtain ⟨s, hs, hobs⟩ := Option.map_eq_some_iff.mp hrun
  obtain ⟨-, -, as, s', hs', -, hended⟩ := withdrawals_end .repeatableRead 8 70 _ _ hs
  exact ⟨s, Option.isNone_iff_eq_none.mp hobs, as, s', hs', hended true⟩

end IsolationLevels
end SepLab
