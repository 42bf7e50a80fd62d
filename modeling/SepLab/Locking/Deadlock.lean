import Mathlib.Algebra.Order.BigOperators.Group.Finset
import Mathlib.Data.List.OfFn
import SepLab.Lib.LockOrder
import SepLab.Locking.Transfers

/-!
# When transfers deadlock

A transfer that waits for the second row has the first one.  With locks in the order of
the ids a transfer waits for a higher row than it has, so that the transfers never wait
for each other in a circle; in the order of their arguments they may do so just when
these orders close a circle.

## Main definitions

* `Bank.WaitsFor`, `Bank.Deadlocked` — who waits for whom, and a circle of waiting transfers.
* `LocksBefore req` — some transfer locks one row before the other.

## Main results

* `transfer_deadlock_iff` — **a deadlock is reachable exactly when the orders of the locks close
  a circle.**
* `transfer_ordered_completes` — **with ordered locks there is no deadlock, and all open transfers
  can commit.**
-/

namespace SepLab
namespace Locking

open Relation

variable {A ι : Type} [DecidableEq ι] [LinearOrder A]

/-- Some transfer locks the row of `x` before that of `y`. -/
def LocksBefore (req : ι → Transfer A) (x y : A) : Prop :=
  ∃ i, (req i).first = x ∧ (req i).second = y ∧ x ≠ y

/-- The statements that a transfer in this phase has before it. -/
def Phase.left : Phase → ℕ
  | .begun => 5
  | .lockedFirst => 4
  | .locked => 3
  | .debited => 2
  | .credited => 1
  | _ => 0

namespace Bank

/-- The next statement of the transfer locks the row of `x`. -/
def Wants (req : ι → Transfer A) (s : Bank ι A) (i : ι) (x : A) : Prop :=
  s.phase i = .begun ∧ x = (req i).first ∨ s.phase i = .lockedFirst ∧ x = (req i).second

omit [DecidableEq ι] [LinearOrder A] in
/-- The transfer that has locked the row of `x`. -/
def holder (s : Bank ι A) (x : A) : Option ι := (s.accounts x).pending.map Prod.fst

/-- Transfer `i` waits for a row that transfer `j` has locked. -/
def WaitsFor (req : ι → Transfer A) (s : Bank ι A) : ι → ι → Prop :=
  Waits s.holder (s.Wants req)

/-- Transfers wait for each other in a circle. -/
def Deadlocked (req : ι → Transfer A) (s : Bank ι A) : Prop :=
  ∃ i, TransGen (s.WaitsFor req) i i

variable {req : ι → Transfer A} {balances : A → Option ℤ} {s s' : Bank ι A} {i j : ι} {x y : A}

omit [DecidableEq ι] [LinearOrder A] in
theorem holder_eq_some : s.holder x = some i ↔ ∃ v, (s.accounts x).pending = some (i, v) := by
  unfold holder
  rw [Option.map_eq_some_iff]
  constructor
  · rintro ⟨⟨j, v⟩, hv, rfl⟩
    exact ⟨v, hv⟩
  · rintro ⟨v, hv⟩
    exact ⟨(i, v), hv, rfl⟩

omit [DecidableEq ι] in
/-- A transfer that wants a row has locked its first one only. -/
theorem Inv.eq_of_wants (h : s.Inv req balances) (hhold : s.holder x = some i)
    (hwant : s.Wants req i y) : x = (req i).first ∧ y = (req i).second := by
  obtain ⟨v, hv⟩ := holder_eq_some.mp hhold
  have hlocks := (h.pending x i v hv).1
  rcases hwant with ⟨hi, -⟩ | ⟨hi, rfl⟩
  · rw [hi] at hlocks
    exact hlocks.elim
  · rw [hi] at hlocks
    exact ⟨hlocks, rfl⟩

omit [DecidableEq ι] in
/-- **A deadlock closes a circle of lock orders.** -/
theorem Inv.locksBefore_of_deadlocked (h : s.Inv req balances) (hs : s.Deadlocked req) :
    ∃ x, TransGen (LocksBefore req) x x := by
  obtain ⟨i, hi⟩ := hs
  obtain ⟨x, hx⟩ := ahead_cycle_of_waits_cycle hi
  refine ⟨x, TransGen.mono ?_ _ _ hx⟩
  rintro y z ⟨k, hhold, hwant, hne⟩
  obtain ⟨rfl, rfl⟩ := h.eq_of_wants hhold hwant
  exact ⟨k, rfl, rfl, hne⟩

omit [DecidableEq ι] in
/-- With ordered locks there is no deadlock. -/
theorem Inv.not_deadlocked (h : s.Inv req balances) (hord : ∀ i, (req i).ordered = true) :
    ¬ s.Deadlocked req := by
  rintro ⟨i, hi⟩
  refine not_waits_cycle_of_lt (fun k x y hhold hwant hne => ?_) i hi
  obtain ⟨rfl, rfl⟩ := h.eq_of_wants hhold hwant
  exact lt_of_le_of_ne (Transfer.first_le_second (hord k)) hne

/-! ### A circle of transfers -/

/-- A row that is there and free is locked. -/
theorem exists_lock {c : ℤ} (hc : (s.accounts x).committed = some c)
    (hp : (s.accounts x).pending = none) :
    ∃ s', s.lock i x = some s' ∧ s'.phase = s.phase ∧ s'.holder x = some i ∧
      ∀ y, y ≠ x → s'.accounts y = s.accounts y := by
  have hfree : (s.accounts x).free i = true := by
    rw [Row.free_iff]
    intro u v hv
    rw [hp] at hv
    cases hv
  refine ⟨{ s with accounts := s.accounts.put x i ((s.accounts x).seen i) }, ?_, rfl, ?_, ?_⟩
  · unfold lock
    rw [hc]
    exact if_pos hfree
  · refine holder_eq_some.mpr ⟨(s.accounts x).seen i, ?_⟩
    show (s.accounts.put x i _ x).pending = _
    rw [Table.put_self, Row.pending_put]
  · exact fun y hy => Table.put_of_ne hy

/-- **Transfers with different first rows lock them all**, one after the other. -/
theorem exec_lockFirst (req : ι → Transfer A) {s : Bank ι A} {ts : List ι}
    (hnodup : (ts.map fun i => (req i).first).Nodup)
    (hidle : ∀ i ∈ ts, s.phase i = .idle)
    (hrow : ∀ i ∈ ts, (s.accounts (req i).first).committed ≠ none ∧
      (s.accounts (req i).first).pending = none) :
    ∃ s', exec (Bank.step req) s (ts.flatMap fun i => [.next i, .next i]) = some s' ∧
      (∀ i ∈ ts, s'.phase i = .lockedFirst ∧ s'.holder (req i).first = some i) ∧
      (∀ i, i ∉ ts → s'.phase i = s.phase i) ∧
      ∀ x, x ∉ ts.map (fun i => (req i).first) → s'.accounts x = s.accounts x := by
  induction ts generalizing s with
  | nil => exact ⟨s, rfl, nofun, fun _ _ => rfl, fun _ _ => rfl⟩
  | cons i ts ih =>
    obtain ⟨hnew, hnodup⟩ := List.nodup_cons.mp hnodup
    -- the first transfer begins and takes its first lock
    obtain ⟨hc, hp⟩ := hrow i List.mem_cons_self
    obtain ⟨c, hc⟩ := Option.ne_none_iff_exists'.mp hc
    obtain ⟨s₁, hs₁, hphase, hholder, hkept⟩ :=
      exists_lock (s := s.enter i .begun) (i := i) hc hp
    have hi : i ∉ ts := fun hi => hnew (List.mem_map_of_mem hi)
    have hother : ∀ {j}, j ≠ i → (s₁.enter i .lockedFirst).phase j = s.phase j := by
      intro j hj
      show Function.update s₁.phase i _ j = _
      rw [Function.update_of_ne hj, hphase]
      exact Function.update_of_ne hj _ _
    -- the others have first locks of their own, so they are not in its way
    have hne : ∀ {j}, j ∈ ts → j ≠ i ∧ (req j).first ≠ (req i).first := by
      intro j hj
      refine ⟨?_, fun heq => hnew (List.mem_map.mpr ⟨j, hj, heq⟩)⟩
      rintro rfl
      exact hi hj
    obtain ⟨s', hs', hlocked, hframe, hrows⟩ := ih (s := s₁.enter i .lockedFirst) hnodup
      (fun j hj => (hother (hne hj).1).trans (hidle j (List.mem_cons_of_mem _ hj))) fun j hj => by
        have hsame : (s₁.enter i .lockedFirst).accounts (req j).first =
          s.accounts (req j).first := hkept _ (hne hj).2
        rw [hsame]
        exact hrow j (List.mem_cons_of_mem _ hj)
    refine ⟨s', ?_, ?_, ?_, ?_⟩
    · have hbegin : Bank.step req s (.next i) = some (s.enter i .begun) := by
        simp only [Bank.step, Bank.next, hidle i List.mem_cons_self]
      have hlock : Bank.step req (s.enter i .begun) (.next i) = some (s₁.enter i .lockedFirst) := by
        have hphase' : (s.enter i .begun).phase i = .begun := Function.update_self _ _ _
        simp only [Bank.step, Bank.next, hphase', hs₁, Option.map_some]
      rw [List.flatMap_cons, List.cons_append, List.cons_append, List.nil_append, exec_cons,
        hbegin, Option.bind_some, exec_cons, hlock, Option.bind_some]
      exact hs'
    · intro j hj
      rcases List.mem_cons.mp hj with rfl | hj
      · refine ⟨?_, ?_⟩
        · rw [hframe j hi]
          exact Function.update_self _ _ _
        · unfold holder at hholder ⊢
          rw [hrows _ hnew]
          exact hholder
      · exact hlocked j hj
    · intro j hj
      rw [List.mem_cons, not_or] at hj
      rw [hframe j hj.2, hother hj.1]
    · intro x hx
      rw [List.map_cons, List.mem_cons, not_or] at hx
      rw [hrows x hx.2]
      exact hkept x hx.1

/-- **A circle of lock orders lets transfers deadlock.** -/
theorem exists_deadlocked (hexist : ∀ i, balances (req i).first ≠ none)
    (h : TransGen (LocksBefore req) x x) :
    ∃ s, Reach (Bank.step req) (Bank.init balances) s ∧ s.Deadlocked req := by
  obtain ⟨l, hnodup, hpos, hl⟩ := simpleCycle_of_transGen h
  choose f hfirst hsecond hne using hl
  -- the transfers of the cycle take their first locks, one after the other
  have hmap : (List.ofFn f).map (fun i => (req i).first) = l := by
    rw [List.map_ofFn]
    refine List.ext_getElem (by simp) fun k hk hk' => ?_
    simpa using hfirst ⟨k, hk'⟩
  rw [← hmap] at hnodup
  obtain ⟨s, hs, hlocked, -, -⟩ := exec_lockFirst req (s := Bank.init balances) hnodup
    (fun _ _ => rfl) fun i _ => ⟨hexist i, rfl⟩
  refine ⟨s, .of_exec _ hs, f ⟨0, hpos⟩, ?_⟩
  let g : ℕ → ι := fun k => f ⟨k % l.length, Nat.mod_lt _ hpos⟩
  have hg : ∀ k, g k ∈ List.ofFn f := fun k => List.mem_ofFn.mpr ⟨_, rfl⟩
  -- and each of them waits for the next, which holds what it wants
  have hwaits : ∀ k, s.WaitsFor req (g k) (g (k + 1)) := by
    intro k
    have hnext : (req (g k)).second = (req (g (k + 1))).first := by
      rw [hsecond, hfirst]
      simp only [Fin.getElem_fin, List.get_eq_getElem, Nat.mod_add_mod]
    refine ⟨(req (g k)).second, Or.inr ⟨(hlocked _ (hg k)).1, rfl⟩, ?_, fun heq => ?_⟩
    · rw [hnext]
      exact (hlocked _ (hg (k + 1))).2
    · refine hne ⟨k % l.length, Nat.mod_lt _ hpos⟩ ?_
      rw [← hfirst ⟨k % l.length, Nat.mod_lt _ hpos⟩, ← hsecond]
      exact (congrArg (fun i => (req i).first) heq).trans hnext.symm
  -- the last one waits for the first
  have hcycle := transGen_of_cycle hwaits (l.length - 1)
  have hlast : g (l.length - 1 + 1) = f ⟨0, hpos⟩ := by
    refine congrArg f (Fin.ext ?_)
    show (l.length - 1 + 1) % l.length = 0
    rw [Nat.sub_add_cancel hpos, Nat.mod_self]
  have hzero : g 0 = f ⟨0, hpos⟩ := congrArg f (Fin.ext (Nat.zero_mod _))
  rw [hlast, hzero] at hcycle
  exact hcycle

/-! ### Open transfers can commit -/

omit [DecidableEq ι] in
theorem Inv.open_of_holder (h : s.Inv req balances) (hx : s.holder x = some i) :
    (s.phase i).Open := by
  obtain ⟨v, hv⟩ := holder_eq_some.mp hx
  have hlocks := (h.pending x i v hv).1
  cases hi : s.phase i <;> rw [hi] at hlocks <;> trivial

/-- A transfer that waits for nobody can lock the row that it wants. -/
theorem exists_lock_of_not_waits (hwant : s.Wants req i x) (hw : ∀ j, ¬ s.WaitsFor req i j) :
    ∃ s', s.lock i x = some s' ∧ s'.phase = s.phase := by
  unfold lock
  cases hc : (s.accounts x).committed with
  | none => exact ⟨s, rfl, rfl⟩
  | some c =>
    refine ⟨_, if_pos (Row.free_iff.mpr fun j v hv => ?_), rfl⟩
    by_contra hne
    exact hw j ⟨x, hwant, holder_eq_some.mpr ⟨v, hv⟩, Ne.symm hne⟩

/-- No other transfer has a row that the transfer is to write. -/
theorem Inv.exists_addTo (h : s.Inv req balances) (hx : (req i).Locks x (s.phase i)) (d : ℤ) :
    ∃ s', s.addTo i x d = some s' ∧ s'.phase = s.phase := by
  refine ⟨_, if_pos (Row.free_iff.mpr fun j v hv => ?_), rfl⟩
  obtain ⟨w, hw⟩ := h.locked x i hx (h.pending x j v hv).2.1
  rw [hv, Option.some_inj] at hw
  exact (Prod.mk.inj hw).1

/-- **An open transfer that waits for nobody goes on.** -/
theorem Inv.exists_next (h : s.Inv req balances) (hi : (s.phase i).Open)
    (hw : ∀ j, ¬ s.WaitsFor req i j) :
    ∃ s' p, Bank.step req s (.next i) = some s' ∧ s'.phase = Function.update s.phase i p ∧
      p.left < (s.phase i).left ∧ (p.Open ∨ p = .committed) := by
  have hgo : ∀ {s₁ : Bank ι A} {p : Phase}, s₁.phase = s.phase →
      (s₁.enter i p).phase = Function.update s.phase i p := by
    intro s₁ p hs₁
    show Function.update s₁.phase i p = _
    rw [hs₁]
  simp only [Bank.step, Bank.next]
  -- a transfer that waits for nobody has its next statement, which takes it nearer to the end
  cases hphase : s.phase i with
  | begun =>
    obtain ⟨s₁, hs₁, hs₁'⟩ := exists_lock_of_not_waits (Or.inl ⟨hphase, rfl⟩) hw
    refine ⟨s₁.enter i .lockedFirst, .lockedFirst, ?_, hgo hs₁', by decide, Or.inl trivial⟩
    simp only [hs₁, Option.map_some]
  | lockedFirst =>
    obtain ⟨s₁, hs₁, hs₁'⟩ := exists_lock_of_not_waits (Or.inr ⟨hphase, rfl⟩) hw
    refine ⟨s₁.enter i .locked, .locked, ?_, hgo hs₁', by decide, Or.inl trivial⟩
    simp only [hs₁, Option.map_some]
  | locked =>
    obtain ⟨s₁, hs₁, hs₁'⟩ := h.exists_addTo (i := i) (x := (req i).a)
      (by rw [hphase]; exact ((req i).mem_locks _).mpr (Or.inl rfl)) (-(req i).cents)
    refine ⟨s₁.enter i .debited, .debited, ?_, hgo hs₁', by decide, Or.inl trivial⟩
    simp only [hs₁, Option.map_some]
  | debited =>
    obtain ⟨s₁, hs₁, hs₁'⟩ := h.exists_addTo (i := i) (x := (req i).b)
      (by rw [hphase]; exact ((req i).mem_locks _).mpr (Or.inr rfl)) (req i).cents
    refine ⟨s₁.enter i .credited, .credited, ?_, hgo hs₁', by decide, Or.inl trivial⟩
    simp only [hs₁, Option.map_some]
  | credited => exact ⟨_, .committed, rfl, rfl, by decide, Or.inr rfl⟩
  | idle => exact absurd hi (by rw [hphase]; exact id)
  | committed => exact absurd hi (by rw [hphase]; exact id)
  | aborted => exact absurd hi (by rw [hphase]; exact id)

/-- **Open transfers can all commit**, if no deadlock comes up. -/
theorem Inv.completes (h : s.Inv req balances)
    (hfree : ∀ s : Bank ι A, s.Inv req balances → ¬ s.Deadlocked req) {F : Finset ι}
    (hF : ∀ i, (s.phase i).Open → i ∈ F) :
    ∃ as s', exec (Bank.step req) s as = some s' ∧ (∀ a ∈ as, ∃ i, a = .next i) ∧
      ∀ i, ((s.phase i).Open → s'.phase i = .committed) ∧
        (¬ (s.phase i).Open → s'.phase i = s.phase i) := by
  induction hn : ∑ i ∈ F, (s.phase i).left using Nat.strong_induction_on generalizing s with
  | _ n ih =>
    by_cases hopen : ∃ i, (s.phase i).Open
    · have hcycle : ∀ i, ¬ TransGen (s.WaitsFor req) i i := fun i hi => hfree s h ⟨i, hi⟩
      -- in an order without cycles somebody waits for nobody, and goes on
      obtain ⟨i, hi, hw⟩ := exists_not_waits (S := {i | (s.phase i).Open}) hcycle
        (F.finite_toSet.subset hF) hopen
      obtain ⟨s₁, p, hs₁, hphase, hlt, hp⟩ := h.exists_next hi fun j hj => by
        obtain ⟨x, -, hx, -⟩ := id hj
        exact hw j (h.open_of_holder hx) hj
      have hself : s₁.phase i = p := by rw [hphase, Function.update_self]
      have hother : ∀ {j}, j ≠ i → s₁.phase j = s.phase j := by
        intro j hj
        rw [hphase, Function.update_of_ne hj]
      -- the sum of what is left is less, for no other transfer has moved
      have hless : ∑ j ∈ F, (s₁.phase j).left < n := by
        rw [← hn]
        refine Finset.sum_lt_sum (fun j _ => ?_) ⟨i, hF i hi, by rw [hself]; exact hlt⟩
        by_cases hj : j = i
        · rw [hj, hself]
          exact hlt.le
        · rw [hother hj]
      obtain ⟨as, s', hs', has, hdone⟩ := ih _ hless (h.step hs₁) (fun j hj => by
        by_cases hji : j = i
        · rw [hji]
          exact hF i hi
        · exact hF j (hother hji ▸ hj)) rfl
      refine ⟨.next i :: as, s', ?_, ?_, fun j => ?_⟩
      · rw [exec_cons, hs₁]
        exact hs'
      · intro a ha
        rcases List.mem_cons.mp ha with rfl | ha
        · exact ⟨i, rfl⟩
        · exact has a ha
      · by_cases hj : j = i
        · subst hj
          refine ⟨fun _ => ?_, fun hnot => absurd hi hnot⟩
          rcases hp with hp | rfl
          · exact (hdone j).1 (hself ▸ hp)
          · rw [(hdone j).2 (by rw [hself]; exact id), hself]
        · have hdone := hdone j
          rw [hother hj] at hdone
          exact hdone
    · push Not at hopen
      exact ⟨[], s, rfl, nofun, fun i => ⟨fun hi => absurd hi (hopen i), fun _ => rfl⟩⟩

end Bank

open Bank

/-- **When transfers deadlock.**  Between accounts that exist, a state in which transfers wait for
each other in a circle is reachable exactly when the orders in which they lock their two rows
close a circle. -/
theorem transfer_deadlock_iff (req : ι → Transfer A) (balances : A → Option ℤ)
    (hexist : ∀ i, balances (req i).first ≠ none) :
    (∃ s, Reach (Bank.step req) (Bank.init balances) s ∧ s.Deadlocked req) ↔
      ∃ x, TransGen (LocksBefore req) x x := by
  constructor
  · rintro ⟨s, hs, hdead⟩
    have hinv := hs.invariant (P := Bank.Inv req balances) (.init req balances)
      fun _ _ _ h => h.step
    exact hinv.locksBefore_of_deadlocked hdead
  · rintro ⟨x, hx⟩
    exact exists_deadlocked hexist hx

/-- **Ordered locks complete.**  If all transfers lock their rows in the order of the ids, then in
every state that an interleaving with failures reaches no transfers wait for each other in a
circle, and if finitely many are open, they can all go on to their commits, with no other
statement and no victim. -/
theorem transfer_ordered_completes (req : ι → Transfer A) (balances : A → Option ℤ)
    (hord : ∀ i, (req i).ordered = true) {s : Bank ι A}
    (h : Reach (Bank.step req) (Bank.init balances) s) :
    ¬ s.Deadlocked req ∧ ({i | (s.phase i).Open}.Finite →
      ∃ as s', exec (Bank.step req) s as = some s' ∧ (∀ a ∈ as, ∃ i, a = .next i) ∧
        ∀ i, ((s.phase i).Open → s'.phase i = .committed) ∧
          (¬ (s.phase i).Open → s'.phase i = s.phase i)) := by
  have hinv := h.invariant (P := Bank.Inv req balances) (.init req balances) fun _ _ _ h => h.step
  refine ⟨hinv.not_deadlocked hord, fun hfin => ?_⟩
  exact hinv.completes (fun _ hs => hs.not_deadlocked hord) (F := hfin.toFinset)
    fun i hi => hfin.mem_toFinset.mpr hi

/-- Crossing transfers deadlock if each locks its own account first. -/
theorem transfer_deadlock_iff_crossing :
    ∃ s, Reach (Bank.step (crossing false)) (Bank.init fun _ => some 100) s ∧
      s.Deadlocked (crossing false) := by
  refine (transfer_deadlock_iff (crossing false) _ fun _ => Option.some_ne_none 100).mpr ⟨1, ?_⟩
  exact .tail (.single ⟨false, rfl, rfl, by decide⟩) ⟨true, rfl, rfl, by decide⟩

/-- The second transfer waits for the first one, and both can commit. -/
theorem transfer_ordered_completes_crossing : ∃ s : Bank Bool ℕ,
    exec (Bank.step (crossing true)) (Bank.init fun _ => some 100)
      [.next false, .next true, .next false] = some s ∧
    Bank.step (crossing true) s (.next true) = none ∧ ¬ s.Deadlocked (crossing true) ∧
    ∃ as s', exec (Bank.step (crossing true)) s as = some s' ∧ s'.phase true = .committed := by
  have hrun : (exec (Bank.step (crossing true)) (Bank.init fun _ => some 100)
      [.next false, .next true, .next false]).map (fun s =>
        (s.phase true, (Bank.step (crossing true) s (.next true)).isNone)) =
      some (.begun, true) := by decide
  obtain ⟨s, hs, hobs⟩ := Option.map_eq_some_iff.mp hrun
  obtain ⟨hphase, hnone⟩ := Prod.mk.inj hobs
  obtain ⟨hdead, hcomplete⟩ := transfer_ordered_completes (crossing true) (fun _ => some 100)
    (fun i => by cases i <;> rfl) (.of_exec _ hs)
  obtain ⟨as, s', hs', -, hdone⟩ := hcomplete (Set.toFinite _)
  refine ⟨s, hs, Option.isNone_iff_eq_none.mp hnone, hdead, as, s', hs', ?_⟩
  exact (hdone true).1 (by rw [hphase]; trivial)

end Locking
end SepLab
