import Mathlib.Algebra.BigOperators.Group.Finset.Piecewise
import Mathlib.Data.List.Nodup
import SepLab.Lib.ReadCommitted
import SepLab.Lib.Transition

/-!
# Transfers that lock two accounts

`transfer` of `deadlock_ordering.py`, in both variants: it locks the rows of the two
accounts, in the order of its arguments or in the order of their ids, moves the money
by two `UPDATE`s and commits.  The one statement of the second variant locks its rows
one after the other.  Each call is a transaction of its own; a retry is another call.

## Main definitions

* `Transfer`, `Transfer.first`, `Transfer.second` — the arguments, and the order of the locks.
* `Bank`, `Action`, `step` — the statements of the transfers, in any order.
* `Transfer.apply` — what a transfer does to the balances.
* `Bank.Inv` — what a transfer has locked, and the versions it has written.

## Main results

* `Bank.Inv.step` — every statement keeps the invariant.
* `transfer_serializable` — **the balances are those of the committed transfers one after the
  other, and the total never changes.**
-/

namespace SepLab
namespace Locking

/-- The arguments of `transfer`. -/
structure Transfer (A : Type) where
  a : A
  b : A
  cents : ℤ
  ordered : Bool
  deriving DecidableEq, Repr

variable {A ι : Type}

section Order

variable [LinearOrder A]

/-- The account whose row is locked first. -/
def Transfer.first (t : Transfer A) : A := if t.ordered then min t.a t.b else t.a

/-- The account whose row is locked second. -/
def Transfer.second (t : Transfer A) : A := if t.ordered then max t.a t.b else t.b

/-- The two rows that are locked are those of the two accounts. -/
theorem Transfer.mem_locks (t : Transfer A) (x : A) :
    x = t.first ∨ x = t.second ↔ x = t.a ∨ x = t.b := by
  unfold first second
  split
  · rcases le_total t.a t.b with h | h
    · rw [min_eq_left h, max_eq_right h]
    · rw [min_eq_right h, max_eq_left h, or_comm]
  · rfl

/-- In the second variant the rows are locked in the order of the ids. -/
theorem Transfer.first_le_second {t : Transfer A} (h : t.ordered = true) : t.first ≤ t.second := by
  unfold first second
  rw [if_pos h, if_pos h]
  exact min_le_max

end Order

/-- How far a transfer has got. -/
inductive Phase
  | idle
  | begun
  /-- The first row is locked, where there is one. -/
  | lockedFirst
  | locked
  | debited
  | credited
  | committed
  | aborted
  deriving DecidableEq, Repr

/-- The transaction has begun and not ended. -/
def Phase.Open : Phase → Prop
  | .idle | .committed | .aborted => False
  | _ => True

/-- The accounts, with the transfers `ι`, and the committed ones in the order of their commits. -/
structure Bank (ι A : Type) where
  accounts : Table A ι ℤ
  phase : ι → Phase
  log : List ι

/-- What happens to a transfer. -/
inductive Action (ι : Type)
  /-- The next statement of the transfer. -/
  | next (i : ι)
  /-- The transaction fails, or is the victim of a deadlock; it is rolled back. -/
  | abort (i : ι)
  deriving DecidableEq, Repr

namespace Bank

/-- Accounts without locks, and transfers that have not begun. -/
def init (balances : A → Option ℤ) : Bank ι A := ⟨fun x => ⟨balances x, none⟩, fun _ => .idle, []⟩

variable [DecidableEq ι] [LinearOrder A]

omit [LinearOrder A] in
/-- The transfer moves on. -/
def enter (s : Bank ι A) (i : ι) (p : Phase) : Bank ι A :=
  { s with phase := Function.update s.phase i p }

/-- `SELECT … WHERE id = x FOR UPDATE`: it waits while another transaction has the row, and locks
nothing if there is none. -/
def lock (s : Bank ι A) (i : ι) (x : A) : Option (Bank ι A) :=
  match (s.accounts x).committed with
  | none => some s
  | some _ =>
    if (s.accounts x).free i then
      some { s with accounts := s.accounts.put x i ((s.accounts x).seen i) }
    else none

/-- `UPDATE accounts SET balance_cents = balance_cents + d WHERE id = x`. -/
def addTo (s : Bank ι A) (i : ι) (x : A) (d : ℤ) : Option (Bank ι A) :=
  if (s.accounts x).free i then
    some { s with accounts := s.accounts.updateWhere i (fun y _ => y = x) (· + d) }
  else none

/-- The next statement of a transfer. -/
def next (t : Transfer A) (s : Bank ι A) (i : ι) : Option (Bank ι A) :=
  match s.phase i with
  | .idle => some (s.enter i .begun)
  | .begun => (s.lock i t.first).map fun s => s.enter i .lockedFirst
  | .lockedFirst => (s.lock i t.second).map fun s => s.enter i .locked
  | .locked => (s.addTo i t.a (-t.cents)).map fun s => s.enter i .debited
  | .debited => (s.addTo i t.b t.cents).map fun s => s.enter i .credited
  | .credited =>
    some ({ s with accounts := s.accounts.commit i, log := s.log ++ [i] }.enter i .committed)
  | _ => none

omit [LinearOrder A] in
/-- The transaction is rolled back and its locks are released. -/
def abort (s : Bank ι A) (i : ι) : Option (Bank ι A) :=
  match s.phase i with
  | .idle | .committed | .aborted => none
  | _ => some ({ s with accounts := s.accounts.rollback i }.enter i .aborted)

/-- One statement of one transfer. -/
def step (req : ι → Transfer A) (s : Bank ι A) : Action ι → Option (Bank ι A)
  | .next i => s.next (req i) i
  | .abort i => s.abort i

end Bank

/-! ### What a transfer does -/

section Effect

variable [DecidableEq A]

/-- What a transfer that has got so far has added to an account. -/
def Transfer.delta (t : Transfer A) (x : A) : Phase → ℤ
  | .debited => if x = t.a then -t.cents else 0
  | .credited => (if x = t.a then -t.cents else 0) + if x = t.b then t.cents else 0
  | _ => 0

/-- The balances after a transfer. -/
def Transfer.apply (balances : A → Option ℤ) (t : Transfer A) (x : A) : Option ℤ :=
  (balances x).map (· + t.delta x .credited)

theorem Transfer.delta_of_ne {t : Transfer A} {x : A} (ha : x ≠ t.a) (hb : x ≠ t.b) (p : Phase) :
    t.delta x p = 0 := by
  cases p <;> simp [delta, ha, hb]

end Effect

/-- The rows that a transfer which has got so far has locked. -/
def Transfer.Locks [LinearOrder A] (t : Transfer A) (x : A) : Phase → Prop
  | .lockedFirst => x = t.first
  | .locked | .debited | .credited => x = t.first ∨ x = t.second
  | _ => False

namespace Bank

variable [DecidableEq ι] [LinearOrder A]

/-- A transfer has locked the rows of its phase, and its versions of them add to the committed
ones what it has moved. -/
structure Inv (req : ι → Transfer A) (balances : A → Option ℤ) (s : Bank ι A) : Prop where
  pending : ∀ x i v, (s.accounts x).pending = some (i, v) →
    (req i).Locks x (s.phase i) ∧ (s.accounts x).committed ≠ none ∧
      v = (s.accounts x).committed.map (· + (req i).delta x (s.phase i))
  locked : ∀ x i, (req i).Locks x (s.phase i) → (s.accounts x).committed ≠ none →
    ∃ v, (s.accounts x).pending = some (i, v)
  log : ∀ i, i ∈ s.log ↔ s.phase i = .committed
  nodup : s.log.Nodup
  serial : ∀ x, (s.accounts x).committed = ((s.log.map req).foldl Transfer.apply balances) x

variable {req : ι → Transfer A} {balances : A → Option ℤ} {s s' : Bank ι A} {i : ι} {p : Phase}

omit [DecidableEq ι] in
theorem Inv.init (req : ι → Transfer A) (balances : A → Option ℤ) :
    (init balances : Bank ι A).Inv req balances where
  pending x i v h := by cases h
  locked x i h := h.elim
  log i := by simp [Bank.init]
  nodup := List.nodup_nil
  serial x := rfl

/-- **A transfer goes on** with its transaction, to phase `p`, and leaves the locks of others. -/
theorem Inv.act (h : s.Inv req balances) (hphase : s'.phase = Function.update s.phase i p)
    (hlog : s'.log = s.log) (hp : p ≠ .committed) (hi : s.phase i ≠ .committed)
    (hcom : ∀ x, (s'.accounts x).committed = (s.accounts x).committed)
    (hother : ∀ x j v, j ≠ i →
      ((s'.accounts x).pending = some (j, v) ↔ (s.accounts x).pending = some (j, v)))
    (hself : ∀ x v, (s'.accounts x).pending = some (i, v) → (req i).Locks x p ∧
      (s.accounts x).committed ≠ none ∧
        v = (s.accounts x).committed.map (· + (req i).delta x p))
    (hlocked : ∀ x, (req i).Locks x p → (s.accounts x).committed ≠ none →
      ∃ v, (s'.accounts x).pending = some (i, v)) : s'.Inv req balances := by
  have hne : ∀ {j}, j ≠ i → s'.phase j = s.phase j := by
    intro j hj
    rw [hphase, Function.update_of_ne hj]
  have hsame : s'.phase i = p := by rw [hphase, Function.update_self]
  refine { pending := fun x j v hv => ?_, locked := fun x j hj hc => ?_, log := fun j => ?_
           nodup := by rw [hlog]; exact h.nodup, serial := fun x => ?_ }
  · rw [hcom]
    -- the transfer that acts; of the others neither phase nor lock has changed
    by_cases hj : j = i
    · subst hj
      rw [hsame]
      exact hself x v hv
    · rw [hne hj]
      exact h.pending x j v ((hother x j v hj).mp hv)
  · rw [hcom] at hc
    by_cases hji : j = i
    · subst hji
      rw [hsame] at hj
      exact hlocked x hj hc
    · rw [hne hji] at hj
      obtain ⟨v, hv⟩ := h.locked x j hj hc
      exact ⟨v, (hother x j v hji).mpr hv⟩
  · rw [hlog, h.log]
    by_cases hj : j = i
    · subst hj
      rw [hsame]
      exact iff_of_false hi hp
    · rw [hne hj]
  · rw [hcom, hlog]
    exact h.serial x

/-- The transfer that a row is locked by sees its own version of it, and otherwise the committed
one. -/
theorem Inv.seen (h : s.Inv req balances) (x : A) (i : ι) :
    (s.accounts x).seen i = (s.accounts x).committed.map (· + (req i).delta x (s.phase i)) ∨
      (∀ v, (s.accounts x).pending ≠ some (i, v)) ∧
        (s.accounts x).seen i = (s.accounts x).committed := by
  by_cases hown : ∃ v, (s.accounts x).pending = some (i, v)
  · obtain ⟨v, hv⟩ := hown
    rw [Row.seen_of_pending hv, (h.pending x i v hv).2.2]
    exact Or.inl rfl
  · push Not at hown
    exact Or.inr ⟨hown, Row.seen_of_ne hown⟩

/-- The transfer locks the row of account `y`, if there is one. -/
theorem Inv.lock (h : s.Inv req balances) {y : A} (hs : s.lock i y = some s')
    (hp : p ≠ .committed) (hi : s.phase i ≠ .committed)
    (hlocks : ∀ x, (req i).Locks x p ↔ (req i).Locks x (s.phase i) ∨ x = y)
    (hdelta : ∀ x, (req i).delta x (s.phase i) = 0) (hdelta' : ∀ x, (req i).delta x p = 0) :
    (s'.enter i p).Inv req balances := by
  have hmap : ∀ o : Option ℤ, o.map (· + (0 : ℤ)) = o := by
    intro o
    cases o <;> simp
  unfold Bank.lock at hs
  split at hs
  -- no such account: there is nothing to lock
  · next hnone =>
    obtain rfl := Option.some_inj.mp hs
    refine h.act rfl rfl hp hi (fun _ => rfl) (fun _ _ _ _ => Iff.rfl) ?_ ?_
    · intro x v hv
      obtain ⟨hl, hc, heq⟩ := h.pending x i v hv
      rw [hdelta, hmap] at heq
      rw [hdelta', hmap]
      exact ⟨(hlocks x).mpr (Or.inl hl), hc, heq⟩
    · intro x hx hc
      rcases (hlocks x).mp hx with hx | rfl
      · exact h.locked x i hx hc
      · exact absurd hnone hc
  -- the row is locked as it is committed
  · next v₀ hsome =>
    split at hs
    case isFalse => cases hs
    next hfree =>
    obtain rfl := Option.some_inj.mp hs
    have hseen : (s.accounts y).seen i = (s.accounts y).committed := by
      rcases h.seen y i with hseen | ⟨-, hseen⟩
      · rw [hseen, hdelta, hmap]
      · exact hseen
    refine h.act rfl rfl hp hi (fun x => Table.committed_put x _) ?_ ?_ ?_
    · intro x j v hj
      show (s.accounts.put y i _ x).pending = _ ↔ _
      -- the row was free, and it is the transfer's own now
      by_cases hx : x = y
      · subst hx
        rw [Table.put_self, Row.pending_put]
        refine iff_of_false (fun heq => ?_) fun hv => hj (Row.free_iff.mp hfree j v hv)
        exact hj (Prod.mk.inj (Option.some_inj.mp heq)).1.symm
      · rw [Table.put_of_ne hx]
    · intro x v hv
      rcases Table.pending_of_put hv with ⟨rfl, heq⟩ | ⟨-, hv⟩
      · rw [(Prod.mk.inj heq).2, hseen, hdelta', hmap]
        refine ⟨(hlocks x).mpr (Or.inr rfl), ?_, rfl⟩
        rw [hsome]
        exact Option.some_ne_none v₀
      · obtain ⟨hl, hc, heq⟩ := h.pending x i v hv
        rw [hdelta, hmap] at heq
        rw [hdelta', hmap]
        exact ⟨(hlocks x).mpr (Or.inl hl), hc, heq⟩
    · intro x hx hc
      show ∃ v, (s.accounts.put y i _ x).pending = _
      by_cases hxy : x = y
      · subst hxy
        rw [Table.put_self]
        exact ⟨_, rfl⟩
      · rw [Table.put_of_ne hxy]
        exact h.locked x i (((hlocks x).mp hx).resolve_right hxy) hc

/-- The transfer adds to the balance of account `y`, whose row it has locked. -/
theorem Inv.addTo (h : s.Inv req balances) {y : A} {d : ℤ} (hs : s.addTo i y d = some s')
    (hp : p ≠ .committed) (hi : s.phase i ≠ .committed)
    (hlocks : ∀ x, (req i).Locks x p ↔ (req i).Locks x (s.phase i))
    (hy : (req i).Locks y (s.phase i))
    (hdelta : ∀ x, (req i).delta x p = (req i).delta x (s.phase i) + if x = y then d else 0) :
    (s'.enter i p).Inv req balances := by
  unfold Bank.addTo at hs
  split at hs
  case isFalse => cases hs
  next hfree =>
  obtain rfl := Option.some_inj.mp hs
  have hother : ∀ x, x ≠ y →
      s.accounts.updateWhere i (fun x _ => x = y) (· + d) x = s.accounts x :=
    fun x hx => Table.updateWhere_neg fun _ _ => decide_eq_false hx
  -- the row of `y` is locked by the transfer, if there is one
  have hrow : (∃ v, (s.accounts y).pending = some (i, some v) ∧
        s.accounts.updateWhere i (fun x _ => x = y) (· + d) y =
          (s.accounts y).put i (some (v + d))) ∨
      (s.accounts y).committed = none ∧
        s.accounts.updateWhere i (fun x _ => x = y) (· + d) y = s.accounts y := by
    cases hc : (s.accounts y).committed with
    | some v₀ =>
      obtain ⟨v, hv⟩ := h.locked y i hy (by rw [hc]; exact Option.some_ne_none _)
      obtain ⟨-, -, heq⟩ := h.pending y i v hv
      rw [hc, Option.map_some] at heq
      subst heq
      refine Or.inl ⟨_, hv, Table.updateWhere_pos ?_ (decide_eq_true rfl)⟩
      exact Row.seen_of_pending hv
    | none =>
      refine Or.inr ⟨rfl, Table.updateWhere_neg fun v hv => ?_⟩
      have hown : ∀ v, (s.accounts y).pending ≠ some (i, v) :=
        fun v hv => (h.pending y i v hv).2.1 hc
      rw [Row.seen_of_ne hown, hc] at hv
      cases hv
  refine h.act rfl rfl hp hi ?_ ?_ ?_ ?_
  · intro x
    show (s.accounts.updateWhere i _ _ x).committed = _
    by_cases hx : x = y
    · subst hx
      rcases hrow with ⟨v, -, heq⟩ | ⟨-, heq⟩
      · rw [heq, Row.committed_put]
      · rw [heq]
    · rw [hother x hx]
  · intro x j v hj
    show (s.accounts.updateWhere i _ _ x).pending = _ ↔ _
    by_cases hx : x = y
    · subst hx
      rcases hrow with ⟨w, hw, heq⟩ | ⟨-, heq⟩
      · rw [heq, Row.pending_put, hw]
        simp [Ne.symm hj]
      · rw [heq]
    · rw [hother x hx]
  · intro x v hv
    replace hv : (s.accounts.updateWhere i (fun x _ => x = y) (· + d) x).pending = some (i, v) := hv
    by_cases hx : x = y
    · subst hx
      rcases hrow with ⟨w, hw, heq⟩ | ⟨hnone, heq⟩
      · rw [heq, Row.pending_put] at hv
        obtain ⟨hl, hc, hwv⟩ := h.pending x i _ hw
        obtain ⟨c, hc'⟩ := Option.ne_none_iff_exists'.mp hc
        rw [hc', Option.map_some, Option.some_inj] at hwv
        refine ⟨(hlocks x).mpr hl, hc, ?_⟩
        rw [← (Prod.mk.inj (Option.some_inj.mp hv)).2, hc', Option.map_some, hdelta, if_pos rfl,
          hwv, Int.add_assoc]
      · rw [heq] at hv
        exact absurd hnone (h.pending x i v hv).2.1
    · rw [hother x hx] at hv
      obtain ⟨hl, hc, heq⟩ := h.pending x i v hv
      refine ⟨(hlocks x).mpr hl, hc, ?_⟩
      rw [heq, hdelta, if_neg hx, Int.add_zero]
  · intro x hx hc
    show ∃ v, (s.accounts.updateWhere i _ _ x).pending = _
    obtain ⟨v, hv⟩ := h.locked x i ((hlocks x).mp hx) hc
    by_cases hxy : x = y
    · subst hxy
      rcases hrow with ⟨w, -, heq⟩ | ⟨-, heq⟩
      · rw [heq]
        exact ⟨_, rfl⟩
      · rw [heq]
        exact ⟨v, hv⟩
    · rw [hother x hxy]
      exact ⟨v, hv⟩

/-- **A transfer commits**, and is the last one in the log. -/
theorem Inv.commit (h : s.Inv req balances) (hi : s.phase i = .credited) :
    ({ s with accounts := s.accounts.commit i, log := s.log ++ [i] }.enter i
      .committed).Inv req balances := by
  have hnew : i ∉ s.log := by
    rw [h.log, hi]
    exact nofun
  have hne : ∀ {j}, j ≠ i → Function.update s.phase i .committed j = s.phase j :=
    fun hj => Function.update_of_ne hj _ _
  have hkept : ∀ x j v, j ≠ i → (s.accounts x).pending = some (j, v) →
      s.accounts.commit i x = s.accounts x :=
    fun x j v hj hv => Row.commit_of_ne (Row.pending_ne_of_ne hv hj)
  refine { pending := fun x j v hv => ?_, locked := fun x j hj hc => ?_, log := fun j => ?_
           nodup := ?_, serial := fun x => ?_ }
  · obtain ⟨hv, hj⟩ := Row.pending_of_commit hv
    show (req j).Locks x (Function.update s.phase i .committed j) ∧
      (s.accounts.commit i x).committed ≠ none ∧
        v = (s.accounts.commit i x).committed.map
          (· + (req j).delta x (Function.update s.phase i .committed j))
    rw [hkept x j v hj hv, hne hj]
    exact h.pending x j v hv
  · replace hj : (req j).Locks x (Function.update s.phase i .committed j) := hj
    have hji : j ≠ i := by
      rintro rfl
      rw [Function.update_self] at hj
      exact hj
    rw [hne hji] at hj
    by_cases hown : ∃ v, (s.accounts x).pending = some (i, v)
    · obtain ⟨v, hv⟩ := hown
      obtain ⟨w, hw⟩ := h.locked x j hj (h.pending x i v hv).2.1
      rw [hv, Option.some_inj] at hw
      exact absurd (Prod.mk.inj hw).1.symm hji
    · push Not at hown
      have hsame : s.accounts.commit i x = s.accounts x := Row.commit_of_ne hown
      replace hc : (s.accounts.commit i x).committed ≠ none := hc
      show ∃ v, (s.accounts.commit i x).pending = _
      rw [hsame] at hc ⊢
      exact h.locked x j hj hc
  · show j ∈ s.log ++ [i] ↔ Function.update s.phase i .committed j = .committed
    by_cases hj : j = i
    · subst hj
      simp
    · rw [hne hj, ← h.log]
      simp [hj]
  · show (s.log ++ [i]).Nodup
    rw [← List.concat_eq_append]
    exact h.nodup.concat hnew
  · show (s.accounts.commit i x).committed =
      (((s.log ++ [i]).map req).foldl Transfer.apply balances) x
    rw [List.map_append, List.foldl_append, List.map_singleton, List.foldl_cons, List.foldl_nil,
      Transfer.apply, ← h.serial x]
    by_cases hown : ∃ v, (s.accounts x).pending = some (i, v)
    · obtain ⟨v, hv⟩ := hown
      have hcommit : s.accounts.commit i x = ⟨v, none⟩ := Row.commit_of_pending hv
      rw [hcommit, (h.pending x i v hv).2.2, hi]
    · push Not at hown
      have hsame : s.accounts.commit i x = s.accounts x := Row.commit_of_ne hown
      rw [hsame]
      cases hc : (s.accounts x).committed with
      | none => rfl
      | some v₀ =>
        -- a row that the transfer has not locked is not one of its accounts
        have hlocks : ¬ (x = (req i).first ∨ x = (req i).second) := by
          intro hx
          obtain ⟨v, hv⟩ := h.locked x i (by rw [hi]; exact hx)
            (by rw [hc]; exact Option.some_ne_none v₀)
          exact hown v hv
        rw [Transfer.mem_locks, not_or] at hlocks
        rw [Option.map_some, Transfer.delta_of_ne hlocks.1 hlocks.2, Int.add_zero]

/-- A transfer fails, and leaves nothing behind. -/
theorem Inv.abort (h : s.Inv req balances) (hi : s.phase i ≠ .committed) :
    ({ s with accounts := s.accounts.rollback i }.enter i .aborted).Inv req balances := by
  refine h.act rfl rfl nofun hi (fun _ => Row.committed_rollback) ?_ ?_ (fun _ hx => hx.elim)
  · intro x j v hj
    constructor
    · exact fun hv => (Row.pending_of_rollback hv).1
    · intro hv
      have hsame : s.accounts.rollback i x = s.accounts x :=
        Row.rollback_of_ne (Row.pending_ne_of_ne hv hj)
      show (s.accounts.rollback i x).pending = _
      rw [hsame, hv]
  · intro x v hv
    exact absurd rfl (Row.pending_of_rollback hv).2

/-- **Every statement keeps the invariant.** -/
theorem Inv.step (h : s.Inv req balances) {a : Action ι} (hs : Bank.step req s a = some s') :
    s'.Inv req balances := by
  cases a with
  | next i =>
    simp only [Bank.step, Bank.next] at hs
    split at hs
    -- a transfer that begins has no lock yet
    · next hi =>
      obtain rfl := Option.some_inj.mp hs
      refine h.act rfl rfl nofun (by rw [hi]; exact nofun) (fun _ => rfl) (fun _ _ _ _ => Iff.rfl)
        ?_ fun _ hx => hx.elim
      intro x v hv
      have hl := (h.pending x i v hv).1
      rw [hi] at hl
      exact hl.elim
    -- the first lock, and the second
    · next hi =>
      obtain ⟨s₁, hs₁, rfl⟩ := Option.map_eq_some_iff.mp hs
      refine h.lock hs₁ nofun (by rw [hi]; exact nofun) (fun x => ?_) (fun x => ?_) fun x => rfl
      · rw [hi]
        exact (or_iff_right id).symm
      · rw [hi]
        rfl
    · next hi =>
      obtain ⟨s₁, hs₁, rfl⟩ := Option.map_eq_some_iff.mp hs
      refine h.lock hs₁ nofun (by rw [hi]; exact nofun) (fun x => ?_) (fun x => ?_) fun x => rfl
      · rw [hi]
        exact Iff.rfl
      · rw [hi]
        rfl
    -- the debit of the one account and the credit of the other, both of them locked
    · next hi =>
      obtain ⟨s₁, hs₁, rfl⟩ := Option.map_eq_some_iff.mp hs
      refine h.addTo hs₁ nofun (by rw [hi]; exact nofun) (fun x => ?_) ?_ fun x => ?_
      · rw [hi]
        exact Iff.rfl
      · rw [hi]
        exact ((req i).mem_locks _).mpr (Or.inl rfl)
      · rw [hi]
        exact (Int.zero_add _).symm
    · next hi =>
      obtain ⟨s₁, hs₁, rfl⟩ := Option.map_eq_some_iff.mp hs
      refine h.addTo hs₁ nofun (by rw [hi]; exact nofun) (fun x => ?_) ?_ fun x => ?_
      · rw [hi]
        exact Iff.rfl
      · rw [hi]
        exact ((req i).mem_locks _).mpr (Or.inr rfl)
      · rw [hi]
        rfl
    · next hi =>
      obtain rfl := Option.some_inj.mp hs
      exact h.commit hi
    · cases hs
  | abort i =>
    simp only [Bank.step, Bank.abort] at hs
    split at hs
    · cases hs
    · cases hs
    · cases hs
    -- a transfer that has not ended is rolled back
    · next _ hnot _ =>
      obtain rfl := Option.some_inj.mp hs
      exact h.abort fun hc => hnot hc

end Bank

/-! ### The balances -/

/-- A transfer between two accounts of `S` leaves their total. -/
theorem Transfer.sum_apply [DecidableEq A] {balances : A → Option ℤ} {t : Transfer A} {S : Finset A}
    (hexist : ∀ x ∈ S, balances x ≠ none) (ha : t.a ∈ S) (hb : t.b ∈ S) :
    ∑ x ∈ S, (t.apply balances x).getD 0 = ∑ x ∈ S, (balances x).getD 0 := by
  have hadd : ∀ x ∈ S, (t.apply balances x).getD 0 =
      (balances x).getD 0 + t.delta x .credited := by
    intro x hx
    obtain ⟨v, hv⟩ := Option.ne_none_iff_exists'.mp (hexist x hx)
    rw [Transfer.apply, hv]
    rfl
  have hzero : ∑ x ∈ S, t.delta x .credited = 0 := by
    simp only [Transfer.delta]
    rw [Finset.sum_add_distrib, Finset.sum_ite_eq', Finset.sum_ite_eq', if_pos ha, if_pos hb]
    exact Int.add_left_neg _
  rw [Finset.sum_congr rfl hadd, Finset.sum_add_distrib, hzero, Int.add_zero]

/-- Transfers between accounts of `S` leave their total. -/
theorem sum_foldl_apply [DecidableEq A] {S : Finset A} {ts : List (Transfer A)}
    (hts : ∀ t ∈ ts, t.a ∈ S ∧ t.b ∈ S) {balances : A → Option ℤ}
    (hexist : ∀ x ∈ S, balances x ≠ none) :
    ∑ x ∈ S, (ts.foldl Transfer.apply balances x).getD 0 = ∑ x ∈ S, (balances x).getD 0 := by
  induction ts generalizing balances with
  | nil => rfl
  | cons t ts ih =>
    obtain ⟨ha, hb⟩ := hts t List.mem_cons_self
    rw [List.foldl_cons, ih (fun t ht => hts t (List.mem_cons_of_mem _ ht)),
      Transfer.sum_apply hexist ha hb]
    intro x hx
    obtain ⟨v, hv⟩ := Option.ne_none_iff_exists'.mp (hexist x hx)
    rw [Transfer.apply, hv]
    exact Option.some_ne_none _

/-- **Transfers are serializable**, in either variant and in any mixture of them.  In every
interleaving of transfers, with any of them failing at any statement, the balances are those
after the committed transfers, each taken once and in the order of their commits; and accounts
that exist and that all these transfers stay within keep their total. -/
theorem transfer_serializable [DecidableEq ι] [LinearOrder A] (req : ι → Transfer A)
    (balances : A → Option ℤ) {s : Bank ι A} (h : Reach (Bank.step req) (Bank.init balances) s) :
    (∀ x, (s.accounts x).committed = ((s.log.map req).foldl Transfer.apply balances) x) ∧
    s.log.Nodup ∧ (∀ i, i ∈ s.log ↔ s.phase i = .committed) ∧
    ∀ S : Finset A, (∀ x ∈ S, balances x ≠ none) → (∀ i ∈ s.log, (req i).a ∈ S ∧ (req i).b ∈ S) →
      ∑ x ∈ S, ((s.accounts x).committed).getD 0 = ∑ x ∈ S, (balances x).getD 0 := by
  have hinv := h.invariant (P := Bank.Inv req balances) (.init req balances) fun _ _ _ hs => hs.step
  refine ⟨hinv.serial, hinv.nodup, hinv.log, fun S hexist hS => ?_⟩
  rw [Finset.sum_congr rfl fun x _ => by rw [hinv.serial x]]
  refine sum_foldl_apply (fun t ht => ?_) hexist
  obtain ⟨i, hi, rfl⟩ := List.mem_map.mp ht
  exact hS i hi

/-- Two crossing transfers of each variant, between accounts `1` and `2`. -/
def crossing (ordered : Bool) (i : Bool) : Transfer ℕ :=
  if i then ⟨2, 1, 30, ordered⟩ else ⟨1, 2, 50, ordered⟩

/-- The first transfer is undone after its debit, the second one waits for it and commits. -/
theorem transfer_serializable_crossing : ∃ s : Bank Bool ℕ,
    exec (Bank.step (crossing true)) (Bank.init fun x => if x ≤ 2 then some 100 else none)
      [.next false, .next true, .next false, .next false, .next false, .abort false, .next true,
        .next true, .next true, .next true, .next true] = some s ∧
    (s.accounts 1).committed = some 130 ∧ (s.accounts 2).committed = some 70 ∧
    ∑ x ∈ {1, 2}, ((s.accounts x).committed).getD 0 = 200 := by
  -- one transfer is aborted after its first lock, and the other commits
  have hrun : (exec (Bank.step (crossing true))
      (Bank.init fun x => if x ≤ 2 then some 100 else none)
      [.next false, .next true, .next false, .next false, .next false, .abort false, .next true,
        .next true, .next true, .next true, .next true]).map (fun s =>
          (s.log, (s.accounts 1).committed, (s.accounts 2).committed)) =
      some ([true], some 130, some 70) := by decide
  obtain ⟨s, hs, hobs⟩ := Option.map_eq_some_iff.mp hrun
  simp only [Prod.mk.injEq] at hobs
  obtain ⟨hlog, h₁, h₂⟩ := hobs
  refine ⟨s, hs, h₁, h₂, ?_⟩
  obtain ⟨-, -, -, hsum⟩ := transfer_serializable (crossing true) _ (.of_exec _ hs)
  refine (hsum {1, 2} (by decide) ?_).trans (by decide)
  rw [hlog]
  decide

end Locking
end SepLab
