import Mathlib.Logic.Function.Basic
import Mathlib.Data.Option.Basic
import Mathlib.Tactic.Common

/-!
# Rows under READ COMMITTED

A row that concurrent transactions read and write: its last committed version,
and the version of the transaction that holds its lock, if one does.  A statement
reads the transaction's own version or else the committed one, and may write only
a row that no other transaction has locked; it waits otherwise.  A transaction
publishes all its versions at once, or drops them.

## Main definitions

* `Row`, `Table` — a row, and the rows of a table by key; `none` is an absent row.
* `Row.free`, `Row.seen`, `Table.put` — what a statement of a transaction sees and does.
* `Table.updateWhere` — a statement that writes the rows which a condition picks.
* `Table.commit`, `Table.rollback` — the end of a transaction.

## Main results

* `Row.commit_of_pending`, `Row.commit_of_ne` — what a commit does to a row.
* `Row.pending_of_rollback` — a lock that outlives a rollback is another transaction's.
* `Table.committed_put`, `Table.pending_of_put` — what a write does to the rows.
* `Table.updateWhere_cases` — a statement writes a row that it picks, or leaves it.
-/

namespace SepLab

/-- A row of a table: `pending` is the lock's holder with its own version. -/
structure Row (T V : Type*) where
  committed : Option V
  pending : Option (T × Option V)

namespace Row

variable {T V : Type*}

/-- A row that was never written. -/
def empty : Row T V := ⟨none, none⟩

variable [DecidableEq T]

/-- No transaction but `t` has locked the row. -/
def free (r : Row T V) (t : T) : Bool :=
  match r.pending with
  | none => true
  | some (u, _) => u = t

/-- What a statement of transaction `t` sees of the row. -/
def seen (r : Row T V) (t : T) : Option V :=
  match r.pending with
  | none => r.committed
  | some (u, v) => if u = t then v else r.committed

/-- Transaction `t` locks the row and writes the version `v`. -/
def put (r : Row T V) (t : T) (v : Option V) : Row T V := { r with pending := some (t, v) }

/-- The row after transaction `t` has committed. -/
def commit (r : Row T V) (t : T) : Row T V :=
  match r.pending with
  | none => r
  | some (u, v) => if u = t then ⟨v, none⟩ else r

/-- The row after transaction `t` has rolled back. -/
def rollback (r : Row T V) (t : T) : Row T V :=
  match r.pending with
  | none => r
  | some (u, _) => if u = t then ⟨r.committed, none⟩ else r

variable {r : Row T V} {t u : T} {v : Option V}

omit [DecidableEq T] in
@[simp] theorem committed_put : (r.put t v).committed = r.committed := rfl

omit [DecidableEq T] in
@[simp] theorem pending_put : (r.put t v).pending = some (t, v) := rfl

theorem free_iff : r.free t = true ↔ ∀ u v, r.pending = some (u, v) → u = t := by
  unfold free
  cases h : r.pending with
  | none => simp
  | some p =>
    obtain ⟨u, v⟩ := p
    simp only [decide_eq_true_eq, Option.some_inj, Prod.mk.injEq]
    exact ⟨fun hu _ _ h => h.1 ▸ hu, fun h => h u v ⟨rfl, rfl⟩⟩

omit [DecidableEq T] in
/-- A row that another transaction has locked is not locked by `t`. -/
theorem pending_ne_of_ne (h : r.pending = some (u, v)) (hu : u ≠ t) (w : Option V) :
    r.pending ≠ some (t, w) := by
  intro hw
  rw [h, Option.some_inj, Prod.mk.injEq] at hw
  exact hu hw.1

theorem seen_of_ne (h : ∀ v, r.pending ≠ some (t, v)) : r.seen t = r.committed := by
  unfold seen
  split
  · rfl
  next u v hp =>
    refine if_neg ?_
    rintro rfl
    exact h v hp

theorem seen_of_none (h : r.pending = none) : r.seen t = r.committed :=
  seen_of_ne fun v hv => by rw [h] at hv; cases hv

theorem seen_of_pending (h : r.pending = some (t, v)) : r.seen t = v := by
  unfold seen
  rw [h]
  exact if_pos rfl

theorem commit_of_pending (h : r.pending = some (t, v)) : r.commit t = ⟨v, none⟩ := by
  unfold commit
  rw [h]
  exact if_pos rfl

theorem commit_of_ne (h : ∀ v, r.pending ≠ some (t, v)) : r.commit t = r := by
  unfold commit
  split
  · rfl
  next u v hp =>
    refine if_neg ?_
    rintro rfl
    exact h v hp

/-- A lock that outlives a commit is another transaction's. -/
theorem pending_of_commit (h : (r.commit t).pending = some (u, v)) :
    r.pending = some (u, v) ∧ u ≠ t := by
  by_cases ht : ∃ w, r.pending = some (t, w)
  · obtain ⟨w, hw⟩ := ht
    rw [commit_of_pending hw] at h
    cases h
  · push Not at ht
    rw [commit_of_ne ht] at h
    refine ⟨h, ?_⟩
    rintro rfl
    exact ht v h

theorem rollback_of_ne (h : ∀ v, r.pending ≠ some (t, v)) : r.rollback t = r := by
  unfold rollback
  split
  · rfl
  next u v hp =>
    refine if_neg ?_
    rintro rfl
    exact h v hp

@[simp] theorem committed_rollback : (r.rollback t).committed = r.committed := by
  unfold rollback
  split
  · rfl
  · split <;> rfl

/-- A lock that outlives a rollback is another transaction's. -/
theorem pending_of_rollback (h : (r.rollback t).pending = some (u, v)) :
    r.pending = some (u, v) ∧ u ≠ t := by
  by_cases ht : ∃ w, r.pending = some (t, w)
  · obtain ⟨w, hw⟩ := ht
    simp [rollback, hw] at h
  · push Not at ht
    rw [rollback_of_ne ht] at h
    refine ⟨h, ?_⟩
    rintro rfl
    exact ht v h

end Row

/-- The rows of a table, by key. -/
abbrev Table (K T V : Type*) := K → Row T V

namespace Table

variable {K T V : Type*} [DecidableEq K] [DecidableEq T]

omit [DecidableEq T] in
/-- Transaction `t` writes the version `v` of the row `k`. -/
def put (tbl : Table K T V) (k : K) (t : T) (v : Option V) : Table K T V :=
  Function.update tbl k ((tbl k).put t v)

/-- Transaction `t` commits. -/
def commit (tbl : Table K T V) (t : T) : Table K T V := fun k => (tbl k).commit t

/-- Transaction `t` rolls back. -/
def rollback (tbl : Table K T V) (t : T) : Table K T V := fun k => (tbl k).rollback t

variable {tbl : Table K T V} {k : K} {t : T}

omit [DecidableEq T] in
@[simp] theorem put_self {v : Option V} : tbl.put k t v k = (tbl k).put t v :=
  Function.update_self k _ tbl

omit [DecidableEq T] in
theorem put_of_ne {k' : K} {v : Option V} (h : k' ≠ k) : tbl.put k t v k' = tbl k' :=
  Function.update_of_ne h _ tbl

omit [DecidableEq T] in
/-- A write commits nothing. -/
theorem committed_put (k' : K) (v : Option V) :
    (tbl.put k t v k').committed = (tbl k').committed := by
  by_cases hk : k' = k
  · rw [hk, put_self, Row.committed_put]
  · rw [put_of_ne hk]

omit [DecidableEq T] in
/-- What is pending after a write has been written, or was before. -/
theorem pending_of_put {k' : K} {v : Option V} {w : T × Option V}
    (h : (tbl.put k t v k').pending = some w) :
    k' = k ∧ w = (t, v) ∨ k' ≠ k ∧ (tbl k').pending = some w := by
  by_cases hk : k' = k
  · rw [hk, put_self, Row.pending_put] at h
    exact Or.inl ⟨hk, (Option.some_inj.mp h).symm⟩
  · rw [put_of_ne hk] at h
    exact Or.inr ⟨hk, h⟩

omit [DecidableEq K] in
/-- Transaction `t` writes the rows that it sees and the condition `p` picks; with
the identity for `f` it only locks them. -/
def updateWhere (tbl : Table K T V) (t : T) (p : K → V → Bool) (f : V → V) : Table K T V := fun k =>
  match (tbl k).seen t with
  | some v => if p k v then (tbl k).put t (some (f v)) else tbl k
  | none => tbl k

variable {p : K → V → Bool} {f : V → V}

omit [DecidableEq K] in
theorem updateWhere_pos {v : V} (hv : (tbl k).seen t = some v) (hp : p k v = true) :
    tbl.updateWhere t p f k = (tbl k).put t (some (f v)) := by
  unfold updateWhere
  rw [hv]
  exact if_pos hp

omit [DecidableEq K] in
theorem updateWhere_neg (h : ∀ v, (tbl k).seen t = some v → p k v = false) :
    tbl.updateWhere t p f k = tbl k := by
  unfold updateWhere
  split
  · next v hv => exact if_neg (by simp [h v hv])
  · rfl

omit [DecidableEq K] in
/-- A row is picked, and seen to be, or it stays as it is. -/
theorem updateWhere_cases (tbl : Table K T V) (t : T) (p : K → V → Bool) (f : V → V) (k : K) :
    (∃ v, (tbl k).seen t = some v ∧ p k v = true ∧
      tbl.updateWhere t p f k = (tbl k).put t (some (f v))) ∨ tbl.updateWhere t p f k = tbl k := by
  by_cases h : ∃ v, (tbl k).seen t = some v ∧ p k v = true
  · obtain ⟨v, hv, hp⟩ := h
    exact Or.inl ⟨v, hv, hp, updateWhere_pos hv hp⟩
  · refine Or.inr (updateWhere_neg fun v hv => ?_)
    rw [← Bool.not_eq_true]
    exact fun hp => h ⟨v, hv, hp⟩

end Table
end SepLab
