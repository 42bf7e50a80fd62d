import Mathlib.Data.List.Nodup
import SepLab.Outbox.Relay

/-!
# Relays that skip locked rows deliver exactly once

A pass delivers only rows that it has locked and that no committed pass has
marked, and it commits its deliveries together with their marks.  The ids of the
rows play no part in this, nor does the order in which the writers commit.

## Main definitions

* `Phase.todo`, `Phase.sent` — the rows a pass has still to deliver, and its deliveries.
* `State.Published` — the committed row is marked.
* `State.Inv` — what locks, marks and deliveries have to do with each other.

## Main results

* `State.Inv.step` — every statement keeps the invariant.
* `relay_skip_locked_exactly_once` — no row is delivered twice, and a pass that
  finds nothing has nothing left to do.
* `relay_skip_locked_leaves_rows` — what it may leave all the same.
-/

namespace SepLab
namespace Outbox

variable {R ι : Type}

/-- The rows that a pass has locked and not yet marked. -/
def Phase.todo : Phase R → List ℕ
  | .publishing todo _ => todo.map Prod.fst
  | .sending d todo _ => d.outboxId :: todo.map Prod.fst
  | _ => []

/-- The deliveries of a pass whose rows it has marked. -/
def Phase.sent : Phase R → List (Delivery R)
  | .publishing _ sent | .sending _ _ sent => sent
  | _ => []

/-- The rows that a pass has marked. -/
def Phase.marked (p : Phase R) : List ℕ := p.sent.map Delivery.outboxId

/-- The transaction may have locked rows. -/
def Phase.Locks : Phase R → Prop
  | .recorded _ | .stamped _ | .publishing .. | .sending .. => True
  | _ => False

theorem Phase.Locks.open {p : Phase R} (h : p.Locks) : p.Open := by
  cases p <;> trivial

namespace State

/-- The committed version of row `k` is marked as published. -/
def Published (s : State ι R) (k : ℕ) : Prop :=
  ∃ row, (s.outbox k).committed = some row ∧ row.publishedAt ≠ none

/-- A row is marked by the pass that delivers it, and locked by that pass until
the mark and the delivery are committed. -/
structure Inv (s : State ι R) : Prop where
  fresh : ∀ {k}, s.nextOutbox ≤ k → s.outbox k = .empty
  pending : ∀ {k i v}, (s.outbox k).pending = some (i, v) → (s.phase i).Locks ∧
    ∃ row, v = some row ∧
      (row.publishedAt ≠ none ↔ s.Published k ∨ k ∈ (s.phase i).marked)
  todo : ∀ {i k}, k ∈ (s.phase i).todo →
    ∃ row, (s.outbox k).pending = some (i, some row) ∧ row.publishedAt = none
  marked : ∀ {i k}, k ∈ (s.phase i).marked → ¬ s.Published k ∧
    ∃ row, (s.outbox k).pending = some (i, some row)
  nodup : ∀ i, (s.phase i).todo.Nodup ∧ (s.phase i).marked.Nodup
  delivered : ∀ k, (s.Published k → (s.deliveries k).length = 1) ∧
    (¬ s.Published k → s.deliveries k = [])

variable {s s' : State ι R}

theorem Inv.init : (init : State ι R).Inv where
  fresh _ := rfl
  pending h := by cases h
  todo h := by cases h
  marked h := by cases h
  nodup _ := ⟨List.nodup_nil, List.nodup_nil⟩
  delivered k := by
    refine ⟨?_, fun _ => rfl⟩
    rintro ⟨row, hrow, -⟩
    cases hrow

/-- No row is delivered by two committed passes, nor twice by one. -/
theorem Inv.deliveries_le (h : s.Inv) (k : ℕ) : (s.deliveries k).length ≤ 1 := by
  by_cases hk : s.Published k
  · exact Nat.le_of_eq ((h.delivered k).1 hk)
  · rw [(h.delivered k).2 hk]
    exact Nat.zero_le 1

theorem published_congr {k : ℕ} (hk : (s'.outbox k).committed = (s.outbox k).committed) :
    s'.Published k ↔ s.Published k := by
  unfold Published
  rw [hk]

/-- What a pass has still to do is neither published nor marked. -/
theorem Inv.not_of_todo (h : s.Inv) {i : ι} {k : ℕ} (hk : k ∈ (s.phase i).todo) :
    ¬ s.Published k ∧ k ∉ (s.phase i).marked := by
  obtain ⟨row, hp, hrow⟩ := h.todo hk
  obtain ⟨-, row', hv, hiff⟩ := h.pending hp
  obtain rfl := Option.some_inj.mp hv
  exact not_or.mp fun hor => hiff.mpr hor hrow

variable [DecidableEq ι]

/-- The marks that a transaction sees on a row which is free for it. -/
theorem Inv.seen (h : s.Inv) {i : ι} {k : ℕ} {row : OutboxRow R}
    (hfree : (s.outbox k).free i = true) (hrow : (s.outbox k).seen i = some row) :
    row.publishedAt ≠ none ↔ s.Published k ∨ k ∈ (s.phase i).marked := by
  -- without a pending version the committed one is seen
  cases hp : (s.outbox k).pending with
  | none =>
    rw [Row.seen_of_none hp] at hrow
    constructor
    · exact fun hpub => Or.inl ⟨row, hrow, hpub⟩
    · rintro (⟨row', hrow', hpub⟩ | hk)
      · rw [hrow, Option.some_inj] at hrow'
        exact hrow' ▸ hpub
      · obtain ⟨-, row', hp'⟩ := h.marked hk
        rw [hp] at hp'
        cases hp'
  | some q =>
    obtain ⟨j, v⟩ := q
    obtain rfl := Row.free_iff.mp hfree j v hp
    obtain ⟨-, row', rfl, hiff⟩ := h.pending hp
    rw [Row.seen_of_pending hp, Option.some_inj] at hrow
    exact hrow ▸ hiff

/-- **A transaction acts.**  It goes to phase `p` and writes rows that are free
for it, whose marks tell which of them it has delivered. -/
theorem Inv.act (h : s.Inv) {i : ι} {p : Phase R}
    (hphase : s'.phase = Function.update s.phase i p) (hdel : s'.delivered = s.delivered)
    (hfresh : ∀ k, s'.nextOutbox ≤ k → s'.outbox k = .empty)
    (hrow : ∀ k, s'.outbox k = s.outbox k ∧ (k ∈ p.marked → k ∈ (s.phase i).marked) ∨
      (s.outbox k).free i = true ∧ ∃ row, s'.outbox k = (s.outbox k).put i (some row) ∧
        (row.publishedAt ≠ none ↔ s.Published k ∨ k ∈ p.marked))
    (hlocks : ∀ k v, (s'.outbox k).pending = some (i, v) → p.Locks)
    (hsub : (s.phase i).marked ⊆ p.marked)
    (htodo : ∀ k ∈ p.todo,
      ∃ row, (s'.outbox k).pending = some (i, some row) ∧ row.publishedAt = none)
    (hmarked : ∀ k ∈ p.marked, ¬ s.Published k ∧
      ∃ row, (s'.outbox k).pending = some (i, some row))
    (hnodup : p.todo.Nodup ∧ p.marked.Nodup) : s'.Inv := by
  have hcom : ∀ k, (s'.outbox k).committed = (s.outbox k).committed := by
    intro k
    rcases hrow k with ⟨hk, -⟩ | ⟨-, row, hk, -⟩
    · rw [hk]
    · rw [hk, Row.committed_put]
  have hpub : ∀ k, s'.Published k ↔ s.Published k := fun k => published_congr (hcom k)
  -- the rows of the others stay as they are
  have hkept : ∀ {j k v}, j ≠ i → (s.outbox k).pending = some (j, v) →
      s'.outbox k = s.outbox k := by
    intro j k v hj hp
    rcases hrow k with ⟨hk, -⟩ | ⟨hfree, -⟩
    · exact hk
    · exact absurd (Row.free_iff.mp hfree j v hp) hj
  refine ⟨fun hk => hfresh _ hk, fun {k j v} hp => ?_, fun {j k} hk => ?_, fun {j k} hk => ?_,
    fun j => ?_, fun k => ?_⟩
  · rw [hpub]
    by_cases hj : j = i
    · subst hj
      rw [hphase, Function.update_self]
      refine ⟨hlocks k v hp, ?_⟩
      rcases hrow k with ⟨hk, hold⟩ | ⟨-, row, hk, hiff⟩
      · rw [hk] at hp
        obtain ⟨-, row, hv, hiff⟩ := h.pending hp
        exact ⟨row, hv, hiff.trans (or_congr_right ⟨fun hm => hsub hm, hold⟩)⟩
      · rw [hk, Row.pending_put, Option.some_inj, Prod.mk.injEq] at hp
        exact ⟨row, hp.2.symm, hiff⟩
    · rw [hphase, Function.update_of_ne hj]
      rcases hrow k with ⟨hk, -⟩ | ⟨-, row, hk, -⟩
      · rw [hk] at hp
        exact h.pending hp
      · rw [hk, Row.pending_put, Option.some_inj, Prod.mk.injEq] at hp
        exact absurd hp.1.symm hj
  · rw [hphase] at hk
    by_cases hj : j = i
    · subst hj
      rw [Function.update_self] at hk
      exact htodo k hk
    · rw [Function.update_of_ne hj] at hk
      obtain ⟨row, hp, hrow⟩ := h.todo hk
      exact ⟨row, by rw [hkept hj hp, hp], hrow⟩
  · rw [hpub]
    rw [hphase] at hk
    by_cases hj : j = i
    · subst hj
      rw [Function.update_self] at hk
      exact hmarked k hk
    · rw [Function.update_of_ne hj] at hk
      obtain ⟨hnot, row, hp⟩ := h.marked hk
      exact ⟨hnot, row, by rw [hkept hj hp, hp]⟩
  · rw [hphase]
    by_cases hj : j = i
    · subst hj
      rw [Function.update_self]
      exact hnodup
    · rw [Function.update_of_ne hj]
      exact h.nodup j
  · rw [hpub, deliveries, hdel]
    exact h.delivered k

/-- A transaction goes on without writing any row. -/
theorem Inv.enter (h : s.Inv) {i : ι} {p : Phase R} (hlocks : (s.phase i).Locks → p.Locks)
    (htodo : p.todo = (s.phase i).todo) (hmarked : p.marked = (s.phase i).marked) :
    (s.enter i p).Inv := by
  refine h.act rfl rfl (fun _ => h.fresh) (fun k => Or.inl ⟨rfl, fun hk => hmarked ▸ hk⟩)
    (fun k v hp => hlocks (h.pending hp).1) (fun k hk => hmarked ▸ hk) ?_ ?_ ?_
  · rw [htodo]
    exact fun k hk => h.todo hk
  · rw [hmarked]
    exact fun k hk => h.marked hk
  · rw [htodo, hmarked]
    exact h.nodup i

/-- **A transaction ends.**  It leaves all its rows. -/
theorem Inv.leave (h : s.Inv) {i : ι} {p : Phase R}
    (hphase : s'.phase = Function.update s.phase i p) (hp : p.todo = [] ∧ p.marked = [])
    (hnext : s'.nextOutbox = s.nextOutbox)
    (hkept : ∀ k, (∀ v, (s.outbox k).pending ≠ some (i, v)) → s'.outbox k = s.outbox k)
    (hfree : ∀ k v, (s.outbox k).pending = some (i, v) → (s'.outbox k).pending = none)
    (hdel : ∀ k, (s'.Published k → (s'.deliveries k).length = 1) ∧
      (¬ s'.Published k → s'.deliveries k = [])) : s'.Inv := by
  -- rows pending in other transactions are theirs to keep
  have hother : ∀ {j k v}, j ≠ i → (s.outbox k).pending = some (j, v) →
      s'.outbox k = s.outbox k := by
    intro j k v hj hv
    refine hkept k fun w hw => hj ?_
    rw [hv, Option.some_inj, Prod.mk.injEq] at hw
    exact hw.1
  refine ⟨fun {k} hk => ?_, fun {k j v} hv => ?_, fun {j k} hk => ?_, fun {j k} hk => ?_,
    fun j => ?_, hdel⟩
  · rw [hnext] at hk
    have hempty := h.fresh hk
    rw [hkept k fun v => by simp [hempty, Row.empty], hempty]
  -- the row goes with the transaction, or stays as it was
  · by_cases hi : ∃ w, (s.outbox k).pending = some (i, w)
    · obtain ⟨w, hw⟩ := hi
      rw [hfree k w hw] at hv
      cases hv
    · push Not at hi
      have hk := hkept k hi
      rw [hk] at hv
      have hj : j ≠ i := by
        rintro rfl
        exact hi v hv
      rw [hphase, Function.update_of_ne hj, published_congr (congrArg Row.committed hk)]
      exact h.pending hv
  · rw [hphase] at hk
    by_cases hj : j = i
    · subst hj
      rw [Function.update_self, hp.1] at hk
      cases hk
    · rw [Function.update_of_ne hj] at hk
      obtain ⟨row, hv, hrow⟩ := h.todo hk
      exact ⟨row, by rw [hother hj hv, hv], hrow⟩
  · rw [hphase] at hk
    by_cases hj : j = i
    · subst hj
      rw [Function.update_self, hp.2] at hk
      cases hk
    · rw [Function.update_of_ne hj] at hk
      obtain ⟨hnot, row, hv⟩ := h.marked hk
      have hk' := hother hj hv
      rw [published_congr (congrArg Row.committed hk'), hk']
      exact ⟨hnot, row, hv⟩
  · rw [hphase]
    by_cases hj : j = i
    · subst hj
      rw [Function.update_self, hp.1, hp.2]
      exact ⟨List.nodup_nil, List.nodup_nil⟩
    · rw [Function.update_of_ne hj]
      exact h.nodup j

/-- The mark is all that the relays look at: a write that keeps it can be made by anybody. -/
theorem Inv.rewrite (h : s.Inv) {i : ι} {q : ℕ → OutboxRow R → Bool}
    {f : OutboxRow R → OutboxRow R} {p : Phase R} (hlocks : p.Locks)
    (hf : ∀ row, (f row).publishedAt = row.publishedAt)
    (hfree : ∀ k row, (s.outbox k).seen i = some row → q k row = true →
      (s.outbox k).free i = true)
    (hold : (s.phase i).marked = []) (hnew : p.marked = [])
    (htodo : ∀ k ∈ p.todo, ∃ row, (s.outbox k).seen i = some row ∧ q k row = true ∧
      row.publishedAt = none) (hnodup : p.todo.Nodup) :
    ({ s with outbox := s.outbox.updateWhere i q f }.enter i p).Inv := by
  refine h.act rfl rfl ?_ ?_ (fun _ _ _ => hlocks) ?_ ?_ ?_ ⟨hnodup, ?_⟩
  · intro k hk
    have hempty := h.fresh hk
    refine (Table.updateWhere_neg fun row hrow => ?_).trans hempty
    rw [hempty] at hrow
    cases hrow
  · intro k
    -- the UPDATE matches the row and rewrites it, or leaves it
    rcases Table.updateWhere_cases s.outbox i q f k with ⟨row, hseen, hq, hk⟩ | hk
    · refine Or.inr ⟨hfree k row hseen hq, f row, hk, ?_⟩
      rw [hf, hnew, ← hold]
      exact h.seen (hfree k row hseen hq) hseen
    · exact Or.inl ⟨hk, fun hm => by rwa [hold, ← hnew]⟩
  · rw [hold]
    exact List.nil_subset _
  · intro k hk
    obtain ⟨row, hseen, hq, hrow⟩ := htodo k hk
    refine ⟨f row, ?_, (hf row).trans hrow⟩
    show (s.outbox.updateWhere i q f k).pending = _
    rw [Table.updateWhere_pos hseen hq, Row.pending_put]
  · rw [hnew]
    exact fun k hk => absurd hk List.not_mem_nil
  · rw [hnew]
    exact List.nodup_nil

/-- A pass marks the row that it has just delivered. -/
theorem Inv.mark (h : s.Inv) {i : ι} {d : Delivery R} {todo : List (ℕ × R)}
    {sent : List (Delivery R)} {f : OutboxRow R → OutboxRow R}
    (hphase : s.phase i = .sending d todo sent) (hf : ∀ row, (f row).publishedAt ≠ none) :
    ({ s with outbox := s.outbox.updateWhere i (fun k _ => k = d.outboxId) f }.enter i
      (.publishing todo (sent ++ [d]))).Inv := by
  have hmarked : (s.phase i).marked = sent.map Delivery.outboxId := by rw [hphase]; rfl
  have hnew : (Phase.publishing todo (sent ++ [d])).marked =
      (s.phase i).marked ++ [d.outboxId] := by
    rw [hmarked]
    exact List.map_append
  -- the row to mark is the next one the relay has to send
  have htodo : (s.phase i).todo = d.outboxId :: todo.map Prod.fst := by rw [hphase]; rfl
  have hd : d.outboxId ∈ (s.phase i).todo := htodo ▸ List.mem_cons_self
  obtain ⟨hnot, hsent⟩ := h.not_of_todo hd
  obtain ⟨row, hp, hrow⟩ := h.todo hd
  have hself : s.outbox.updateWhere i (fun k _ => k = d.outboxId) f d.outboxId =
      (s.outbox d.outboxId).put i (some (f row)) :=
    Table.updateWhere_pos (Row.seen_of_pending hp) (decide_eq_true rfl)
  have hother : ∀ k, k ≠ d.outboxId →
      s.outbox.updateWhere i (fun k _ => k = d.outboxId) f k = s.outbox k :=
    fun k hk => Table.updateWhere_neg fun _ _ => decide_eq_false hk
  have hfree : (s.outbox d.outboxId).free i = true := by
    rw [Row.free_iff]
    intro u v hu
    rw [hp, Option.some_inj, Prod.mk.injEq] at hu
    exact hu.1.symm
  have hnodup := h.nodup i
  rw [htodo, List.nodup_cons] at hnodup
  refine h.act rfl rfl ?_ ?_ (fun _ _ _ => trivial) ?_ ?_ ?_ ⟨hnodup.1.2, ?_⟩
  · intro k hk
    refine (hother k ?_).trans (h.fresh hk)
    rintro rfl
    rw [h.fresh hk] at hp
    cases hp
  · intro k
    by_cases hk : k = d.outboxId
    · subst hk
      refine Or.inr ⟨hfree, f row, hself, fun _ => Or.inr ?_, fun _ => hf row⟩
      rw [hnew]
      exact List.mem_append_right _ List.mem_cons_self
    · refine Or.inl ⟨hother k hk, fun hm => ?_⟩
      rw [hnew, List.mem_append, List.mem_singleton] at hm
      exact hm.resolve_right hk
  · rw [hnew]
    exact List.subset_append_left _ _
  · intro k hk
    have hkd : k ≠ d.outboxId := by
      rintro rfl
      exact hnodup.1.1 hk
    obtain ⟨row', hp', hrow'⟩ := h.todo (htodo ▸ List.mem_cons_of_mem _ hk)
    exact ⟨row', (congrArg Row.pending (hother k hkd)).trans hp', hrow'⟩
  · intro k hk
    rw [hnew, List.mem_append, List.mem_singleton] at hk
    by_cases hkd : k = d.outboxId
    · subst hkd
      exact ⟨hnot, f row, congrArg Row.pending hself⟩
    · obtain ⟨hpub, row', hp'⟩ := h.marked (hk.resolve_right hkd)
      exact ⟨hpub, row', (congrArg Row.pending (hother k hkd)).trans hp'⟩
  · rw [hnew, List.nodup_append]
    refine ⟨hnodup.2, by simp, ?_⟩
    intro x hx y hy
    rw [List.mem_singleton.mp hy]
    rintro rfl
    exact hsent hx

/-- A writer inserts its row under a new id. -/
theorem Inv.insertOutbox (h : s.Inv) {i : ι} {c : Charge R} {row : OutboxRow R}
    (hphase : s.phase i = .charged c) (hrow : row.publishedAt = none) :
    ({ s with
      outbox := s.outbox.put s.nextOutbox i (some row)
      nextOutbox := s.nextOutbox + 1 }.enter i (.recorded c)).Inv := by
  -- the key is new, so its row is empty
  have hempty := h.fresh (Nat.le_refl s.nextOutbox)
  have hmarked : (s.phase i).marked = [] := by rw [hphase]; rfl
  refine h.act rfl rfl ?_ ?_ (fun _ _ _ => trivial) ?_ ?_ ?_ ⟨List.nodup_nil, List.nodup_nil⟩
  · intro k hk
    exact (Table.put_of_ne (Nat.ne_of_gt hk)).trans (h.fresh (Nat.le_of_succ_le hk))
  · intro k
    by_cases hk : k = s.nextOutbox
    · subst hk
      refine Or.inr ⟨by rw [hempty]; rfl, row, Table.put_self, fun hne => absurd hrow hne, ?_⟩
      rintro (⟨row', hrow', -⟩ | hm)
      · rw [hempty] at hrow'
        cases hrow'
      · cases hm
    · exact Or.inl ⟨Table.put_of_ne hk, fun hm => absurd hm List.not_mem_nil⟩
  · rw [hmarked]
    exact List.nil_subset _
  · exact fun k hk => absurd hk List.not_mem_nil
  · exact fun k hk => absurd hk List.not_mem_nil

omit [DecidableEq ι] in
/-- A pass that commits delivers each of its rows as often as it has marked it. -/
theorem length_deliveries {i : ι} {sent : List (Delivery R)}
    (hdel : s'.delivered = s.delivered ++ sent.map (Prod.mk i)) (k : ℕ) :
    (s'.deliveries k).length =
      (s.deliveries k).length + (sent.map Delivery.outboxId).count k := by
  unfold deliveries
  rw [← List.countP_eq_length_filter, ← List.countP_eq_length_filter, hdel, List.countP_append,
    List.countP_map, List.count, List.countP_map]
  rfl

/-- A transaction commits what it has written, and a pass its deliveries. -/
theorem Inv.commit (h : s.Inv) {i : ι}
    (hphase : s'.phase = Function.update s.phase i .committed)
    (houtbox : s'.outbox = s.outbox.commit i) (hnext : s'.nextOutbox = s.nextOutbox)
    (hdel : s'.delivered = s.delivered ++ (s.phase i).sent.map (Prod.mk i)) : s'.Inv := by
  -- what the transaction wrote is committed, and nothing else
  have hown : ∀ k v, (s.outbox k).pending = some (i, v) → s'.outbox k = ⟨v, none⟩ := by
    intro k v hv
    rw [houtbox]
    exact Row.commit_of_pending hv
  have hkept : ∀ k, (∀ v, (s.outbox k).pending ≠ some (i, v)) → s'.outbox k = s.outbox k := by
    intro k hk
    rw [houtbox]
    exact Row.commit_of_ne hk
  -- the rows published now are those of before and those it marked
  have hpub : ∀ k, s'.Published k ↔ s.Published k ∨ k ∈ (s.phase i).marked := by
    intro k
    by_cases hi : ∃ v, (s.outbox k).pending = some (i, v)
    · obtain ⟨v, hv⟩ := hi
      obtain ⟨-, row, rfl, hiff⟩ := h.pending hv
      rw [← hiff, Published, hown k _ hv]
      simp
    · push Not at hi
      rw [published_congr (congrArg Row.committed (hkept k hi))]
      refine ⟨Or.inl, fun hor => hor.resolve_right fun hm => ?_⟩
      obtain ⟨-, row, hp⟩ := h.marked hm
      exact hi _ hp
  refine h.leave hphase ⟨rfl, rfl⟩ hnext hkept (fun k v hv => by rw [hown k v hv]) fun k => ?_
  have hlen := length_deliveries hdel k
  rw [hpub, ← List.length_eq_zero_iff, hlen]
  change (_ → _ + (s.phase i).marked.count k = 1) ∧ (_ → _ + (s.phase i).marked.count k = 0)
  constructor
  -- a row is marked by one transaction at most, and only before it is published
  · rintro (hk | hk)
    · rw [(h.delivered k).1 hk, List.count_eq_zero_of_not_mem fun hm => (h.marked hm).1 hk]
    · rw [(h.delivered k).2 (h.marked hk).1, List.count_eq_one_of_mem (h.nodup i).2 hk]
      rfl
  · intro hk
    rw [not_or] at hk
    rw [(h.delivered k).2 hk.1, List.count_eq_zero_of_not_mem hk.2]
    rfl

/-- A transaction that is rolled back has delivered nothing. -/
theorem Inv.abort (h : s.Inv) {i : ι} :
    ({ s with outbox := s.outbox.rollback i }.enter i .aborted).Inv := by
  refine h.leave rfl ⟨rfl, rfl⟩ rfl (fun k hk => Row.rollback_of_ne hk) ?_ fun k => ?_
  · intro k v hv
    cases hp : ((s.outbox k).rollback i).pending with
    | none => exact hp
    | some q =>
      obtain ⟨hq, hne⟩ := Row.pending_of_rollback hp
      rw [hv, Option.some_inj] at hq
      exact absurd (congrArg Prod.fst hq).symm hne
  · rw [published_congr (s := s) Row.committed_rollback]
    exact h.delivered k

/-! ### What the `SELECT` finds -/

variable [DecidableEq R] {txn : ι → Txn R} {relay : Relay R} {i : ι}

theorem mem_found {k : ℕ} (hk : k ∈ (s.found i relay).map Prod.fst) :
    ∃ row, (s.outbox k).seen i = some row ∧ (s.outbox k).free i = true ∧
      relay.wants row = true := by
  obtain ⟨x, hx, rfl⟩ := List.mem_map.mp hk
  obtain ⟨k, -, hk⟩ := List.mem_filterMap.mp (List.mem_of_mem_take hx)
  obtain ⟨row, hrow, hrest⟩ := Option.bind_eq_some_iff.mp hk
  split at hrest
  · next hc =>
    obtain rfl := Option.some_inj.mp hrest
    rw [Bool.and_eq_true] at hc
    exact ⟨row, hrow, hc⟩
  · cases hrest

/-- No row is found twice. -/
theorem nodup_found : ((s.found i relay).map Prod.fst).Nodup := by
  unfold found
  rw [List.map_take, List.map_filterMap]
  refine (List.Nodup.filterMap ?_ List.nodup_range).sublist (List.take_sublist _ _)
  have hfst : ∀ {a b}, b ∈ (((s.outbox a).seen i).bind fun row =>
      if (s.outbox a).free i && relay.wants row then some (a, row.runId) else none).map
        Prod.fst → a = b := by
    intro a b hb
    obtain ⟨x, hx, rfl⟩ := Option.map_eq_some_iff.mp hb
    obtain ⟨row, -, hrest⟩ := Option.bind_eq_some_iff.mp hx
    split at hrest
    · exact congrArg Prod.fst (Option.some_inj.mp hrest)
    · cases hrest
  exact fun a a' b hb hb' => (hfst hb).trans (hfst hb').symm

/-- A `SELECT` that finds nothing has looked at every row, if its `LIMIT` is positive. -/
theorem wants_of_found_eq_nil (hbatch : 0 < relay.batch) (h : s.found i relay = []) {k : ℕ}
    {row : OutboxRow R} (hk : k < s.nextOutbox) (hseen : (s.outbox k).seen i = some row)
    (hfree : (s.outbox k).free i = true) : relay.wants row = false := by
  have hnil := (List.take_eq_nil_iff.mp h).resolve_left (by omega)
  have hnone := List.filterMap_eq_nil_iff.mp hnil k (List.mem_range.mpr hk)
  rw [hseen, Option.bind_some, hfree, Bool.true_and] at hnone
  rw [← Bool.not_eq_true]
  intro hw
  rw [if_pos hw] at hnone
  cases hnone

/-- **Every statement keeps the invariant.** -/
theorem Inv.step (h : s.Inv) {a : Action ι} (hs : step txn s a = some s') : s'.Inv := by
  cases a with
  | tick d =>
    obtain rfl := Option.some_inj.mp hs
    exact ⟨h.fresh, h.pending, h.todo, h.marked, h.nodup, h.delivered⟩
  | begin i =>
    simp only [Outbox.step, begin] at hs
    split at hs
    · next hphase =>
      obtain rfl := Option.some_inj.mp hs
      exact h.enter (by rw [hphase]; exact id) (by rw [hphase]; rfl) (by rw [hphase]; rfl)
    · cases hs
  | insertCharge i =>
    simp only [Outbox.step] at hs
    split at hs
    · simp only [insertCharge] at hs
      split at hs
      · next hphase =>
        obtain rfl := Option.some_inj.mp hs
        have h' : ({ s with nextCharge := s.nextCharge + 1 } : State ι R).Inv :=
          ⟨h.fresh, h.pending, h.todo, h.marked, h.nodup, h.delivered⟩
        exact h'.enter (by rw [hphase]; exact id) (by rw [hphase]; rfl) (by rw [hphase]; rfl)
      · cases hs
    · cases hs
  | insertOutbox i =>
    simp only [Outbox.step] at hs
    split at hs
    · simp only [State.insertOutbox] at hs
      split at hs
      · next c hphase =>
        obtain rfl := Option.some_inj.mp hs
        exact h.insertOutbox hphase rfl
      · cases hs
    · cases hs
  | stamp i =>
    simp only [Outbox.step] at hs
    split at hs
    · simp only [stamp] at hs
      split at hs
      · next c hphase =>
        split at hs
        · next hall =>
          obtain rfl := Option.some_inj.mp hs
          refine h.rewrite trivial (fun _ => rfl) ?_ (by rw [hphase]; rfl) rfl
            (fun k hk => absurd hk List.not_mem_nil) List.nodup_nil
          intro k row hrow hq
          refine List.all_eq_true.mp hall k (List.mem_filter.mpr ⟨List.mem_range.mpr ?_, ?_⟩)
          · by_contra hk
            rw [h.fresh (Nat.le_of_not_lt hk)] at hrow
            cases hrow
          · rw [hrow]
            exact hq
        · cases hs
      · cases hs
    · cases hs
  | select i =>
    simp only [Outbox.step] at hs
    split at hs
    · cases hs
    · next relay hrelay =>
      simp only [select] at hs
      split at hs
      · next hphase =>
        split at hs
        · cases hs
        · obtain rfl := Option.some_inj.mp hs
          refine h.rewrite trivial (fun _ => rfl) ?_ (by rw [hphase]; rfl) rfl ?_ nodup_found
          · intro k row hrow hq
            obtain ⟨_, -, hfree, -⟩ := mem_found (of_decide_eq_true hq)
            exact hfree
          · intro k hk
            obtain ⟨row, hrow, -, hw⟩ := mem_found hk
            refine ⟨row, hrow, decide_eq_true hk, ?_⟩
            rw [Relay.wants, Bool.and_eq_true] at hw
            exact Option.isNone_iff_eq_none.mp hw.2
      · cases hs
  | deliver i =>
    simp only [Outbox.step] at hs
    split at hs
    · cases hs
    · simp only [deliver] at hs
      split at hs
      · next oid runId todo sent hphase =>
        obtain rfl := Option.some_inj.mp hs
        exact h.enter (fun _ => trivial) (by rw [hphase]; rfl) (by rw [hphase]; rfl)
      · cases hs
  | mark i =>
    simp only [Outbox.step] at hs
    split at hs
    · cases hs
    · simp only [State.mark] at hs
      split at hs
      · next d todo sent hphase =>
        split at hs
        · obtain rfl := Option.some_inj.mp hs
          exact h.mark hphase fun _ => Option.some_ne_none s.clock
        · cases hs
      · cases hs
  | commit i =>
    simp only [Outbox.step, State.commit] at hs
    split at hs
    · next c hphase =>
      obtain rfl := Option.some_inj.mp hs
      refine h.commit rfl rfl rfl ?_
      rw [hphase]
      exact (List.append_nil _).symm
    · next sent hphase =>
      obtain rfl := Option.some_inj.mp hs
      refine h.commit rfl rfl rfl ?_
      rw [hphase]
      rfl
    · cases hs
  | abort i =>
    simp only [Outbox.step, State.abort] at hs
    split at hs
    · cases hs
    · cases hs
    · cases hs
    · rw [Option.some_inj] at hs
      exact hs ▸ h.abort

/-- A pass with a positive `LIMIT` that finds nothing leaves nothing of its run behind. -/
theorem Inv.drained (h : s.Inv) : s.Drained txn fun relay row =>
    0 < relay.batch ∧ ∀ runId, relay.runId = some runId → row.runId = runId := by
  intro i relay s' htxn hopen hs hphase' k row hrow ⟨hbatch, hrun⟩
  simp only [Outbox.step, htxn, select] at hs
  split at hs
  · next hphase =>
    rw [if_neg (by omega)] at hs
    obtain rfl := Option.some_inj.mp hs
    replace hphase' : Function.update s.phase i (.publishing (s.found i relay) []) i =
      .publishing [] [] := hphase'
    rw [Function.update_self, Phase.publishing.injEq] at hphase'
    -- nobody is there to lock the row, for the pass has not begun to
    have hnone : (s.outbox k).pending = none := by
      cases hp : (s.outbox k).pending with
      | none => rfl
      | some q =>
        obtain ⟨hlocks, -⟩ := h.pending (i := q.1) (v := q.2) hp
        by_cases hj : q.1 = i
        · rw [hj, hphase] at hlocks
          exact hlocks.elim
        · exact absurd hlocks.open (hopen _ hj)
    have hlt : k < s.nextOutbox := by
      by_contra hk
      rw [h.fresh (Nat.le_of_not_lt hk)] at hrow
      cases hrow
    have hw := wants_of_found_eq_nil hbatch hphase'.1 hlt
      (by rw [Row.seen_of_none hnone, hrow]) (by rw [Row.free_iff]; simp [hnone])
    have hall : relay.runId.all (fun runId => row.runId = runId) = true := by
      cases hr : relay.runId with
      | none => rfl
      | some runId => exact decide_eq_true (hrun runId hr)
    rw [Relay.wants, hall, Bool.true_and] at hw
    refine (h.delivered k).1 ⟨row, hrow, fun hnot => ?_⟩
    rw [hnot] at hw
    cases hw
  · cases hs

end State

open State

variable [DecidableEq ι] [DecidableEq R]

/-- **Relays that skip locked rows deliver exactly once.**  In every interleaving of
writers and passes, each row is delivered by one committed pass at most; and when
no other transaction is open and a pass with a positive `LIMIT` finds no row, every
committed row that its `run_id` does not exclude has been delivered once. -/
theorem relay_skip_locked_exactly_once (txn : ι → Txn R) {s : State ι R}
    (h : Reach (step txn) init s) : (∀ k, (s.deliveries k).length ≤ 1) ∧
      s.Drained txn fun relay row =>
        0 < relay.batch ∧ ∀ runId, relay.runId = some runId → row.runId = runId := by
  have hinv := h.invariant (P := Inv) .init fun _ _ _ hs hstep => hs.step hstep
  exact ⟨hinv.deliveries_le, hinv.drained⟩

/-- Two writers, and four passes. -/
def twoWriters (i : Fin 6) : Txn ℕ :=
  match i with
  | 0 => .writer 6 500
  | 1 => .writer 6 700
  | 5 => .pass (publishBatch "relay-a" 100 "poll")
  | _ => .pass (relaySkipLocked 6 "relay-0" 20)

/-- Writer `0` takes the first id and commits after the row of writer `1` is locked
by pass `2`; pass `3` skips both rows, and pass `4` delivers the first one. -/
def inversion : List (Action (Fin 6)) :=
  [.begin 0, .insertCharge 0, .insertOutbox 0, .begin 1, .insertCharge 1, .insertOutbox 1,
    .stamp 1, .commit 1, .begin 2, .select 2, .begin 3, .select 3, .commit 3, .stamp 0, .commit 0,
    .deliver 2, .mark 2, .begin 4, .select 4, .commit 2, .deliver 4, .mark 4, .commit 4, .begin 5]

/-- Both rows are delivered, though the second one was first, and pass `5` finds nothing. -/
theorem relay_skip_locked_exactly_once_inversion : ∃ s s' : State (Fin 6) ℕ,
    s.delivered = [(2, ⟨6, "skip-locked", none, 2⟩), (4, ⟨6, "skip-locked", none, 1⟩)] ∧
    step twoWriters s (.select 5) = some s' ∧ s'.phase 5 = .publishing [] [] ∧
    (∀ k, (s.deliveries k).length ≤ 1) ∧ s.Drained twoWriters fun relay row =>
      0 < relay.batch ∧ ∀ runId, relay.runId = some runId → row.runId = runId := by
  have hrun : ((exec (step twoWriters) init inversion).bind fun s =>
      (step twoWriters s (.select 5)).map fun s' => (s.delivered, s'.phase 5)) =
      some ([(2, ⟨6, "skip-locked", none, 2⟩), (4, ⟨6, "skip-locked", none, 1⟩)],
        .publishing [] []) := by decide
  obtain ⟨s, hs, hrest⟩ := Option.bind_eq_some_iff.mp hrun
  obtain ⟨s', hs', hobs⟩ := Option.map_eq_some_iff.mp hrest
  rw [Prod.mk.injEq] at hobs
  exact ⟨s, s', hobs.1, hs', hobs.2, relay_skip_locked_exactly_once twoWriters (.of_exec _ hs)⟩

/-- A writer, and a pass run with `relay`. -/
def writerAnd (relay : Relay ℕ) : Bool → Txn ℕ
  | false => .writer 6 500
  | true => .pass relay

/-- The writer commits, and the pass begins. -/
def writerThenPass : List (Action Bool) :=
  [.begin false, .insertCharge false, .insertOutbox false, .stamp false, .commit false,
    .begin true]

/-- A pass that finds nothing although the writer's row is not delivered. -/
theorem not_drained_of_run {relay : Relay ℕ}
    (hrun : ((exec (step (writerAnd relay)) init writerThenPass).bind fun s =>
      (step (writerAnd relay) s (.select true)).map fun s' =>
        (s.phase false, s'.phase true, (s.outbox 1).committed.isSome, (s.deliveries 1).length)) =
      some (.committed, .publishing [] [], true, 0)) :
    ∃ s, Reach (step (writerAnd relay)) init s ∧
      ¬ s.Drained (writerAnd relay) fun _ _ => True := by
  obtain ⟨s, hs, hrest⟩ := Option.bind_eq_some_iff.mp hrun
  obtain ⟨s', hs', hobs⟩ := Option.map_eq_some_iff.mp hrest
  simp only [Prod.mk.injEq] at hobs
  obtain ⟨h₀, h₁, hsome, hlen⟩ := hobs
  obtain ⟨row, hrow⟩ := Option.isSome_iff_exists.mp hsome
  refine ⟨s, .of_exec _ hs, fun hd => ?_⟩
  have hopen : ∀ j, j ≠ true → ¬ (s.phase j).Open := by
    intro j hj
    cases j with
    | false =>
      rw [h₀]
      exact id
    | true => exact absurd rfl hj
  have hone := hd true relay s' rfl hopen hs' h₁ 1 row hrow trivial
  rw [hlen] at hone
  cases hone

/-- A pass that finds no row leaves those of another run, and with `LIMIT 0` all of them. -/
theorem relay_skip_locked_leaves_rows :
    (¬ ∀ s, Reach (step (writerAnd (relaySkipLocked 7 "relay-0" 20))) init s →
      (∀ k, (s.deliveries k).length ≤ 1) ∧
        s.Drained (writerAnd (relaySkipLocked 7 "relay-0" 20)) fun _ _ => True) ∧
    ¬ ∀ s, Reach (step (writerAnd (relaySkipLocked 6 "relay-0" 0))) init s →
      (∀ k, (s.deliveries k).length ≤ 1) ∧
        s.Drained (writerAnd (relaySkipLocked 6 "relay-0" 0)) fun _ _ => True := by
  constructor
  · intro h
    obtain ⟨s, hs, hnot⟩ := @not_drained_of_run (relaySkipLocked 7 "relay-0" 20) (by decide)
    exact hnot (h s hs).2
  · intro h
    obtain ⟨s, hs, hnot⟩ := @not_drained_of_run (relaySkipLocked 6 "relay-0" 0) (by decide)
    exact hnot (h s hs).2

end Outbox
end SepLab
