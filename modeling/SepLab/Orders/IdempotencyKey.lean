import Mathlib.Data.Int.Notation
import SepLab.Lib.ReadCommitted
import SepLab.Lib.Transition

/-!
# An idempotency key in the transaction of the charge

`create_order_with_key_fixed` of the lab's API: a call looks its key up, and
otherwise inserts an order, a charge and the key in one transaction.  The key's
unique constraint makes an `INSERT` wait for another transaction that has inserted
the key, and fail once that one has committed.  Columns that nothing here reads or
sets (`created_at`) are left out.

## Main definitions

* `Order`, `Charge`, `Request` — the rows, and what a call is given.
* `State`, `Action`, `createOrderWithKeyFixed` — the calls' statements in any order.
* `State.OncePerKey` — what the key is for.
* `State.Inv` — what keys, orders and charges have to do with each other.

## Main results

* `State.Inv.step` — every statement keeps the invariant.
* `create_order_with_key_fixed_once` — a key is charged once, and names one order.
-/

namespace SepLab
namespace Orders

/-- A row of `orders`. -/
structure Order where
  id : ℕ
  customerId : ℤ
  status : String
  totalCents : ℤ
deriving DecidableEq

/-- A row of `charges`. -/
structure Charge where
  id : ℕ
  orderId : ℕ
  amountCents : ℤ
deriving DecidableEq

/-- What a call is given. -/
structure Request (K : Type) where
  key : K
  customerId : ℤ
  amountCents : ℤ

/-- How far a call has got. -/
inductive Phase
  | idle
  /-- The session is open. -/
  | looking
  /-- The key was not found. -/
  | missing
  | ordered (order : Order)
  | charged (order : Order) (charge : Charge)
  /-- All three rows are inserted. -/
  | keyed (order : Order) (charge : Charge)
  | committed (order : Order)
  | returned (orderId : ℕ)
  /-- The transaction is rolled back, and the call has raised. -/
  | aborted
deriving DecidableEq

/-- The three tables, the sequences and the calls.  Each committed order and charge is
listed with its call; a row of `idempotency_keys` is the `order_id` of its key. -/
structure State (ι K : Type) where
  keys : Table K ι ℕ
  orders : List (ι × Order)
  charges : List (ι × Charge)
  nextOrder : ℕ
  nextCharge : ℕ
  phase : ι → Phase

/-- The statements of the calls. -/
inductive Action (ι : Type)
  | begin (i : ι)
  /-- `SELECT … FROM idempotency_keys WHERE key = …`. -/
  | lookup (i : ι)
  /-- `INSERT INTO orders`, by the first `flush`. -/
  | insertOrder (i : ι)
  /-- `INSERT INTO charges`, by the flush of `commit`. -/
  | insertCharge (i : ι)
  /-- `INSERT INTO idempotency_keys`, by the flush of `commit`. -/
  | insertKey (i : ι)
  | commit (i : ι)
  | answer (i : ι)
  /-- The call fails before its commit, or its connection is lost. -/
  | abort (i : ι)

variable {ι K : Type} [DecidableEq ι] [DecidableEq K]

namespace State

/-- Empty tables, and no call. -/
def init : State ι K := ⟨fun _ => .empty, [], [], 1, 1, fun _ => .idle⟩

/-- The call `i` moves on to `p`. -/
def enter (s : State ι K) (i : ι) (p : Phase) : State ι K :=
  { s with phase := Function.update s.phase i p }

variable (req : ι → Request K)

/-- The key is looked up, and an order that it has is returned. -/
def lookup (s : State ι K) (i : ι) : Option (State ι K) :=
  match s.phase i with
  | .looking =>
    match (s.keys (req i).key).seen i with
    | some orderId => some (s.enter i (.returned orderId))
    | none => some (s.enter i .missing)
  | _ => none

/-- The order is inserted. -/
def insertOrder (s : State ι K) (i : ι) : Option (State ι K) :=
  match s.phase i with
  | .missing =>
    some ({ s with nextOrder := s.nextOrder + 1 }.enter i
      (.ordered ⟨s.nextOrder, (req i).customerId, "pending", (req i).amountCents⟩))
  | _ => none

/-- The charge of the order is inserted. -/
def insertCharge (s : State ι K) (i : ι) : Option (State ι K) :=
  match s.phase i with
  | .ordered o =>
    some ({ s with nextCharge := s.nextCharge + 1 }.enter i
      (.charged o ⟨s.nextCharge, o.id, (req i).amountCents⟩))
  | _ => none

/-- The transaction of call `i` is rolled back. -/
def rollback (s : State ι K) (i : ι) : State ι K :=
  { s with keys := s.keys.rollback i }.enter i .aborted

/-- It waits while another transaction has inserted the key, and raises an `IntegrityError`
if the key is there. -/
def insertKey (s : State ι K) (i : ι) : Option (State ι K) :=
  match s.phase i with
  | .charged o c =>
    if (s.keys (req i).key).free i then
      match (s.keys (req i).key).committed with
      | some _ => some (s.rollback i)
      | none =>
        some ({ s with keys := s.keys.put (req i).key i (some o.id) }.enter i (.keyed o c))
    else none
  | _ => none

/-- The transaction commits the order, the charge and the key together. -/
def commit (s : State ι K) (i : ι) : Option (State ι K) :=
  match s.phase i with
  | .keyed o c =>
    some ({ s with
      keys := s.keys.commit i
      orders := s.orders ++ [(i, o)]
      charges := s.charges ++ [(i, c)] }.enter i (.committed o))
  | _ => none

/-- The order's id is returned. -/
def answer (s : State ι K) (i : ι) : Option (State ι K) :=
  match s.phase i with
  | .committed o => some (s.enter i (.returned o.id))
  | _ => none

/-- The call fails, and its transaction is rolled back. -/
def abort (s : State ι K) (i : ι) : Option (State ι K) :=
  match s.phase i with
  | .idle | .committed _ | .returned _ | .aborted => none
  | _ => some (s.rollback i)

omit [DecidableEq ι] in
/-- Those of the rows `xs` that come from calls with key `k`. -/
def ofKey {α : Type} (k : K) (xs : List (ι × α)) : List (ι × α) :=
  xs.filter fun x => (req x.1).key = k

omit [DecidableEq ι] in
/-- The committed orders of the calls with key `k`. -/
def ordersOf (s : State ι K) (k : K) : List (ι × Order) := ofKey req k s.orders

omit [DecidableEq ι] in
/-- The committed charges of the calls with key `k`. -/
def chargesOf (s : State ι K) (k : K) : List (ι × Charge) := ofKey req k s.charges

variable {req} {α : Type} {k : K} {i : ι}

omit [DecidableEq ι] in
theorem ofKey_concat_self (h : (req i).key = k) (xs : List (ι × α)) (a : α) :
    ofKey req k (xs ++ [(i, a)]) = ofKey req k xs ++ [(i, a)] := by
  simp [ofKey, h]

omit [DecidableEq ι] in
theorem ofKey_concat_of_ne (h : k ≠ (req i).key) (xs : List (ι × α)) (a : α) :
    ofKey req k (xs ++ [(i, a)]) = ofKey req k xs := by
  simp [ofKey, h.symm]

end State

/-- One statement of one call of `create_order_with_key_fixed`. -/
def createOrderWithKeyFixed (req : ι → Request K) (s : State ι K) :
    Action ι → Option (State ι K)
  | .begin i =>
    match s.phase i with
    | .idle => some (s.enter i .looking)
    | _ => none
  | .lookup i => s.lookup req i
  | .insertOrder i => s.insertOrder req i
  | .insertCharge i => s.insertCharge req i
  | .insertKey i => s.insertKey req i
  | .commit i => s.commit i
  | .answer i => s.answer i
  | .abort i => s.abort i

namespace State

variable (req : ι → Request K)

omit [DecidableEq ι] in
/-- What the key is for: it is charged once, for one order, which every call that
succeeds returns; a call that fails leaves nothing behind. -/
structure OncePerKey (s : State ι K) : Prop where
  once : ∀ k, (s.chargesOf req k).length ≤ 1 ∧ (s.ordersOf req k).length ≤ 1
  loser : ∀ i, s.phase i = .aborted → (∀ o, (i, o) ∉ s.orders) ∧ ∀ c, (i, c) ∉ s.charges
  same : ∀ i j a b, (req i).key = (req j).key → s.phase i = .returned a →
    s.phase j = .returned b → a = b
  answer : ∀ i orderId, s.phase i = .returned orderId → ∃ j o c,
    s.ordersOf req (req i).key = [(j, o)] ∧ s.chargesOf req (req i).key = [(j, c)] ∧
    o.id = orderId ∧ c.orderId = orderId

omit [DecidableEq ι] [DecidableEq K] in
/-- What holds of call `i` in the phase `p`. -/
def CallOk (s : State ι K) (i : ι) : Phase → Prop
  | .charged o c => c.orderId = o.id
  | .keyed o c => c.orderId = o.id ∧ (s.keys (req i).key).pending = some (i, some o.id)
  | .committed o => (s.keys (req i).key).committed = some o.id
  | .returned orderId => (s.keys (req i).key).committed = some orderId
  | _ => True

omit [DecidableEq ι] in
/-- A key is either there, with the one order and the one charge of its calls, or has none. -/
def KeyOk (s : State ι K) (k : K) : Option ℕ → Prop
  | some orderId => ∃ j o c, s.ordersOf req k = [(j, o)] ∧ s.chargesOf req k = [(j, c)] ∧
      o.id = orderId ∧ c.orderId = orderId
  | none => s.ordersOf req k = [] ∧ s.chargesOf req k = []

/-- The call has committed. -/
def Done (s : State ι K) (i : ι) : Prop :=
  (∃ o, s.phase i = .committed o) ∨ ∃ orderId, s.phase i = .returned orderId

omit [DecidableEq ι] in
/-- A key that a transaction has inserted is not there yet; orders and charges come with
their keys. -/
structure Inv (s : State ι K) : Prop where
  call : ∀ i, CallOk req s i (s.phase i)
  pending : ∀ {k i v}, (s.keys k).pending = some (i, v) →
    (req i).key = k ∧ (s.keys k).committed = none ∧ ∃ o c, s.phase i = .keyed o c
  key : ∀ k, KeyOk req s k (s.keys k).committed
  orders : ∀ {i o}, (i, o) ∈ s.orders → s.Done i
  charges : ∀ {i c}, (i, c) ∈ s.charges → s.Done i

variable {req} {s s' : State ι K}

omit [DecidableEq ι] in
theorem Inv.init : Inv req (init : State ι K) where
  call _ := trivial
  pending h := by cases h
  key _ := ⟨rfl, rfl⟩
  orders h := by cases h
  charges h := by cases h

omit [DecidableEq ι] [DecidableEq K] in
/-- What others do leaves a call as it is, if committed keys stay and they leave alone the
key that it has inserted. -/
theorem CallOk.mono {i : ι} {p : Phase} (h : CallOk req s i p)
    (hcom : ∀ k v, (s.keys k).committed = some v → (s'.keys k).committed = some v)
    (hown : ∀ v, (s.keys (req i).key).pending = some (i, v) →
      s'.keys (req i).key = s.keys (req i).key) : CallOk req s' i p := by
  cases p with
  | charged o c => exact h
  | keyed o c => exact ⟨h.1, by rw [hown _ h.2, h.2]⟩
  | committed o => exact hcom _ _ h
  | returned orderId => exact hcom _ _ h
  | _ => trivial

omit [DecidableEq ι] in
theorem KeyOk.congr {k : K} {v : Option ℕ} (h : KeyOk req s k v)
    (horders : s'.ordersOf req k = s.ordersOf req k)
    (hcharges : s'.chargesOf req k = s.chargesOf req k) : KeyOk req s' k v := by
  unfold KeyOk at h ⊢
  rw [horders, hcharges]
  exact h

omit [DecidableEq K] in
/-- A call that has committed still has, if its phase moves on from there. -/
theorem Done.mono {i j : ι} {p : Phase} (hphase : s'.phase = Function.update s.phase i p)
    (hi : s.Done i → s'.Done i) (hj : s.Done j) : s'.Done j := by
  by_cases hji : j = i
  · subst hji
    exact hi hj
  · unfold Done
    rw [hphase, Function.update_of_ne hji]
    exact hj

/-- **A call acts.**  It goes to phase `p`, committed keys stay, and what others have
inserted stays theirs. -/
theorem Inv.act (h : Inv req s) {i : ι} {p : Phase}
    (hphase : s'.phase = Function.update s.phase i p) (hcall : CallOk req s' i p)
    (hcom : ∀ k v, (s.keys k).committed = some v → (s'.keys k).committed = some v)
    (hkept : ∀ k j v, j ≠ i → (s.keys k).pending = some (j, v) → s'.keys k = s.keys k)
    (hpending : ∀ k j v, (s'.keys k).pending = some (j, v) →
      j ≠ i ∧ (s.keys k).pending = some (j, v) ∨
        j = i ∧ (req i).key = k ∧ (s'.keys k).committed = none ∧ ∃ o c, p = .keyed o c)
    (hkey : ∀ k, KeyOk req s' k (s'.keys k).committed)
    (horders : ∀ j o, (j, o) ∈ s'.orders → s'.Done j)
    (hcharges : ∀ j c, (j, c) ∈ s'.charges → s'.Done j) : Inv req s' := by
  refine ⟨?_, ?_, hkey, fun {j o} => horders j o, fun {j c} => hcharges j c⟩
  · intro j
    rw [hphase]
    -- the call that acts, and every other one, whose row nobody touches
    by_cases hj : j = i
    · subst hj
      rw [Function.update_self]
      exact hcall
    · rw [Function.update_of_ne hj]
      apply (h.call j).mono hcom
      intro v hv
      exact hkept _ j v hj hv
  · intro k j v hv
    rw [hphase]
    rcases hpending k j v hv with ⟨hj, hv⟩ | ⟨rfl, hk, hnone, hp⟩
    · rw [Function.update_of_ne hj, hkept k j v hj hv]
      exact h.pending hv
    · rw [Function.update_self]
      exact ⟨hk, hnone, hp⟩

/-- A call that commits nothing acts on the key that it inserts only. -/
theorem Inv.act_own (h : Inv req s) {i : ι} {p : Phase}
    (hphase : s'.phase = Function.update s.phase i p) (hcall : CallOk req s' i p)
    (hcom : ∀ k, (s'.keys k).committed = (s.keys k).committed)
    (horders : s'.orders = s.orders) (hcharges : s'.charges = s.charges)
    (hkept : ∀ k j v, j ≠ i → (s.keys k).pending = some (j, v) → s'.keys k = s.keys k)
    (hpending : ∀ k j v, (s'.keys k).pending = some (j, v) →
      j ≠ i ∧ (s.keys k).pending = some (j, v) ∨
        j = i ∧ (req i).key = k ∧ (s.keys k).committed = none ∧ ∃ o c, p = .keyed o c)
    (hdone : s.Done i → s'.Done i) : Inv req s' := by
  refine h.act hphase hcall (fun k v hv => by rw [hcom, hv]) hkept ?_ ?_ ?_ ?_
  · intro k j v hv
    rw [hcom]
    exact hpending k j v hv
  · intro k
    rw [hcom]
    exact (h.key k).congr (congrArg (ofKey req k) horders) (congrArg (ofKey req k) hcharges)
  · intro j o ho
    exact (h.orders (horders ▸ ho)).mono hphase hdone
  · intro j c hc
    exact (h.charges (hcharges ▸ hc)).mono hphase hdone

/-- A call goes on without touching the tables. -/
theorem Inv.enter (h : Inv req s) {i : ι} {p : Phase} (hcall : CallOk req s i p)
    (hkeyed : ∀ o c, s.phase i ≠ .keyed o c) (hdone : s.Done i → (s.enter i p).Done i) :
    Inv req (s.enter i p) := by
  refine h.act_own rfl (hcall.mono (fun _ _ => id) fun _ _ => rfl) (fun _ => rfl) rfl rfl
    (fun _ _ _ _ _ => rfl) ?_ hdone
  intro k j v hv
  refine Or.inl ⟨?_, hv⟩
  rintro rfl
  obtain ⟨-, -, o, c, hp⟩ := h.pending hv
  exact hkeyed o c hp

/-- A call that fails takes back the key that it has inserted. -/
theorem Inv.rollback (h : Inv req s) {i : ι} (hdone : ¬ s.Done i) :
    Inv req (s.rollback i) := by
  refine h.act_own rfl trivial (fun k => Row.committed_rollback) rfl rfl ?_ ?_
    fun hd => absurd hd hdone
  · intro k j v hj hv
    apply Row.rollback_of_ne
    intro w hw
    rw [hv, Option.some_inj, Prod.mk.injEq] at hw
    exact hj hw.1
  · intro k j v hv
    exact Or.inl (Row.pending_of_rollback hv).symm

/-- A call inserts its key, which is not there and which nobody else has inserted. -/
theorem Inv.insertKey (h : Inv req s) {i : ι} {o : Order} {c : Charge}
    (hphase : s.phase i = .charged o c) (hfree : (s.keys (req i).key).free i = true)
    (hnone : (s.keys (req i).key).committed = none) :
    Inv req ({ s with keys := s.keys.put (req i).key i (some o.id) }.enter i (.keyed o c)) := by
  have hself : s.keys.put (req i).key i (some o.id) (req i).key =
      (s.keys (req i).key).put i (some o.id) := Table.put_self
  have hcall := h.call i
  rw [hphase] at hcall
  refine h.act_own rfl ⟨hcall, congrArg Row.pending hself⟩ ?_ rfl rfl ?_ ?_ ?_
  · exact fun k => Table.committed_put k _
  · intro k j v hj hv
    refine Table.put_of_ne ?_
    rintro rfl
    exact hj (Row.free_iff.mp hfree j v hv)
  · intro k j v hv
    rcases Table.pending_of_put hv with ⟨rfl, heq⟩ | ⟨hk, hold⟩
    · exact Or.inr ⟨(Prod.mk.inj heq).1, rfl, hnone, o, c, rfl⟩
    -- an older row of its own would put the call after its insert already
    · refine Or.inl ⟨?_, hold⟩
      rintro rfl
      exact hk (h.pending hold).1.symm
  · rintro (⟨o', hp⟩ | ⟨orderId, hp⟩)
    · rw [hphase] at hp
      cases hp
    · rw [hphase] at hp
      cases hp

/-- A call commits: its key is there, with its order and its charge. -/
theorem Inv.commit (h : Inv req s) {i : ι} {o : Order} {c : Charge}
    (hphase : s.phase i = .keyed o c) :
    Inv req ({ s with
      keys := s.keys.commit i
      orders := s.orders ++ [(i, o)]
      charges := s.charges ++ [(i, c)] }.enter i (.committed o)) := by
  have hcall := h.call i
  rw [hphase] at hcall
  obtain ⟨hc, hp⟩ := hcall
  have hnone : (s.keys (req i).key).committed = none := (h.pending hp).2.1
  have hself : s.keys.commit i (req i).key = ⟨some o.id, none⟩ := Row.commit_of_pending hp
  have hother : ∀ k, k ≠ (req i).key → s.keys.commit i k = s.keys k := by
    intro k hk
    apply Row.commit_of_ne
    intro v hv
    exact hk (h.pending hv).1.symm
  have hdone : ({ s with
      keys := s.keys.commit i
      orders := s.orders ++ [(i, o)]
      charges := s.charges ++ [(i, c)] }.enter i (.committed o)).Done i :=
    Or.inl ⟨o, Function.update_self _ _ _⟩
  refine h.act rfl (congrArg Row.committed hself) ?_ ?_ ?_ ?_ ?_ ?_
  · intro k v hv
    show (s.keys.commit i k).committed = some v
    rw [hother k fun hk => by simp [hk, hnone] at hv, hv]
  · exact fun k j v hj hv => Row.commit_of_ne (Row.pending_ne_of_ne hv hj)
  · exact fun k j v hv => Or.inl (Row.pending_of_commit hv).symm
  · intro k
    show KeyOk req _ k (s.keys.commit i k).committed
    have hk := h.key k
    by_cases hki : k = (req i).key
    · -- no call with this key has committed before
      subst hki
      rw [hnone] at hk
      rw [hself]
      refine ⟨i, o, c, ?_, ?_, rfl, hc⟩
      · exact (ofKey_concat_self rfl s.orders o).trans (congrArg (· ++ [(i, o)]) hk.1)
      · exact (ofKey_concat_self rfl s.charges c).trans (congrArg (· ++ [(i, c)]) hk.2)
    · rw [hother k hki]
      exact hk.congr (ofKey_concat_of_ne hki s.orders o) (ofKey_concat_of_ne hki s.charges c)
  · intro j o' ho'
    rcases List.mem_append.mp ho' with ho' | ho'
    · exact (h.orders ho').mono rfl fun _ => hdone
    · obtain ⟨rfl, -⟩ := Prod.mk.inj (List.mem_singleton.mp ho')
      exact hdone
  · intro j c' hc'
    rcases List.mem_append.mp hc' with hc' | hc'
    · exact (h.charges hc').mono rfl fun _ => hdone
    · obtain ⟨rfl, -⟩ := Prod.mk.inj (List.mem_singleton.mp hc')
      exact hdone

/-- **Every statement keeps the invariant.** -/
theorem Inv.step (h : Inv req s) {a : Action ι}
    (hs : createOrderWithKeyFixed req s a = some s') : Inv req s' := by
  cases a with
  | begin i =>
    simp only [createOrderWithKeyFixed] at hs
    split at hs
    · next hphase =>
      obtain rfl := Option.some_inj.mp hs
      apply h.enter
      · trivial
      · simp [hphase]
      · simp [Done, hphase]
    · cases hs
  | lookup i =>
    simp only [createOrderWithKeyFixed, lookup] at hs
    split at hs
    · next hphase =>
      have hnokey : ∀ o c, s.phase i ≠ .keyed o c := by simp [hphase]
      split at hs
      · next orderId hseen =>
        obtain rfl := Option.some_inj.mp hs
        rw [Row.seen_of_ne] at hseen
        · apply h.enter _ hnokey
          · simp [Done, hphase]
          · exact hseen
        -- a row of its own that is pending belongs to a call that has inserted its key
        · intro v hv
          obtain ⟨-, -, o, c, hp⟩ := h.pending hv
          exact hnokey o c hp
      · obtain rfl := Option.some_inj.mp hs
        apply h.enter _ hnokey
        · simp [Done, hphase]
        · trivial
    · cases hs
  | insertOrder i =>
    simp only [createOrderWithKeyFixed, insertOrder] at hs
    split at hs
    · next hphase =>
      obtain rfl := Option.some_inj.mp hs
      have h' : Inv req { s with nextOrder := s.nextOrder + 1 } :=
        ⟨h.call, h.pending, h.key, h.orders, h.charges⟩
      apply h'.enter
      · trivial
      · simp [hphase]
      · simp [Done, hphase]
    · cases hs
  | insertCharge i =>
    simp only [createOrderWithKeyFixed, insertCharge] at hs
    split at hs
    · next o hphase =>
      obtain rfl := Option.some_inj.mp hs
      have h' : Inv req { s with nextCharge := s.nextCharge + 1 } :=
        ⟨h.call, h.pending, h.key, h.orders, h.charges⟩
      apply h'.enter
      · rfl
      · simp [hphase]
      · simp [Done, hphase]
    · cases hs
  | insertKey i =>
    simp only [createOrderWithKeyFixed, State.insertKey] at hs
    split at hs
    · next o c hphase =>
      split at hs
      · next hfree =>
        split at hs
        · obtain rfl := Option.some_inj.mp hs
          apply h.rollback
          simp [Done, hphase]
        · next hnone =>
          obtain rfl := Option.some_inj.mp hs
          exact h.insertKey hphase hfree hnone
      · cases hs
    · cases hs
  | commit i =>
    simp only [createOrderWithKeyFixed, State.commit] at hs
    split at hs
    · next o c hphase =>
      obtain rfl := Option.some_inj.mp hs
      exact h.commit hphase
    · cases hs
  | answer i =>
    simp only [createOrderWithKeyFixed, answer] at hs
    split at hs
    · next o hphase =>
      obtain rfl := Option.some_inj.mp hs
      have hcall := h.call i
      rw [hphase] at hcall
      apply h.enter
      · exact hcall
      · simp [hphase]
      · exact fun _ => Or.inr ⟨o.id, Function.update_self _ _ _⟩
    · cases hs
  | abort i =>
    simp only [createOrderWithKeyFixed, abort] at hs
    split at hs
    · cases hs
    · cases hs
    · cases hs
    · cases hs
    · next hidle hcommitted hreturned haborted =>
      obtain rfl := Option.some_inj.mp hs
      apply h.rollback
      rintro (⟨o, hp⟩ | ⟨orderId, hp⟩)
      · exact hcommitted o hp
      · exact hreturned orderId hp

omit [DecidableEq ι] in
/-- The invariant is as good as what the key is for. -/
theorem Inv.oncePerKey (h : Inv req s) : OncePerKey req s where
  once k := by
    have hk := h.key k
    unfold KeyOk at hk
    split at hk
    · obtain ⟨j, o, c, ho, hc, -⟩ := hk
      rw [ho, hc]
      exact ⟨Nat.le_refl 1, Nat.le_refl 1⟩
    · rw [hk.1, hk.2]
      exact ⟨Nat.zero_le 1, Nat.zero_le 1⟩
  loser i hi := by
    have hdone : ¬ s.Done i := by simp [Done, hi]
    exact ⟨fun o ho => hdone (h.orders ho), fun c hc => hdone (h.charges hc)⟩
  same i j a b hkey hi hj := by
    have ha := h.call i
    have hb := h.call j
    rw [hi] at ha
    rw [hj] at hb
    simp only [CallOk] at ha hb
    rw [hkey, hb, Option.some_inj] at ha
    exact ha.symm
  answer i orderId hi := by
    have hcall := h.call i
    rw [hi] at hcall
    simp only [CallOk] at hcall
    have hk := h.key (req i).key
    rw [hcall] at hk
    exact hk

end State

/-- **A key is charged once**, whatever the order of the calls' statements and whichever of
them fail, and every call that succeeds returns the order of the charge. -/
theorem create_order_with_key_fixed_once (req : ι → Request K) {s : State ι K}
    (h : Reach (createOrderWithKeyFixed req) State.init s) : s.OncePerKey req :=
  (h.invariant State.Inv.init fun _ _ _ hinv hs => State.Inv.step hinv hs).oncePerKey

/-- Two calls with key `7` that both find nothing, and a third one after them. -/
def retries (_ : ℕ) : Request ℕ := ⟨7, 1, 500⟩

/-- Call `1` waits for call `0` and loses; call `2` finds the order of call `0`. -/
theorem create_order_with_key_fixed_once_retries : ∃ s : State ℕ ℕ,
    s.charges = [(0, ⟨1, 1, 500⟩)] ∧ s.phase 0 = .returned 1 ∧ s.phase 1 = .aborted ∧
    s.phase 2 = .returned 1 ∧ s.OncePerKey retries := by
  have hrun : ((exec (createOrderWithKeyFixed retries) State.init
      [.begin 0, .begin 1, .lookup 0, .lookup 1, .insertOrder 0, .insertOrder 1,
        .insertCharge 0, .insertCharge 1, .insertKey 0, .commit 0, .answer 0, .insertKey 1,
        .begin 2, .lookup 2]).map fun s => (s.charges, s.phase 0, s.phase 1, s.phase 2)) =
      some ([(0, ⟨1, 1, 500⟩)], .returned 1, .aborted, .returned 1) := by decide
  obtain ⟨s, hs, hobs⟩ := Option.map_eq_some_iff.mp hrun
  simp only [Prod.mk.injEq] at hobs
  obtain ⟨h₁, h₂, h₃, h₄⟩ := hobs
  exact ⟨s, h₁, h₂, h₃, h₄, create_order_with_key_fixed_once retries (.of_exec _ hs)⟩

end Orders
end SepLab
