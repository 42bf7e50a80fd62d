import Mathlib.Algebra.BigOperators.Group.Finset.Basic
import Mathlib.Data.Fintype.Basic
import SepLab.Lib.Custody
import SepLab.Lib.Potential

/-!
# The hand-rolled pool and its four policies

`Pool` of `hand_rolled_pool.cpp`, which has all its connections from the beginning, and a
policy for a thread that finds none of them idle.  `release` puts a connection back under the
lock and calls `notify_one` after it.  A wait ends with a notification, or with a spurious
wake-up or its deadline; either way the thread takes the lock and tests the condition again.
The times that the pool measures are left out.

## Main definitions

* `Pool`, `Action`, `step` — the sections of `acquire` and `release`.
* `Pool.count` — how many threads are where.
* `Pool.Inv`, `Pool.Woken` — what every step keeps.

## Main results

* `Effect.of_step` — what a section does to the pool and to the threads.
* `Pool.Inv.step`, `Pool.Woken.step` — every step keeps the two invariants.
* `pool_accounts` — **the pool conserves its connections and its calls**, and strands nobody.
-/

namespace SepLab
namespace ConnectionPool

/-- What `acquire` does when no connection is free. -/
inductive Policy
  | unbounded
  | blockForever
  | timeout
  | shed
deriving DecidableEq

/-- Where a thread is. -/
inductive Phase
  | outside
  /-- In `cv_.wait`, and not notified. -/
  | waiting
  /-- Notified, and yet to take the lock. -/
  | notified
  /-- Awake without a notification, and yet to take the lock. -/
  | awake
  /-- It has a connection. -/
  | holding (id : ℕ)
  /-- Past the lock of `release`, and yet to notify. -/
  | owing
deriving DecidableEq

/-- The pool with its counters, where its threads are, and how many calls of `acquire` have
begun. -/
structure Pool (T : Type) where
  idle : List ℕ
  nextId : ℕ
  created : ℕ
  served : ℕ
  overflow : ℕ
  refused : ℕ
  timedOut : ℕ
  phase : T → Phase
  calls : ℕ

/-- The sections of the functions, and what comes between them. -/
inductive Action (T : Type)
  /-- `acquire` takes the lock. -/
  | acquire (i : T)
  /-- A wait ends without a notification. -/
  | wake (i : T)
  /-- A thread that is awake takes the lock; `late` says that its deadline has passed. -/
  | retest (i : T) (late : Bool)
  /-- The locked part of `release`. -/
  | release (i : T)
  /-- `notify_one`, which wakes the thread `w`, if any waits. -/
  | notifyOne (i : T) (w : Option T)
deriving DecidableEq

variable {T : Type} [DecidableEq T]

namespace Pool

/-- The constructor, and all threads outside. -/
def init (size : ℕ) : Pool T :=
  ⟨(List.range size).map (· + 1), size + 1, size, 0, 0, 0, 0, fun _ => .outside, 0⟩

/-- Thread `i` moves on to `p`. -/
def enter (s : Pool T) (i : T) (p : Phase) : Pool T :=
  { s with phase := Function.update s.phase i p }

/-- The end of `acquire`, when the thread has found an idle connection. -/
def take (s : Pool T) (i : T) (id : ℕ) : Pool T :=
  { s with idle := s.idle.dropLast, served := s.served + 1 }.enter i (.holding id)

/-- `acquire` when no connection is idle. -/
def whenEmpty (policy : Policy) (s : Pool T) (i : T) : Pool T :=
  match policy with
  | .unbounded =>
    { s with
      nextId := s.nextId + 1
      created := s.created + 1
      overflow := s.overflow + 1
      served := s.served + 1 }.enter i (.holding s.nextId)
  | .shed => { s with refused := s.refused + 1 }
  | .blockForever => s.enter i .waiting
  | .timeout => s.enter i .waiting

/-- `acquire`, up to its first wait or its return. -/
def acquire (policy : Policy) (s : Pool T) (i : T) : Option (Pool T) :=
  match s.phase i with
  | .outside =>
    let s' := { s with calls := s.calls + 1 }
    some (match s.idle.getLast? with
      | some id => s'.take i id
      | none => s'.whenEmpty policy i)
  | _ => none

/-- A wait with a limit returns the condition when that has passed, and any other goes on. -/
def retest (policy : Policy) (s : Pool T) (i : T) (late : Bool) : Option (Pool T) :=
  if s.phase i = .notified ∨ s.phase i = .awake then
    match s.idle.getLast? with
    | some id => some (s.take i id)
    | none =>
      if late then
        if policy = .timeout then
          some ({ s with timedOut := s.timedOut + 1 }.enter i .outside)
        else none
      else some (s.enter i .waiting)
  else none

/-- `release`: the connection goes back to the idle ones, and a waiter has yet to be notified. -/
def release (s : Pool T) (i : T) : Option (Pool T) :=
  match s.phase i with
  | .holding id => some ({ s with idle := s.idle ++ [id] }.enter i .owing)
  | _ => none

end Pool

/-- One section.  Without a thread that waits `notify_one` does nothing. -/
def step [Fintype T] (policy : Policy) (s : Pool T) : Action T → Option (Pool T)
  | .acquire i => s.acquire policy i
  | .wake i =>
    match s.phase i with
    | .waiting => some (s.enter i .awake)
    | _ => none
  | .retest i late => s.retest policy i late
  | .release i => s.release i
  | .notifyOne i none =>
    if s.phase i = .owing ∧ ∀ j, s.phase j ≠ .waiting then some (s.enter i .outside) else none
  | .notifyOne i (some w) =>
    if s.phase i = .owing ∧ s.phase w = .waiting then
      some ((s.enter i .outside).enter w .notified)
    else none

/-! ### Who is where -/

namespace Phase

/-- The connection that a thread has. -/
def held : Phase → Option ℕ
  | .holding id => some id
  | _ => none

/-- The thread has a connection. -/
def borrows : Phase → ℕ
  | .holding _ => 1
  | _ => 0

/-- The thread is in a call of `acquire`. -/
def calls : Phase → ℕ
  | .waiting => 1
  | .notified => 1
  | .awake => 1
  | _ => 0

/-- The thread has been notified, and has not run yet. -/
def woken : Phase → ℕ
  | .notified => 1
  | _ => 0

/-- The thread has put its connection back, and has not notified yet. -/
def owes : Phase → ℕ
  | .owing => 1
  | _ => 0

/-- The thread may find an idle connection or none, as one that comes (`n = 1`), or as one that
has been awakened. -/
def Tests (p : Phase) (n : ℕ) : Prop :=
  p = .outside ∧ n = 1 ∨ (p = .notified ∨ p = .awake) ∧ n = 0

variable {p : Phase} {n : ℕ}

theorem Tests.held (h : p.Tests n) : p.held = none := by
  rcases h with ⟨rfl, -⟩ | ⟨rfl | rfl, -⟩ <;> rfl

theorem Tests.calls (h : p.Tests n) : p.calls + n = 1 := by
  rcases h with ⟨rfl, rfl⟩ | ⟨rfl | rfl, rfl⟩ <;> rfl

theorem Tests.owes (h : p.Tests n) : p.owes = 0 := by
  rcases h with ⟨rfl, -⟩ | ⟨rfl | rfl, -⟩ <;> rfl

theorem woken_le_one (p : Phase) : p.woken ≤ 1 := by
  cases p <;> simp [woken]

theorem borrows_eq_ite (p : Phase) : p.borrows = if p.held = none then 0 else 1 := by
  cases p <;> rfl

end Phase

/-! ### What a section does -/

variable {policy : Policy} {size : ℕ} {s s' : Pool T}

/-- What a section does to the pool and to the threads. -/
inductive Effect (policy : Policy) (s : Pool T) : Pool T → Prop
  | take {i : T} {id n : ℕ} (hlast : s.idle.getLast? = some id) (hi : (s.phase i).Tests n) :
      Effect policy s (({ s with calls := s.calls + n } : Pool T).take i id)
  | expand {i : T} (hpolicy : policy = .unbounded) (hidle : s.idle = [])
      (hi : s.phase i = .outside) :
      Effect policy s (({ s with calls := s.calls + 1 } : Pool T).whenEmpty .unbounded i)
  | shed {i : T} (hidle : s.idle = []) (hi : s.phase i = .outside) :
      Effect policy s (({ s with calls := s.calls + 1 } : Pool T).whenEmpty .shed i)
  | wait {i : T} {n : ℕ} (hidle : s.idle = []) (hi : (s.phase i).Tests n) :
      Effect policy s (({ s with calls := s.calls + n } : Pool T).enter i .waiting)
  | expire {i : T} (hidle : s.idle = []) (hi : (s.phase i).Tests 0) :
      Effect policy s (({ s with timedOut := s.timedOut + 1 } : Pool T).enter i .outside)
  | wake {i : T} (hi : s.phase i = .waiting) : Effect policy s (s.enter i .awake)
  | put {i : T} {id : ℕ} (hi : s.phase i = .holding id) :
      Effect policy s (({ s with idle := s.idle ++ [id] } : Pool T).enter i .owing)
  | quiet {i : T} (hi : s.phase i = .owing) (hnone : ∀ j, s.phase j ≠ .waiting) :
      Effect policy s (s.enter i .outside)
  | notify {i w : T} (hi : s.phase i = .owing) (hw : s.phase w = .waiting) :
      Effect policy s ((s.enter i .outside).enter w .notified)

/-- `acquire` has an effect. -/
theorem Effect.of_acquire {i : T} (h : s.acquire policy i = some s') : Effect policy s s' := by
  simp only [Pool.acquire] at h
  split at h
  · next hi =>
    obtain rfl := Option.some_inj.mp h
    have htests : (s.phase i).Tests 1 := Or.inl ⟨hi, rfl⟩
    split
    · next id hlast => exact .take hlast htests
    · next hlast =>
      have hidle := List.getLast?_eq_none_iff.mp hlast
      cases policy with
      | unbounded => exact .expand rfl hidle hi
      | blockForever => exact .wait hidle htests
      | timeout => exact .wait hidle htests
      | shed => exact .shed hidle hi
  · cases h

/-- So has the test of a thread that is awake. -/
theorem Effect.of_retest {i : T} {late : Bool} (h : s.retest policy i late = some s') :
    Effect policy s s' := by
  simp only [Pool.retest] at h
  split at h
  · next hi =>
    -- a call that tests again after a wait counts no new call
    have htests : (s.phase i).Tests 0 := Or.inr ⟨hi, rfl⟩
    -- an idle connection is there
    split at h
    · next id hlast =>
      obtain rfl := Option.some_inj.mp h
      exact .take hlast htests
    · next hlast =>
      have hidle := List.getLast?_eq_none_iff.mp hlast
      -- none, and the call gives up or waits once more
      split at h
      · split at h
        · obtain rfl := Option.some_inj.mp h
          exact .expire hidle htests
        · cases h
      · obtain rfl := Option.some_inj.mp h
        exact .wait hidle htests
  · cases h

variable [Fintype T]

/-- What a step does. -/
theorem Effect.of_step {a : Action T} (h : step policy s a = some s') : Effect policy s s' := by
  cases a with
  | acquire i => exact .of_acquire h
  | retest i late => exact .of_retest h
  | wake i =>
    simp only [step] at h
    split at h
    · next hi =>
      obtain rfl := Option.some_inj.mp h
      exact .wake hi
    · cases h
  | release i =>
    simp only [step, Pool.release] at h
    split at h
    · next id hi =>
      obtain rfl := Option.some_inj.mp h
      exact .put hi
    · cases h
  | notifyOne i w =>
    -- nobody waits, and the notification is lost
    cases w with
    | none =>
      simp only [step] at h
      split at h
      · next hi =>
        obtain rfl := Option.some_inj.mp h
        exact .quiet hi.1 hi.2
      · cases h
    | some w =>
      simp only [step] at h
      split at h
      · next hi =>
        obtain rfl := Option.some_inj.mp h
        exact .notify hi.1 hi.2
      · cases h

/-! ### What every step keeps -/

namespace Pool

/-- A sum over the threads of what each counts for where it is. -/
def count (s : Pool T) (f : Phase → ℕ) : ℕ := ∑ i, f (s.phase i)

theorem count_enter (s : Pool T) (i : T) (p : Phase) (f : Phase → ℕ) :
    (s.enter i p).count f + f (s.phase i) = s.count f + f p :=
  sum_update (Finset.mem_univ i) f p

omit [Fintype T] in
/-- What the threads hold after one of them has moved on. -/
theorem held_enter (s : Pool T) (i : T) (p : Phase) :
    (fun j => ((s.enter i p).phase j).held) =
      Function.update (fun j => (s.phase j).held) i p.held := by
  funext j
  exact Function.apply_update (fun _ => Phase.held) s.phase i p j

omit [DecidableEq T] [Fintype T] in
theorem length_ne_zero {id : ℕ} (hlast : s.idle.getLast? = some id) : s.idle.length ≠ 0 := by
  intro hnil
  rw [List.length_eq_zero_iff.mp hnil] at hlast
  cases hlast

omit [Fintype T] in
/-- Who waits is another thread than the one that is about to notify. -/
theorem phase_enter_of_owing {i w : T} {p : Phase} (hi : s.phase i = .owing)
    (hw : s.phase w = .waiting) : (s.enter i p).phase w = .waiting := by
  refine (Function.update_of_ne ?_ _ _).trans hw
  rintro rfl
  rw [hi] at hw
  cases hw

/-- Every connection is idle or with one thread, and every call has come to an end that is
counted or is under way. -/
structure Inv (policy : Policy) (size : ℕ) (s : Pool T) : Prop where
  conserved : s.idle.length + s.count Phase.borrows = s.created
  created : s.created = size + s.overflow
  bounded : policy ≠ .unbounded → s.overflow = 0
  custody : Custody s.idle fun i => (s.phase i).held
  fresh : ∀ id, (id ∈ s.idle ∨ ∃ i, (s.phase i).held = some id) → id < s.nextId
  calls : s.served + s.refused + s.timedOut + s.count Phase.calls = s.calls

/-- Where a thread waits, each idle connection is accounted for by a thread that has been
notified or by one that is about to notify. -/
def Woken (s : Pool T) : Prop :=
  ∀ i, s.phase i = .waiting → s.idle.length ≤ s.count Phase.woken + s.count Phase.owes

namespace Inv

variable {t : Pool T} {i : T} {p : Phase} {id n : ℕ}

/-- One thread moves on to `p`; what this does to the connections and the counters is left to be
shown. -/
theorem of_update (h : s.Inv policy size) (hphase : t.phase = Function.update s.phase i p)
    (hconserved : t.idle.length + p.borrows + s.created =
      s.idle.length + (s.phase i).borrows + t.created)
    (hcreated : t.created + s.overflow = s.created + t.overflow)
    (hbounded : policy ≠ .unbounded → t.overflow = s.overflow)
    (hcustody : Custody t.idle (Function.update (fun j => (s.phase j).held) i p.held))
    (hnext : s.nextId ≤ t.nextId) (hfresh : ∀ id ∈ t.idle, id < t.nextId)
    (hheld : ∀ id, p.held = some id → id < t.nextId)
    (hcalls : t.served + t.refused + t.timedOut + p.calls + s.calls =
      s.served + s.refused + s.timedOut + (s.phase i).calls + t.calls) : t.Inv policy size := by
  -- a step of one thread changes every count by that thread's part
  have hcount : ∀ f, t.count f + f (s.phase i) = s.count f + f p := fun f => by
    rw [count, hphase]
    exact sum_update (Finset.mem_univ i) f p
  have hwho : (fun j => (t.phase j).held) =
      Function.update (fun j => (s.phase j).held) i p.held := by
    rw [hphase]
    exact held_enter s i p
  refine ⟨?_, ?_, fun hpolicy => ?_, hwho ▸ hcustody, fun id hid => ?_, ?_⟩
  · have := hcount Phase.borrows
    have := h.conserved
    omega
  · have := h.created
    omega
  · rw [hbounded hpolicy, h.bounded hpolicy]
  -- the numbers in the pool are used up, and so are those that the others hold
  · rcases hid with hid | ⟨j, hj⟩
    · exact hfresh id hid
    · rcases Custody.of_update ((congrFun hwho j).symm.trans hj) with ⟨-, hp⟩ | ⟨-, hold⟩
      · exact hheld id hp
      · exact (h.fresh id (Or.inr ⟨j, hold⟩)).trans_le hnext
  · have := hcount Phase.calls
    have := h.calls
    omega

/-- One thread moves on that has no connection before or after. -/
theorem of_enter (h : s.Inv policy size) (hphase : t.phase = Function.update s.phase i p)
    (hi : (s.phase i).held = none) (hp : p.held = none) (hidle : t.idle = s.idle)
    (hnext : t.nextId = s.nextId) (hcreated : t.created = s.created)
    (hoverflow : t.overflow = s.overflow)
    (hcalls : t.served + t.refused + t.timedOut + p.calls + s.calls =
      s.served + s.refused + s.timedOut + (s.phase i).calls + t.calls) : t.Inv policy size := by
  refine h.of_update hphase ?_ ?_ (fun _ => hoverflow) ?_ hnext.ge ?_ ?_ hcalls
  · rw [Phase.borrows_eq_ite, Phase.borrows_eq_ite, hi, hp, hidle, hcreated]
  · rw [hcreated, hoverflow]
  · rw [hidle, hp]
    exact h.custody.lose
  · rw [hidle, hnext]
    exact fun id hid => h.fresh id (Or.inl hid)
  · intro id hid
    rw [hp] at hid
    cases hid

/-- A thread takes the connection that was put back last. -/
theorem take (h : s.Inv policy size) (hlast : s.idle.getLast? = some id)
    (hi : (s.phase i).Tests n) :
    Inv policy size (({ s with calls := s.calls + n } : Pool T).take i id) := by
  have hidle : s.idle = s.idle.dropLast ++ [id] := (List.dropLast_append_getLast? id hlast).symm
  have hlength : s.idle.length = s.idle.dropLast.length + 1 := by
    rw [List.length_dropLast]
    have := length_ne_zero hlast
    omega
  -- the connection moves from the pool to the thread, so what is idle or lent stays the same
  refine h.of_update (i := i) (p := .holding id) rfl ?_ rfl (fun _ => rfl) ?_ le_rfl ?_ ?_ ?_
  · show s.idle.dropLast.length + 1 + s.created = s.idle.length + (s.phase i).borrows + s.created
    rw [Phase.borrows_eq_ite, hi.held, hlength]
    rfl
  · exact (hidle ▸ h.custody).take
  · exact fun c hc => h.fresh c (Or.inl (List.dropLast_subset _ hc))
  · intro c hc
    obtain rfl := Option.some_inj.mp hc
    exact h.fresh id (Or.inl (List.mem_of_getLast? hlast))
  · have := hi.calls
    show s.served + 1 + s.refused + s.timedOut + 0 + s.calls = _ + _ + (s.calls + n)
    omega

/-- Without an idle connection and without a limit a new one is made. -/
theorem expand (h : s.Inv .unbounded size) (hi : s.phase i = .outside) :
    Inv .unbounded size (({ s with calls := s.calls + 1 } : Pool T).whenEmpty .unbounded i) := by
  refine h.of_update (i := i) (p := .holding s.nextId) rfl ?_ ?_ (fun hne => absurd rfl hne) ?_
    (Nat.le_succ _) (fun c hc => (h.fresh c (Or.inl hc)).trans (Nat.lt_succ_self _)) ?_ ?_
  · show s.idle.length + 1 + s.created = s.idle.length + (s.phase i).borrows + (s.created + 1)
    rw [hi]
    show s.idle.length + 1 + s.created = s.idle.length + 0 + (s.created + 1)
    omega
  · show s.created + 1 + s.overflow = s.created + (s.overflow + 1)
    omega
  · refine h.custody.receive (fun hmem => ?_) fun j hj => ?_
    · exact lt_irrefl _ (h.fresh s.nextId (Or.inl hmem))
    -- a new connection has the next number, which nobody has seen
    · exact lt_irrefl _ (h.fresh s.nextId (Or.inr ⟨j, hj⟩))
  · intro c hc
    obtain rfl := Option.some_inj.mp hc
    exact Nat.lt_succ_self _
  · show s.served + 1 + s.refused + s.timedOut + 0 + s.calls =
      _ + (s.phase i).calls + (s.calls + 1)
    rw [hi]
    show s.served + 1 + s.refused + s.timedOut + 0 + s.calls =
      s.served + s.refused + s.timedOut + 0 + (s.calls + 1)
    omega

/-- A thread puts its connection back. -/
theorem put (h : s.Inv policy size) (hi : s.phase i = .holding id) :
    Inv policy size (({ s with idle := s.idle ++ [id] } : Pool T).enter i .owing) := by
  have hheld : (s.phase i).held = some id := by
    rw [hi]
    rfl
  refine h.of_update (i := i) (p := .owing) rfl ?_ rfl (fun _ => rfl) (h.custody.put hheld) le_rfl
    ?_ (fun c hc => by cases hc) ?_
  · show (s.idle ++ [id]).length + 0 + s.created = s.idle.length + (s.phase i).borrows + s.created
    rw [hi, List.length_append]
    rfl
  · intro c hc
    rcases List.mem_append.mp hc with hc | hc
    · exact h.fresh c (Or.inl hc)
    · rw [List.mem_singleton.mp hc]
      exact h.fresh id (Or.inr ⟨i, hheld⟩)
  · show _ + 0 + s.calls = _ + (s.phase i).calls + s.calls
    rw [hi]
    rfl

/-- Every step keeps the invariant. -/
theorem step (h : s.Inv policy size) {a : Action T} (hstep : step policy s a = some s') :
    s'.Inv policy size := by
  cases Effect.of_step hstep with
  | take hlast hi => exact h.take hlast hi
  | expand hpolicy _ hi =>
    subst hpolicy
    exact h.expand hi
  -- the caller is turned away where it stands, which counts the call and nothing else
  | @shed i _ hi =>
    refine h.of_enter (i := i) (p := .outside) ?_ ?_ rfl rfl rfl rfl rfl ?_
    · rw [← hi, Function.update_eq_self]
      rfl
    · rw [hi]
      rfl
    · rw [hi]
      show s.served + (s.refused + 1) + s.timedOut + 0 + s.calls = _ + 0 + (s.calls + 1)
      omega
  | @wait i n _ hi =>
    refine h.of_enter (p := .waiting) rfl hi.held rfl rfl rfl rfl rfl ?_
    have := hi.calls
    show s.served + s.refused + s.timedOut + 1 + s.calls = _ + _ + (s.calls + n)
    omega
  | expire _ hi =>
    refine h.of_enter (p := .outside) rfl hi.held rfl rfl rfl rfl rfl ?_
    have := hi.calls
    show s.served + s.refused + (s.timedOut + 1) + 0 + s.calls = _ + _ + s.calls
    omega
  | wake hi =>
    exact h.of_enter (p := .awake) rfl (by rw [hi]; rfl) rfl rfl rfl rfl rfl (by rw [hi]; rfl)
  | put hi => exact h.put hi
  | quiet hi _ =>
    exact h.of_enter (p := .outside) rfl (by rw [hi]; rfl) rfl rfl rfl rfl rfl (by rw [hi]; rfl)
  | @notify i w hi hw =>
    -- the notification is two changes: its sender is done, and a waiter goes on
    have hout : Inv policy size (s.enter i .outside) :=
      h.of_enter (p := .outside) rfl (by rw [hi]; rfl) rfl rfl rfl rfl rfl (by rw [hi]; rfl)
    have hw' := phase_enter_of_owing (p := .outside) hi hw
    exact hout.of_enter (p := .notified) rfl (by rw [hw']; rfl) rfl rfl rfl rfl rfl
      (by rw [hw']; rfl)

omit [DecidableEq T] in
theorem init (policy : Policy) (size : ℕ) : Inv policy size (Pool.init size : Pool T) where
  conserved := by
    show ((List.range size).map (· + 1)).length + ∑ _ : T, 0 = size
    rw [List.length_map, List.length_range, Finset.sum_const_zero, Nat.add_zero]
  created := rfl
  bounded _ := rfl
  custody := .init ((List.nodup_range (n := size)).map (Nat.succ_injective)) fun _ => rfl
  fresh id hid := by
    rcases hid with hid | ⟨i, hi⟩
    · obtain ⟨k, hk, rfl⟩ := List.mem_map.mp hid
      exact Nat.succ_lt_succ (List.mem_range.mp hk)
    · cases hi
  calls := by
    show 0 + ∑ _ : T, 0 = 0
    rw [Finset.sum_const_zero, Nat.add_zero]

end Inv

omit [Fintype T] in
/-- Who waits after another thread has moved on, or the same to where it does not wait. -/
theorem waiting_of_enter {i j : T} {p : Phase} (hp : p ≠ .waiting)
    (hj : (s.enter i p).phase j = .waiting) : s.phase j = .waiting := by
  by_cases hji : j = i
  · subst hji
    exact absurd ((Function.update_self ..).symm.trans hj) hp
  · exact (Function.update_of_ne hji _ _).symm.trans hj

namespace Woken

variable {t : Pool T} {i : T} {p : Phase}

omit [DecidableEq T] in
/-- There is nothing to wait for that is idle. -/
theorem of_idle (hidle : t.idle = []) : t.Woken := by
  intro j _
  rw [hidle]
  exact Nat.zero_le _

/-- One thread moves on, and no more is left idle than wake-ups come with it. -/
theorem of_enter (h : s.Woken) (hphase : t.phase = (s.enter i p).phase) (hp : p ≠ .waiting)
    (hidle : t.idle.length + (s.phase i).woken + (s.phase i).owes ≤
      s.idle.length + p.woken + p.owes) : t.Woken := by
  intro j hj
  rw [hphase] at hj
  have hbefore := h j (waiting_of_enter hp hj)
  have hwoken := s.count_enter i p Phase.woken
  have howes := s.count_enter i p Phase.owes
  unfold count at hwoken howes hbefore ⊢
  rw [hphase]
  omega

/-- The one who puts a connection back passes on what it owes. -/
theorem notify {w : T} (h : s.Woken) (hi : s.phase i = .owing) (hw : s.phase w = .waiting) :
    ((s.enter i .outside).enter w .notified).Woken := by
  intro j hj
  have hout := waiting_of_enter (p := .notified) nofun hj
  have hbefore := h j (waiting_of_enter (p := .outside) nofun hout)
  have hwoken := s.count_enter i .outside Phase.woken
  have howes := s.count_enter i .outside Phase.owes
  have hwoken' := (s.enter i .outside).count_enter w .notified Phase.woken
  have howes' := (s.enter i .outside).count_enter w .notified Phase.owes
  rw [hi] at hwoken howes
  rw [phase_enter_of_owing hi hw] at hwoken' howes'
  simp only [Phase.woken, Phase.owes] at hwoken howes hwoken' howes'
  show s.idle.length ≤ _
  omega

/-- No step leaves more connections idle than threads have been woken for, while one waits. -/
theorem step (h : s.Woken) {a : Action T} (hstep : step policy s a = some s') : s'.Woken := by
  cases Effect.of_step hstep with
  | @take i id n hlast hi =>
    refine h.of_enter (i := i) (p := .holding id) rfl nofun ?_
    have := (s.phase i).woken_le_one
    have := length_ne_zero hlast
    -- one connection less is idle, and one waiter less is on its way to it
    show s.idle.dropLast.length + _ + _ ≤ s.idle.length + 0 + 0
    rw [List.length_dropLast, hi.owes]
    omega
  -- nothing is idle afterwards, so nobody need have been woken
  | expand _ hidle _ => exact .of_idle hidle
  | shed hidle _ => exact .of_idle hidle
  | wait hidle _ => exact .of_idle hidle
  | expire hidle _ => exact .of_idle hidle
  | wake hi =>
    refine h.of_enter rfl nofun ?_
    rw [hi]
    rfl
  -- the connection that is put back is matched by the notification that its owner owes
  | @put i id hi =>
    refine h.of_enter (i := i) (p := .owing) rfl nofun ?_
    show (s.idle ++ [id]).length + _ + _ ≤ s.idle.length + 0 + 1
    rw [hi, List.length_append]
    rfl
  | quiet hi hnone =>
    intro j hj
    -- the notification wakes nobody because nobody waits
    exact absurd (waiting_of_enter (p := .outside) nofun hj) (hnone j)
  | notify hi hw => exact h.notify hi hw

end Woken

end Pool

/-- **The pool conserves its connections and its calls, and strands nobody**: a connection is idle
or with one thread, there are as many as at first and those made over the limit, every call that
has come to an end is counted once, and while a thread waits each idle connection is accounted
for by one that has been notified or is about to be. -/
theorem pool_accounts (h : Reach (step policy) (Pool.init size : Pool T) s) :
    s.idle.length + s.count Phase.borrows = s.created ∧ s.created = size + s.overflow ∧
      (policy ≠ .unbounded → s.overflow = 0) ∧
      (s.idle.Nodup ∧ (∀ i id, s.phase i = .holding id → id ∉ s.idle) ∧
        ∀ i j id, s.phase i = .holding id → s.phase j = .holding id → i = j) ∧
      s.served + s.refused + s.timedOut + s.count Phase.calls = s.calls ∧
      ∀ i, s.phase i = .waiting →
        s.idle.length ≤ s.count Phase.woken + s.count Phase.owes := by
  obtain ⟨hinv, hwoken⟩ := h.invariant (P := fun u => u.Inv policy size ∧ u.Woken)
    ⟨.init policy size, fun i hi => by cases hi⟩ fun u a u' hu hstep =>
      ⟨hu.1.step hstep, hu.2.step hstep⟩
  have hheld : ∀ {i : T} {id : ℕ}, s.phase i = .holding id → (s.phase i).held = some id := by
    intro i id hi
    rw [hi]
    rfl
  refine ⟨hinv.conserved, hinv.created, hinv.bounded,
    ⟨hinv.custody.nodup, fun i id hi => hinv.custody.apart i id (hheld hi),
      fun i j id hi hj => hinv.custody.single i j id (hheld hi) (hheld hj)⟩, hinv.calls, hwoken⟩

/-- A thread that comes takes the connection for which another has been notified. -/
theorem pool_accounts_overtaken : ∃ s : Pool (Fin 3), Reach (step .timeout) (Pool.init 1) s ∧
    (s.phase 0 = .holding 1 ∧ s.phase 1 = .notified ∧ s.phase 2 = .waiting) ∧
    s.idle.length ≤ s.count Phase.woken + s.count Phase.owes := by
  have hrun : ((exec (step .timeout) (Pool.init 1 : Pool (Fin 3))
      [.acquire 0, .acquire 1, .acquire 2, .release 0, .notifyOne 0 (some 1), .acquire 0]).map
        fun s => (s.phase 0, s.phase 1, s.phase 2)) = some (.holding 1, .notified, .waiting) := by
    decide
  obtain ⟨s, hs, hobs⟩ := Option.map_eq_some_iff.mp hrun
  obtain ⟨h0, hobs⟩ := Prod.mk.inj hobs
  obtain ⟨h1, h2⟩ := Prod.mk.inj hobs
  have hreach := Reach.of_exec _ hs
  exact ⟨s, hreach, ⟨h0, h1, h2⟩, (pool_accounts hreach).2.2.2.2.2 2 h2⟩

end ConnectionPool
end SepLab
