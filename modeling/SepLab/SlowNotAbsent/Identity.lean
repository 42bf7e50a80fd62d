import Mathlib.Algebra.BigOperators.Group.Finset.Basic
import SepLab.Lib.Custody
import SepLab.Lib.Potential
import SepLab.SlowNotAbsent.Pool

/-!
# Every connection of the pool has one owner

What the pool counts as created, whatever its threads have come to: a thread that waits for
the lock after `connect_one` has failed still has its count, and one that has closed a
connection in `discard` still has its count as well.  Every connection that is made is a new
one, whichever descriptor it gets.

## Main definitions

* `Phase.use` — what a thread has of the pool: the room for a connection, or a connection.
* `Traced`, `trace` — the pool with the connections that it has made and closed.
* `Traced.Inv` — what is created, and with whom.

## Main results

* `Handover.of_step` — what a section of the program does with the connections.
* `Traced.Inv.step` — every step keeps the invariant.
* `pool_conserves` — **the count of connections is right**, and each has one owner.
-/

namespace SepLab
namespace SlowNotAbsent

/-- What a thread has of the pool: a connection, or the room for one that it is about to make. -/
def Phase.use : Phase → Option (Option ℕ)
  | .holding fd => some (some fd)
  | .connecting => some none
  | _ => none

/-- The connection that a thread has. -/
def Phase.held (p : Phase) : Option ℕ := p.use.join

/-- The thread has a connection. -/
def Phase.borrows (p : Phase) : ℕ := if p.held.isSome then 1 else 0

/-- The thread has the room for a connection. -/
def Phase.connects (p : Phase) : ℕ := if p.use = some none then 1 else 0

/-- A thread that has nothing of the pool counts for nothing. -/
theorem Phase.counts_of_use {p : Phase} (h : p.use = none) : p.borrows = 0 ∧ p.connects = 0 := by
  simp [borrows, connects, held, h]

variable {T : Type} [DecidableEq T]

/-! ### What a section does with the connections -/

/-- A section after which the connections are those that were made before, and are not with
other threads unless they were idle. -/
def Action.keeps : Action T → Bool
  | .acquire _ _ => true
  | .wake _ => true
  | .retest _ _ => true
  | .notifyOne _ _ => true
  | _ => false

/-- What a section of the program does to the idle connections, to the count and to what the
threads have. -/
inductive Handover (s t : Pool T) : Action T → Prop
  | same {a : Action T} (ha : a.keeps = true) (hidle : t.idle = s.idle)
      (hcreated : t.created = s.created) (huse : ∀ j, (t.phase j).use = (s.phase j).use) :
      Handover s t a
  | take {a : Action T} (ha : a.keeps = true) (j : T) (c : ℕ) (hidle : s.idle = t.idle ++ [c])
      (hcreated : t.created = s.created) (hj : (s.phase j).use = none)
      (hphase : t.phase = Function.update s.phase j (.holding c)) : Handover s t a
  | reserve {a : Action T} (ha : a.keeps = true) (j : T) (hidle : t.idle = s.idle)
      (hcreated : t.created = s.created + 1) (hj : (s.phase j).use = none)
      (hphase : t.phase = Function.update s.phase j .connecting) : Handover s t a
  | connected (j : T) (c : ℕ) (hidle : t.idle = s.idle) (hcreated : t.created = s.created)
      (hj : s.phase j = .connecting) (hphase : t.phase = Function.update s.phase j (.holding c)) :
      Handover s t (.connected j c)
  | connectFailed (j : T) (hidle : t.idle = s.idle) (hcreated : t.created = s.created - 1)
      (hj : s.phase j = .connecting) (hphase : t.phase = Function.update s.phase j .idle) :
      Handover s t (.connectFailed j)
  | release (j : T) (c : ℕ) (hidle : t.idle = s.idle ++ [c]) (hcreated : t.created = s.created)
      (hj : s.phase j = .holding c) (hphase : t.phase = Function.update s.phase j .owing) :
      Handover s t (.release j)
  | discard (j : T) (c : ℕ) (hidle : t.idle = s.idle) (hcreated : t.created = s.created - 1)
      (hj : s.phase j = .holding c) (hphase : t.phase = Function.update s.phase j .owing) :
      Handover s t (.discard j)

variable {size : ℤ} {s s' : Pool T}

/-- A thread moves on, and has nothing of the pool before and after. -/
theorem Handover.of_enter {a : Action T} {i : T} {p : Phase} (b : T → Bool)
    (ha : a.keeps = true) (hi : (s.phase i).use = none) (hp : p.use = none) :
    Handover s (({ s with bounded := b } : Pool T).enter i p) a := by
  refine .same ha rfl rfl fun j => ?_
  show (Function.update s.phase i p j).use = _
  by_cases hj : j = i
  · subst hj
    rw [Function.update_self, hp, hi]
  · rw [Function.update_of_ne hj]

/-- A thread that has found the condition true takes a connection, or the room for one. -/
theorem Handover.of_take {a : Action T} {i : T} (b : T → Bool) (ha : a.keeps = true)
    (hi : (s.phase i).use = none) : Handover s (({ s with bounded := b } : Pool T).take i) a := by
  unfold Pool.take
  split
  · next fd hfd => exact .take ha i fd (List.dropLast_append_getLast? fd hfd).symm rfl hi rfl
  · exact .reserve ha i rfl rfl hi rfl

/-- **What a section of the program does with the connections.** -/
theorem Handover.of_step {a : Action T} (h : step size s a = some s') : Handover s s' a := by
  cases a with
  | acquire i timeoutMs =>
    simp only [step, Pool.acquire] at h
    split at h
    · next hi =>
      have huse : (s.phase i).use = none := by
        rw [hi]
        rfl
      obtain rfl := Option.some_inj.mp h
      split
      · exact .of_take _ rfl huse
      · exact .of_enter _ rfl huse rfl
    · cases h
  | wake i =>
    simp only [step] at h
    split at h
    · next hi =>
      obtain rfl := Option.some_inj.mp h
      exact .of_enter s.bounded rfl (by rw [hi]; rfl) rfl
    · cases h
  | retest i late =>
    simp only [step, Pool.retest] at h
    split at h
    · next hi =>
      have huse : (s.phase i).use = none := by
        rcases hi with hi | hi <;> rw [hi] <;> rfl
      split at h
      · obtain rfl := Option.some_inj.mp h
        exact .of_take s.bounded rfl huse
      · split at h
        · split at h
          · obtain rfl := Option.some_inj.mp h
            exact .of_enter s.bounded rfl huse rfl
          · cases h
        · obtain rfl := Option.some_inj.mp h
          exact .of_enter s.bounded rfl huse rfl
    · cases h
  | connected i fd =>
    simp only [step] at h
    split at h
    · next hi =>
      obtain rfl := Option.some_inj.mp h
      exact .connected i fd rfl rfl hi rfl
    · cases h
  | connectFailed i =>
    simp only [step, Pool.connectFailed] at h
    split at h
    · next hi =>
      obtain rfl := Option.some_inj.mp h
      exact .connectFailed i rfl rfl hi rfl
    · cases h
  | release i =>
    simp only [step, Pool.release] at h
    split at h
    · next fd hi =>
      obtain rfl := Option.some_inj.mp h
      exact .release i fd rfl rfl hi rfl
    · cases h
  | discard i =>
    simp only [step, Pool.discard] at h
    split at h
    · next fd hi =>
      obtain rfl := Option.some_inj.mp h
      exact .discard i fd rfl rfl hi rfl
    · cases h
  | notifyOne i w =>
    simp only [step, Pool.notifyOne] at h
    split at h
    · next hi =>
      split at h
      · obtain rfl := Option.some_inj.mp h
        exact .of_enter s.bounded rfl (by rw [hi]; rfl) rfl
      · cases h
    · next w hi =>
      split at h
      · next hw =>
        obtain rfl := Option.some_inj.mp h
        refine .same rfl rfl rfl fun j => ?_
        show (Function.update (Function.update s.phase i .idle) w .notified j).use = _
        -- the waiter that is woken, the thread that wakes it, or a third one
        by_cases hjw : j = w
        · subst hjw
          rw [Function.update_self, hw]
          rfl
        · rw [Function.update_of_ne hjw]
          by_cases hji : j = i
          · subst hji
            rw [Function.update_self, hi]
            rfl
          · rw [Function.update_of_ne hji]
      · cases h
    · cases h

/-! ### The pool with the connections it has made -/

/-- The pool, with the connections that it has made and those that are closed.  `past` says of a
thread that is connecting that `connect_one` has returned -1, and of a thread that has a
connection that it has closed it, in `discard`. -/
structure Traced (T : Type) where
  pool : Pool T
  past : T → Bool
  opened : List ℕ
  closed : List ℕ

/-- A section of the program, or what comes before one that takes the lock again. -/
inductive Traced.Action (T : Type)
  | locked (a : SlowNotAbsent.Action T)
  /-- `connect_one` returns -1. -/
  | connectReturns (i : T)
  /-- `::close(fd)` in `discard`. -/
  | close (i : T)

namespace Traced

/-- A new pool, and all threads outside of it. -/
def init : Traced T := ⟨.init, fun _ => false, [], []⟩

/-- A section comes after what it follows in its function, and a connection that is made is new. -/
def ready (s : Traced T) : SlowNotAbsent.Action T → Bool
  | .connected i c => !s.past i && decide (c ∉ s.opened)
  | .connectFailed i => s.past i
  | .release i => !s.past i
  | .discard i => s.past i
  | _ => true

/-- The pool after a section. -/
def after (s : Traced T) (pool : Pool T) : SlowNotAbsent.Action T → Traced T
  | .connected _ c => { s with pool := pool, opened := s.opened ++ [c] }
  | .connectFailed i => { s with pool := pool, past := Function.update s.past i false }
  | .discard i => { s with pool := pool, past := Function.update s.past i false }
  | _ => { s with pool := pool }

end Traced

/-- One step of one thread. -/
def trace (size : ℤ) (s : Traced T) : Traced.Action T → Option (Traced T)
  | .locked a =>
    if s.ready a then (step size s.pool a).map fun pool => s.after pool a else none
  | .connectReturns i =>
    match s.pool.phase i, s.past i with
    | .connecting, false => some { s with past := Function.update s.past i true }
    | _, _ => none
  | .close i =>
    match s.pool.phase i, s.past i with
    | .holding c, false =>
      some { s with past := Function.update s.past i true, closed := s.closed ++ [c] }
    | _, _ => none

/-! ### What is created, and with whom -/

section
variable [Fintype T]

/-- The threads that have a connection, until its count or it is given back. -/
def Pool.borrowed (s : Pool T) : ℕ := ∑ i, (s.phase i).borrows

/-- The threads that have the room for a connection, until it is made or given back. -/
def Pool.connecting (s : Pool T) : ℕ := ∑ i, (s.phase i).connects

/-- The pool counts the connections that there are, and each has one owner; what is closed is
with nobody but the thread that has closed it. -/
structure Traced.Inv (size : ℤ) (s : Traced T) : Prop where
  pool : s.pool.Inv size
  created : s.pool.created = s.pool.idle.length + s.pool.borrowed + s.pool.connecting
  custody : Custody s.pool.idle fun i => (s.pool.phase i).held
  opened : ∀ c, (c ∈ s.pool.idle ∨ (∃ i, (s.pool.phase i).held = some c) ∨ c ∈ s.closed) →
    c ∈ s.opened
  closed : ∀ c ∈ s.closed, c ∉ s.pool.idle ∧
    ∀ i, (s.pool.phase i).held = some c → s.past i = true
  past : ∀ i, s.past i = true → (s.pool.phase i).use = some none ∨
    ∃ c ∈ s.closed, (s.pool.phase i).use = some (some c)

variable {t t' : Traced T}

omit [Fintype T] in
/-- What the threads have after one of them has moved on. -/
theorem held_update (phase : T → Phase) (i : T) (p : Phase) :
    (fun j => (Function.update phase i p j).held) =
      Function.update (fun j => (phase j).held) i p.held := by
  funext j
  exact (Function.apply_update (fun _ => Phase.held) phase i p j)

omit [Fintype T] in
theorem update_false_eq_true {past : T → Bool} {i k : T}
    (h : Function.update past i false k = true) : k ≠ i ∧ past k = true := by
  by_cases hk : k = i
  · subst hk
    rw [Function.update_self] at h
    cases h
  · rw [Function.update_of_ne hk] at h
    exact ⟨hk, h⟩

/-- How many have a connection, and how many room for one, after one of them has moved on. -/
theorem Pool.counts_update {s s' : Pool T} {i : T} {p : Phase}
    (hphase : s'.phase = Function.update s.phase i p) :
    s'.borrowed + (s.phase i).borrows = s.borrowed + p.borrows ∧
      s'.connecting + (s.phase i).connects = s.connecting + p.connects := by
  unfold Pool.borrowed Pool.connecting
  rw [hphase]
  exact ⟨sum_update (Finset.mem_univ i) Phase.borrows p,
    sum_update (Finset.mem_univ i) Phase.connects p⟩

omit [Fintype T] in
theorem Traced.after_of_keeps (s : Traced T) (pool : Pool T) {a : SlowNotAbsent.Action T}
    (ha : a.keeps = true) : s.after pool a = { s with pool := pool } := by
  cases a with
  | acquire i timeoutMs => rfl
  | wake i => rfl
  | retest i late => rfl
  | notifyOne i w => rfl
  | connected i c => cases ha
  | connectFailed i => cases ha
  | release i => cases ha
  | discard i => cases ha

namespace Traced.Inv

omit [DecidableEq T] in
/-- A thread that has nothing of the pool is past nothing. -/
theorem past_eq_false (h : t.Inv size) {i : T} (hi : (t.pool.phase i).use = none) :
    t.past i = false := by
  cases hpast : t.past i with
  | false => rfl
  | true =>
    rcases h.past i hpast with huse | ⟨c, -, huse⟩
    · rw [hi] at huse
      cases huse
    · rw [hi] at huse
      cases huse

omit [DecidableEq T] [Fintype T] in
/-- Whoever is past something is another thread than one that is not. -/
theorem ne_of_past {i : T} (hi : t.past i = false) (j : T) (hj : t.past j = true) :
    j ≠ i ∧ t.past j = true := by
  refine ⟨?_, hj⟩
  rintro rfl
  rw [hi] at hj
  cases hj

omit [DecidableEq T] in
/-- The threads have the same of the pool as before. -/
theorem same (h : t.Inv size) (hpool : t'.pool.Inv size) (hidle : t'.pool.idle = t.pool.idle)
    (hcreated : t'.pool.created = t.pool.created)
    (huse : ∀ j, (t'.pool.phase j).use = (t.pool.phase j).use) (hpast : t'.past = t.past)
    (hopened : t'.opened = t.opened) (hclosed : t'.closed = t.closed) : t'.Inv size := by
  have hheld : ∀ j, (t'.pool.phase j).held = (t.pool.phase j).held := fun j => by
    rw [Phase.held, huse, Phase.held]
  refine ⟨hpool, ?_, ?_, ?_, ?_, ?_⟩
  · have hborrowed : t'.pool.borrowed = t.pool.borrowed := by
      unfold Pool.borrowed Phase.borrows
      simp only [hheld]
    have hconnecting : t'.pool.connecting = t.pool.connecting := by
      unfold Pool.connecting Phase.connects
      simp only [huse]
    rw [hcreated, hidle, hborrowed, hconnecting, h.created]
  · simp only [hidle, hheld]
    exact h.custody
  · simp only [hidle, hheld, hclosed, hopened]
    exact h.opened
  · simp only [hidle, hheld, hclosed, hpast]
    exact h.closed
  · simp only [huse, hclosed, hpast]
    exact h.past

/-- One thread moves on to `p`; what this does to the connections is left to be shown. -/
theorem moved (h : t.Inv size) (hpool : t'.pool.Inv size) {i : T} {p : Phase}
    (hphase : t'.pool.phase = Function.update t.pool.phase i p)
    (hcreated : t'.pool.created + t.pool.idle.length + (t.pool.phase i).borrows +
      (t.pool.phase i).connects = t.pool.created + t'.pool.idle.length + p.borrows + p.connects)
    (hcustody : Custody t'.pool.idle (Function.update (fun j => (t.pool.phase j).held) i p.held))
    (hopened : ∀ c, (c ∈ t'.pool.idle ∨ p.held = some c) → c ∈ t'.opened)
    (hmore : ∀ c ∈ t.opened, c ∈ t'.opened) (hclosed : t'.closed = t.closed)
    (hidle : ∀ c ∈ t.closed, c ∉ t'.pool.idle ∧ p.held ≠ some c)
    (hpast : ∀ j, t'.past j = true → j ≠ i ∧ t.past j = true)
    (hothers : ∀ j, j ≠ i → t.past j = true → t'.past j = true) : t'.Inv size := by
  obtain ⟨hborrowed, hconnecting⟩ := Pool.counts_update hphase
  -- what the others have is as before
  have hold : ∀ j, j ≠ i → (t'.pool.phase j) = t.pool.phase j := fun j hj => by
    rw [hphase, Function.update_of_ne hj]
  have hself : t'.pool.phase i = p := by
    rw [hphase, Function.update_self]
  refine ⟨hpool, ?_, ?_, ?_, ?_, ?_⟩
  · have hbefore := h.created
    omega
  · rw [hphase, held_update]
    exact hcustody
  · rintro c (hc | ⟨j, hj⟩ | hc)
    · exact hopened c (Or.inl hc)
    · by_cases hji : j = i
      · subst hji
        rw [hself] at hj
        exact hopened c (Or.inr hj)
      · rw [hold j hji] at hj
        exact hmore c (h.opened c (Or.inr (Or.inl ⟨j, hj⟩)))
    · exact hmore c (h.opened c (Or.inr (Or.inr (hclosed ▸ hc))))
  · intro c hc
    rw [hclosed] at hc
    refine ⟨(hidle c hc).1, fun j hj => ?_⟩
    by_cases hji : j = i
    · subst hji
      rw [hself] at hj
      exact absurd hj (hidle c hc).2
    · rw [hold j hji] at hj
      exact hothers j hji ((h.closed c hc).2 j hj)
  · intro j hj
    obtain ⟨hji, hj⟩ := hpast j hj
    rw [hold j hji, hclosed]
    exact h.past j hj

/-- One thread moves on to `p`, where it has no connection, and leaves the idle ones. -/
theorem emptied (h : t.Inv size) (hpool : t'.pool.Inv size) {i : T} {p : Phase}
    (hphase : t'.pool.phase = Function.update t.pool.phase i p)
    (hidle : t'.pool.idle = t.pool.idle) (hp : p.held = none)
    (hcreated : t'.pool.created + (t.pool.phase i).borrows + (t.pool.phase i).connects =
      t.pool.created + p.borrows + p.connects)
    (hopened : t'.opened = t.opened) (hclosed : t'.closed = t.closed)
    (hpast : ∀ j, t'.past j = true → j ≠ i ∧ t.past j = true)
    (hothers : ∀ j, j ≠ i → t.past j = true → t'.past j = true) : t'.Inv size := by
  refine h.moved hpool hphase ?_ ?_ ?_ (fun c hc => hopened ▸ hc) hclosed ?_ hpast hothers
  · rw [hidle]
    omega
  · rw [hidle, hp]
    exact h.custody.lose
  · rintro d (hd | hd)
    · exact hopened ▸ h.opened d (Or.inl (hidle ▸ hd))
    · rw [hp] at hd
      cases hd
  · intro d hd
    rw [hidle, hp]
    exact ⟨(h.closed d hd).1, nofun⟩

/-- **Every section keeps the invariant.** -/
theorem locked (h : t.Inv size) {a : SlowNotAbsent.Action T} {pool : Pool T}
    (hready : t.ready a = true) (hstep : SlowNotAbsent.step size t.pool a = some pool) :
    (t.after pool a).Inv size := by
  have hpool := h.pool.step hstep
  cases Handover.of_step hstep with
  | same ha hidle hcreated huse =>
    rw [Traced.after_of_keeps t pool ha]
    exact h.same hpool hidle hcreated huse rfl rfl rfl
  | take ha j c hidle hcreated hj hphase =>
    rw [Traced.after_of_keeps t pool ha]
    -- the connection was idle, and the thread holds it now
    have hmem : c ∈ t.pool.idle := hidle ▸ List.mem_append_right _ List.mem_cons_self
    have hsub : ∀ d ∈ pool.idle, d ∈ t.pool.idle := fun d hd => hidle ▸ List.mem_append_left _ hd
    refine h.moved hpool hphase ?_ ?_ ?_ (fun c hc => hc) rfl ?_ ?_ (fun k _ hk => hk)
    · show pool.created + _ + _ + _ = _
      obtain ⟨hborrows, hconnects⟩ := Phase.counts_of_use hj
      rw [hcreated, hidle, List.length_append, List.length_singleton, hborrows, hconnects]
      simp [Phase.borrows, Phase.connects, Phase.held, Phase.use]
      omega
    · have hbefore := h.custody
      rw [hidle] at hbefore
      exact hbefore.take
    · rintro d (hd | hd)
      · exact h.opened d (Or.inl (hsub d hd))
      · obtain rfl : c = d := Option.some_inj.mp hd
        exact h.opened c (Or.inl hmem)
    · intro d hd
      refine ⟨fun hd' => (h.closed d hd).1 (hsub d hd'), fun hheld => ?_⟩
      obtain rfl : c = d := Option.some_inj.mp hheld
      exact (h.closed c hd).1 hmem
    · exact ne_of_past (h.past_eq_false hj)
  | reserve ha j hidle hcreated hj hphase =>
    rw [Traced.after_of_keeps t pool ha]
    refine h.emptied hpool hphase hidle rfl ?_ rfl rfl (ne_of_past (h.past_eq_false hj))
      (fun k _ hk => hk)
    show pool.created + _ + _ = _
    obtain ⟨hborrows, hconnects⟩ := Phase.counts_of_use hj
    rw [hcreated, hborrows, hconnects]
    simp [Phase.borrows, Phase.connects, Phase.held, Phase.use]
  | connected j c hidle hcreated hj hphase =>
    simp only [Traced.ready, Bool.and_eq_true, Bool.not_eq_true', decide_eq_true_iff] at hready
    obtain ⟨hpast, hnew⟩ := hready
    -- the thread held nothing while it was connecting
    have hnone : ∀ d, (t.pool.phase j).held ≠ some d := fun d => by
      rw [hj]
      nofun
    refine h.moved hpool hphase ?_ ?_ ?_ (fun d hd => List.mem_append_left _ hd) rfl ?_ ?_
      (fun k _ hk => hk)
    · show pool.created + _ + _ + _ = _ + (pool.idle.length : ℤ) + _ + _
      rw [hcreated, hidle, hj]
      simp [Phase.borrows, Phase.connects, Phase.held, Phase.use]
    · show Custody pool.idle _
      rw [hidle]
      refine h.custody.receive (fun hd => hnew (h.opened c (Or.inl hd))) fun k hk => ?_
      exact hnew (h.opened c (Or.inr (Or.inl ⟨k, hk⟩)))
    · rintro d (hd | hd)
      · exact List.mem_append_left _ (h.opened d (Or.inl (hidle ▸ hd)))
      · obtain rfl : c = d := Option.some_inj.mp hd
        exact List.mem_append_right _ List.mem_cons_self
    · intro d hd
      refine ⟨fun hd' => (h.closed d hd).1 (hidle ▸ hd'), fun hheld => ?_⟩
      obtain rfl : c = d := Option.some_inj.mp hheld
      exact hnew (h.opened c (Or.inr (Or.inr hd)))
    · exact ne_of_past hpast
  | connectFailed j hidle hcreated hj hphase =>
    refine h.emptied hpool hphase hidle rfl ?_ rfl rfl (fun k hk => update_false_eq_true hk)
      fun k hne hk => (Function.update_of_ne hne _ _).trans hk
    show pool.created + _ + _ = _
    rw [hcreated, hj]
    simp [Phase.borrows, Phase.connects, Phase.held, Phase.use]
  | release j c hidle hcreated hj hphase =>
    have hpast : t.past j = false := by simpa [Traced.ready] using hready
    have hheld : (t.pool.phase j).held = some c := by
      rw [hj]
      rfl
    -- a thread that has closed its connection is past its release
    have hclosed : c ∉ t.closed := by
      intro hc
      rw [(h.closed c hc).2 j hheld] at hpast
      cases hpast
    refine h.moved hpool hphase ?_ ?_ ?_ (fun c hc => hc) rfl ?_ ?_ (fun k _ hk => hk)
    · show pool.created + _ + _ + _ = _ + (pool.idle.length : ℤ) + _ + _
      rw [hcreated, hidle, hj, List.length_append, List.length_singleton]
      simp [Phase.borrows, Phase.connects, Phase.held, Phase.use]
      omega
    · show Custody pool.idle _
      rw [hidle]
      exact h.custody.put hheld
    · rintro d (hd | hd)
      · rcases List.mem_append.mp (hidle ▸ hd) with hd | hd
        · exact h.opened d (Or.inl hd)
        · rw [List.mem_singleton.mp hd]
          exact h.opened c (Or.inr (Or.inl ⟨j, hheld⟩))
      · cases hd
    · intro d hd
      refine ⟨fun hd' => ?_, nofun⟩
      rcases List.mem_append.mp (hidle ▸ hd') with hd' | hd'
      · exact (h.closed d hd).1 hd'
      · exact hclosed (List.mem_singleton.mp hd' ▸ hd)
    · exact ne_of_past hpast
  | discard j c hidle hcreated hj hphase =>
    refine h.emptied hpool hphase hidle rfl ?_ rfl rfl (fun k hk => update_false_eq_true hk)
      fun k hne hk => (Function.update_of_ne hne _ _).trans hk
    show pool.created + _ + _ = _
    rw [hcreated, hj]
    simp [Phase.borrows, Phase.connects, Phase.held, Phase.use]

/-- `connect_one` returns -1, which nobody else sees. -/
theorem connectReturns (h : t.Inv size) {i : T} (hi : t.pool.phase i = .connecting) :
    Traced.Inv size { t with past := Function.update t.past i true } where
  pool := h.pool
  created := h.created
  custody := h.custody
  opened := h.opened
  closed c hc := by
    refine ⟨(h.closed c hc).1, fun j hj => ?_⟩
    have hne : j ≠ i := by
      rintro rfl
      rw [hi] at hj
      cases hj
    exact (Function.update_of_ne hne _ _).trans ((h.closed c hc).2 j hj)
  past j hj := by
    by_cases hne : j = i
    · subst hne
      rw [hi]
      exact Or.inl rfl
    · exact h.past j ((Function.update_of_ne hne _ _).symm.trans hj)

/-- A thread closes the connection that it has. -/
theorem close (h : t.Inv size) {i : T} {c : ℕ} (hi : t.pool.phase i = .holding c) :
    Traced.Inv size
      { t with past := Function.update t.past i true, closed := t.closed ++ [c] } where
  pool := h.pool
  created := h.created
  custody := h.custody
  opened d hd := by
    rcases hd with hd | hd | hd
    · exact h.opened d (Or.inl hd)
    · exact h.opened d (Or.inr (Or.inl hd))
    · rcases List.mem_append.mp hd with hd | hd
      · exact h.opened d (Or.inr (Or.inr hd))
      · rw [List.mem_singleton.mp hd]
        exact h.opened c (Or.inr (Or.inl ⟨i, by rw [hi]; rfl⟩))
  closed d hd := by
    have hheld : (t.pool.phase i).held = some c := by
      rw [hi]
      rfl
    rcases List.mem_append.mp hd with hd | hd
    · refine ⟨(h.closed d hd).1, fun j hj => ?_⟩
      by_cases hne : j = i
      · subst hne
        exact Function.update_self ..
      · exact (Function.update_of_ne hne _ _).trans ((h.closed d hd).2 j hj)
    · rw [List.mem_singleton.mp hd]
      refine ⟨h.custody.apart i c hheld, fun j hj => ?_⟩
      -- nobody else holds the connection
      obtain rfl := h.custody.single j i c hj hheld
      exact Function.update_self ..
  past j hj := by
    by_cases hne : j = i
    · subst hne
      refine Or.inr ⟨c, List.mem_append_right _ List.mem_cons_self, ?_⟩
      rw [hi]
      rfl
    · have hold : t.past j = true := (Function.update_of_ne hne _ _).symm.trans hj
      rcases h.past j hold with huse | ⟨d, hd, huse⟩
      · exact Or.inl huse
      · exact Or.inr ⟨d, List.mem_append_left _ hd, huse⟩

/-- **Every step keeps the invariant**, and nothing that is closed is opened again. -/
theorem step (h : t.Inv size) {a : Traced.Action T} (hstep : trace size t a = some t') :
    t'.Inv size ∧ ∀ c ∈ t.closed, c ∈ t'.closed := by
  cases a with
  | locked a =>
    simp only [trace] at hstep
    split at hstep
    · next hready =>
      obtain ⟨pool, hpool, rfl⟩ := Option.map_eq_some_iff.mp hstep
      refine ⟨h.locked hready hpool, fun c hc => ?_⟩
      cases a <;> exact hc
    · cases hstep
  | connectReturns i =>
    simp only [trace] at hstep
    split at hstep
    · next hi _ =>
      obtain rfl := Option.some_inj.mp hstep
      exact ⟨h.connectReturns hi, fun c hc => hc⟩
    · cases hstep
  | close i =>
    simp only [trace] at hstep
    split at hstep
    · next c hi _ =>
      obtain rfl := Option.some_inj.mp hstep
      exact ⟨h.close hi, fun d hd => List.mem_append_left _ hd⟩
    · cases hstep

omit [DecidableEq T] in
theorem init (hsize : 1 ≤ size) : Traced.Inv size (Traced.init : Traced T) where
  pool := .init hsize
  created := by
    have hzero : ∀ i : T, ((Traced.init : Traced T).pool.phase i).use = none := fun _ => rfl
    simp only [Pool.borrowed, Pool.connecting, Phase.counts_of_use (hzero _),
      Finset.sum_const_zero]
    rfl
  custody := .init List.nodup_nil fun _ => rfl
  opened c hc := by
    rcases hc with hc | ⟨i, hi⟩ | hc
    · cases hc
    · cases hi
    · cases hc
  closed c hc := by cases hc
  past i hi := by cases hi

/-- The invariant over a run. -/
theorem run (h : t.Inv size) (hreach : Reach (trace size) t t') :
    t'.Inv size ∧ ∀ c ∈ t.closed, c ∈ t'.closed := by
  refine hreach.invariant (P := fun u => u.Inv size ∧ ∀ c ∈ t.closed, c ∈ u.closed)
    ⟨h, fun c hc => hc⟩ ?_
  rintro u a u' ⟨hu, hsub⟩ hstep
  obtain ⟨hu', hsub'⟩ := hu.step hstep
  exact ⟨hu', fun c hc => hsub' c (hsub c hc)⟩

end Traced.Inv

/-- **The pool conserves its connections**: what it counts as created is idle, with a thread or
being made, and never more than its size; every connection has one owner; and one that a thread
has closed is idle or with another thread never again. -/
theorem pool_conserves (hsize : 1 ≤ size) (h : Reach (trace size) (Traced.init : Traced T) t) :
    t.pool.created = t.pool.idle.length + t.pool.borrowed + t.pool.connecting ∧
      0 ≤ t.pool.created ∧ t.pool.created ≤ size ∧
      t.pool.idle.Nodup ∧ (∀ i c, t.pool.phase i = .holding c → c ∉ t.pool.idle) ∧
      (∀ i j c, t.pool.phase i = .holding c → t.pool.phase j = .holding c → i = j) ∧
      ∀ c ∈ t.closed, ∀ t', Reach (trace size) t t' → c ∉ t'.pool.idle ∧
        ∀ i, t'.pool.phase i = .holding c → t'.past i = true := by
  obtain ⟨hinv, -⟩ := (Traced.Inv.init hsize).run h
  have hheld : ∀ {u : Traced T} {i : T} {c : ℕ}, u.pool.phase i = .holding c →
      (u.pool.phase i).held = some c := by
    intro u i c hi
    rw [hi]
    rfl
  refine ⟨hinv.created, ?_, hinv.pool.created, hinv.custody.nodup,
    fun i c hi => hinv.custody.apart i c (hheld hi),
    fun i j c hi hj => hinv.custody.single i j c (hheld hi) (hheld hj), ?_⟩
  · rw [hinv.created]
    omega
  -- what is closed now stays closed, and every later state keeps away from it
  · intro c hc t' h'
    obtain ⟨hinv', hsub⟩ := hinv.run h'
    obtain ⟨hidle, hpast⟩ := hinv'.closed c (hsub c hc)
    exact ⟨hidle, fun i hi => hpast i (hheld hi)⟩

end

/-- Of two threads of a pool of one, the second gets the first one's connection, closes it, and the
first makes a new one. -/
theorem pool_conserves_discarded : ∃ t : Traced Bool, Reach (trace 1) Traced.init t ∧
    t.closed = [7] ∧ t.pool.created = 1 ∧
    t.pool.created = t.pool.idle.length + t.pool.borrowed + t.pool.connecting ∧
    ∀ t', Reach (trace 1) t t' → 7 ∉ t'.pool.idle := by
  have hrun : ((exec (trace 1) (Traced.init : Traced Bool)
      [.locked (.acquire true (-1)), .locked (.connected true 7), .locked (.release true),
        .locked (.notifyOne true none), .locked (.acquire false 300), .close false,
        .locked (.acquire true (-1)), .locked (.discard false),
        .locked (.notifyOne false (some true)), .locked (.retest true false),
        .locked (.connected true 8)]).map fun t => (t.closed, t.pool.created)) =
      some ([7], 1) := by decide
  obtain ⟨t, ht, hobs⟩ := Option.map_eq_some_iff.mp hrun
  obtain ⟨hclosed, hcreated⟩ := Prod.mk.inj hobs
  have hreach := Reach.of_exec _ ht
  obtain ⟨hconserved, -, -, -, -, -, hgone⟩ := pool_conserves (by decide) hreach
  exact ⟨t, hreach, hclosed, hcreated, hconserved,
    fun t' h' => (hgone 7 (hclosed ▸ List.mem_cons_self) t' h').1⟩

end SlowNotAbsent
end SepLab
