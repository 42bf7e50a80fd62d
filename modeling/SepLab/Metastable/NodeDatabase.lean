import Mathlib.Data.Int.Notation
import SepLab.Lib.EventLoop
import SepLab.Lib.Listed

/-!
# The database pool of the Node version

`Database` of `metastable.js`, with the tokens and the `sleep` that its queries use: a count
of free slots, and a list of waiters that is written out by hand.  A slot that comes back is
handed to the first waiter, whose listener is unlinked from its token at the same time; a
token that is aborted takes the waiters that listen to it out of the list.  In between the
promise is settled and the query has yet to go on.

`query` and `abort` are called by any other code, at any time that such code runs.

## Main definitions

* `Phase`, `Memory` — how far a query has got; the pool, the tokens, the timers, the queries.
* `query`, `release`, `resume`, `abort`, … — the code between two `await`s.
* `database` — the component of the event loop.
* `Exact` — what holds of the pool at any time.

## Main results

* `Inv.query`, `Inv.resume`, `Inv.abort`, … — what all of them keep.
* `pool_never_leaks` — the pool is exact in every run.
-/

namespace SepLab
namespace Metastable
namespace Node

/-- How far a query has got. -/
inductive Phase
  | idle
  /-- Called, up to its first `await`. -/
  | called
  /-- The promise of its waiter is pending. -/
  | waiting
  /-- That promise is resolved, and the query has yet to go on. -/
  | granted
  /-- That promise is rejected, and the query has yet to go on. -/
  | refused
  /-- The promise of its `sleep` is pending. -/
  | serving
  /-- That promise is resolved, and the query has yet to go on. -/
  | served
  /-- That promise is rejected, and the query has yet to go on. -/
  | cut
  | returned
  /-- It has thrown `ABORTED` out of its `sleep`. -/
  | threw
  /-- It has thrown `ABORTED` out of its wait. -/
  | gaveUp
  deriving DecidableEq, Repr

namespace Phase

/-- The query holds a slot. -/
def Holds : Phase → Bool
  | .serving | .served | .cut => true
  | _ => false

/-- The query has been granted a slot, and has yet to go on. -/
def IsGranted : Phase → Bool
  | .granted => true
  | _ => false

/-- The promise of the query is settled, and it has yet to go on. -/
def Settled : Phase → Bool
  | .granted | .refused | .served | .cut => true
  | _ => false

/-- The query was aborted while it waited. -/
def GaveUp : Phase → Bool
  | .refused | .gaveUp => true
  | _ => false

end Phase

/-- A function that is linked to a token: of the waiter of a query, or of its `sleep`. -/
inductive Listener (ι : Type)
  | waiter (i : ι)
  | sleeper (i : ι)
  deriving DecidableEq, Repr

namespace Listener

variable {ι : Type}

/-- The call whose listener it is. -/
def call : Listener ι → ι
  | .waiter i | .sleeper i => i

/-- Where the query is as long as the function is linked. -/
def phase : Listener ι → Phase
  | .waiter _ => .waiting
  | .sleeper _ => .serving

end Listener

/-- The pool, the tokens and the queries.  The last three fields record what was called: the
queries, those that had to wait, and the slots that were granted to waiters, each with whether
the token was aborted then. -/
structure Memory (ι T : Type) where
  free : ℕ
  waiters : List ι
  inUse : ℤ
  aborted : T → Bool
  listeners : T → List (Listener ι)
  /-- The timer of the query's `sleep` is set. -/
  timer : ι → Bool
  phase : ι → Phase
  calls : List ι
  arrived : List ι
  grants : List (ι × Bool)

/-- The event loop; the continuations are those of the queries. -/
abbrev World (ι T : Type) := Loop (Memory ι T) ι

namespace Memory

variable {ι T : Type} [DecidableEq ι] [DecidableEq T]

omit [DecidableEq ι] [DecidableEq T] in
/-- `new Database()` with `POOL_SIZE` slots. -/
def init (size : ℕ) : Memory ι T :=
  ⟨size, [], 0, fun _ => false, fun _ => [], fun _ => false, fun _ => .idle, [], [], []⟩

omit [DecidableEq T] in
/-- The call goes on to `p`. -/
def enter (m : Memory ι T) (i : ι) (p : Phase) : Memory ι T :=
  { m with phase := Function.update m.phase i p }

omit [DecidableEq ι] in
/-- The listeners of a token are set. -/
def listen (m : Memory ι T) (t : T) (ls : List (Listener ι)) : Memory ι T :=
  { m with listeners := Function.update m.listeners t ls }

section
variable {m : Memory ι T} {t : T} {ls : List (Listener ι)}

omit [DecidableEq ι]

@[simp] theorem free_listen : (m.listen t ls).free = m.free := rfl

@[simp] theorem waiters_listen : (m.listen t ls).waiters = m.waiters := rfl

@[simp] theorem inUse_listen : (m.listen t ls).inUse = m.inUse := rfl

@[simp] theorem grants_listen : (m.listen t ls).grants = m.grants := rfl

end

/-- The function that `link` has returned. -/
def unlink (m : Memory ι T) (t : T) (l : Listener ι) : Memory ι T :=
  m.listen t ((m.listeners t).filter (· ≠ l))

omit [DecidableEq ι] [DecidableEq T] in
/-- The queries that hold a slot. -/
def holding (m : Memory ι T) : ℕ := m.calls.countP fun i => (m.phase i).Holds

omit [DecidableEq ι] [DecidableEq T] in
/-- The waiters that have been granted a slot and have yet to go on. -/
def granted (m : Memory ι T) : ℕ := m.calls.countP fun i => (m.phase i).IsGranted

end Memory

variable {ι T : Type} [DecidableEq ι] [DecidableEq T]

omit [DecidableEq T] in
/-- The promise that query `i` awaits is settled, and its continuation queued. -/
def settle (s : World ι T) (i : ι) (p : Phase) : World ι T :=
  (s.modify (·.enter i p)).push (some i)

omit [DecidableEq T] in
/-- A listener is called; a promise that is settled already stays as it is. -/
def fire (s : World ι T) : Listener ι → World ι T
  | .waiter i =>
    let s := s.modify fun m => { m with waiters := m.waiters.erase i }
    if s.mem.phase i = .waiting then settle s i .refused else s
  | .sleeper i =>
    let s := s.modify fun m => { m with timer := Function.update m.timer i false }
    if s.mem.phase i = .serving then settle s i .cut else s

/-- `abort` of a token. -/
def abort (s : World ι T) (t : T) : World ι T :=
  if s.mem.aborted t then s
  else
    let s := s.modify fun m => { m with aborted := Function.update m.aborted t true }
    ((s.mem.listeners t).foldl fire s).modify (·.listen t [])

/-- `link` of a token, which calls the listener of an aborted one at once. -/
def link (s : World ι T) (t : T) (l : Listener ι) : World ι T :=
  if s.mem.aborted t then fire s l
  else s.modify fun m => m.listen t (m.listeners t ++ [l])

section
variable (tok : ι → T)

/-- `this.inUse++`, and `sleep` up to the `await`. -/
def serve (s : World ι T) (i : ι) : World ι T :=
  link (s.modify fun m =>
    { m.enter i .serving with
      inUse := m.inUse + 1
      timer := Function.update m.timer i true }) (tok i) (.sleeper i)

/-- The waiter of query `i`, up to the `await`. -/
def wait (s : World ι T) (i : ι) : World ι T :=
  link (s.modify fun m =>
    { m.enter i .waiting with
      waiters := m.waiters ++ [i]
      arrived := m.arrived ++ [i] }) (tok i) (.waiter i)

/-- `query`, up to its first `await`. -/
def query (s : World ι T) (i : ι) : Option (World ι T) :=
  if s.mem.phase i = .idle then
    let s := s.modify fun m => { m.enter i .called with calls := m.calls ++ [i] }
    some (if 0 < s.mem.free then serve tok (s.modify fun m => { m with free := m.free - 1 }) i
      else wait tok s i)
  else none

/-- A waiter whose promise is settled already could not take the slot. -/
def release (s : World ι T) : World ι T :=
  match s.mem.waiters with
  | w :: waiters =>
    let s := s.modify fun m => { m with waiters := waiters }.unlink (tok w) (.waiter w)
    if s.mem.phase w = .waiting then
      settle (s.modify fun m =>
        { m with grants := m.grants ++ [(w, m.aborted (tok w))] }) w .granted
    else s
  | [] => s.modify fun m => { m with free := m.free + 1 }

/-- The `finally` of a query, with which it ends; its caller goes on next. -/
def finish (s : World ι T) (i : ι) (p : Phase) : World ι T :=
  (release tok (s.modify fun m => { m.enter i p with inUse := m.inUse - 1 })).push none

/-- Query `i` goes on after an `await`, up to its next one or its end. -/
def resume (i : ι) (s : World ι T) : World ι T :=
  match s.mem.phase i with
  | .granted => serve tok s i
  | .refused => (s.modify (·.enter i .gaveUp)).push none
  | .served => finish tok s i .returned
  | .cut => finish tok s i .threw
  | _ => s

/-- The timer of the `sleep` of query `i` fires. -/
def timeout (i : ι) (s : World ι T) : Option (World ι T) :=
  if s.mem.timer i then
    let s := s.modify fun m =>
      { m with timer := Function.update m.timer i false }.unlink (tok i) (.sleeper i)
    some (if s.mem.phase i = .serving then settle s i .served else s)
  else none

/-- What other code calls. -/
inductive Call (ι T : Type)
  /-- `db.query(tok)`, the query `i`. -/
  | query (i : ι)
  /-- `tok.abort()` -/
  | abort (t : T)
  deriving DecidableEq, Repr

/-- The pool; query `i` is called with the token `tok i`. -/
def database : Component (Memory ι T) ι (Call ι T) ι where
  call
    | .query i, s => query tok s i
    | .abort t, s => some (abort s t)
  run := resume tok
  timer := timeout tok

end

/-! ### The invariant -/

/-- The lists of the memory are those of the phases, and each slot is free, held or granted, or
one of `hand` that the running code has. -/
structure Inv (tok : ι → T) (size hand : ℕ) (m : Memory ι T) (jobs : List ι) : Prop where
  calls : m.calls.Nodup
  called : ∀ i, i ∈ m.calls ↔ m.phase i ≠ .idle
  waiters : Listed m.waiters m.phase .waiting
  linked : ∀ t, (m.listeners t).Nodup
  listeners : ∀ t l, l ∈ m.listeners t ↔ tok l.call = t ∧ m.phase l.call = l.phase
  timer : ∀ i, m.timer i = true ↔ m.phase i = .serving
  jobs : Listed jobs (Phase.Settled ∘ m.phase) true
  slots : m.free + m.holding + m.granted + hand = size
  inUse : m.inUse = m.holding
  full : m.waiters ≠ [] → m.free = 0
  arrived : m.arrived.Nodup
  came : ∀ i ∈ m.arrived, m.phase i ≠ .idle ∧ m.phase i ≠ .called
  order : (m.arrived.filter fun i => !(m.phase i).GaveUp) = m.grants.map Prod.fst ++ m.waiters
  fair : ∀ g ∈ m.grants, g.2 = false

/-- An aborted token has no listeners. -/
def Closed (m : Memory ι T) : Prop := ∀ t, m.aborted t = true → m.listeners t = []

variable {tok : ι → T} {size hand hand' : ℕ} {m m' : Memory ι T} {js js' : List ι} {i : ι}
  {q : Phase}

omit [DecidableEq T] in
/-- **A query goes on**, from one phase to the next, and the rest follows it. -/
theorem Inv.act (h : Inv tok size hand m js) (hi : m.phase i ≠ .idle) (hq : q ≠ .idle)
    (hphase : m'.phase = Function.update m.phase i q) (hcalls : m'.calls = m.calls)
    (hwaiters : Listed m'.waiters (Function.update m.phase i q) .waiting)
    (hlinked : ∀ t, (m'.listeners t).Nodup)
    (hlisteners : ∀ t l, l ∈ m'.listeners t ↔
      if l.call = i then tok i = t ∧ q = l.phase else l ∈ m.listeners t)
    (htimer : m'.timer = Function.update m.timer i (decide (q = .serving)))
    (hjobs : Listed js' (Function.update (Phase.Settled ∘ m.phase) i q.Settled) true)
    (hslots : m'.free + q.Holds.toNat + q.IsGranted.toNat + hand' =
      m.free + (m.phase i).Holds.toNat + (m.phase i).IsGranted.toNat + hand)
    (hinUse : m'.inUse + (m.phase i).Holds.toNat = m.inUse + q.Holds.toNat)
    (hfull : m'.waiters ≠ [] → m'.free = 0)
    (harrived : q ≠ .called ∧ (m'.arrived = m.arrived ∨
      m'.arrived = m.arrived ++ [i] ∧ m.phase i = .called))
    (horder : (m'.arrived.filter fun j => !(Function.update m.phase i q j).GaveUp) =
      m'.grants.map Prod.fst ++ m'.waiters)
    (hfair : ∀ g ∈ m'.grants, g.2 = false) : Inv tok size hand' m' js' := by
  have hmem := (h.called i).mpr hi
  refine ⟨hcalls ▸ h.calls, fun j => ?_, hphase ▸ hwaiters, hlinked, fun t l => ?_, fun j => ?_,
    ?_, ?_, ?_, hfull, ?_, fun j hj => ?_, hphase ▸ horder, hfair⟩
  · rw [hcalls, hphase]
    exact mem_iff_update h.called hi hq j
  -- only the listeners of the query that acts may have changed
  · rw [hlisteners, hphase]
    by_cases hl : l.call = i
    · rw [if_pos hl, hl, Function.update_self]
    · rw [if_neg hl, Function.update_of_ne hl, h.listeners]
  · rw [htimer, hphase]
    exact flag_update h.timer j
  · rw [hphase, Function.comp_update]
    exact hjobs
  -- the slots are counted query by query, and only one of them has changed
  · have hholds := countP_update (f := m.phase) h.calls hmem Phase.Holds q
    have hgranted := countP_update (f := m.phase) h.calls hmem Phase.IsGranted q
    have hslots' := h.slots
    simp only [Memory.holding, Memory.granted, hcalls, hphase] at hslots' ⊢
    omega
  · have hholds := countP_update (f := m.phase) h.calls hmem Phase.Holds q
    have hinUse' := h.inUse
    simp only [Memory.holding, hcalls, hphase] at hinUse' ⊢
    omega
  -- a query arrives once, when it begins to wait
  · exact nodup_of_come h.arrived (fun j hj => (h.came j hj).2) harrived.2
  · have hcome := harrived.2.imp_right And.left
    rw [hphase]
    exact ⟨ne_of_come (fun j hj => (h.came j hj).1) hq hcome hj,
      ne_of_come (fun j hj => (h.came j hj).2) harrived.1 hcome hj⟩

/-! ### The listeners of a query that goes on -/

omit [DecidableEq ι] in
theorem Listener.eq_of_call_of_phase {l l' : Listener ι} (hcall : l.call = l'.call)
    (hphase : l.phase = l'.phase) : l = l' := by
  cases l <;> cases l' <;> cases hphase <;> exact congrArg _ hcall

omit [DecidableEq T] in
/-- Nothing is linked before and after. -/
theorem Inv.listeners_other (h : Inv tok size hand m js)
    (hp : ∀ l : Listener ι, m.phase i ≠ l.phase) (hq : ∀ l : Listener ι, q ≠ l.phase) (t : T)
    (l : Listener ι) : l ∈ m.listeners t ↔
      if l.call = i then tok i = t ∧ q = l.phase else l ∈ m.listeners t := by
  by_cases hl : l.call = i
  · rw [if_pos hl, h.listeners, hl]
    exact iff_of_false (fun hc => hp l hc.2) fun hc => hq l hc.2
  · rw [if_neg hl]

/-- A function is linked. -/
theorem Inv.listeners_link (h : Inv tok size hand m js) (hp : ∀ l : Listener ι, m.phase i ≠ l.phase)
    {l : Listener ι} (hi : l.call = i) (t : T) (l' : Listener ι) :
    l' ∈ Function.update m.listeners (tok i) (m.listeners (tok i) ++ [l]) t ↔
      if l'.call = i then tok i = t ∧ l.phase = l'.phase else l' ∈ m.listeners t := by
  -- the query listens to nothing yet, so the listener is new
  have hnew : l'.call = i → l' ∉ m.listeners t := by
    intro hl hmem
    rw [h.listeners, hl] at hmem
    exact hp l' hmem.2
  by_cases ht : t = tok i
  · subst ht
    rw [Function.update_self, List.mem_append, List.mem_singleton]
    by_cases hl : l'.call = i
    · rw [if_pos hl, or_iff_right (hnew hl), and_iff_right rfl]
      exact ⟨fun heq => heq ▸ rfl,
        fun heq => Listener.eq_of_call_of_phase (hl.trans hi.symm) heq.symm⟩
    · rw [if_neg hl, or_iff_left]
      rintro rfl
      exact hl hi
  · rw [Function.update_of_ne ht]
    by_cases hl : l'.call = i
    · rw [if_pos hl]
      exact iff_of_false (hnew hl) fun hc => ht hc.1.symm
    · rw [if_neg hl]

omit [DecidableEq ι] in
theorem Inv.linked_update (h : Inv tok size hand m js) {t : T} {ls : List (Listener ι)}
    (hls : ls.Nodup) (t' : T) : (Function.update m.listeners t ls t').Nodup := by
  by_cases ht : t' = t
  · rw [ht, Function.update_self]
    exact hls
  · rw [Function.update_of_ne ht]
    exact h.linked t'

omit [DecidableEq ι] in
/-- It was not linked before. -/
theorem Inv.linked_link (h : Inv tok size hand m js) (hp : ∀ l : Listener ι, m.phase i ≠ l.phase)
    {l₀ : Listener ι} (hi : l₀.call = i) (t : T) :
    (Function.update m.listeners (tok i) (m.listeners (tok i) ++ [l₀]) t).Nodup := by
  refine h.linked_update ?_ t
  refine nodup_append_singleton (h.linked _) fun hmem => ?_
  have hphase := ((h.listeners _ l₀).mp hmem).2
  rw [hi] at hphase
  exact hp l₀ hphase

/-- The function that was linked is taken out. -/
theorem Inv.listeners_unlink (h : Inv tok size hand m js) {l : Listener ι} (hi : l.call = i)
    (hp : m.phase i = l.phase) (hq : ∀ l : Listener ι, q ≠ l.phase) {ls : List (Listener ι)}
    (hls : ∀ l', l' ∈ ls ↔ l' ∈ m.listeners (tok i) ∧ l' ≠ l) (t : T) (l' : Listener ι) :
    l' ∈ Function.update m.listeners (tok i) ls t ↔
      if l'.call = i then tok i = t ∧ q = l'.phase else l' ∈ m.listeners t := by
  -- the query has one listener at a time, and that is the one that goes
  have hold : l'.call = i → l' ∈ m.listeners t → l' = l := by
    intro hl hmem
    have hphase := ((h.listeners t l').mp hmem).2
    rw [hl, hp] at hphase
    exact Listener.eq_of_call_of_phase (hl.trans hi.symm) hphase.symm
  by_cases ht : t = tok i
  · subst ht
    rw [Function.update_self, hls]
    by_cases hl : l'.call = i
    · rw [if_pos hl]
      exact iff_of_false (fun hc => hc.2 (hold hl hc.1)) fun hc => hq l' hc.2
    · rw [if_neg hl, and_iff_left]
      rintro rfl
      exact hl hi
  · rw [Function.update_of_ne ht]
    by_cases hl : l'.call = i
    · rw [if_pos hl]
      refine iff_of_false (fun hmem => ?_) fun hc => ht hc.1.symm
      have htok := ((h.listeners t l').mp hmem).1
      rw [hl] at htok
      exact ht htok.symm
    · rw [if_neg hl]

omit [DecidableEq T] in
/-- The timer of a query that does not sleep is not set. -/
theorem Inv.timer_other (h : Inv tok size hand m js) (hi : m.phase i ≠ .serving) :
    m.timer = Function.update m.timer i false :=
  flag_other h.timer hi

/-! ### The order of the waiters -/

omit [DecidableEq T] in
/-- A query that goes on, and does not give up, keeps its place. -/
theorem Inv.order_stay (h : Inv tok size hand m js) (hq : q.GaveUp = (m.phase i).GaveUp) :
    (m.arrived.filter fun j => !(Function.update m.phase i q j).GaveUp) =
      m.grants.map Prod.fst ++ m.waiters := by
  rw [filter_update (fun p : Phase => !p.GaveUp) fun _ => by rw [hq]]
  exact h.order

omit [DecidableEq T] in
/-- A waiter that gives up leaves the others in their order. -/
theorem Inv.order_giveUp (h : Inv tok size hand m js) (hi : m.phase i = .waiting)
    (hq : q.GaveUp = true) :
    (m.arrived.filter fun j => !(Function.update m.phase i q j).GaveUp) =
      m.grants.map Prod.fst ++ m.waiters.erase i := by
  have hnodup := h.arrived.filter fun j => !(m.phase j).GaveUp
  rw [h.order] at hnodup
  rw [filter_update_erase h.arrived (fun p : Phase => !p.GaveUp) (by rw [hq]; rfl), h.order,
    List.erase_append_right]
  intro hmem
  exact (List.nodup_append.mp hnodup).2.2 i hmem i ((h.waiters.mem i).mpr hi) rfl

/-! ### What the functions keep -/

omit [DecidableEq T] in
theorem fire_waiter {s : World ι T} (h : s.mem.phase i = .waiting) :
    fire s (.waiter i) =
      settle (s.modify fun m => { m with waiters := m.waiters.erase i }) i .refused :=
  if_pos h

omit [DecidableEq T] in
theorem fire_sleeper {s : World ι T} (h : s.mem.phase i = .serving) :
    fire s (.sleeper i) =
      settle (s.modify fun m => { m with timer := Function.update m.timer i false }) i .cut :=
  if_pos h

/-- `this.inUse++` and `sleep`, with a slot at hand or one that was granted. -/
theorem Inv.serve {s : World ι T} (h : Inv tok size hand s.mem js)
    (hi : s.mem.phase i = .called ∧ hand = 1 ∧ js = s.jobs ∨
      s.mem.phase i = .granted ∧ hand = 0 ∧ js = i :: s.jobs) :
    Inv tok size 0 (serve tok s i).mem (serve tok s i).jobs := by
  -- the query is on its way to its work, so it neither waits nor listens
  have hnone : ∀ l : Listener ι, s.mem.phase i ≠ l.phase := by
    rintro (l | l) <;> rcases hi with ⟨hi, -⟩ | ⟨hi, -⟩ <;> simp [hi, Listener.phase]
  have hjobs : Listed s.jobs (Function.update (Phase.Settled ∘ s.mem.phase) i false) true := by
    rcases hi with ⟨hi, -, rfl⟩ | ⟨hi, -, rfl⟩
    · exact h.jobs.other (by simp [hi, Phase.Settled]) (by simp)
    · have := h.jobs.leave (i := i) (p := false) (by simp)
      rwa [List.erase_cons_head] at this
  have hidle : s.mem.phase i ≠ .idle := by
    rcases hi with ⟨hi, -⟩ | ⟨hi, -⟩ <;> simp [hi]
  have hwaiting : s.mem.phase i ≠ .waiting := hnone (.waiter i)
  have hstayed : (s.mem.phase i).GaveUp = false := by
    rcases hi with ⟨hi, -⟩ | ⟨hi, -⟩ <;> rw [hi] <;> rfl
  unfold Node.serve link
  split
  -- the token is aborted already, and the work is cut at once
  · rw [fire_sleeper (by simp [Memory.enter])]
    refine h.act (q := .cut) hidle (by simp) (Function.update_idem _ _ _) rfl
      (h.waiters.other hwaiting (by simp)) h.linked
      (h.listeners_other hnone (by rintro (l | l) <;> simp [Listener.phase]))
      (Function.update_idem _ _ _) ?_ ?_ ?_ h.full ⟨by simp, Or.inl rfl⟩
      (h.order_stay hstayed.symm) h.fair
    · have := hjobs.enter (i := i) (by simp)
      rw [Function.update_idem] at this
      simpa [settle, Phase.Settled] using this
    · rcases hi with ⟨hi, rfl, -⟩ | ⟨hi, rfl, -⟩ <;>
        simp [settle, Memory.enter, hi, Phase.Holds, Phase.IsGranted]
    · rcases hi with ⟨hi, -⟩ | ⟨hi, -⟩ <;> simp [settle, Memory.enter, hi, Phase.Holds]
  -- otherwise it works until its timer, or until the token is aborted
  · refine h.act (q := .serving) hidle (by simp) rfl rfl (h.waiters.other hwaiting (by simp)) ?_
      (h.listeners_link hnone (l := .sleeper i) rfl) rfl hjobs ?_ ?_ h.full
      ⟨by simp, Or.inl rfl⟩ (h.order_stay hstayed.symm) h.fair
    · exact h.linked_link hnone rfl
    · rcases hi with ⟨hi, rfl, -⟩ | ⟨hi, rfl, -⟩ <;>
        simp [Memory.enter, hi, Phase.Holds, Phase.IsGranted]
    · rcases hi with ⟨hi, -⟩ | ⟨hi, -⟩ <;> simp [Memory.enter, hi, Phase.Holds]

/-- A query waits when there is no free slot. -/
theorem Inv.wait {s : World ι T} (h : Inv tok size 0 s.mem s.jobs) (hi : s.mem.phase i = .called)
    (hfree : s.mem.free = 0) : Inv tok size 0 (wait tok s i).mem (wait tok s i).jobs := by
  have hidle : s.mem.phase i ≠ .idle := by simp [hi]
  have hnone : ∀ l : Listener ι, s.mem.phase i ≠ l.phase := by
    rintro (l | l) <;> simp [hi, Listener.phase]
  have hnew : i ∉ s.mem.arrived := fun hmem => (h.came i hmem).2 hi
  have hnot : i ∉ s.mem.waiters := fun hmem => hnone (.waiter i) ((h.waiters.mem i).mp hmem)
  -- the waiters are those who have arrived, but for the granted and those who gave up
  have hfilter : ∀ q : Phase, ((s.mem.arrived ++ [i]).filter fun j =>
      !(Function.update s.mem.phase i q j).GaveUp) =
        s.mem.grants.map Prod.fst ++ s.mem.waiters ++ if q.GaveUp then [] else [i] := by
    intro q
    rw [List.filter_append, filter_update (fun p : Phase => !p.GaveUp) fun hmem => absurd hmem hnew,
      List.filter_singleton, Function.update_self, h.order]
    cases q.GaveUp <;> rfl
  have htimer : s.mem.timer = Function.update s.mem.timer i false := h.timer_other (by simp [hi])
  unfold Node.wait link
  split
  -- with an aborted token the query gives up as soon as it has begun to wait
  · rw [fire_waiter (by simp [Memory.enter])]
    have hwaiters : (s.mem.waiters ++ [i]).erase i = s.mem.waiters := by
      rw [List.erase_append_right _ hnot]
      simp
    refine h.act (q := .refused) hidle (by simp) (Function.update_idem _ _ _) rfl ?_ h.linked
      (h.listeners_other hnone (by rintro (l | l) <;> simp [Listener.phase])) htimer ?_ ?_ ?_
      (fun _ => hfree) ⟨by simp, Or.inr ⟨rfl, hi⟩⟩ ?_ h.fair
    · show Listed ((s.mem.waiters ++ [i]).erase i) _ _
      rw [hwaiters]
      exact h.waiters.other (by simp [hi]) (by simp)
    · simpa [settle, Phase.Settled] using h.jobs.enter (i := i) (by simp [hi, Phase.Settled])
    · simp [settle, Memory.enter, hi, Phase.Holds, Phase.IsGranted]
    · simp [settle, Memory.enter, hi, Phase.Holds]
    · show _ = _ ++ (s.mem.waiters ++ [i]).erase i
      rw [hwaiters]
      exact (hfilter _).trans (List.append_nil _)
  -- otherwise it waits behind the others
  · refine h.act (q := .waiting) hidle (by simp) rfl rfl (h.waiters.enter (by simp [hi]))
      (h.linked_link hnone rfl) (h.listeners_link hnone (l := .waiter i) rfl) htimer ?_ ?_ ?_
      (fun _ => hfree) ⟨by simp, Or.inr ⟨rfl, hi⟩⟩ ?_ h.fair
    · exact h.jobs.other (by simp [hi, Phase.Settled]) (by simp [Phase.Settled])
    · simp [Memory.enter, hi, Phase.Holds, Phase.IsGranted]
    · simp [Memory.enter, hi, Phase.Holds]
    · exact (hfilter _).trans (List.append_assoc _ _ _)

omit [DecidableEq T] in
/-- A call is new. -/
theorem Inv.enter_called (h : Inv tok size hand m js) (hi : m.phase i = .idle) :
    Inv tok size hand { m.enter i .called with calls := m.calls ++ [i] } js := by
  -- the call is new: nothing knows of it
  have hnot : i ∉ m.calls := fun hmem => (h.called i).mp hmem hi
  have hnone : ∀ l : Listener ι, m.phase i ≠ l.phase := by
    rintro (l | l) <;> simp [hi, Listener.phase]
  have hholds := countP_concat_update (f := m.phase) hnot Phase.Holds (p := .called) rfl
  have hgranted := countP_concat_update (f := m.phase) hnot Phase.IsGranted (p := .called) rfl
  refine ⟨?_, fun j => ?_, h.waiters.other (by simp [hi]) (by simp), h.linked, fun t l => ?_,
    fun j => ?_, ?_, ?_, ?_, h.full, h.arrived, fun j hj => ?_, ?_, h.fair⟩
  · exact nodup_append_singleton h.calls hnot
  · exact mem_concat_iff_update h.called (by simp) j
  · show l ∈ m.listeners t ↔ _ ∧ Function.update m.phase i .called l.call = l.phase
    by_cases hl : l.call = i
    · rw [h.listeners, hl, Function.update_self]
      refine iff_of_false (fun hc => hnone l hc.2) fun hc => ?_
      cases l <;> cases hc.2
    · rw [Function.update_of_ne hl, h.listeners]
  · show m.timer j = true ↔ Function.update m.phase i .called j = .serving
    rw [h.timer]
    by_cases hj : j = i
    · simp [hj, hi]
    · rw [Function.update_of_ne hj]
  · show Listed js (Phase.Settled ∘ Function.update m.phase i .called) true
    rw [Function.comp_update]
    exact h.jobs.other (by simp [hi, Phase.Settled]) (by simp [Phase.Settled])
  · simp only [Memory.holding, Memory.granted, Memory.enter]
    rw [hholds, hgranted]
    exact h.slots
  · simp only [Memory.holding, Memory.enter]
    rw [hholds]
    exact h.inUse
  · have hne : j ≠ i := fun heq => (h.came j hj).1 (heq ▸ hi)
    show Function.update m.phase i .called j ≠ .idle ∧ Function.update m.phase i .called j ≠ .called
    rw [Function.update_of_ne hne]
    exact h.came j hj
  · exact h.order_stay (by simp [hi, Phase.GaveUp])

/-- A query takes a free slot, or else waits. -/
theorem Inv.query {s s' : World ι T} (h : Inv tok size 0 s.mem s.jobs)
    (hs : query tok s i = some s') : Inv tok size 0 s'.mem s'.jobs := by
  unfold Node.query at hs
  obtain ⟨hi, hs⟩ := Option.ite_none_right_eq_some.mp hs
  obtain rfl := Option.some_inj.mp hs
  have h' := h.enter_called hi
  have hcalled : (s.mem.enter i .called).phase i = .called := Function.update_self _ _ _
  split
  · next hfree =>
    replace hfree : 0 < s.mem.free := hfree
    -- the slot is at hand
    suffices hhand : Inv tok size 1 (_ : World ι T).mem s.jobs from
      hhand.serve (Or.inl ⟨hcalled, rfl, rfl⟩)
    refine { h' with slots := ?_, full := fun hne => ?_ }
    · have := h'.slots
      simp only [Memory.holding, Memory.granted, Memory.enter, Loop.mem_modify] at this ⊢
      omega
    · have := h'.full hne
      simp only [Memory.enter, Loop.mem_modify] at this ⊢
      omega
  · next hfree =>
    exact Inv.wait h' hcalled (Nat.eq_zero_of_not_pos hfree)

/-- **The slot at hand goes to the first waiter**, or else is free again. -/
theorem Inv.release {s : World ι T} (h : Inv tok size 1 s.mem s.jobs) (hc : Closed s.mem) :
    Inv tok size 0 (release tok s).mem (release tok s).jobs := by
  unfold Node.release
  split
  · next w waiters hw =>
    have hlisted := h.waiters
    rw [hw] at hlisted
    have hi : s.mem.phase w = .waiting := (hlisted.mem w).mp (List.mem_cons_self)
    have hlinked : .waiter w ∈ s.mem.listeners (tok w) := (h.listeners _ _).mpr ⟨rfl, hi⟩
    -- who waits has its listener, and an aborted token has none left
    have hopen : s.mem.aborted (tok w) = false := by
      refine Bool.eq_false_iff.mpr fun ha => ?_
      rw [hc _ ha] at hlinked
      cases hlinked
    have hleave := hlisted.leave (i := w) (p := .granted) (by simp)
    rw [List.erase_cons_head] at hleave
    rw [if_pos (by exact hi)]
    refine h.act (q := .granted) (by simp [hi]) (by simp) rfl rfl hleave ?_
      (h.listeners_unlink (i := w) (l := .waiter w) rfl hi
        (by rintro (l | l) <;> simp [Listener.phase]) fun l => by simp)
      (h.timer_other (by simp [hi])) ?_ ?_ ?_ ?_ ⟨by simp, Or.inl rfl⟩ ?_ ?_
    · exact h.linked_update ((h.linked _).filter _)
    · simpa [settle, Phase.Settled] using h.jobs.enter (i := w) (by simp [hi, Phase.Settled])
    · simp [settle, Memory.enter, Memory.unlink, hi, Phase.Holds, Phase.IsGranted]
    · simp [settle, Memory.enter, Memory.unlink, hi, Phase.Holds]
    · intro _
      exact h.full (by rw [hw]; exact List.cons_ne_nil _ _)
    · refine (h.order_stay (by simp [hi, Phase.GaveUp])).trans ?_
      simp [settle, Memory.enter, Memory.unlink, hw]
    · intro g hg
      rcases List.mem_append.mp hg with hg | hg
      · exact h.fair g hg
      · rw [List.mem_singleton.mp hg]
        exact hopen
  · next hnil =>
    refine { h with slots := ?_, full := fun hne => absurd hnil hne }
    have := h.slots
    simp only [Memory.holding, Memory.granted, Loop.mem_modify] at this ⊢
    omega

/-- **The `finally` gives the slot back**, however the `sleep` has ended. -/
theorem Inv.finish {s : World ι T} {p : Phase} (h : Inv tok size 0 s.mem (i :: s.jobs))
    (hc : Closed s.mem) (hi : s.mem.phase i = .served ∨ s.mem.phase i = .cut)
    (hp : p = .returned ∨ p = .threw) :
    Inv tok size 0 (finish tok s i p).mem (finish tok s i p).jobs := by
  unfold Node.finish
  rw [Loop.mem_push, Loop.jobs_push_none]
  -- the slot is given back, for the query holds it no longer
  refine Inv.release ?_ hc
  have hnone : ∀ l : Listener ι, s.mem.phase i ≠ l.phase := by
    rintro (l | l) <;> rcases hi with hi | hi <;> simp [hi, Listener.phase]
  have hjobs := h.jobs.leave (i := i) (p := false) (by simp)
  rw [List.erase_cons_head] at hjobs
  have hend : p.Holds = false ∧ p.IsGranted = false ∧ p.Settled = false ∧ p.GaveUp = false ∧
      p ≠ .idle ∧ p ≠ .called ∧ p ≠ .waiting ∧ p ≠ .serving := by
    rcases hp with rfl | rfl <;> decide
  obtain ⟨hholds, hgranted, hsettled, hgave, hidle, hcalled, hwaiting, hserving⟩ := hend
  have hbefore : (s.mem.phase i).Holds = true ∧ (s.mem.phase i).IsGranted = false ∧
      (s.mem.phase i).GaveUp = false ∧ s.mem.phase i ≠ .idle := by
    rcases hi with hi | hi <;> rw [hi] <;> decide
  refine h.act hbefore.2.2.2 hidle rfl rfl (h.waiters.other (hnone (.waiter i)) hwaiting) h.linked
    (h.listeners_other hnone ?_) ?_ ?_ ?_ ?_ h.full ⟨hcalled, Or.inl rfl⟩
    (h.order_stay (hgave.trans hbefore.2.2.1.symm)) h.fair
  · rintro (l | l)
    · exact hwaiting
    · exact hserving
  · rw [decide_eq_false hserving]
    exact h.timer_other (hnone (.sleeper i))
  · rw [hsettled]
    exact hjobs
  · simp [Memory.enter, hbefore, hholds, hgranted]
  · simp [Memory.enter, hbefore, hholds]

/-- **A query goes on after an `await`.** -/
theorem Inv.resume {s : World ι T} (h : Inv tok size 0 s.mem (i :: s.jobs)) (hc : Closed s.mem) :
    Inv tok size 0 (resume tok i s).mem (resume tok i s).jobs := by
  unfold Node.resume
  split
  -- a granted query goes on to its work
  · next hi => exact h.serve (Or.inr ⟨hi, rfl, rfl⟩)
  -- one that was refused throws, and has held nothing
  · next hi =>
    have hjobs := h.jobs.leave (i := i) (p := false) (by simp)
    rw [List.erase_cons_head] at hjobs
    rw [Loop.jobs_push_none]
    refine h.act (q := .gaveUp) (by simp [hi]) (by simp) rfl rfl
      (h.waiters.other (by simp [hi]) (by simp)) h.linked
      (h.listeners_other (by rintro (l | l) <;> simp [hi, Listener.phase])
        (by rintro (l | l) <;> simp [Listener.phase])) (h.timer_other (by simp [hi])) hjobs ?_ ?_
      h.full ⟨by simp, Or.inl rfl⟩ (h.order_stay (by simp [hi, Phase.GaveUp])) h.fair
    · simp [Memory.enter, hi, Phase.Holds, Phase.IsGranted]
    · simp [Memory.enter, hi, Phase.Holds]
  -- one whose work is over, or cut, gives its slot back
  · next hi => exact h.finish hc (Or.inl hi) (Or.inl rfl)
  · next hi => exact h.finish hc (Or.inr hi) (Or.inr rfl)
  · next h1 h2 h3 h4 =>
    have hi : (s.mem.phase i).Settled = true := (h.jobs.mem i).mp List.mem_cons_self
    cases hp : s.mem.phase i <;> simp_all [Phase.Settled]

/-- The timer of a `sleep` that has not been aborted. -/
theorem Inv.timeout {s s' : World ι T} (h : Inv tok size 0 s.mem s.jobs)
    (hs : timeout tok i s = some s') : Inv tok size 0 s'.mem s'.jobs := by
  unfold Node.timeout at hs
  obtain ⟨ht, hs⟩ := Option.ite_none_right_eq_some.mp hs
  obtain rfl := Option.some_inj.mp hs
  have hi : s.mem.phase i = .serving := (h.timer i).mp ht
  rw [if_pos (by exact hi)]
  refine h.act (q := .served) (by simp [hi]) (by simp) rfl rfl
    (h.waiters.other (by simp [hi]) (by simp)) (h.linked_update ((h.linked _).filter _))
    (h.listeners_unlink (i := i) (l := .sleeper i) rfl hi
      (by rintro (l | l) <;> simp [Listener.phase]) fun l => by simp) rfl ?_ ?_ ?_ h.full
    ⟨by simp, Or.inl rfl⟩ (h.order_stay (by simp [hi, Phase.GaveUp])) h.fair
  · simpa [settle, Phase.Settled] using h.jobs.enter (i := i) (by simp [hi, Phase.Settled])
  · simp [settle, Memory.enter, Memory.unlink, hi, Phase.Holds, Phase.IsGranted]
  · simp [settle, Memory.enter, Memory.unlink, hi, Phase.Holds]

/-- The first of the listeners of an aborted token is called, and taken out. -/
theorem Inv.fire {s : World ι T} {t : T} {l : Listener ι} {ls : List (Listener ι)}
    (h : Inv tok size 0 (s.mem.listen t (l :: ls)) s.jobs) :
    Inv tok size 0 ((fire s l).mem.listen t ls) (fire s l).jobs := by
  have hself : (s.mem.listen t (l :: ls)).listeners t = l :: ls := Function.update_self _ _ _
  have hl := (h.listeners t l).mp (by rw [hself]; exact List.mem_cons_self)
  have hnodup := h.linked t
  rw [hself, List.nodup_cons] at hnodup
  -- `{ once: true }`: what is left are the other listeners
  have hrest : ∀ l', l' ∈ ls ↔ l' ∈ (s.mem.listen t (l :: ls)).listeners t ∧ l' ≠ l := by
    intro l'
    rw [hself, List.mem_cons]
    refine ⟨fun hl' => ⟨Or.inr hl', ?_⟩, fun hl' => hl'.1.resolve_left hl'.2⟩
    rintro rfl
    exact hnodup.1 hl'
  obtain ⟨rfl, hi⟩ := hl
  replace hi : s.mem.phase l.call = l.phase := hi
  have hlinked := h.linked_update (t := tok l.call) hnodup.2
  have hlisteners := fun q hq => h.listeners_unlink (q := q) rfl hi hq hrest
  rw [Memory.listen, Function.update_idem] at hlinked
  simp only [Memory.listen, Function.update_idem] at hlisteners
  cases l with
  | waiter i =>
    replace hi : s.mem.phase i = .waiting := hi
    rw [fire_waiter hi]
    refine h.act (i := i) (q := .refused) (by simp [Memory.listen, hi]) (by simp) rfl rfl
      (h.waiters.leave (by simp)) hlinked
      (hlisteners .refused (by rintro (l | l) <;> simp [Listener.phase]))
      (h.timer_other (by simp [Memory.listen, hi])) ?_ ?_ ?_ ?_ ⟨by simp, Or.inl rfl⟩
      (h.order_giveUp hi rfl) h.fair
    · simpa [settle, Phase.Settled] using
        h.jobs.enter (i := i) (by simp [Memory.listen, hi, Phase.Settled])
    · simp [settle, Memory.enter, Memory.listen, hi, Phase.Holds, Phase.IsGranted]
    · simp [settle, Memory.enter, Memory.listen, hi, Phase.Holds]
    · intro hne
      refine h.full fun hnil => hne ?_
      replace hnil : s.mem.waiters = [] := hnil
      simp [settle, Memory.enter, hnil]
  | sleeper i =>
    replace hi : s.mem.phase i = .serving := hi
    rw [fire_sleeper hi]
    refine h.act (i := i) (q := .cut) (by simp [Memory.listen, hi]) (by simp) rfl rfl
      (h.waiters.other (by simp [Memory.listen, hi]) (by simp)) hlinked
      (hlisteners .cut (by rintro (l | l) <;> simp [Listener.phase])) rfl ?_ ?_ ?_ h.full
      ⟨by simp, Or.inl rfl⟩ (h.order_stay (by simp [Memory.listen, hi, Phase.GaveUp])) h.fair
    · simpa [settle, Phase.Settled] using
        h.jobs.enter (i := i) (by simp [Memory.listen, hi, Phase.Settled])
    · simp [settle, Memory.enter, Memory.listen, hi, Phase.Holds, Phase.IsGranted]
    · simp [settle, Memory.enter, Memory.listen, hi, Phase.Holds]

theorem Inv.foldl_fire {t : T} (ls : List (Listener ι)) {s : World ι T}
    (h : Inv tok size 0 (s.mem.listen t ls) s.jobs) :
    Inv tok size 0 ((ls.foldl Node.fire s).mem.listen t []) (ls.foldl Node.fire s).jobs := by
  induction ls generalizing s with
  | nil => exact h
  | cons l ls ih =>
    rw [List.foldl_cons]
    exact ih h.fire

/-- **A token is aborted.** -/
theorem Inv.abort {s : World ι T} (h : Inv tok size 0 s.mem s.jobs) (t : T) :
    Inv tok size 0 (abort s t).mem (abort s t).jobs := by
  unfold Node.abort
  split
  · exact h
  · refine Inv.foldl_fire _ ?_
    have hsame : s.mem.listen t (s.mem.listeners t) = s.mem := by
      rw [Memory.listen, Function.update_eq_self]
    rw [← hsame] at h
    exact { h with }

/-! ### Aborted tokens -/

omit [DecidableEq T] in
/-- The listeners that are called leave the tokens alone. -/
theorem tokens_fire (s : World ι T) (l : Listener ι) :
    (fire s l).mem.aborted = s.mem.aborted ∧ (fire s l).mem.listeners = s.mem.listeners := by
  cases l <;> unfold fire <;> simp only <;> split <;> exact ⟨rfl, rfl⟩

omit [DecidableEq ι] [DecidableEq T] in
theorem Closed.of_eq (h : Closed m) (ha : m'.aborted = m.aborted)
    (hl : m'.listeners = m.listeners) : Closed m' := by
  intro t
  rw [ha, hl]
  exact h t

theorem Closed.link {s : World ι T} (h : Closed s.mem) (t : T) (l : Listener ι) :
    Closed (link s t l).mem := by
  unfold Node.link
  split
  · exact h.of_eq (tokens_fire s l).1 (tokens_fire s l).2
  · next hopen =>
    intro t' ht'
    have hne : t' ≠ t := by
      rintro rfl
      exact hopen ht'
    exact (Function.update_of_ne hne _ _).trans (h t' ht')

theorem Closed.unlink (h : Closed m) (t : T) (l : Listener ι) : Closed (m.unlink t l) := by
  intro t' ht'
  show Function.update m.listeners t _ t' = []
  by_cases ht : t' = t
  · subst ht
    rw [Function.update_self, h t' ht', List.filter_nil]
  · rw [Function.update_of_ne ht, h t' ht']

theorem Closed.query {s s' : World ι T} (h : Closed s.mem) (hs : query tok s i = some s') :
    Closed s'.mem := by
  unfold Node.query at hs
  obtain ⟨-, hs⟩ := Option.ite_none_right_eq_some.mp hs
  obtain rfl := Option.some_inj.mp hs
  split
  · refine Closed.link ?_ _ _
    exact h.of_eq rfl rfl
  · refine Closed.link ?_ _ _
    exact h.of_eq rfl rfl

theorem Closed.release {s : World ι T} (h : Closed s.mem) : Closed (release tok s).mem := by
  unfold Node.release
  split
  · next w waiters _ =>
    have hunlink : Closed ({ s.mem with waiters := waiters }.unlink (tok w) (.waiter w)) :=
      Closed.unlink (h.of_eq rfl rfl) _ _
    dsimp only
    split <;> exact hunlink.of_eq rfl rfl
  · exact h.of_eq rfl rfl

theorem Closed.resume {s : World ι T} (h : Closed s.mem) : Closed (resume tok i s).mem := by
  unfold Node.resume
  split
  · refine Closed.link ?_ _ _
    exact h.of_eq rfl rfl
  · exact h.of_eq rfl rfl
  · exact Closed.release (h.of_eq rfl rfl)
  · exact Closed.release (h.of_eq rfl rfl)
  · exact h

theorem Closed.timeout {s s' : World ι T} (h : Closed s.mem) (hs : timeout tok i s = some s') :
    Closed s'.mem := by
  unfold Node.timeout at hs
  obtain ⟨-, hs⟩ := Option.ite_none_right_eq_some.mp hs
  obtain rfl := Option.some_inj.mp hs
  have hunlink : Closed ({ s.mem with timer := Function.update s.mem.timer i false }.unlink (tok i)
      (.sleeper i)) := Closed.unlink (h.of_eq rfl rfl) _ _
  split <;> exact hunlink.of_eq rfl rfl

theorem Closed.abort {s : World ι T} (h : Closed s.mem) (t : T) : Closed (abort s t).mem := by
  -- the listeners of an aborted token are called and taken off the list
  have hfold : ∀ (ls : List (Listener ι)) (s : World ι T),
      (ls.foldl fire s).mem.aborted = s.mem.aborted ∧
        (ls.foldl fire s).mem.listeners = s.mem.listeners := by
    intro ls
    induction ls with
    | nil => exact fun s => ⟨rfl, rfl⟩
    | cons l ls ih =>
      intro s
      rw [List.foldl_cons]
      exact ⟨(ih _).1.trans (tokens_fire s l).1, (ih _).2.trans (tokens_fire s l).2⟩
  unfold Node.abort
  split
  · exact h
  · intro t' ht'
    show Function.update (List.foldl fire _ _).mem.listeners t [] t' = []
    by_cases ht : t' = t
    · rw [ht, Function.update_self]
    · rw [Function.update_of_ne ht, (hfold _ _).2]
      replace ht' : (List.foldl fire _ _).mem.aborted t' = true := ht'
      rw [(hfold _ _).1] at ht'
      exact h t' ((Function.update_of_ne ht _ _).symm.trans ht')

/-! ### Every run -/

/-- What holds of a pool of `size` slots at any time between two jobs. -/
structure Exact (tok : ι → T) (size : ℕ) (s : World ι T) : Prop where
  slots : s.mem.free + s.mem.holding + s.mem.granted = size
  inUse : s.mem.inUse = s.mem.holding ∧ s.mem.inUse ≤ size
  full : s.mem.waiters ≠ [] → s.mem.free = 0
  /-- Who waits has not been aborted, and nobody was when a slot was granted to it. -/
  fair : (∀ i ∈ s.mem.waiters, s.mem.aborted (tok i) = false) ∧ ∀ g ∈ s.mem.grants, g.2 = false
  /-- The slots go to the waiters in the order in which they came, without those who gave up. -/
  order : s.mem.arrived.Nodup ∧
    (s.mem.arrived.filter fun i => !(s.mem.phase i).GaveUp) =
      s.mem.grants.map Prod.fst ++ s.mem.waiters
  /-- Who has been granted a slot, or has it, will go on. -/
  resumes : ∀ i, s.mem.phase i = .granted ∨ s.mem.phase i = .served ∨ s.mem.phase i = .cut →
    i ∈ s.jobs
  serves : ∀ i, s.mem.phase i = .serving → s.mem.timer i = true ∧
    .sleeper i ∈ s.mem.listeners (tok i)

omit [DecidableEq ι] [DecidableEq T] in
theorem Inv.exact {s : World ι T} (h : Inv tok size 0 s.mem s.jobs) (hc : Closed s.mem) :
    Exact tok size s where
  slots := h.slots
  inUse := by
    have hslots := h.slots
    rw [h.inUse]
    exact ⟨rfl, by omega⟩
  full := h.full
  fair := by
    refine ⟨fun i hi => Bool.eq_false_iff.mpr fun ha => ?_, h.fair⟩
    have hlinked : .waiter i ∈ s.mem.listeners (tok i) :=
      (h.listeners _ _).mpr ⟨rfl, (h.waiters.mem i).mp hi⟩
    rw [hc _ ha] at hlinked
    cases hlinked
  order := ⟨h.arrived, h.order⟩
  resumes i hi := by
    rw [h.jobs.mem]
    rcases hi with hi | hi | hi <;> simp [hi, Phase.Settled]
  serves i hi := ⟨(h.timer i).mpr hi, (h.listeners _ _).mpr ⟨rfl, hi⟩⟩

omit [DecidableEq ι] [DecidableEq T] in
theorem Inv.init : Inv tok size 0 (Memory.init size : Memory ι T) [] where
  calls := List.nodup_nil
  called _ := iff_of_false List.not_mem_nil (fun h => h rfl)
  waiters := .nil (by simp [Memory.init])
  linked _ := List.nodup_nil
  listeners t l := iff_of_false List.not_mem_nil fun h => by cases l <;> cases h.2
  timer _ := by simp [Memory.init]
  jobs := .nil (by simp [Memory.init, Phase.Settled])
  slots := by simp [Memory.init, Memory.holding, Memory.granted]
  inUse := by simp [Memory.init, Memory.holding]
  full h := absurd rfl h
  arrived := List.nodup_nil
  came _ h := absurd h List.not_mem_nil
  order := rfl
  fair _ h := absurd h List.not_mem_nil

/-- **The pool never leaks a slot**, whatever the other code calls and aborts, and whichever
timers fire. -/
theorem pool_never_leaks (tok : ι → T) (size : ℕ) {s : World ι T}
    (h : Reach (database tok).step (Loop.init (Memory.init size)) s) : Exact tok size s := by
  have hinv : Inv tok size 0 s.mem s.jobs ∧ Closed s.mem := by
    refine Component.invariant (I := fun s => Inv tok size 0 s.mem s.jobs ∧ Closed s.mem)
      ⟨.init, fun _ h => by cases h⟩ ?_ ?_ ?_ ?_ h
    · -- the other code touches neither the memory nor the jobs
      rintro s s' hs - hmem hjobs
      rw [hmem, hjobs]
      exact hs
    · rintro (i | t) s s' ⟨hs, hc⟩ - hcall
      · exact ⟨hs.query hcall, hc.query hcall⟩
      · obtain rfl := Option.some_inj.mp hcall
        exact ⟨hs.abort t, hc.abort t⟩
    · rintro i s s' ⟨hs, hc⟩ - - htimer
      exact ⟨hs.timeout htimer, hc.timeout htimer⟩
    · rintro i s ⟨hs, hc⟩ -
      have hjobs : (Loop.jobs { s with queue := some i :: s.queue }) = i :: s.jobs := by
        simp [Loop.jobs]
      rw [hjobs] at hs
      exact ⟨hs.resume hc, Closed.resume (s := s) hc⟩
  exact hinv.1.exact hinv.2

/-- A pool of one slot.  Query `0` is aborted during its `sleep`, query `1` while it waits, and
query `2` between the grant and its continuation; query `3` is served, and the slot is free. -/
theorem pool_never_leaks_aborted : ∃ s : World ℕ ℕ,
    s.mem.free = 1 ∧ s.mem.grants = [(2, false), (3, false)] ∧
    (s.mem.phase 0, s.mem.phase 1, s.mem.phase 2, s.mem.phase 3) =
      (.threw, .gaveUp, .threw, .returned) ∧ Exact id 1 s := by
  have hrun : ((exec (database (id : ℕ → ℕ)).step (Loop.init (Memory.init 1))
      [.enter, .call (.query 0), .call (.query 1), .call (.query 2), .call (.query 3),
        .call (.abort 1), .call (.abort 0), .defer, .leave, .next, .next, .next, .call (.abort 2),
        .leave, .next, .leave, .next, .next, .leave, .next, .next, .next, .leave, .timer 3, .next,
        .next, .call (.abort 3)]).map fun s => (s.mem.free, s.mem.grants,
          (s.mem.phase 0, s.mem.phase 1, s.mem.phase 2, s.mem.phase 3))) =
      some (1, [(2, false), (3, false)], (.threw, .gaveUp, .threw, .returned)) := by decide
  obtain ⟨s, hs, hobs⟩ := Option.map_eq_some_iff.mp hrun
  simp only [Prod.mk.injEq] at hobs
  obtain ⟨hfree, hgrants, h0, h1, h2, h3⟩ := hobs
  exact ⟨s, hfree, hgrants, by simp only [h0, h1, h2, h3], pool_never_leaks id 1 (.of_exec _ hs)⟩

end Node
end Metastable
end SepLab
