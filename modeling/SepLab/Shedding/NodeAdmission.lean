import SepLab.Lib.EventLoop
import SepLab.Shedding.Admission

/-!
# Admission control in an event loop

The load-shedding topic's Node `Admission`: a count of permits, a list of waiters, and a timer
for each of them.  A permit that comes back is handed to the first waiter without passing
through the count; a timer takes its waiter out of the list.  Either way the waiter's promise
is resolved, and the request has yet to go on.

## Main definitions

* `Phase`, `Memory` — where a request stands; the permits, the waiters, the timers.
* `admission`, `release`, `resume`, `timeout` — the code between two `await`s.
* `admissionComponent` — the component of the event loop.
* `Exact` — what holds of the permits at any time.

## Main results

* `Inv.admission`, `Inv.release`, … — what each of them keeps in mode `static`.
* `admission_exact` — the permits are exact in every run.
-/

namespace SepLab
namespace Shedding
namespace Node

/-- Where a request stands. -/
inductive Phase
  | idle
  /-- `admit` has been called, up to its `await` or its end. -/
  | called
  /-- The promise of its waiter is pending. -/
  | waiting
  /-- That promise is resolved with `true`, and `admit` has yet to go on. -/
  | granted
  /-- That promise is resolved with `false`, and `admit` has yet to go on. -/
  | timedOut
  /-- `admit` has returned `true`. -/
  | admitted
  /-- `admit` has returned `false`. -/
  | refused
  | released
  deriving DecidableEq, Repr

namespace Phase

/-- The request is admitted, or will be, and has not been released. -/
def Holds : Phase → Bool
  | .granted | .admitted => true
  | _ => false

/-- The promise of the request is settled, and `admit` has yet to go on. -/
def Settled : Phase → Bool
  | .granted | .timedOut => true
  | _ => false

/-- The request has not been let in. -/
def Missed : Phase → Bool
  | .timedOut | .refused => true
  | _ => false

end Phase

/-- An `Admission` and its requests.  The last four fields record what was called: the requests,
those that had to wait, the calls of `resolve` of their promises, and the requests that were
refused, each with the permits at that moment. -/
structure Memory (ι : Type) where
  permits : ℕ
  waiters : List ι
  inflight : ℤ
  /-- `limiter.limit` -/
  limit : ℚ
  /-- The timer of the waiter is set. -/
  timer : ι → Bool
  phase : ι → Phase
  calls : List ι
  arrived : List ι
  resolves : List (ι × Bool)
  refusals : List (ι × ℕ)

/-- The event loop; the continuations are those of `admit`. -/
abbrev World (ι : Type) := Loop (Memory ι) ι

namespace Memory

variable {ι : Type} [DecidableEq ι]

omit [DecidableEq ι] in
/-- `new Admission(mode)` with `SHED_LIMIT` permits. -/
def init (shedLimit : ℕ) (limit : ℚ) : Memory ι :=
  ⟨shedLimit, [], 0, limit, fun _ => false, fun _ => .idle, [], [], [], []⟩

/-- The request goes on to `p`. -/
def enter (m : Memory ι) (i : ι) (p : Phase) : Memory ι :=
  { m with phase := Function.update m.phase i p }

omit [DecidableEq ι] in
/-- The admissions that are granted and not released. -/
def holding (m : Memory ι) : ℕ := m.calls.countP fun i => (m.phase i).Holds

end Memory

variable {ι : Type} [DecidableEq ι]

/-- `usesPermit` -/
def usesPermit (mode : Mode) (tier : ℤ) : Bool :=
  if mode = .none ∨ mode = .adaptive then false
  else if mode = .priority ∧ 0 < tier then false
  else true

/-- `admit` returns `true`, and its caller goes on next. -/
def accept (s : World ι) (i : ι) : World ι :=
  (s.modify fun m => { m.enter i .admitted with inflight := m.inflight + 1 }).push none

/-- `admit` returns `false`, and its caller goes on next. -/
def refuse (s : World ι) (i : ι) : World ι :=
  (s.modify fun m =>
    { m.enter i .refused with refusals := m.refusals ++ [(i, m.permits)] }).push none

/-- The waiter of request `i`, up to the `await`. -/
def wait (s : World ι) (i : ι) : World ι :=
  s.modify fun m =>
    { m.enter i .waiting with
      waiters := m.waiters ++ [i]
      arrived := m.arrived ++ [i]
      timer := Function.update m.timer i true }

/-- The end of `admit`, up to its `await` if it has to wait. -/
def acquire (s : World ι) (i : ι) : World ι :=
  if 0 < s.mem.permits then accept (s.modify fun m => { m with permits := m.permits - 1 }) i
  else wait s i

/-- `admit`, up to its `await`. -/
def admission (mode : Mode) (tier : ι → ℤ) (i : ι) (s : World ι) : Option (World ι) :=
  if s.mem.phase i = .idle then
    let s := s.modify fun m => { m.enter i .called with calls := m.calls ++ [i] }
    match mode with
    | .none => some (accept s i)
    | .adaptive => some (if s.mem.limit ≤ s.mem.inflight then refuse s i else accept s i)
    | .priority => some (
      if 0 < tier i then
        if tier3Limit ≤ s.mem.inflight then refuse s i else accept s i
      else acquire s i)
    | .static => some (acquire s i)
  else none

/-- `resolve` of the promise of a waiter, which does nothing to one that is resolved. -/
def resolve (s : World ι) (i : ι) (granted : Bool) : World ι :=
  let s := s.modify fun m => { m with resolves := m.resolves ++ [(i, granted)] }
  if s.mem.phase i = .waiting then
    (s.modify (·.enter i (if granted then .granted else .timedOut))).push (some i)
  else s

/-- A permit goes to the first waiter, or into the count. -/
def giveBack (s : World ι) : World ι :=
  match s.mem.waiters with
  | w :: waiters =>
    resolve (s.modify fun m =>
      { m with waiters := waiters, timer := Function.update m.timer w false }) w true
  | [] => s.modify fun m => { m with permits := m.permits + 1 }

/-- `release(usedPermit)`, once for each request that has been admitted. -/
def release (mode : Mode) (tier : ι → ℤ) (i : ι) (s : World ι) : Option (World ι) :=
  if s.mem.phase i = .admitted then
    let s := s.modify fun m => { m.enter i .released with inflight := m.inflight - 1 }
    some (if usesPermit mode (tier i) then giveBack s else s)
  else none

/-- `admit` goes on after its `await`. -/
def resume (i : ι) (s : World ι) : World ι :=
  match s.mem.phase i with
  | .granted => accept s i
  | .timedOut => refuse s i
  | _ => s

/-- The timer of a waiter fires. -/
def timeout (i : ι) (s : World ι) : Option (World ι) :=
  if s.mem.timer i then
    some (resolve (s.modify fun m =>
      { m with
        timer := Function.update m.timer i false
        waiters := m.waiters.erase i }) i false)
  else none

/-- What other code calls. -/
inductive Call (ι : Type)
  | admission (i : ι)
  | release (i : ι)
  /-- The limiter changes its mind. -/
  | update (limit : ℚ)

/-- The `Admission`, as a component of the event loop. -/
def admissionComponent (mode : Mode) (tier : ι → ℤ) : Component (Memory ι) ι (Call ι) ι where
  call
    | .admission i, s => admission mode tier i s
    | .release i, s => release mode tier i s
    | .update limit, s => some (s.modify fun m => { m with limit := limit })
  run := resume
  timer := timeout

/-! ### The invariant -/

/-- The lists of the memory are those of the phases, and each permit is free, or held, or one of
`hand` that the running code has. -/
structure Inv (size hand : ℕ) (m : Memory ι) (jobs : List ι) : Prop where
  calls : m.calls.Nodup
  called : ∀ i, i ∈ m.calls ↔ m.phase i ≠ .idle
  waiters : Listed m.waiters m.phase .waiting
  timer : ∀ i, m.timer i = true ↔ m.phase i = .waiting
  jobs : Listed jobs (Phase.Settled ∘ m.phase) true
  slots : m.permits + m.holding + hand = size
  full : m.waiters ≠ [] → m.permits = 0
  arrived : m.arrived.Nodup
  came : ∀ i ∈ m.arrived, m.phase i ≠ .idle ∧ m.phase i ≠ .called
  order : (m.arrived.filter fun i => !(m.phase i).Missed) =
    (m.resolves.filter (·.2)).map Prod.fst ++ m.waiters
  resolved : (m.resolves.map Prod.fst ++ m.waiters).Perm m.arrived
  refusals : ∀ r ∈ m.refusals, r.2 = 0

variable {tier : ι → ℤ} {size hand hand' : ℕ} {m m' : Memory ι} {js js' : List ι} {i : ι}
  {q : Phase}

/-- **A request goes on**, from one phase to the next, and the rest follows it. -/
theorem Inv.act (h : Inv size hand m js) (hi : m.phase i ≠ .idle) (hq : q ≠ .idle)
    (hphase : m'.phase = Function.update m.phase i q) (hcalls : m'.calls = m.calls)
    (hwaiters : Listed m'.waiters (Function.update m.phase i q) .waiting)
    (htimer : m'.timer = Function.update m.timer i (decide (q = .waiting)))
    (hjobs : Listed js' (Function.update (Phase.Settled ∘ m.phase) i q.Settled) true)
    (hslots : m'.permits + q.Holds.toNat + hand' = m.permits + (m.phase i).Holds.toNat + hand)
    (hfull : m'.waiters ≠ [] → m'.permits = 0)
    (harrived : q ≠ .called ∧ (m'.arrived = m.arrived ∨
      m'.arrived = m.arrived ++ [i] ∧ m.phase i = .called))
    (horder : (m'.arrived.filter fun j => !(Function.update m.phase i q j).Missed) =
      (m'.resolves.filter (·.2)).map Prod.fst ++ m'.waiters)
    (hresolved : (m'.resolves.map Prod.fst ++ m'.waiters).Perm m'.arrived)
    (hrefusals : ∀ r ∈ m'.refusals, r.2 = 0) : Inv size hand' m' js' := by
  have hmem := (h.called i).mpr hi
  refine ⟨hcalls ▸ h.calls, fun j => ?_, hphase ▸ hwaiters, fun j => ?_, ?_, ?_, hfull, ?_,
    fun j hj => ?_, hphase ▸ horder, hresolved, hrefusals⟩
  · rw [hcalls, hphase]
    exact mem_iff_update h.called hi hq j
  · rw [htimer, hphase]
    exact flag_update h.timer j
  · rw [hphase, Function.comp_update]
    exact hjobs
  · have hholds := countP_update (f := m.phase) h.calls hmem Phase.Holds q
    have hslots' := h.slots
    simp only [Memory.holding, hcalls, hphase] at hslots' ⊢
    omega
  · exact nodup_of_come h.arrived (fun j hj => (h.came j hj).2) harrived.2
  · have hcome := harrived.2.imp_right And.left
    rw [hphase]
    exact ⟨ne_of_come (fun j hj => (h.came j hj).1) hq hcome hj,
      ne_of_come (fun j hj => (h.came j hj).2) harrived.1 hcome hj⟩

/-- The timer of a request that does not wait is not set. -/
theorem Inv.timer_other (h : Inv size hand m js) (hi : m.phase i ≠ .waiting) :
    m.timer = Function.update m.timer i false :=
  flag_other h.timer hi

/-- A request that goes on keeps its place, if it has one. -/
theorem Inv.order_stay (h : Inv size hand m js) (hq : q.Missed = (m.phase i).Missed) :
    (m.arrived.filter fun j => !(Function.update m.phase i q j).Missed) =
      (m.resolves.filter (·.2)).map Prod.fst ++ m.waiters := by
  rw [filter_update (fun p : Phase => !p.Missed) fun _ => by rw [hq]]
  exact h.order

/-- A call of `admit` is new. -/
theorem Inv.enter_called (h : Inv size hand m js) (hi : m.phase i = .idle) :
    Inv size hand { m.enter i .called with calls := m.calls ++ [i] } js := by
  have hnot : i ∉ m.calls := fun hmem => (h.called i).mp hmem hi
  refine ⟨?_, fun j => ?_, h.waiters.other (by simp [hi]) (by simp), fun j => ?_, ?_, ?_, h.full,
    h.arrived, fun j hj => ?_, h.order_stay (by simp [hi, Phase.Missed]), h.resolved, h.refusals⟩
  · exact nodup_append_singleton h.calls hnot
  · exact mem_concat_iff_update h.called (by simp) j
  · show m.timer j = true ↔ Function.update m.phase i .called j = .waiting
    rw [h.timer]
    by_cases hj : j = i
    · simp [hj, hi]
    · rw [Function.update_of_ne hj]
  · show Listed js (Phase.Settled ∘ Function.update m.phase i .called) true
    rw [Function.comp_update]
    exact h.jobs.other (by simp [hi, Phase.Settled]) (by simp [Phase.Settled])
  · simp only [Memory.holding, Memory.enter]
    rw [countP_concat_update hnot Phase.Holds rfl]
    exact h.slots
  · have hne : j ≠ i := fun heq => (h.came j hj).1 (heq ▸ hi)
    show Function.update m.phase i .called j ≠ .idle ∧ Function.update m.phase i .called j ≠ .called
    rw [Function.update_of_ne hne]
    exact h.came j hj

/-! ### What the functions keep -/

/-- A request is let in, with a permit at hand or one that was granted. -/
theorem Inv.accept {s : World ι} (h : Inv size hand s.mem js)
    (hi : s.mem.phase i = .called ∧ hand = 1 ∧ js = s.jobs ∨
      s.mem.phase i = .granted ∧ hand = 0 ∧ js = i :: s.jobs) :
    Inv size 0 (accept s i).mem (accept s i).jobs := by
  unfold Node.accept
  rw [Loop.jobs_push_none]
  have hbefore : s.mem.phase i ≠ .idle ∧ s.mem.phase i ≠ .waiting ∧
      (s.mem.phase i).Missed = false := by
    rcases hi with ⟨hi, -⟩ | ⟨hi, -⟩ <;> rw [hi] <;> decide
  refine h.act (q := .admitted) hbefore.1 (by simp) rfl rfl
    (h.waiters.other hbefore.2.1 (by simp)) (h.timer_other hbefore.2.1) ?_ ?_ h.full
    ⟨by simp, Or.inl rfl⟩ (h.order_stay hbefore.2.2.symm) h.resolved h.refusals
  · rcases hi with ⟨hi, -, rfl⟩ | ⟨hi, -, rfl⟩
    · exact h.jobs.other (by simp [hi, Phase.Settled]) (by simp [Phase.Settled])
    · have := h.jobs.leave (i := i) (p := false) (by simp)
      rwa [List.erase_cons_head] at this
  · rcases hi with ⟨hi, rfl, -⟩ | ⟨hi, rfl, -⟩ <;> simp [Memory.enter, hi, Phase.Holds]

/-- A request whose wait has timed out is refused, when there is no permit. -/
theorem Inv.refuse {s : World ι} (h : Inv size 0 s.mem (i :: s.jobs))
    (hi : s.mem.phase i = .timedOut) (hnone : s.mem.permits = 0) :
    Inv size 0 (refuse s i).mem (refuse s i).jobs := by
  unfold Node.refuse
  rw [Loop.jobs_push_none]
  have hjobs := h.jobs.leave (i := i) (p := false) (by simp)
  rw [List.erase_cons_head] at hjobs
  refine h.act (q := .refused) (by simp [hi]) (by simp) rfl rfl
    (h.waiters.other (by simp [hi]) (by simp)) (h.timer_other (by simp [hi])) hjobs ?_ h.full
    ⟨by simp, Or.inl rfl⟩ (h.order_stay (by simp [hi, Phase.Missed])) h.resolved ?_
  · simp [Memory.enter, hi, Phase.Holds]
  · intro r hr
    rcases List.mem_append.mp hr with hr | hr
    · exact h.refusals r hr
    · rw [List.mem_singleton.mp hr]
      exact hnone

/-- A request waits when there is no permit. -/
theorem Inv.wait {s : World ι} (h : Inv size 0 s.mem s.jobs) (hi : s.mem.phase i = .called)
    (hfree : s.mem.permits = 0) : Inv size 0 (wait s i).mem (wait s i).jobs := by
  have hnew : i ∉ s.mem.arrived := fun hmem => (h.came i hmem).2 hi
  refine h.act (q := .waiting) (by simp [hi]) (by simp) rfl rfl (h.waiters.enter (by simp [hi])) rfl
    (h.jobs.other (by simp [hi, Phase.Settled]) (by simp [Phase.Settled])) ?_ (fun _ => hfree)
    ⟨by simp, Or.inr ⟨rfl, hi⟩⟩ ?_ ?_ h.refusals
  · simp [Node.wait, hi, Memory.enter, Phase.Holds]
  · show ((s.mem.arrived ++ [i]).filter _) =
      (s.mem.resolves.filter (·.2)).map Prod.fst ++ (s.mem.waiters ++ [i])
    rw [List.filter_append, filter_update (fun p : Phase => !p.Missed) fun hmem => absurd hmem hnew,
      h.order, List.append_assoc]
    simp [Phase.Missed]
  · show (s.mem.resolves.map Prod.fst ++ (s.mem.waiters ++ [i])).Perm (s.mem.arrived ++ [i])
    rw [← List.append_assoc]
    exact h.resolved.append_right [i]

/-- In mode `static` a request takes a permit, or else waits. -/
theorem Inv.admission {s s' : World ι} (h : Inv size 0 s.mem s.jobs)
    (hs : admission .static tier i s = some s') : Inv size 0 s'.mem s'.jobs := by
  unfold Node.admission at hs
  obtain ⟨hi, hs⟩ := Option.ite_none_right_eq_some.mp hs
  obtain rfl := Option.some_inj.mp hs
  have h' := h.enter_called hi
  have hcalled : (s.mem.enter i .called).phase i = .called := Function.update_self _ _ _
  unfold acquire
  split
  · next hfree =>
    replace hfree : 0 < s.mem.permits := hfree
    -- the permit is at hand
    suffices hhand : Inv size 1 (_ : World ι).mem s.jobs from
      hhand.accept (Or.inl ⟨hcalled, rfl, rfl⟩)
    refine { h' with slots := ?_, full := fun hne => ?_ }
    · have := h'.slots
      simp only [Memory.holding, Memory.enter, Loop.mem_modify] at this ⊢
      omega
    · have := h'.full hne
      simp only [Memory.enter, Loop.mem_modify] at this ⊢
      omega
  · next hfree => exact Inv.wait h' hcalled (Nat.eq_zero_of_not_pos hfree)

/-- **The permit at hand goes to the first waiter**, or else is free again. -/
theorem Inv.giveBack {s : World ι} (h : Inv size 1 s.mem s.jobs) :
    Inv size 0 (giveBack s).mem (giveBack s).jobs := by
  unfold Node.giveBack
  split
  -- the place goes to the waiter at the front
  · next w waiters hw =>
    have hlisted := h.waiters
    rw [hw] at hlisted
    have hi : s.mem.phase w = .waiting := (hlisted.mem w).mp List.mem_cons_self
    have hleave := hlisted.leave (i := w) (p := .granted) (by simp)
    rw [List.erase_cons_head] at hleave
    unfold resolve
    rw [if_pos (by exact hi)]
    refine h.act (q := .granted) (by simp [hi]) (by simp) rfl rfl hleave rfl ?_ ?_ ?_
      ⟨by simp, Or.inl rfl⟩ ?_ ?_ h.refusals
    · simpa [Phase.Settled] using h.jobs.enter (i := w) (by simp [hi, Phase.Settled])
    · simp [Memory.enter, hi, Phase.Holds]
    · intro _
      exact h.full (by simp [hw])
    · refine (h.order_stay (by simp [hi, Phase.Missed])).trans ?_
      simp [Memory.enter, hw]
    · have := h.resolved
      rw [hw] at this
      simpa [Memory.enter] using this
  -- nobody waits, so there is one in flight less
  · next hnil =>
    refine { h with slots := ?_, full := fun hne => absurd hnil hne }
    have := h.slots
    simp only [Memory.holding, Loop.mem_modify] at this ⊢
    omega

theorem Inv.release {s s' : World ι} (h : Inv size 0 s.mem s.jobs)
    (hs : release .static tier i s = some s') : Inv size 0 s'.mem s'.jobs := by
  unfold Node.release at hs
  obtain ⟨hi, hs⟩ := Option.ite_none_right_eq_some.mp hs
  obtain rfl := Option.some_inj.mp hs
  rw [if_pos (show usesPermit .static (tier i) = true from rfl)]
  refine Inv.giveBack ?_
  refine h.act (q := .released) (by simp [hi]) (by simp) rfl rfl
    (h.waiters.other (by simp [hi]) (by simp)) (h.timer_other (by simp [hi]))
    (h.jobs.other (by simp [hi, Phase.Settled]) (by simp [Phase.Settled])) ?_ h.full
    ⟨by simp, Or.inl rfl⟩ (h.order_stay (by simp [hi, Phase.Missed])) h.resolved h.refusals
  simp [Memory.enter, hi, Phase.Holds]

/-- **A timer that fires takes its waiter out**; there is no permit then. -/
theorem Inv.timeout {s s' : World ι} (h : Inv size 0 s.mem s.jobs)
    (hs : timeout i s = some s') : Inv size 0 s'.mem s'.jobs := by
  unfold Node.timeout at hs
  obtain ⟨ht, hs⟩ := Option.ite_none_right_eq_some.mp hs
  obtain rfl := Option.some_inj.mp hs
  have hi : s.mem.phase i = .waiting := (h.timer i).mp ht
  have hmem : i ∈ s.mem.waiters := (h.waiters.mem i).mpr hi
  have hnodup := h.resolved.nodup_iff.mpr h.arrived
  -- a waiter has not been resolved, so that its entry is the first one with its name
  have hnot : i ∉ s.mem.resolves.map Prod.fst := by
    intro hres
    exact (List.nodup_append.mp hnodup).2.2 i hres i hmem rfl
  unfold resolve
  rw [if_pos (by exact hi)]
  refine h.act (q := .timedOut) (by simp [hi]) (by simp) rfl rfl (h.waiters.leave (by simp)) rfl ?_
    ?_ ?_ ⟨by simp, Or.inl rfl⟩ ?_ ?_ h.refusals
  · simpa [Phase.Settled] using h.jobs.enter (i := i) (by simp [hi, Phase.Settled])
  · simp [Memory.enter, hi, Phase.Holds]
  · intro _
    exact h.full (List.ne_nil_of_mem hmem)
  · show (s.mem.arrived.filter _) =
      ((s.mem.resolves ++ [(i, false)]).filter (·.2)).map Prod.fst ++ s.mem.waiters.erase i
    rw [filter_update_erase h.arrived (fun p : Phase => !p.Missed) (by rfl), h.order,
      List.erase_append_right]
    · simp
    · intro hres
      obtain ⟨r, hr, rfl⟩ := List.mem_map.mp hres
      exact hnot (List.mem_map.mpr ⟨r, (List.mem_filter.mp hr).1, rfl⟩)
  · show ((s.mem.resolves ++ [(i, false)]).map Prod.fst ++ s.mem.waiters.erase i).Perm s.mem.arrived
    rw [List.map_append, List.append_assoc]
    refine List.Perm.trans ?_ h.resolved
    exact (List.perm_cons_erase hmem).symm.append_left _

/-- **`admit` goes on after its `await`**, and finds no permit if its wait has timed out. -/
theorem Inv.resume {s : World ι} (h : Inv size 0 s.mem (i :: s.jobs))
    (hlate : s.mem.phase i = .timedOut → s.mem.permits = 0) :
    Inv size 0 (resume i s).mem (resume i s).jobs := by
  unfold Node.resume
  split
  · next hi => exact h.accept (Or.inr ⟨hi, rfl, rfl⟩)
  · next hi => exact h.refuse hi (hlate hi)
  · next h1 h2 =>
    have hi : (s.mem.phase i).Settled = true := (h.jobs.mem i).mp List.mem_cons_self
    cases hp : s.mem.phase i <;> simp_all [Phase.Settled]

/-! ### A request whose wait has timed out runs next -/

/-- No wait has timed out that `admit` has yet to go on after. -/
def Quiet (m : Memory ι) : Prop := ∀ i, m.phase i ≠ .timedOut

/-- A request whose wait has timed out is the first to run, and there is no permit until then. -/
def Prompt (s : World ι) : Prop :=
  ∀ i, s.mem.phase i = .timedOut →
    s.mem.permits = 0 ∧ s.busy = false ∧ s.queue.head? = some (some i)

omit [DecidableEq ι] in
theorem Quiet.prompt {s : World ι} (h : Quiet s.mem) : Prompt s := fun i hi => absurd hi (h i)

omit [DecidableEq ι] in
theorem Prompt.quiet {s : World ι} (h : Prompt s)
    (hs : s.busy = true ∨ ∀ i, s.queue.head? ≠ some (some i)) : Quiet s.mem := by
  intro i hi
  obtain ⟨-, hbusy, hhead⟩ := h i hi
  rcases hs with hs | hs
  · rw [hs] at hbusy
    cases hbusy
  · exact hs i hhead

theorem Quiet.update (h : Quiet m) (hphase : m'.phase = Function.update m.phase i q)
    (hq : q ≠ .timedOut) : Quiet m' := by
  intro j
  rw [hphase]
  by_cases hj : j = i
  · rw [hj, Function.update_self]
    exact hq
  · rw [Function.update_of_ne hj]
    exact h j

theorem Quiet.admission {s s' : World ι} (h : Quiet s.mem)
    (hs : admission .static tier i s = some s') :
    Quiet s'.mem := by
  unfold Node.admission at hs
  obtain ⟨-, hs⟩ := Option.ite_none_right_eq_some.mp hs
  obtain rfl := Option.some_inj.mp hs
  have hcalled : Quiet (s.mem.enter i .called) := h.update rfl (by simp)
  unfold acquire
  split <;> exact hcalled.update rfl (by simp)

theorem Quiet.release {s s' : World ι} (h : Quiet s.mem)
    (hs : release .static tier i s = some s') : Quiet s'.mem := by
  unfold Node.release at hs
  obtain ⟨-, hs⟩ := Option.ite_none_right_eq_some.mp hs
  obtain rfl := Option.some_inj.mp hs
  have hreleased : Quiet (s.mem.enter i .released) := h.update rfl (by simp)
  rw [if_pos (show usesPermit .static (tier i) = true from rfl)]
  unfold giveBack
  split
  · unfold resolve
    dsimp only
    split
    · exact hreleased.update rfl (by simp)
    · exact hreleased
  · exact hreleased

/-- The timer fires with nothing queued, so that its request runs next. -/
theorem Prompt.timeout {s s' : World ι} (h : Inv size 0 s.mem s.jobs) (hp : Prompt s)
    (hbusy : s.busy = false) (hqueue : s.queue = []) (hs : timeout i s = some s') : Prompt s' := by
  have hquiet : Quiet s.mem := hp.quiet (Or.inr fun i => by simp [hqueue])
  unfold Node.timeout at hs
  obtain ⟨ht, hs⟩ := Option.ite_none_right_eq_some.mp hs
  obtain rfl := Option.some_inj.mp hs
  have hi : s.mem.phase i = .waiting := (h.timer i).mp ht
  unfold resolve
  rw [if_pos (by exact hi)]
  intro j hj
  have hji : j = i := by
    by_contra hne
    exact hquiet j ((Function.update_of_ne hne _ _).symm.trans hj)
  refine ⟨h.full (List.ne_nil_of_mem ((h.waiters.mem i).mpr hi)), hbusy, ?_⟩
  simp [hqueue, hji]

theorem Prompt.resume {s : World ι} (hp : Prompt { s with queue := some i :: s.queue }) :
    Prompt (resume i s) := by
  -- whoever has timed out is at the head of the queue
  have hothers : ∀ j, j ≠ i → s.mem.phase j ≠ .timedOut := by
    intro j hj ht
    have hhead := (hp j ht).2.2
    rw [List.head?_cons, Option.some_inj, Option.some_inj] at hhead
    exact hj hhead.symm
  refine Quiet.prompt fun j => ?_
  unfold Node.resume
  split
  · by_cases hj : j = i
    · simp [accept, Memory.enter, hj]
    · simpa [accept, Memory.enter, hj] using hothers j hj
  · by_cases hj : j = i
    · simp [refuse, Memory.enter, hj]
    · simpa [refuse, Memory.enter, hj] using hothers j hj
  · next h1 h2 =>
    by_cases hj : j = i
    · rw [hj]
      exact h2
    · exact hothers j hj

/-! ### Every run -/

/-- What holds of an `Admission` in mode `static`, with `size` permits, at any time between two
jobs. -/
structure Exact (size : ℕ) (s : World ι) : Prop where
  slots : s.mem.permits + s.mem.holding = size
  full : s.mem.waiters ≠ [] → s.mem.permits = 0
  /-- The permits go to the waiters in the order in which they came, without those that a timer
  has taken out. -/
  order : (s.mem.arrived.filter fun i => !(s.mem.phase i).Missed) =
    (s.mem.resolves.filter (·.2)).map Prod.fst ++ s.mem.waiters
  /-- Each waiter is resolved once, or waits still. -/
  resolved : s.mem.arrived.Nodup ∧
    (s.mem.resolves.map Prod.fst ++ s.mem.waiters).Perm s.mem.arrived
  /-- No `admit` has returned `false` while there was a permit. -/
  refusals : ∀ r ∈ s.mem.refusals, r.2 = 0
  /-- Who waits has its timer, and who is granted a permit will go on. -/
  resumes : (∀ i, s.mem.phase i = .waiting → s.mem.timer i = true) ∧
    ∀ i, s.mem.phase i = .granted ∨ s.mem.phase i = .timedOut → i ∈ s.jobs

omit [DecidableEq ι] in
theorem Inv.exact {s : World ι} (h : Inv size 0 s.mem s.jobs) : Exact size s where
  slots := h.slots
  full := h.full
  order := h.order
  resolved := ⟨h.arrived, h.resolved⟩
  refusals := h.refusals
  resumes := by
    refine ⟨fun i hi => (h.timer i).mpr hi, fun i hi => ?_⟩
    rw [h.jobs.mem]
    rcases hi with hi | hi <;> simp [hi, Phase.Settled]

omit [DecidableEq ι] in
theorem Inv.init {limit : ℚ} : Inv size 0 (Memory.init size limit : Memory ι) [] where
  calls := List.nodup_nil
  called _ := iff_of_false List.not_mem_nil (fun h => h rfl)
  waiters := .nil (by simp [Memory.init])
  timer _ := by simp [Memory.init]
  jobs := .nil (by simp [Memory.init, Phase.Settled])
  slots := by simp [Memory.init, Memory.holding]
  full h := absurd rfl h
  arrived := List.nodup_nil
  came _ h := absurd h List.not_mem_nil
  order := rfl
  resolved := .nil
  refusals _ h := absurd h List.not_mem_nil

/-- **The permits are exact** in mode `static`, whatever the other code calls and whichever timers
fire. -/
theorem admission_exact (tier : ι → ℤ) (shedLimit : ℕ) (limit : ℚ) {s : World ι}
    (h : Reach (admissionComponent .static tier).step (Loop.init (Memory.init shedLimit limit)) s) :
    Exact shedLimit s := by
  have hinv : Inv shedLimit 0 s.mem s.jobs ∧ Prompt s := by
    refine Component.invariant (I := fun s => Inv shedLimit 0 s.mem s.jobs ∧ Prompt s)
      ⟨.init, fun i hi => by cases hi⟩ ?_ ?_ ?_ ?_ h
    · rintro s s' ⟨hs, hp⟩ hother hmem hjobs
      rw [hmem, hjobs]
      refine ⟨hs, Quiet.prompt ?_⟩
      rw [hmem]
      exact hp.quiet hother
    · rintro (i | i | limit) s s' ⟨hs, hp⟩ hbusy hcall
      · have hcall : admission .static tier i s = some s' := hcall
        exact ⟨hs.admission hcall, ((hp.quiet (Or.inl hbusy)).admission hcall).prompt⟩
      · have hcall : release .static tier i s = some s' := hcall
        exact ⟨hs.release hcall, ((hp.quiet (Or.inl hbusy)).release hcall).prompt⟩
      · obtain rfl := Option.some_inj.mp hcall
        exact ⟨{ hs with }, hp⟩
    · -- a timer fires between two turns, when no continuation is queued
      rintro i s s' ⟨hs, hp⟩ hbusy hqueue htimer
      exact ⟨hs.timeout htimer, hp.timeout hs hbusy hqueue htimer⟩
    · rintro i s ⟨hs, hp⟩ -
      have hjobs : Loop.jobs { s with queue := some i :: s.queue } = i :: s.jobs := by
        simp [Loop.jobs]
      rw [hjobs] at hs
      exact ⟨hs.resume (s := s) fun hi => (hp i hi).1, hp.resume (s := s)⟩
  exact hinv.1.exact

/-- One permit.  The wait of request `1` times out; requests `0` and `2` hand the permit on. -/
theorem admission_exact_handed : ∃ s : World ℕ,
    s.mem.permits = 0 ∧ s.mem.resolves = [(1, false), (2, true), (3, true)] ∧
    s.mem.refusals = [(1, 0)] ∧ Exact 1 s := by
  have hrun : ((exec (admissionComponent .static fun _ : ℕ => 0).step
      (Loop.init (Memory.init 1 20))
      [.enter, .call (.admission 0), .call (.admission 1), .call (.admission 2),
        .call (.admission 3), .leave, .next, .leave, .timer 1, .next, .next, .call (.release 0),
        .leave, .next, .next, .call (.release 2), .leave]).map fun s =>
          (s.mem.permits, s.mem.resolves, s.mem.refusals)) =
      some (0, [(1, false), (2, true), (3, true)], [(1, 0)]) := by decide
  obtain ⟨s, hs, hobs⟩ := Option.map_eq_some_iff.mp hrun
  simp only [Prod.mk.injEq] at hobs
  exact ⟨s, hobs.1, hobs.2.1, hobs.2.2, admission_exact (fun _ => 0) 1 20 (.of_exec _ hs)⟩

end Node
end Shedding
end SepLab
