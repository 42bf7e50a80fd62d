import Mathlib.Algebra.Order.Group.Multiset
import Mathlib.Tactic.Abel
import SepLab.CorrelationIds.Context
import SepLab.Lib.LastHit

/-!
# The slot that a task finds

A thread of a fixed pool has one task after the other, and each finds in the slot what those
before it have left there.  `serveThree` of `LoseTheContext.java` hands over requests, of which
some set the context without a scope and the others take it to be there.

## Main definitions

* `outputOn`, `leftOn` — what tasks do that run one after the other on a thread, and the slot they
  leave.
* `ExecutorService.History` — what each thread has run.
* `handler`, `seen`, `verdict` — a request, the span that it finds, and what becomes of its trace.

## Main results

* `ExecutorService.exists_history` — at the end each thread has run some of the tasks, one after
  the other.
* `ExecutorService.requests_see_last` — a request logs the last span that was set on its thread;
  so it has the trace of another just when it sets none and one before it on its thread has.
-/

namespace SepLab
namespace CorrelationIds

/-! ### One thread, one task after the other -/

/-- The slot that the tasks leave. -/
def leftOn (c : Option LiveSpan) (ts : List Task) : Option LiveSpan :=
  ts.foldl (fun c t => t.left c) c

/-- What the tasks log and hand over. -/
def outputOn : Option LiveSpan → List Task → List (LogRecord ⊕ Task)
  | _, [] => []
  | c, t :: ts => t.output c ++ outputOn (t.left c) ts

theorem leftOn_concat (c : Option LiveSpan) (ts : List Task) (t : Task) :
    leftOn c (ts ++ [t]) = t.left (leftOn c ts) :=
  List.foldl_concat ..

theorem outputOn_concat (c : Option LiveSpan) (ts : List Task) (t : Task) :
    outputOn c (ts ++ [t]) = outputOn c ts ++ t.output (leftOn c ts) := by
  induction ts generalizing c with
  | nil => exact List.append_nil _
  | cons u ts ih =>
    rw [List.cons_append, outputOn, ih, outputOn, List.append_assoc]
    rfl

theorem mem_outputOn {x : LogRecord ⊕ Task} {c : Option LiveSpan} {ts : List Task}
    (h : x ∈ outputOn c ts) : ∃ t ∈ ts, ∃ d, x ∈ t.output d := by
  induction ts generalizing c with
  | nil => cases h
  | cons t ts ih =>
    rcases List.mem_append.mp h with h | h
    · exact ⟨t, List.mem_cons_self, c, h⟩
    · obtain ⟨u, hu, hx⟩ := ih h
      exact ⟨u, List.mem_cons_of_mem t hu, hx⟩

/-- A thread, the slot it had at first, and the tasks it has begun. -/
structure Ran where
  thread : Thread
  slot : Option LiveSpan
  tasks : List Task

namespace Ran

/-- What the tasks do in all. -/
def whole (r : Ran) : Multiset (LogRecord ⊕ Task) := outputOn r.slot r.tasks

/-- What is still to be done of it. -/
def rest (r : Ran) : Multiset (LogRecord ⊕ Task) := outputFrom r.thread.frames r.thread.current

/-- The thread begins with one more task. -/
def begin (r : Ran) (task : Task) : Ran :=
  ⟨r.thread.goOn r.thread.current [.task task], r.slot, r.tasks ++ [task]⟩

/-- The thread after one more step. -/
def goOn (r : Ran) (t : Thread) : Ran := { r with thread := t }

end Ran

/-! ### What each thread has run -/

namespace ExecutorService

/-- The tasks are handed over to a pool whose threads have these slots. -/
def serving (slots : List (Option LiveSpan)) (tasks : List Task) : ExecutorService where
  threads := slots.map fun c => ⟨c, [], true⟩
  queue := tasks
  logs := []

/-- The threads have run `rs`, and handed over `handed`. -/
structure History (slots : List (Option LiveSpan)) (tasks : List Task) (rs : List Ran)
    (handed : List Task) (s : ExecutorService) : Prop where
  threads : rs.map Ran.thread = s.threads
  slots : rs.map Ran.slot = slots
  left : ∀ r ∈ rs, slotAfter r.thread.frames r.thread.current = leftOn r.slot r.tasks
  output : outputOf s.logs handed + (rs.map Ran.rest).sum = (rs.map Ran.whole).sum
  begun : (rs.map fun r => (r.tasks : Multiset Task)).sum + s.queue = tasks + handed

namespace History

variable {slots : List (Option LiveSpan)} {tasks handed : List Task} {rs : List Ran}
  {s s' : ExecutorService} {i : ℕ} {r : Ran}

theorem init : History slots tasks (slots.map fun c => ⟨⟨c, [], true⟩, c, []⟩) []
    (serving slots tasks) where
  threads := List.map_map
  slots := by
    rw [List.map_map]
    exact List.map_id slots
  left := by
    intro r hr
    obtain ⟨c, -, rfl⟩ := List.mem_map.mp hr
    rfl
  output := by
    rw [List.map_map, List.map_map]
    exact zero_add _
  begun := by
    rw [List.map_map, List.sum_eq_zero fun x hx => ?_]
    · exact (zero_add _).trans (add_zero _).symm
    · obtain ⟨c, -, rfl⟩ := List.mem_map.mp hx
      rfl

/-- The thread `i` goes on, as `r`. -/
theorem exists_ran (h : History slots tasks rs handed s) {t : Thread}
    (hi : s.threads[i]? = some t) : ∃ r, rs[i]? = some r ∧ r.thread = t := by
  rw [← h.threads, List.getElem?_map, Option.map_eq_some_iff] at hi
  exact hi

theorem forall_set {P : Ran → Prop} (h : ∀ r ∈ rs, P r) (hr : P r) : ∀ u ∈ rs.set i r, P u := by
  intro u hu
  rcases List.mem_or_eq_of_mem_set hu with hu | rfl
  · exact h u hu
  · exact hr

/-- The slots the threads had at first stay the same. -/
theorem map_slot_set {u : Ran} (hr : rs[i]? = some r) (hslot : u.slot = r.slot) :
    (rs.set i u).map Ran.slot = rs.map Ran.slot := by
  obtain ⟨hi, rfl⟩ := List.getElem?_eq_some_iff.mp hr
  rw [List.map_set, hslot]
  have hi' : i < (rs.map Ran.slot).length := by rwa [List.length_map]
  rw [← List.getElem_map Ran.slot (h := hi'), List.set_getElem_self]

/-- A thread at rest begins with a task. -/
theorem begin (h : History slots tasks rs handed s) {t : Thread} {k : ℕ} {task : Task}
    (hi : s.threads[i]? = some t) (hk : s.queue[k]? = some task) (hrest : t.frames = []) :
    ∃ rs, History slots tasks rs handed { s with
      threads := s.threads.set i (t.goOn t.current [.task task])
      queue := s.queue.eraseIdx k } := by
  obtain ⟨r, hr, rfl⟩ := h.exists_ran hi
  -- between two tasks the thread has what its tasks so far have left
  have hleft : leftOn r.slot r.tasks = r.thread.current := by
    rw [← h.left r (List.mem_of_getElem? hr), hrest]
    rfl
  refine ⟨rs.set i (r.begin task), ?_, (map_slot_set (u := r.begin task) hr rfl).trans h.slots,
    ?_, ?_, ?_⟩
  · rw [List.map_set, h.threads]
    rfl
  · refine forall_set h.left ?_
    rw [Ran.begin, leftOn_concat, hleft]
    exact slotAfter_task _ _
  · have hnone : r.rest = 0 := by rw [Ran.rest, hrest]; rfl
    have hrest' : (r.begin task).rest = task.output r.thread.current :=
      congrArg _ (outputFrom_task _ _)
    -- the next task runs with just that
    have hwhole : (r.begin task).whole = r.whole + task.output r.thread.current := by
      rw [Ran.whole, Ran.begin, outputOn_concat, hleft, ← Multiset.coe_add]
      rfl
    have hout := h.output
    rw [sum_eraseIdx _ hr, sum_eraseIdx _ hr, hnone, zero_add] at hout
    rw [sum_set _ hr, sum_set _ hr, hrest', hwhole, add_left_comm, hout]
    abel
  -- and it leaves the queue for the tasks that the thread has begun
  · have hqueue : (s.queue : Multiset Task) = task ::ₘ (s.queue.eraseIdx k : Multiset Task) :=
      Multiset.coe_eq_coe.mpr (cons_eraseIdx_perm hk).symm
    have htasks : ((r.begin task).tasks : Multiset Task) = r.tasks + {task} :=
      (Multiset.coe_add _ _).symm
    have hbegun := h.begun
    rw [sum_eraseIdx _ hr, hqueue, ← Multiset.singleton_add] at hbegun
    rw [sum_set _ hr, htasks, ← hbegun]
    abel

/-- A thread goes on. -/
theorem advance (h : History slots tasks rs handed s) {t t' : Thread} {us : List Task}
    {records : List LogRecord} (hi : s.threads[i]? = some t)
    (hadvance : t.advance = some (t', us, records)) :
    ∃ rs, History slots tasks rs (handed ++ us)
      ⟨s.threads.set i t', s.queue ++ us, s.logs ++ records⟩ := by
  obtain ⟨r, hr, rfl⟩ := h.exists_ran hi
  refine ⟨rs.set i (r.goOn t'), ?_,
    (map_slot_set (u := r.goOn t') hr rfl).trans h.slots, ?_, ?_, ?_⟩
  · rw [List.map_set, h.threads]
    rfl
  · exact forall_set h.left
      ((Thread.slotAfter_advance hadvance).trans (h.left r (List.mem_of_getElem? hr)))
  -- what the thread yields in this step it no longer owes
  · have hrest : r.rest = outputOf records us + (r.goOn t').rest := by
      rw [Ran.rest, Thread.outputFrom_advance hadvance, ← Multiset.coe_add]
      rfl
    -- and it is added to the logs and to the tasks that were handed over
    have houtput : (outputOf (s.logs ++ records) (handed ++ us) : Multiset (LogRecord ⊕ Task)) =
        outputOf s.logs handed + outputOf records us := by
      simp only [outputOf, List.map_append, ← Multiset.coe_add]
      abel
    have hout := h.output
    rw [sum_eraseIdx _ hr, hrest, sum_eraseIdx _ hr] at hout
    rw [sum_set _ hr, sum_set _ hr, houtput, show (r.goOn t').whole = r.whole from rfl, ← hout]
    abel
  · have hbegun := h.begun
    rw [sum_eraseIdx _ hr] at hbegun
    have hsame : (r.goOn t').tasks = r.tasks := rfl
    rw [sum_set _ hr, ← Multiset.coe_add, ← Multiset.coe_add, hsame, ← add_assoc, ← add_assoc,
      hbegun]

/-- What a thread is still to do, one of the tasks does. -/
theorem mem_rest (h : History slots tasks rs handed s) {x : LogRecord ⊕ Task} (hr : r ∈ rs)
    (hx : x ∈ r.rest) : ∃ t ∈ tasks ++ handed, ∃ c, x ∈ t.output c := by
  have hsum : x ∈ (rs.map Ran.rest).sum := by
    have hrest : (rs.map Ran.rest).sum =
        (rs.flatMap fun r => outputFrom r.thread.frames r.thread.current) := (coe_flatMap _ rs).symm
    rw [hrest]
    exact List.mem_flatMap.mpr ⟨r, hr, hx⟩
  have hwhole : (rs.map Ran.whole).sum = (rs.flatMap fun r => outputOn r.slot r.tasks) :=
    (coe_flatMap _ rs).symm
  have hmem : x ∈ (rs.map Ran.whole).sum := h.output ▸ Multiset.mem_add.mpr (Or.inr hsum)
  rw [hwhole] at hmem
  obtain ⟨u, hu, hx⟩ := List.mem_flatMap.mp hmem
  obtain ⟨t, ht, c, hx⟩ := mem_outputOn hx
  have hbegun : t ∈ (rs.map fun r => (r.tasks : Multiset Task)).sum + s.queue := by
    rw [← coe_flatMap]
    exact Multiset.mem_add.mpr (Or.inl (List.mem_flatMap.mpr ⟨u, hu, ht⟩))
  rw [h.begun] at hbegun
  exact ⟨t, hbegun, c, hx⟩

/-- One step, where the tasks meet a condition, and what they hand over meets it too. -/
theorem step {P : Task → Prop} (hP : ∀ t, P t → ∀ c u, Sum.inr u ∈ t.output c → P u)
    {a : ExecutorAction} (h : History slots tasks rs handed s) (hall : ∀ t ∈ tasks ++ handed, P t)
    (hstep : ExecutorService.step .platform s a = some s') :
    ∃ rs handed, History slots tasks rs handed s' ∧ ∀ t ∈ tasks ++ handed, P t := by
  rcases step_cases hstep with ⟨i, k, t, task, -, -, hi, hk, -, hrest, rfl⟩ |
    ⟨k, task, -, hvirtual, -⟩ | ⟨i, t, t', us, records, -, hi, hadvance, rfl⟩
  · obtain ⟨rs, hrs⟩ := h.begin hi hk hrest
    exact ⟨rs, handed, hrs, hall⟩
  · cases hvirtual
  · obtain ⟨rs', hrs'⟩ := h.advance hi hadvance
    refine ⟨rs', handed ++ us, hrs', ?_⟩
    rw [← List.append_assoc]
    refine List.forall_mem_append.mpr ⟨hall, fun u hu => ?_⟩
    obtain ⟨r, hr, rfl⟩ := h.exists_ran hi
    -- whatever is handed over, a task that was begun has handed it over
    have hmem : Sum.inr u ∈ r.rest := by
      rw [Ran.rest, Thread.outputFrom_advance hadvance]
      exact List.mem_append_left _ (List.mem_append_right _ (List.mem_map_of_mem hu))
    obtain ⟨t, ht, c, hx⟩ := h.mem_rest (List.mem_of_getElem? hr) hmem
    exact hP t (hall t ht) c u hx

end History

/-- **At the end each thread has run some of the tasks, one after the other**; what is logged is
what they log then, and each task has run that there was or was handed over. -/
theorem exists_history {slots : List (Option LiveSpan)} {tasks : List Task} {s : ExecutorService}
    {as : List ExecutorAction} {P : Task → Prop}
    (hP : ∀ t, P t → ∀ c u, Sum.inr u ∈ t.output c → P u) (htasks : ∀ t ∈ tasks, P t)
    (h : exec (step .platform) (serving slots tasks) as = some s) (hrest : s.AtRest) :
    ∃ ran : List (Option LiveSpan × List Task), ∃ handed, ran.map Prod.fst = slots ∧
      (ran.flatMap Prod.snd).Perm (tasks ++ handed) ∧ (∀ t ∈ handed, P t) ∧
      (outputOf s.logs handed).Perm (ran.flatMap fun r => outputOn r.1 r.2) := by
  -- the history is kept along the run
  obtain ⟨rs, handed, hrs, hall⟩ : ∃ rs handed, History slots tasks rs handed s ∧
      ∀ t ∈ tasks ++ handed, P t := by
    refine (Reach.of_exec as h).invariant (P := fun s => ∃ rs handed,
      History slots tasks rs handed s ∧ ∀ t ∈ tasks ++ handed, P t) ⟨_, [], History.init, ?_⟩ ?_
    · rw [List.append_nil]
      exact htasks
    · rintro s a s' ⟨rs, handed, hs, hall⟩ hstep
      exact hs.step hP hall hstep
  refine ⟨rs.map fun r => (r.slot, r.tasks), handed, ?_, ?_,
    (List.forall_mem_append.mp hall).2, ?_⟩
  · rw [List.map_map]
    exact hrs.slots
  · have hbegun := hrs.begun
    rw [hrest.2] at hbegun
    rw [← Multiset.coe_eq_coe, ← Multiset.coe_add, ← hbegun, coe_flatMap, List.map_map]
    exact (add_zero _).symm
  -- at rest no thread has anything left to do, so what the tasks yield is all there
  · have hnone : (rs.map Ran.rest).sum = 0 := by
      refine List.sum_eq_zero fun x hx => ?_
      obtain ⟨r, hr, rfl⟩ := List.mem_map.mp hx
      have hthread := hrest.1 r.thread (hrs.threads ▸ List.mem_map_of_mem hr)
      rw [Ran.rest, hthread]
      rfl
    have hout := hrs.output
    rw [hnone, add_zero] at hout
    rw [← Multiset.coe_eq_coe, hout, coe_flatMap, List.map_map]
    rfl

end ExecutorService

/-! ### Requests that set the context, and requests that do not -/

/-- A request, and whether its handler sets the context. -/
structure Request where
  name : List UInt16
  span : LiveSpan
  setContext : Bool

namespace Request

/-- What `serveThree` hands over for a request. -/
def handler (r : Request) : Task :=
  let log := Task.logInfo (lit utf16 "handling " ++ r.name) .done
  if r.setContext then .setForever r.span log else log

/-- What is current in the handler. -/
def current (r : Request) (c : Option LiveSpan) : Option LiveSpan :=
  if r.setContext then some r.span else c

/-- What the handler logs. -/
def record (r : Request) (c : Option LiveSpan) : LogRecord :=
  logInfo (lit utf16 "handling " ++ r.name) (r.current c)

theorem output_handler (r : Request) (c : Option LiveSpan) :
    r.handler.output c = [.inl (r.record c)] := by
  unfold handler record current
  cases r.setContext <;> rfl

theorem left_handler (r : Request) (c : Option LiveSpan) : r.handler.left c = r.current c := by
  unfold handler current
  cases r.setContext <;> rfl

end Request

/-- The span that was set last, and at first `c`. -/
def lastSet (c : Option LiveSpan) (rs : List Request) : Option LiveSpan :=
  (lastHit Request.setContext rs).elim c fun h => some h.1.span

/-- What the requests log that a thread has one after the other. -/
def logged (c : Option LiveSpan) (rs : List Request) : List LogRecord :=
  rs.mapIdx fun k r => r.record (lastSet c (rs.take k))

theorem lastSet_concat (c : Option LiveSpan) (rs : List Request) (r : Request) :
    lastSet c (rs ++ [r]) = r.current (lastSet c rs) := by
  unfold lastSet Request.current
  rw [lastHit_concat]
  cases r.setContext <;> rfl

theorem leftOn_handlers (c : Option LiveSpan) (rs : List Request) :
    leftOn c (rs.map Request.handler) = lastSet c rs := by
  induction rs using List.reverseRecOn with
  | nil => rfl
  | append_singleton rs r ih =>
    rw [List.map_append, List.map_singleton, leftOn_concat, ih, Request.left_handler,
      lastSet_concat]

theorem logged_concat (c : Option LiveSpan) (rs : List Request) (r : Request) :
    logged c (rs ++ [r]) = logged c rs ++ [r.record (lastSet c rs)] := by
  have hbefore : (rs.mapIdx fun k q => q.record (lastSet c ((rs ++ [r]).take k))) =
      rs.mapIdx fun k q => q.record (lastSet c (rs.take k)) := by
    refine List.mapIdx_eq_mapIdx_iff.mpr fun k hk => ?_
    rw [List.take_append_of_le_length (Nat.le_of_lt hk)]
  unfold logged
  rw [List.mapIdx_concat, hbefore, List.take_left]

/-- **Each request logs the span that was set last**, by itself or before it. -/
theorem outputOn_handlers (c : Option LiveSpan) (rs : List Request) :
    outputOn c (rs.map Request.handler) = (logged c rs).map Sum.inl := by
  induction rs using List.reverseRecOn with
  | nil => rfl
  | append_singleton rs r ih =>
    rw [List.map_append, List.map_singleton, outputOn_concat, ih, leftOn_handlers,
      Request.output_handler, logged_concat, List.map_append, List.map_singleton]

/-- Tasks that are those of requests, thread by thread. -/
theorem exists_requests {ran : List (Option LiveSpan × List Task)} {rs : List Request}
    (h : ran.flatMap Prod.snd = rs.map Request.handler) :
    ∃ served : List (Option LiveSpan × List Request), served.flatMap Prod.snd = rs ∧
      ran = served.map fun p => (p.1, p.2.map Request.handler) := by
  induction ran generalizing rs with
  | nil => exact ⟨[], (List.map_eq_nil_iff.mp h.symm).symm, rfl⟩
  | cons p ran ih =>
    rw [List.flatMap_cons] at h
    obtain ⟨rs₁, rs₂, rfl, hfirst, hrest⟩ := List.map_eq_append_iff.mp h.symm
    obtain ⟨served, rfl, rfl⟩ := ih hrest.symm
    refine ⟨(p.1, rs₁) :: served, List.flatMap_cons, ?_⟩
    rw [List.map_cons, hfirst]

/-! ### The verdict -/

/-- What a log line is counted as. -/
inductive Verdict
  | preserved
  | lost
  /-- "WRONG (inherited from previous request)" -/
  | wrong
deriving DecidableEq

/-- The verdict of `runStaleContext`. -/
def verdict (observed truth : List UInt16) : Verdict :=
  if observed = truth then .preserved
  else if observed = lit utf16 "none" then .lost
  else .wrong

/-- A request has the trace of another just when it sets no context and finds one. -/
theorem verdict_wrong_iff (r : Request) (c : Option LiveSpan) :
    verdict (currentTraceId (r.current c)) r.span.traceId = .wrong ↔
      r.setContext = false ∧ ∃ q, c = some q ∧ q.traceId ≠ r.span.traceId := by
  unfold verdict Request.current
  cases r.setContext with
  | true => simp [currentTraceId]
  | false =>
    cases c with
    | none => simp [currentTraceId, r.span.traceId_ne_none.symm]
    | some q => simp [currentTraceId, q.traceId_ne_none]

/-- It has none just when it sets no context and finds none. -/
theorem verdict_lost_iff (r : Request) (c : Option LiveSpan) :
    verdict (currentTraceId (r.current c)) r.span.traceId = .lost ↔
      r.setContext = false ∧ c = none := by
  unfold verdict Request.current
  cases r.setContext with
  | true => simp [currentTraceId]
  | false =>
    cases c with
    | none => simp [currentTraceId, r.span.traceId_ne_none.symm]
    | some q =>
      have hsome : verdict q.traceId r.span.traceId ≠ .lost := by
        unfold verdict
        split
        · simp
        · simp [q.traceId_ne_none]
      simpa [currentTraceId, verdict] using hsome

namespace ExecutorService

/-- **A request logs the last span that was set on its thread**, however the requests come to the
threads; so it has the trace of another just when it sets none, and a span of another trace is
the last that was set before it on its thread, and it has none just when none was. -/
theorem requests_see_last {slots : List (Option LiveSpan)} {requests : List Request}
    {s : ExecutorService} {as : List ExecutorAction} (hslots : slots ≠ [])
    (h : exec (step .platform) (serving slots (requests.map Request.handler)) as = some s)
    (hstuck : ∀ a, step .platform s a = none) :
    ∃ served : List (Option LiveSpan × List Request), served.map Prod.fst = slots ∧
      (served.flatMap Prod.snd).Perm requests ∧
      s.logs.Perm (served.flatMap fun p => logged p.1 p.2) ∧
      ∀ p ∈ served, ∀ k r, p.2[k]? = some r →
        (verdict (currentTraceId (r.current (lastSet p.1 (p.2.take k)))) r.span.traceId = .wrong ↔
          r.setContext = false ∧
            ∃ q, lastSet p.1 (p.2.take k) = some q ∧ q.traceId ≠ r.span.traceId) ∧
        (verdict (currentTraceId (r.current (lastSet p.1 (p.2.take k)))) r.span.traceId = .lost ↔
          r.setContext = false ∧ lastSet p.1 (p.2.take k) = none) := by
  have hstaffed : (serving slots (requests.map Request.handler)).Staffed .platform := by
    obtain ⟨c, hc⟩ := List.exists_mem_of_ne_nil slots hslots
    exact Or.inr ⟨_, List.mem_map_of_mem hc, rfl⟩
  -- the handlers hand over nothing
  have hnone : ∀ t, (∃ r, t = Request.handler r) → ∀ c u, Sum.inr u ∉ t.output c := by
    rintro t ⟨r, rfl⟩ c u hu
    rw [Request.output_handler, List.mem_singleton] at hu
    cases hu
  obtain ⟨ran, handed, hran, hperm, hhanded, hlogs⟩ :=
    exists_history (fun t ht c u hu => absurd hu (hnone t ht c u))
      (fun t ht => (List.mem_map.mp ht).imp fun r hr => hr.2.symm) h
      ((run_ends hstaffed h).2 hstuck)
  obtain rfl : handed = [] := by
    refine List.eq_nil_iff_forall_not_mem.mpr fun u hu => ?_
    have hmem := hlogs.mem_iff.mp (List.mem_append_right _ (List.mem_map_of_mem hu))
    obtain ⟨p, hp, hx⟩ := List.mem_flatMap.mp hmem
    obtain ⟨t, ht, c, hx⟩ := mem_outputOn hx
    refine hnone t ?_ c u hx
    rcases List.mem_append.mp (hperm.mem_iff.mp (List.mem_flatMap.mpr ⟨p, hp, ht⟩)) with ht | ht
    · exact (List.mem_map.mp ht).imp fun r hr => hr.2.symm
    · exact hhanded t ht
  rw [List.append_nil] at hperm
  obtain ⟨rs, hrs, hrsperm⟩ := (congrFun₂ (List.eq_map_comp_perm Request.handler) _ _).mpr hperm
  obtain ⟨served, rfl, rfl⟩ := exists_requests hrs
  refine ⟨served, ?_, hrsperm, ?_, fun p _ k r _ => ⟨verdict_wrong_iff r _, verdict_lost_iff r _⟩⟩
  · rw [← hran, List.map_map]
    rfl
  · have hinl : outputOf s.logs [] = s.logs.map Sum.inl := List.append_nil _
    have hserved : ((served.map fun p => (p.1, p.2.map Request.handler)).flatMap
        fun p => outputOn p.1 p.2) = (served.flatMap fun p => logged p.1 p.2).map Sum.inl := by
      simp only [List.flatMap_map, List.map_flatMap, outputOn_handlers]
    rw [hinl, hserved] at hlogs
    exact (List.map_perm_map_iff Sum.inl_injective).mp hlogs

/-- A request that sets no context comes to the thread that another one has left. -/
theorem requests_see_last_stale :
    ∃ s, exec (step .platform)
      (serving [none] ([⟨[], .ofLetter 1, true⟩, ⟨[], .ofLetter 2, false⟩].map Request.handler))
      [.start 0 0, .run 0, .run 0, .run 0, .start 0 0, .run 0, .run 0] = some s ∧
      ∃ served : List (Option LiveSpan × List Request), served.map Prod.fst = [none] ∧
        (served.flatMap Prod.snd).Perm [⟨[], .ofLetter 1, true⟩, ⟨[], .ofLetter 2, false⟩] ∧
        s.logs.Perm (served.flatMap fun p => logged p.1 p.2) := by
  obtain ⟨s, hs, hrest⟩ : ∃ s, exec (step .platform)
      (serving [none] ([⟨[], .ofLetter 1, true⟩, ⟨[], .ofLetter 2, false⟩].map Request.handler))
      [.start 0 0, .run 0, .run 0, .run 0, .start 0 0, .run 0, .run 0] = some s ∧ s.AtRest :=
    ⟨_, rfl, List.forall_mem_singleton.mpr rfl, rfl⟩
  obtain ⟨served, hslots, hrequests, hlogs, -⟩ :=
    requests_see_last (List.cons_ne_nil _ _) hs hrest.stuck
  exact ⟨s, hs, served, hslots, hrequests, hlogs⟩

end ExecutorService

end CorrelationIds
end SepLab
