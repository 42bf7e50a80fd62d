import Mathlib.Algebra.Order.Group.Multiset
import Mathlib.Tactic.Abel
import SepLab.CorrelationIds.Context

/-!
# What a hand-over does to the log

The other option is a context that is passed: `RequestContext` of `lose_the_context.cpp` is an
argument of whatever logs, and a task that is handed over has a copy.  What is logged then does
not depend on any thread, and is what the log should be.

Where every task handed over is wrapped the slots log just this, whatever they hold at first and
wherever the tasks run.  Where tasks are handed over as they are, to virtual threads, or to
threads that are left clean, the log is the same but for some records that have no trace id.

## Main definitions

* `Task.logged raw` — what is logged where the context is passed, and a task that is handed over
  as it is has `raw c`.
* `Task.Wrapped`, `Task.Clean` — all tasks handed over are wrapped, or leave their thread clean.
* `Task.lost` — the records that a hand-over leaves without their trace id.

## Main results

* `ExecutorService.total_step` — what is logged and what is still to be logged stays the same.
* `ExecutorService.wrapped_logs_passed` — wrapped tasks log as if the context were passed.
* `ExecutorService.clean_logs_or_loses` — clean threads log that too, or no trace id.
-/

namespace SepLab
namespace CorrelationIds

/-! ### The context as an argument -/

/-- What the task logs, and all tasks that come of it; a task that is handed over as it is has the
context `raw c`. -/
def Task.logged (raw : Option LiveSpan → Option LiveSpan) :
    Task → Option LiveSpan → List LogRecord
  | .done, _ => []
  | .throws, _ => []
  | .logInfo msg rest, c => CorrelationIds.logInfo msg c :: rest.logged raw c
  | .makeCurrent span body rest, c =>
    body.logged raw span ++ if body.ends then rest.logged raw c else []
  | .setForever span rest, _ => rest.logged raw (some span)
  | .submit task rest, c => task.logged raw (raw c) ++ rest.logged raw c
  | .submitWrapped task rest, c => task.logged raw c ++ rest.logged raw c

/-- What is logged where every context is passed. -/
def Task.passed (t : Task) (c : Option LiveSpan) : List LogRecord := t.logged id c

/-- What is logged where a task that is handed over as it is has no context. -/
def Task.unpassed (t : Task) (c : Option LiveSpan) : List LogRecord := t.logged (fun _ => none) c

/-- A task that is wrapped logs the same anywhere. -/
@[simp] theorem unpassed_wrap (c d : Option LiveSpan) (t : Task) :
    (wrap c t).unpassed d = t.unpassed c := by
  simp [Task.unpassed, wrap, Task.logged]

/-! ### What a thread has still to log -/

/-- What is logged by a step, and in the end by the tasks it hands over. -/
def worth : LogRecord ⊕ Task → Multiset LogRecord
  | .inl r => {r}
  | .inr t => t.unpassed none

/-- What is logged from here on. -/
def owed (frames : List Frame) (c : Option LiveSpan) : Multiset LogRecord :=
  ((outputFrom frames c).map worth).sum

/-- What tasks log that are handed over. -/
def owedBy (tasks : List Task) : Multiset LogRecord :=
  (tasks.map fun t => (t.unpassed none : Multiset LogRecord)).sum

theorem sum_worth_output (t : Task) (c : Option LiveSpan) :
    ((t.output c).map worth).sum = t.unpassed c := by
  induction t generalizing c with
  | done => rfl
  | throws => rfl
  | logInfo msg rest ih =>
    rw [Task.output, List.map_cons, List.sum_cons, ih]
    rfl
  | makeCurrent span body rest ihbody ihrest =>
    have hlogged : (Task.makeCurrent span body rest).unpassed c =
        body.unpassed span ++ if body.ends then rest.unpassed c else [] := rfl
    -- the body logs under the scope's span, and what follows under the old one
    rw [Task.output, List.map_append, List.sum_append, ihbody, hlogged, ← Multiset.coe_add]
    cases body.ends with
    | true => exact congrArg _ (ihrest c)
    | false => rfl
  | setForever span rest ih => exact ih (some span)
  | submit task rest ihtask ihrest =>
    rw [Task.output, List.map_cons, List.sum_cons, ihrest]
    rfl
  | submitWrapped task rest ihtask ihrest =>
    -- a wrapped task brings its span along, whatever the thread has
    rw [Task.output, List.map_cons, List.sum_cons, ihrest, worth, unpassed_wrap]
    rfl

theorem sum_worth_outputOf (records : List LogRecord) (tasks : List Task) :
    ((outputOf records tasks).map worth).sum = records + owedBy tasks := by
  rw [outputOf, List.map_append, List.sum_append, List.map_map, List.map_map]
  congr 1
  induction records with
  | nil => rfl
  | cons r records ih =>
    rw [List.map_cons, List.sum_cons, ih]
    rfl

/-- **What a thread is still to log**, it logs, or the tasks it hands over, or it is still to
log it. -/
theorem Thread.owed_advance {t t' : Thread} {tasks : List Task} {records : List LogRecord}
    (h : t.advance = some (t', tasks, records)) :
    owed t.frames t.current = records + owedBy tasks + owed t'.frames t'.current := by
  rw [owed, outputFrom_advance h, List.map_append, List.sum_append, sum_worth_outputOf, owed]

/-! ### What is handed over -/

/-- Each task that is handed over as it is meets the condition. -/
def Task.HandsOver (P : Task → Prop) : Task → Prop
  | .done => True
  | .throws => True
  | .logInfo _ rest => rest.HandsOver P
  | .makeCurrent _ body rest => body.HandsOver P ∧ rest.HandsOver P
  | .setForever _ rest => rest.HandsOver P
  | .submit task rest => (P task ∧ task.HandsOver P) ∧ rest.HandsOver P
  | .submitWrapped task rest => task.HandsOver P ∧ rest.HandsOver P

/-- Every task that is handed over is wrapped. -/
def Task.Wrapped (t : Task) : Prop := t.HandsOver fun _ => False

/-- Every task that is handed over leaves an empty slot empty. -/
def Task.Clean (t : Task) : Prop := t.HandsOver fun task => task.left none = none

variable {P : Task → Prop}

/-- What a frame has yet to hand over meets `P`. -/
def Frame.HandsOver (P : Task → Prop) : Frame → Prop
  | .task t => t.HandsOver P
  | .close _ => True

/-- A task that waits is wrapped, or meets the condition. -/
structure Waits (P : Task → Prop) (t : Task) : Prop where
  handsOver : t.HandsOver P
  wrapped : P t ∨ ∃ c u, t = wrap c u

theorem Waits.wrap {t : Task} (h : t.HandsOver P) (c : Option LiveSpan) :
    Waits P (wrap c t) where
  handsOver := ⟨h, trivial⟩
  wrapped := Or.inr ⟨c, t, rfl⟩

theorem Thread.handsOver_unwind (t : Thread) {frames : List Frame}
    (h : ∀ f ∈ frames, f.HandsOver P) : ∀ f ∈ (t.unwind frames).frames, f.HandsOver P := by
  cases frames with
  | nil => exact fun f hf => (List.not_mem_nil hf).elim
  | cons f frames =>
    have hrest := (List.forall_mem_cons.mp h).2
    cases f <;> exact List.forall_mem_cons.mpr ⟨trivial, hrest⟩

/-- The rest of a task hands over what the task does. -/
theorem Thread.handsOver_advance {t t' : Thread} {tasks : List Task} {records : List LogRecord}
    (hframes : ∀ f ∈ t.frames, f.HandsOver P) (h : t.advance = some (t', tasks, records)) :
    (∀ f ∈ t'.frames, f.HandsOver P) ∧ ∀ u ∈ tasks, Waits P u := by
  obtain ⟨c, frames, pooled⟩ := t
  cases frames with
  | nil => cases h
  | cons f frames =>
    obtain ⟨hf, hrest⟩ := List.forall_mem_cons.mp hframes
    have hnone : ∀ u ∈ ([] : List Task), Waits P u := fun u hu => (List.not_mem_nil hu).elim
    cases f with
    | close previous =>
      cases h
      exact ⟨hrest, hnone⟩
    | task task =>
      cases task with
      | done =>
        cases h
        exact ⟨hrest, hnone⟩
      | throws =>
        -- unwinding only drops frames
        cases h
        exact ⟨Thread.handsOver_unwind _ hrest, hnone⟩
      | logInfo msg rest =>
        cases h
        exact ⟨List.forall_mem_cons.mpr ⟨hf, hrest⟩, hnone⟩
      | makeCurrent span body rest =>
        cases h
        refine ⟨List.forall_mem_cons.mpr ⟨hf.1, List.forall_mem_cons.mpr ⟨trivial, ?_⟩⟩, hnone⟩
        exact List.forall_mem_cons.mpr ⟨hf.2, hrest⟩
      | setForever span rest =>
        cases h
        exact ⟨List.forall_mem_cons.mpr ⟨hf, hrest⟩, hnone⟩
      | submit task rest =>
        cases h
        -- what is submitted without a span is assumed to need none
        refine ⟨List.forall_mem_cons.mpr ⟨hf.2, hrest⟩, ?_⟩
        exact List.forall_mem_singleton.mpr ⟨hf.1.2, Or.inl hf.1.1⟩
      | submitWrapped task rest =>
        cases h
        -- and what is wrapped carries the one of its submitter
        refine ⟨List.forall_mem_cons.mpr ⟨hf.2, hrest⟩, ?_⟩
        exact List.forall_mem_singleton.mpr (.wrap hf.1 c)

namespace ExecutorService

variable {e : Executor} {s s' : ExecutorService} {a : ExecutorAction}

/-- What is logged and is still to be logged. -/
def total (s : ExecutorService) : Multiset LogRecord :=
  s.logs + (s.threads.map fun t => owed t.frames t.current).sum + owedBy s.queue

/-- A task that waits logs the same on whichever thread it begins. -/
def StartsAlike (e : Executor) (s : ExecutorService) : Prop :=
  e = .platform → ∀ t ∈ s.threads, t.pooled = true → t.frames = [] →
    ∀ task ∈ s.queue, task.unpassed t.current = task.unpassed none

/-- **What is logged and is still to be logged stays the same.** -/
theorem total_step (halike : s.StartsAlike e) (h : step e s a = some s') :
    s'.total = s.total := by
  rcases step_cases h with ⟨i, k, t, task, -, he, hi, hk, hpooled, hrest, rfl⟩ |
    ⟨k, task, -, -, hk, rfl⟩ | ⟨i, t, t', tasks, records, -, hi, hadvance, rfl⟩
  -- a pooled thread at rest owes nothing, and with the task it owes what the task would log with no
  -- span
  · have hnone : owed t.frames t.current = 0 := by rw [hrest]; rfl
    have hnew : owed [.task task] t.current = task.unpassed none := by
      rw [← halike he t (List.mem_of_getElem? hi) hpooled hrest task (List.mem_of_getElem? hk),
        owed, outputFrom_task, sum_worth_output]
    simp only [total, owedBy]
    rw [sum_set _ hi, sum_eraseIdx _ hi, sum_eraseIdx _ hk, Thread.goOn, hnone, hnew]
    abel
  · have hnew : owed [.task task] none = task.unpassed none := by
      rw [owed, outputFrom_task, sum_worth_output]
    simp only [total, owedBy]
    rw [sum_eraseIdx _ hk, List.map_append, List.sum_append, List.map_singleton,
      List.sum_singleton, hnew]
    abel
  · simp only [total, owedBy]
    rw [sum_set _ hi, sum_eraseIdx _ hi, List.map_append, List.sum_append,
      Thread.owed_advance hadvance, ← Multiset.coe_add]
    -- what the thread has logged or submitted is no longer owed by it
    simp only [owedBy]
    abel

theorem total_init (slots : List (Option LiveSpan)) (callers : List Task) :
    (init slots callers).total = (callers.flatMap fun t => t.unpassed none) := by
  have hslots : (slots.map fun _ => (0 : Multiset LogRecord)).sum = 0 :=
    List.sum_eq_zero fun x hx => by
      obtain ⟨c, -, rfl⟩ := List.mem_map.mp hx
      rfl
  have hcallers : ∀ t : Task, owed [.task t] none = t.unpassed none := fun t => by
    rw [owed, outputFrom_task, sum_worth_output]
  rw [coe_flatMap]
  simp only [total, init, List.map_append, List.map_map, List.sum_append, Function.comp_def,
    owedBy, hcallers]
  rw [show (slots.map fun c => owed [] c) = slots.map fun _ => 0 from rfl, hslots]
  simp

/-- When all are at rest everything is logged. -/
theorem AtRest.total (h : s.AtRest) : s.total = s.logs := by
  have hthreads : (s.threads.map fun t => owed t.frames t.current).sum = 0 := by
    refine List.sum_eq_zero fun x hx => ?_
    obtain ⟨t, ht, rfl⟩ := List.mem_map.mp hx
    rw [h.1 t ht]
    rfl
  have hqueue : owedBy s.queue = 0 := by rw [h.2]; rfl
  rw [ExecutorService.total, hthreads, hqueue, add_zero, add_zero]

/-- The tasks hand over what meets the condition, and those that wait meet it. -/
structure HandsOver (P : Task → Prop) (s : ExecutorService) : Prop where
  frames : ∀ t ∈ s.threads, ∀ f ∈ t.frames, f.HandsOver P
  queue : ∀ t ∈ s.queue, Waits P t

theorem HandsOver.init {slots : List (Option LiveSpan)} {callers : List Task}
    (h : ∀ t ∈ callers, t.HandsOver P) : (init slots callers).HandsOver P where
  frames := by
    intro t ht f hf
    rcases List.mem_append.mp ht with ht | ht
    · obtain ⟨c, -, rfl⟩ := List.mem_map.mp ht
      cases hf
    · obtain ⟨u, hu, rfl⟩ := List.mem_map.mp ht
      rw [List.mem_singleton.mp hf]
      exact h u hu
  queue := fun t ht => (List.not_mem_nil ht).elim

theorem HandsOver.step (hs : s.HandsOver P) (h : step e s a = some s') : s'.HandsOver P := by
  rcases step_cases h with ⟨i, k, t, task, -, -, hi, hk, -, -, rfl⟩ |
    ⟨k, task, -, -, hk, rfl⟩ | ⟨i, t, t', tasks, records, -, hi, hadvance, rfl⟩
  · have htask := (hs.queue task (List.mem_of_getElem? hk)).handsOver
    -- the task leaves the queue for a frame
    refine ⟨fun u hu => ?_, fun u hu => hs.queue u (List.mem_of_mem_eraseIdx hu)⟩
    rcases List.mem_or_eq_of_mem_set hu with hu | rfl
    · exact hs.frames u hu
    · exact List.forall_mem_singleton.mpr htask
  · have htask := (hs.queue task (List.mem_of_getElem? hk)).handsOver
    refine ⟨fun u hu => ?_, fun u hu => hs.queue u (List.mem_of_mem_eraseIdx hu)⟩
    rcases List.mem_append.mp hu with hu | hu
    · exact hs.frames u hu
    · rw [List.mem_singleton.mp hu]
      exact List.forall_mem_singleton.mpr htask
  · obtain ⟨hframes, htasks⟩ :=
      -- the frames and the tasks of the thread that runs are those of `handsOver_advance`
      Thread.handsOver_advance (hs.frames t (List.mem_of_getElem? hi)) hadvance
    refine ⟨fun u hu => ?_, fun u hu => ?_⟩
    · rcases List.mem_or_eq_of_mem_set hu with hu | rfl
      · exact hs.frames u hu
      · exact hframes
    · rcases List.mem_append.mp hu with hu | hu
      · exact hs.queue u hu
      · exact htasks u hu

end ExecutorService

/-! ### What is lost -/

/-- The record without its trace id. -/
def LogRecord.blank (r : LogRecord) : LogRecord := { r with traceId := [] }

/-- What the task logs without its trace id, and all tasks that come of it, where a task that is
handed over as it is begins on an empty slot; the thread has the context `c` if it is `known`,
and otherwise its slot is empty. -/
def Task.lost : Task → Option LiveSpan → Bool → List LogRecord
  | .done, _, _ => []
  | .throws, _, _ => []
  | .logInfo msg rest, c, known =>
    (if known then [] else [CorrelationIds.logInfo msg c]) ++ rest.lost c known
  | .makeCurrent span body rest, c, known =>
    body.lost span true ++ if body.ends then rest.lost c known else []
  | .setForever span rest, _, _ => rest.lost (some span) true
  | .submit task rest, c, known => task.lost c c.isNone ++ rest.lost c known
  | .submitWrapped task rest, c, known => task.lost c known ++ rest.lost c known

/-- The log `actual` is the log `passed`, but the records `lost` have no trace id in it. -/
def Loses (passed actual lost : List LogRecord) : Prop :=
  ∃ kept : Multiset LogRecord, (passed : Multiset LogRecord) = kept + lost ∧
    (actual : Multiset LogRecord) = kept + (lost.map LogRecord.blank : List LogRecord)

namespace Loses

variable {passed passed' actual actual' lost lost' : List LogRecord}

theorem refl (passed : List LogRecord) : Loses passed passed [] :=
  ⟨passed, (add_zero _).symm, (add_zero _).symm⟩

theorem append (h : Loses passed actual lost) (h' : Loses passed' actual' lost') :
    Loses (passed ++ passed') (actual ++ actual') (lost ++ lost') := by
  obtain ⟨kept, hpassed, hactual⟩ := h
  obtain ⟨kept', hpassed', hactual'⟩ := h'
  refine ⟨kept + kept', ?_, ?_⟩
  · rw [← Multiset.coe_add, ← Multiset.coe_add, hpassed, hpassed']
    abel
  · rw [List.map_append, ← Multiset.coe_add, ← Multiset.coe_add, hactual, hactual']
    abel

theorem flatMap {ts : List Task} {f g l : Task → List LogRecord}
    (h : ∀ t ∈ ts, Loses (f t) (g t) (l t)) :
    Loses (ts.flatMap f) (ts.flatMap g) (ts.flatMap l) := by
  induction ts with
  | nil => exact .refl []
  | cons t ts ih =>
    obtain ⟨ht, hts⟩ := List.forall_mem_cons.mp h
    simp only [List.flatMap_cons]
    exact ht.append (ih hts)

/-- **Nothing is lost just when the logs are the same**, if what is lost has a trace id. -/
theorem perm_iff (h : Loses passed actual lost) (hlost : ∀ r ∈ lost, r.traceId ≠ []) :
    actual.Perm passed ↔ lost = [] := by
  obtain ⟨kept, hpassed, hactual⟩ := h
  rw [← Multiset.coe_eq_coe, hpassed, hactual, add_right_inj, Multiset.coe_eq_coe]
  constructor
  · intro hperm
    refine List.eq_nil_iff_forall_not_mem.mpr fun r hr => hlost r hr ?_
    obtain ⟨r', -, rfl⟩ := List.mem_map.mp (hperm.mem_iff.mpr hr)
    rfl
  · rintro rfl
    exact List.Perm.refl []

end Loses

/-- The record of a span has the trace id of it. -/
theorem logInfo_some (msg : List UInt16) (s : LiveSpan) :
    logInfo msg (some s) = ⟨msg, s.traceId⟩ := by
  simp [logInfo, currentTraceId, s.traceId_ne_none]

/-- **The slots lose what is lost.** -/
theorem Task.loses (t : Task) (c : Option LiveSpan) (known : Bool) :
    Loses (t.passed c) (t.unpassed (if known then c else none)) (t.lost c known) := by
  induction t generalizing c known with
  | done => exact .refl []
  | throws => exact .refl []
  | logInfo msg rest ih =>
    have hone : Loses [CorrelationIds.logInfo msg c]
        [CorrelationIds.logInfo msg (if known then c else none)]
        (if known then [] else [CorrelationIds.logInfo msg c]) := by
      -- a record loses its trace where the span is not known
      cases known with
      | true => exact .refl _
      | false => exact ⟨0, rfl, rfl⟩
    exact hone.append (ih c known)
  | makeCurrent span body rest ihbody ihrest =>
    refine Loses.append (ihbody span true) ?_
    cases body.ends with
    | true => exact ihrest c known
    | false => exact .refl []
  | setForever span rest ih => cases known <;> exact ih (some span) true
  | submit task rest ihtask ihrest =>
    refine Loses.append ?_ (ihrest c known)
    -- a task that is not wrapped runs with no span, so it knows its own only if there is none
    have htask := ihtask c c.isNone
    cases c <;> exact htask
  | submitWrapped task rest ihtask ihrest => exact (ihtask c known).append (ihrest c known)

/-- What is lost had a trace id. -/
theorem Task.traceId_lost (t : Task) {c : Option LiveSpan} {known : Bool}
    (hc : c = none → known = true) : ∀ r ∈ t.lost c known, r.traceId ≠ [] := by
  induction t generalizing c known with
  | done => exact fun r hr => (List.not_mem_nil hr).elim
  | throws => exact fun r hr => (List.not_mem_nil hr).elim
  | logInfo msg rest ih =>
    refine List.forall_mem_append.mpr ⟨?_, ih hc⟩
    cases c with
    | none =>
      -- without a span there is nothing to lose
      rw [hc rfl]
      exact fun r hr => (List.not_mem_nil hr).elim
    | some s =>
      cases known with
      | true => exact fun r hr => (List.not_mem_nil hr).elim
      | false =>
        refine List.forall_mem_singleton.mpr ?_
        rw [logInfo_some]
        intro hnil
        have hlength := s.length_traceId
        -- the trace id of a span is never empty
        rw [show s.traceId = [] from hnil] at hlength
        exact absurd hlength (by decide)
  | makeCurrent span body rest ihbody ihrest =>
    refine List.forall_mem_append.mpr ⟨ihbody fun _ => rfl, ?_⟩
    cases body.ends with
    | true => exact ihrest hc
    | false => exact fun r hr => (List.not_mem_nil hr).elim
  | setForever span rest ih => exact ih fun _ => rfl
  | submit task rest ihtask ihrest =>
    exact List.forall_mem_append.mpr ⟨ihtask fun hnone => hnone ▸ rfl, ihrest hc⟩
  | submitWrapped task rest ihtask ihrest =>
    exact List.forall_mem_append.mpr ⟨ihtask hc, ihrest hc⟩

/-- Where every task handed over is wrapped nothing is lost. -/
theorem Task.Wrapped.lost_eq_nil {t : Task} (h : t.Wrapped) (c : Option LiveSpan) :
    t.lost c true = [] := by
  induction t generalizing c with
  | done => rfl
  | throws => rfl
  | logInfo msg rest ih => exact ih h c
  | makeCurrent span body rest ihbody ihrest =>
    rw [Task.lost, ihbody h.1, ihrest h.2, ite_self]
    rfl
  | setForever span rest ih => exact ih h (some span)
  | submit task rest => exact h.1.1.elim
  | submitWrapped task rest ihtask ihrest =>
    rw [Task.lost, ihtask h.1, ihrest h.2]
    rfl

/-! ### The runs of the pool -/

namespace ExecutorService

variable {e : Executor} {s s' : ExecutorService} {a : ExecutorAction}
  {slots : List (Option LiveSpan)} {callers : List Task} {as : List ExecutorAction}

/-- What all callers log, and what is lost of it. -/
def passed (callers : List Task) : List LogRecord := callers.flatMap fun t => t.passed none

/-- The records that the callers' tasks write without their trace. -/
def lost (callers : List Task) : List LogRecord := callers.flatMap fun t => t.lost none true

theorem init_staffed (hslots : e = .platform → slots ≠ []) : (init slots callers).Staffed e := by
  cases e with
  | virtual => exact Or.inl rfl
  | platform =>
    obtain ⟨c, hc⟩ := List.exists_mem_of_ne_nil slots (hslots rfl)
    exact Or.inr ⟨⟨c, [], true⟩, List.mem_append_left _ (List.mem_map.mpr ⟨c, hc, rfl⟩), rfl⟩

theorem loses_unpassed (callers : List Task) :
    Loses (passed callers) (callers.flatMap fun t => t.unpassed none) (lost callers) :=
  Loses.flatMap fun t _ => t.loses none true

/-- **What is logged in the end**, where no task finds a slot that it logs. -/
theorem total_of_invariant {I : ExecutorService → Prop} (hinit : I (init slots callers))
    (hI : ∀ s a s', I s → step e s a = some s' → I s') (halike : ∀ s, I s → s.StartsAlike e)
    (h : exec (step e) (init slots callers) as = some s) :
    s.total = (callers.flatMap fun t => t.unpassed none) := by
  have htotal : I s ∧ s.total = (init slots callers).total := by
    refine (Reach.of_exec as h).invariant
      (P := fun s => I s ∧ s.total = (init slots callers).total) ⟨hinit, rfl⟩ ?_
    rintro s a s' ⟨hs, heq⟩ hstep
    exact ⟨hI s a s' hs hstep, (total_step (halike s hs) hstep).trans heq⟩
  rw [htotal.2, total_init]

theorem HandsOver.startsAlike (h : s.HandsOver fun _ => False) : s.StartsAlike e := by
  intro _ t _ _ _ task htask
  obtain ⟨c, u, rfl⟩ := (h.queue task htask).wrapped.resolve_left id
  rw [unpassed_wrap, unpassed_wrap]

/-- The threads of the pool come to rest with an empty slot. -/
structure Clean (e : Executor) (s : ExecutorService) : Prop where
  handsOver : s.HandsOver fun task => task.left none = none
  slots : e = .platform → ∀ t ∈ s.threads, t.pooled = true → slotAfter t.frames t.current = none

theorem Clean.init (hcallers : ∀ t ∈ callers, t.Clean)
    (hslots : e = .platform → ∀ c ∈ slots, c = none) : (init slots callers).Clean e where
  handsOver := .init hcallers
  slots := by
    intro he t ht hpooled
    rcases List.mem_append.mp ht with ht | ht
    · obtain ⟨c, hc, rfl⟩ := List.mem_map.mp ht
      exact hslots he c hc
    · obtain ⟨u, -, rfl⟩ := List.mem_map.mp ht
      cases hpooled

theorem Clean.startsAlike (h : s.Clean e) : s.StartsAlike e := by
  intro he t ht hpooled hrest task _
  have hslot := h.slots he t ht hpooled
  rw [hrest] at hslot
  rw [show t.current = none from hslot]

theorem Clean.step (hs : s.Clean e) (h : step e s a = some s') : s'.Clean e where
  handsOver := hs.handsOver.step h
  slots := by
    intro he u hu hpooled
    rcases step_cases h with ⟨i, k, t, task, -, -, hi, hk, ht, hrest, rfl⟩ |
      ⟨k, task, -, hvirtual, hk, rfl⟩ | ⟨i, t, t', tasks, records, -, hi, hadvance, rfl⟩
    · rcases List.mem_or_eq_of_mem_set hu with hu | rfl
      · exact hs.slots he u hu hpooled
      -- a thread of the pool has no span when it starts, and the task leaves none behind
      · have hslot := hs.slots he t (List.mem_of_getElem? hi) ht
        rw [hrest] at hslot
        have hleft : task.left none = none := by
          rcases (hs.handsOver.queue task (List.mem_of_getElem? hk)).wrapped with
            hleft | ⟨c, v, rfl⟩
          · exact hleft
          · exact left_wrap c none v
        show slotAfter [.task task] t.current = none
        rw [show t.current = none from hslot]
        rw [slotAfter_task, hleft]
    -- a virtual thread is no thread of the pool
    · rw [he] at hvirtual
      cases hvirtual
    · rcases List.mem_or_eq_of_mem_set hu with hu | rfl
      · exact hs.slots he u hu hpooled
      · rw [Thread.slotAfter_advance hadvance]
        exact hs.slots he t (List.mem_of_getElem? hi)
          -- between start and end of a task, what will be left is already known
          ((Thread.pooled_advance hadvance).symm.trans hpooled)

/-- **Wrapped tasks log as if the context were passed**: on virtual threads or a fixed pool,
whatever its threads hold at first, each run in which all tasks handed over are wrapped ends; it
logs nothing but what is logged where every context is an argument, and in the end all of it. -/
theorem wrapped_logs_passed (hslots : e = .platform → slots ≠ [])
    (hwrapped : ∀ t ∈ callers, t.Wrapped)
    (h : exec (step e) (init slots callers) as = some s) :
    as.length ≤ (init slots callers).size ∧ s.logs.Subperm (passed callers) ∧
      ((∀ a, step e s a = none) → s.logs.Perm (passed callers)) := by
  obtain ⟨hlength, hends⟩ := run_ends (init_staffed hslots) h
  have hnone : lost callers = [] := List.flatMap_eq_nil_iff.mpr fun t ht =>
    (hwrapped t ht).lost_eq_nil none
  have hsame : (callers.flatMap fun t => t.unpassed none).Perm (passed callers) :=
    ((loses_unpassed callers).perm_iff (by simp [hnone])).mpr hnone
  have htotal : s.total = passed callers := by
    rw [← Multiset.coe_eq_coe.mpr hsame]
    exact total_of_invariant (I := HandsOver fun _ => False) (.init hwrapped)
      (fun _ _ _ hs hstep => hs.step hstep) (fun _ hs => hs.startsAlike) h
  refine ⟨hlength, ?_, fun hstuck => ?_⟩
  · rw [← Multiset.coe_le, ← htotal, total, add_assoc]
    exact Multiset.le_add_right _ _
  · rw [← Multiset.coe_eq_coe, ← (hends hstuck).total, htotal]

/-- A task that is wrapped runs on a thread whose slot still has another span. -/
theorem wrapped_logs_passed_stale :
    ∃ s, exec (step .platform)
      (init [some (.ofLetter 0)]
        [.makeCurrent (some (.ofLetter 1)) (.submitWrapped (.logInfo [] .done) .done) .done])
      [.run 1, .run 1, .run 1, .run 1, .run 1, .start 0 0, .run 0, .run 0, .run 0, .run 0,
        .run 0] = some s ∧
      s.logs.Perm [logInfo [] (some (.ofLetter 1))] := by
  obtain ⟨s, hs, hrest⟩ : ∃ s, exec (step .platform)
      (init [some (.ofLetter 0)]
        [.makeCurrent (some (.ofLetter 1)) (.submitWrapped (.logInfo [] .done) .done) .done])
      [.run 1, .run 1, .run 1, .run 1, .run 1, .start 0 0, .run 0, .run 0, .run 0, .run 0,
        .run 0] = some s ∧ s.AtRest := by
    refine ⟨_, rfl, ?_, rfl⟩
    exact List.forall_mem_cons.mpr ⟨rfl, List.forall_mem_singleton.mpr rfl⟩
  refine ⟨s, hs, (wrapped_logs_passed (fun _ => List.cons_ne_nil _ _) ?_ hs).2.2 hrest.stuck⟩
  exact List.forall_mem_singleton.mpr ⟨⟨trivial, trivial⟩, trivial⟩

/-- **A hand-over loses the context, or keeps it**: on virtual threads, and on a fixed pool whose
threads are clean and whose tasks leave them clean, each run ends, and what it has logged is what
is logged where every context is an argument, but for the records `lost`, which have no trace id;
so the two are the same just when nothing is lost. -/
theorem clean_logs_or_loses (hslots : e = .platform → slots ≠ [] ∧ ∀ c ∈ slots, c = none)
    (hclean : e = .platform → ∀ t ∈ callers, t.Clean)
    (h : exec (step e) (init slots callers) as = some s) :
    as.length ≤ (init slots callers).size ∧ ((∀ a, step e s a = none) →
      Loses (passed callers) s.logs (lost callers) ∧
        (s.logs.Perm (passed callers) ↔ lost callers = [])) := by
  obtain ⟨hlength, hends⟩ := run_ends (init_staffed fun he => (hslots he).1) h
  refine ⟨hlength, fun hstuck => ?_⟩
  -- the total of what is logged and still owed stays what it was at the start
  have htotal : s.total = (callers.flatMap fun t => t.unpassed none) := by
    cases e with
    | virtual =>
      exact total_of_invariant (I := fun _ => True) trivial (fun _ _ _ _ _ => trivial)
        (fun _ _ he => by cases he) h
    | platform =>
      exact total_of_invariant (I := Clean .platform) (.init (hclean rfl) fun he => (hslots he).2)
        (fun _ _ _ hs hstep => hs.step hstep) (fun _ hs => hs.startsAlike) h
  obtain ⟨kept, hpassed, hunpassed⟩ := loses_unpassed callers
  -- at rest nothing is owed, so the total is the log
  have hloses : Loses (passed callers) s.logs (lost callers) := by
    refine ⟨kept, hpassed, ?_⟩
    rw [← (hends hstuck).total, htotal]
    exact hunpassed
  refine ⟨hloses, hloses.perm_iff fun r hr => ?_⟩
  obtain ⟨t, -, ht⟩ := List.mem_flatMap.mp hr
  exact t.traceId_lost (fun _ => rfl) r ht

/-- A task that is handed over as it is to a virtual thread has no trace id. -/
theorem clean_logs_or_loses_naive :
    ∃ s, exec (step .virtual)
      (init [] [.makeCurrent (some (.ofLetter 1)) (.submit (.logInfo [] .done) .done) .done])
      [.run 0, .run 0, .run 0, .run 0, .run 0, .spawn 0, .run 1, .run 1] = some s ∧
      ¬ s.logs.Perm [logInfo [] (some (.ofLetter 1))] := by
  obtain ⟨s, hs, hrest⟩ : ∃ s, exec (step .virtual)
      (init [] [.makeCurrent (some (.ofLetter 1)) (.submit (.logInfo [] .done) .done) .done])
      [.run 0, .run 0, .run 0, .run 0, .run 0, .spawn 0, .run 1, .run 1] = some s ∧
      s.AtRest := by
    refine ⟨_, rfl, ?_, rfl⟩
    exact List.forall_mem_cons.mpr ⟨rfl, List.forall_mem_singleton.mpr rfl⟩
  obtain ⟨-, hends⟩ := clean_logs_or_loses (fun he => by cases he) (fun he => by cases he) hs
  refine ⟨s, hs, fun hperm => ?_⟩
  cases (hends hrest.stuck).2.mp hperm

end ExecutorService
end CorrelationIds
end SepLab
