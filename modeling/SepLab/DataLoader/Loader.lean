import Mathlib.Data.List.Nodup
import Mathlib.Logic.Function.Basic
import SepLab.Lib.Transition

/-!
# The batch loader

`BatchLoader` of `dataloader_batching.js`.  A `load` puts its key in a queue, and the first one
since the last `flush` has `process.nextTick` call the next.  A `flush` takes the queue, hands
its keys to `batchFn`, and settles the promises when that has answered.

Other code calls `load` at any time that it runs, and `batchFn` answers its calls in any order,
each at any time or never.  Only that the event loop does not move on before the callbacks of
`process.nextTick` have been called is taken from Node.

## Main definitions

* `Memory`, `load`, `flush`, `settle` — the loader, and the code between two `await`s.
* `Loader.step` — the calls of other code, the callbacks, and the answers of `batchFn`.
* `windows` — the loads of a run, cut where the batching window ends.

## Main results

* `Inv.load`, `Inv.flush`, `Inv.answer` — what each of them keeps.
* `batches_are_windows` — **in every run the batches are the windows**, none of them empty, and
  every promise is settled from the answer to its own batch.
-/

namespace SepLab
namespace DataLoader

variable {ι κ V E : Type}

/-- `{ key, resolve, reject }`, the functions being those of the promise. -/
structure Entry (ι κ : Type) where
  key : κ
  promise : ι
  deriving DecidableEq, Repr

/-- A promise; `none` is `undefined`. -/
inductive Promise (V E : Type)
  | pending
  | resolved (value : Option V)
  | rejected (err : E)
  deriving DecidableEq, Repr

/-- What `batchFn` answers: a `Map`, here its `get`, or what it throws. -/
abbrev Answer (κ V E : Type) := Except E (κ → Option V)

/-- What `flush` makes of the promise of a load of `key`. -/
def Answer.outcome (r : Answer κ V E) (key : κ) : Promise V E :=
  match r with
  | .ok byKey => .resolved (byKey key)
  | .error err => .rejected err

/-- A `BatchLoader`, its promises, and the calls of `batchFn` with their answers. -/
structure Memory (ι κ V E : Type) where
  queue : List (Entry ι κ)
  scheduled : Bool
  /-- How many callbacks `process.nextTick` has yet to call. -/
  ticks : ℕ
  promise : ι → Option (Promise V E)
  batches : List (List (Entry ι κ))
  answer : ℕ → Option (Answer κ V E)

namespace Memory

/-- `new BatchLoader(batchFn)` -/
def init : Memory ι κ V E := ⟨[], false, 0, fun _ => none, [], fun _ => none⟩

/-- The promises of the loads so far, batch by batch. -/
def promises (m : Memory ι κ V E) : List ι := (m.batches.flatten ++ m.queue).map (·.promise)

end Memory

variable [DecidableEq ι]

/-- `load`, which returns the promise `i`. -/
def load (m : Memory ι κ V E) (key : κ) (i : ι) : Memory ι κ V E :=
  let m := { m with
    promise := Function.update m.promise i (some .pending)
    queue := m.queue ++ [⟨key, i⟩] }
  if m.scheduled then m else { m with scheduled := true, ticks := m.ticks + 1 }

omit [DecidableEq ι] in
/-- `flush`, up to its `await`. -/
def flush (m : Memory ι κ V E) : Memory ι κ V E :=
  let batch := m.queue
  let m := { m with queue := [], scheduled := false }
  if batch.isEmpty then m else { m with batches := m.batches ++ [batch] }

/-- `resolve` or `reject`; a promise that is settled already stays as it is. -/
def settle (promise : ι → Option (Promise V E)) (i : ι) (p : Promise V E) :
    ι → Option (Promise V E) :=
  match promise i with
  | some .pending => Function.update promise i (some p)
  | _ => promise

/-- The loop of `flush` over its batch. -/
def settleAll (r : Answer κ V E) (promise : ι → Option (Promise V E)) (batch : List (Entry ι κ)) :
    ι → Option (Promise V E) :=
  batch.foldl (fun promise b => settle promise b.promise (r.outcome b.key)) promise

/-- What other code, the event loop and `batchFn` do. -/
inductive Action (ι κ V E : Type)
  /-- Other code calls `load`, and gets the promise `i`. -/
  | load (key : κ) (i : ι)
  /-- A callback of `process.nextTick` is called. -/
  | tick
  /-- The event loop moves on, for which no such callback may be left. -/
  | turn
  /-- The `b`-th call of `batchFn` has its answer, and its `flush` goes on. -/
  | answer (b : ℕ) (r : Answer κ V E)

namespace Loader

/-- One step, from one turn of the event loop to the next. -/
def step (m : Memory ι κ V E) : Action ι κ V E → Option (Memory ι κ V E)
  | .load key i => if m.promise i = none then some (load m key i) else none
  | .tick => if 0 < m.ticks then some (flush { m with ticks := m.ticks - 1 }) else none
  | .turn => if m.ticks = 0 then some m else none
  | .answer b r =>
    match m.batches[b]?, m.answer b with
    | some batch, none => some { m with
        promise := settleAll r m.promise batch
        answer := Function.update m.answer b (some r) }
    | _, _ => none

end Loader

/-! ### Batching windows -/

omit [DecidableEq ι] in
/-- The windows that are over, and the one that is open. -/
def window (ws : List (List (Entry ι κ)) × List (Entry ι κ)) :
    Action ι κ V E → List (List (Entry ι κ)) × List (Entry ι κ)
  | .load key i => (ws.1, ws.2 ++ [⟨key, i⟩])
  | .tick | .turn => if ws.2.isEmpty then ws else (ws.1 ++ [ws.2], [])
  | .answer _ _ => ws

omit [DecidableEq ι] in
/-- The loads of a run, cut where a callback is called or the event loop moves on. -/
def windows (as : List (Action ι κ V E)) : List (List (Entry ι κ)) × List (Entry ι κ) :=
  as.foldl window ([], [])

omit [DecidableEq ι] in
theorem windows_concat (as : List (Action ι κ V E)) (a : Action ι κ V E) :
    windows (as ++ [a]) = window (windows as) a := by
  rw [windows, List.foldl_append]
  rfl

/-! ### The invariant -/

variable {m m' : Memory ι κ V E} {key : κ} {i : ι} {b : ℕ} {r : Answer κ V E}
  {batch : List (Entry ι κ)}

omit [DecidableEq ι] in
/-- What a promise of batch `b` is: pending until `batchFn` has answered. -/
def Memory.due (m : Memory ι κ V E) (b : ℕ) (e : Entry ι κ) : Promise V E :=
  ((m.answer b).map fun r => r.outcome e.key).getD .pending

/-- What holds of a loader at any time. -/
structure Inv (m : Memory ι κ V E) : Prop where
  scheduled : m.scheduled = true ↔ m.queue ≠ []
  ticks : m.ticks = m.scheduled.toNat
  nonempty : ∀ batch ∈ m.batches, batch ≠ []
  nodup : m.promises.Nodup
  known : ∀ i, i ∈ m.promises ↔ m.promise i ≠ none
  queued : ∀ e ∈ m.queue, m.promise e.promise = some .pending
  batched : ∀ b batch, m.batches[b]? = some batch →
    ∀ e ∈ batch, m.promise e.promise = some (m.due b e)
  asked : ∀ b, m.answer b ≠ none → b < m.batches.length

omit [DecidableEq ι] in
theorem Inv.init : Inv (Memory.init : Memory ι κ V E) where
  scheduled := by simp [Memory.init]
  ticks := rfl
  nonempty batch hb := absurd hb List.not_mem_nil
  nodup := List.nodup_nil
  known i := by simp [Memory.init, Memory.promises]
  queued e he := absurd he List.not_mem_nil
  batched b batch hb := by simp [Memory.init] at hb
  asked b hb := absurd rfl hb

omit [DecidableEq ι] in
theorem Inv.mem_promises_of_queue {e : Entry ι κ} (he : e ∈ m.queue) :
    e.promise ∈ m.promises :=
  List.mem_map_of_mem (List.mem_append_right _ he)

omit [DecidableEq ι] in
theorem mem_promises_of_batch {e : Entry ι κ} (hb : m.batches[b]? = some batch) (he : e ∈ batch) :
    e.promise ∈ m.promises :=
  List.mem_map_of_mem
    (List.mem_append_left _ (List.mem_flatten.mpr ⟨batch, List.mem_of_getElem? hb, he⟩))

/-! ### A load -/

section load

@[simp] theorem queue_load : (load m key i).queue = m.queue ++ [⟨key, i⟩] := by
  unfold load
  dsimp only
  split <;> rfl

@[simp] theorem promise_load :
    (load m key i).promise = Function.update m.promise i (some .pending) := by
  unfold load
  dsimp only
  split <;> rfl

@[simp] theorem batches_load : (load m key i).batches = m.batches := by
  unfold load
  dsimp only
  split <;> rfl

@[simp] theorem answer_load : (load m key i).answer = m.answer := by
  unfold load
  dsimp only
  split <;> rfl

@[simp] theorem scheduled_load : (load m key i).scheduled = true := by
  unfold load
  dsimp only
  split
  · next h => exact h
  · rfl

theorem ticks_load : (load m key i).ticks = m.ticks + (!m.scheduled).toNat := by
  unfold load
  dsimp only
  split <;> next h => simp [h]

@[simp] theorem promises_load : (load m key i).promises = m.promises ++ [i] := by
  simp [Memory.promises]

end load

/-- **A load.** -/
theorem Inv.load (h : Inv m) (hi : m.promise i = none) (key : κ) : Inv (load m key i) := by
  -- the promise is new, so no entry of the queue or of a batch has it
  have hnew : i ∉ m.promises := fun hmem => (h.known i).mp hmem hi
  refine ⟨?_, ?_, ?_, ?_, fun j => ?_, fun e he => ?_, fun b batch hb e he => ?_, ?_⟩
  · simp
  · rw [ticks_load, h.ticks, scheduled_load]
    -- `nextTick` is asked exactly when nothing was scheduled yet
    cases m.scheduled <;> rfl
  · rw [batches_load]
    exact h.nonempty
  · rw [promises_load]
    simpa using h.nodup.concat hnew
  · rw [promises_load, promise_load, List.mem_append, List.mem_singleton, h.known]
    by_cases hj : j = i
    · subst hj
      simp
    · rw [Function.update_of_ne hj]
      exact or_iff_left hj
  · rw [queue_load, List.mem_append, List.mem_singleton] at he
    rw [promise_load]
    rcases he with he | rfl
    · rw [Function.update_of_ne]
      · exact h.queued e he
      · rintro rfl
        exact hnew (Inv.mem_promises_of_queue he)
    · exact Function.update_self ..
  · rw [batches_load] at hb
    rw [promise_load, Function.update_of_ne]
    · simpa [Memory.due] using h.batched b batch hb e he
    · rintro rfl
      exact hnew (mem_promises_of_batch hb he)
  · rw [answer_load, batches_load]
    exact h.asked

/-! ### A callback -/

omit [DecidableEq ι] in
/-- A `flush` never finds the queue empty. -/
theorem Inv.queue_ne_nil (h : Inv m) (ht : 0 < m.ticks) : m.queue ≠ [] := by
  rw [h.ticks] at ht
  refine h.scheduled.mp ?_
  cases hs : m.scheduled
  · rw [hs] at ht
    cases ht
  · rfl

omit [DecidableEq ι] in
/-- What a callback does: there is no other, and the queue becomes a batch. -/
theorem Inv.flush_eq (h : Inv m) (ht : 0 < m.ticks) :
    flush { m with ticks := m.ticks - 1 } =
      { m with
        queue := [], scheduled := false, ticks := 0, batches := m.batches ++ [m.queue] } := by
  have hticks := h.ticks
  have hone := Bool.toNat_le m.scheduled
  unfold DataLoader.flush
  rw [if_neg (by simpa using h.queue_ne_nil ht)]
  simp only [show m.ticks - 1 = 0 by omega]

omit [DecidableEq ι] in
/-- **A callback.** -/
theorem Inv.flush (h : Inv m) (ht : 0 < m.ticks) :
    Inv (flush { m with ticks := m.ticks - 1 }) := by
  have hqueue := h.queue_ne_nil ht
  have hpromises : Memory.promises { m with
      queue := [], scheduled := false, ticks := 0, batches := m.batches ++ [m.queue] } =
      m.promises := by
    simp [Memory.promises]
  rw [h.flush_eq ht]
  refine ⟨by simp, rfl, fun batch hb => ?_, ?_, fun i => ?_, fun e he => ?_,
    fun b batch hb e he => ?_, fun b hb => ?_⟩
  · rcases List.mem_append.mp hb with hb | hb
    · exact h.nonempty batch hb
    · exact List.mem_singleton.mp hb ▸ hqueue
  · rw [hpromises]
    exact h.nodup
  · rw [hpromises]
    exact h.known i
  · cases he
  · rw [List.getElem?_append] at hb
    split at hb
    · exact h.batched b batch hb e he
    · next hlen =>
      -- the batch that is new has no answer yet
      have hanswer : m.answer b = none := by
        by_contra hne
        exact hlen (h.asked b hne)
      obtain rfl : batch = m.queue := by
        rw [List.getElem?_singleton] at hb
        split at hb
        · exact (Option.some_inj.mp hb).symm
        · cases hb
      show m.promise e.promise = some ((m.answer b).map _ |>.getD _)
      rw [h.queued e he, hanswer]
      rfl
  · rw [List.length_append]
    exact Nat.lt_add_right _ (h.asked b hb)

/-! ### An answer -/

theorem settle_cases (p : ι → Option (Promise V E)) (i : ι) (q : Promise V E) :
    settle p i q = p ∨
      p i = some .pending ∧ settle p i q = Function.update p i (some q) := by
  unfold settle
  split
  · next hp => exact Or.inr ⟨hp, rfl⟩
  · exact Or.inl rfl

theorem settleAll_of_notMem {p : ι → Option (Promise V E)} (hi : i ∉ batch.map (·.promise)) :
    settleAll r p batch i = p i := by
  induction batch generalizing p with
  | nil => rfl
  | cons e batch ih =>
    rw [List.map_cons, List.mem_cons, not_or] at hi
    show settleAll r (settle p e.promise (r.outcome e.key)) batch i = p i
    rw [ih hi.2]
    rcases settle_cases p e.promise (r.outcome e.key) with heq | ⟨-, heq⟩
    · rw [heq]
    · rw [heq, Function.update_of_ne hi.1]

/-- Promises that are pending are settled, each from its own key. -/
theorem settleAll_of_mem {p : ι → Option (Promise V E)} (hnodup : (batch.map (·.promise)).Nodup)
    (hp : ∀ e ∈ batch, p e.promise = some .pending) {e : Entry ι κ} (he : e ∈ batch) :
    settleAll r p batch e.promise = some (r.outcome e.key) := by
  induction batch generalizing p with
  | nil => cases he
  | cons e' batch ih =>
    rw [List.map_cons, List.nodup_cons] at hnodup
    have hself : settle p e'.promise (r.outcome e'.key) =
        Function.update p e'.promise (some (r.outcome e'.key)) := by
      rw [settle, hp e' List.mem_cons_self]
    show settleAll r (settle p e'.promise (r.outcome e'.key)) batch e.promise = _
    rw [hself]
    rcases List.mem_cons.mp he with rfl | he
    -- the promise is settled here, and by none of the entries that follow
    · rw [settleAll_of_notMem hnodup.1, Function.update_self]
    · refine ih hnodup.2 (fun e'' he'' => ?_) he
      rw [Function.update_of_ne]
      · exact hp e'' (List.mem_cons_of_mem _ he'')
      · intro heq
        exact hnodup.1 (heq ▸ List.mem_map_of_mem he'')

theorem settleAll_eq_none_iff {p : ι → Option (Promise V E)} :
    settleAll r p batch i = none ↔ p i = none := by
  induction batch generalizing p with
  | nil => rfl
  | cons e batch ih =>
    show settleAll r (settle p e.promise (r.outcome e.key)) batch i = none ↔ _
    rw [ih]
    rcases settle_cases p e.promise (r.outcome e.key) with heq | ⟨hp, heq⟩
    · rw [heq]
    · rw [heq]
      by_cases hi : i = e.promise
      · rw [hi, Function.update_self, hp]
        simp
      · rw [Function.update_of_ne hi]

omit [DecidableEq ι] in
theorem Inv.nodup_batch (h : Inv m) (hb : m.batches[b]? = some batch) :
    (batch.map (·.promise)).Nodup := by
  have hsub : batch.Sublist (m.batches.flatten ++ m.queue) :=
    (List.sublist_flatten_of_mem (List.mem_of_getElem? hb)).trans (List.sublist_append_left ..)
  exact h.nodup.sublist (hsub.map _)

omit [DecidableEq ι] in
/-- A load that waits is in no batch. -/
theorem Inv.notMem_of_queue (h : Inv m) (hb : m.batches[b]? = some batch) {e : Entry ι κ}
    (he : e ∈ m.queue) : e.promise ∉ batch.map (·.promise) := by
  have hnodup := h.nodup
  rw [Memory.promises, List.map_append] at hnodup
  intro hmem
  have hsub := (List.sublist_flatten_of_mem (List.mem_of_getElem? hb)).map (·.promise)
  exact (List.disjoint_of_nodup_append hnodup) (hsub.subset hmem) (List.mem_map_of_mem he)

omit [DecidableEq ι] in
/-- A load is in one batch only. -/
theorem Inv.notMem_of_batch (h : Inv m) (hb : m.batches[b]? = some batch) {b' : ℕ}
    {batch' : List (Entry ι κ)} (hb' : m.batches[b']? = some batch') (hne : b' ≠ b)
    {e : Entry ι κ} (he : e ∈ batch') : e.promise ∉ batch.map (·.promise) := by
  have hnodup := h.nodup
  rw [Memory.promises, List.map_append, List.map_flatten] at hnodup
  have hdisjoint := (List.nodup_flatten.mp hnodup.of_append_left).2
  rw [List.pairwise_map, List.pairwise_iff_getElem] at hdisjoint
  obtain ⟨hlt, hb⟩ := List.getElem?_eq_some_iff.mp hb
  obtain ⟨hlt', hb'⟩ := List.getElem?_eq_some_iff.mp hb'
  subst hb hb'
  intro hmem
  rcases Nat.lt_or_gt_of_ne hne with hlt'' | hlt''
  · exact hdisjoint b' b hlt' hlt hlt'' (List.mem_map_of_mem he) hmem
  · exact hdisjoint b b' hlt hlt' hlt'' hmem (List.mem_map_of_mem he)

/-- **An answer.** -/
theorem Inv.answer (h : Inv m) (hb : m.batches[b]? = some batch) (hr : m.answer b = none)
    (r : Answer κ V E) : Inv { m with
      promise := settleAll r m.promise batch
      answer := Function.update m.answer b (some r) } := by
  refine ⟨h.scheduled, h.ticks, h.nonempty, h.nodup, fun i => ?_, fun e he => ?_,
    fun b' batch' hb' e he => ?_, fun b' hb' => ?_⟩
  · exact (h.known i).trans (not_congr settleAll_eq_none_iff).symm
  -- the queue and the other batches have promises of their own
  · exact (settleAll_of_notMem (h.notMem_of_queue hb he)).trans (h.queued e he)
  · show settleAll r m.promise batch e.promise =
      some ((Function.update m.answer b (some r) b').map _ |>.getD _)
    by_cases hbb : b' = b
    · subst hbb
      obtain rfl : batch' = batch := Option.some_inj.mp (hb'.symm.trans hb)
      -- the batch that is answered: each of its promises was pending
      rw [Function.update_self]
      refine settleAll_of_mem (h.nodup_batch hb) (fun e' he' => ?_) he
      rw [h.batched b' batch' hb e' he', Memory.due, hr]
      rfl
    · rw [Function.update_of_ne hbb, settleAll_of_notMem (h.notMem_of_batch hb hb' hbb he)]
      exact h.batched b' batch' hb' e he
  · by_cases hbb : b' = b
    · subst hbb
      exact (List.getElem?_eq_some_iff.mp hb).1
    · exact h.asked b' fun hnone => hb' ((Function.update_of_ne hbb _ _).trans hnone)

/-! ### Every run -/

theorem Inv.step (h : Inv m) {a : Action ι κ V E} (hs : Loader.step m a = some m') : Inv m' := by
  cases a with
  | load key i =>
    obtain ⟨hi, hs⟩ := Option.ite_none_right_eq_some.mp hs
    exact Option.some_inj.mp hs ▸ h.load hi key
  | tick =>
    obtain ⟨ht, hs⟩ := Option.ite_none_right_eq_some.mp hs
    exact Option.some_inj.mp hs ▸ h.flush ht
  | turn =>
    obtain ⟨-, hs⟩ := Option.ite_none_right_eq_some.mp hs
    exact Option.some_inj.mp hs ▸ h
  | answer b r =>
    unfold Loader.step at hs
    dsimp only at hs
    split at hs
    · next batch hb hr => exact Option.some_inj.mp hs ▸ h.answer hb hr r
    · cases hs

theorem inv_of_exec (as : List (Action ι κ V E)) (h : exec Loader.step Memory.init as = some m) :
    Inv m :=
  (Reach.of_exec as h).invariant Inv.init fun _ _ _ h hs => h.step hs

theorem windows_eq (as : List (Action ι κ V E))
    (h : exec Loader.step Memory.init as = some m) : windows as = (m.batches, m.queue) := by
  induction as using List.reverseRecOn generalizing m with
  | nil =>
    rw [exec_nil, Option.some_inj] at h
    subst h
    rfl
  | append_singleton as a ih =>
    rw [exec_concat, Option.bind_eq_some_iff] at h
    obtain ⟨m₀, h, hs⟩ := h
    have hinv := inv_of_exec as h
    rw [windows_concat, ih h]
    cases a with
    | load key i =>
      obtain ⟨-, hs⟩ := Option.ite_none_right_eq_some.mp hs
      obtain rfl := Option.some_inj.mp hs
      simp [window]
    | tick =>
      obtain ⟨ht, hs⟩ := Option.ite_none_right_eq_some.mp hs
      obtain rfl := Option.some_inj.mp hs
      rw [hinv.flush_eq ht, window, if_neg (by simpa using hinv.queue_ne_nil ht)]
    | turn =>
      obtain ⟨ht, hs⟩ := Option.ite_none_right_eq_some.mp hs
      obtain rfl := Option.some_inj.mp hs
      -- no callback is left, so that no window is open
      have hqueue : m₀.queue = [] := by
        by_contra hne
        rw [hinv.ticks, hinv.scheduled.mpr hne] at ht
        cases ht
      rw [window, if_pos (by rw [hqueue]; rfl)]
    | answer b r =>
      unfold Loader.step at hs
      dsimp only at hs
      split at hs
      · obtain rfl := Option.some_inj.mp hs
        rfl
      · cases hs

/-- The loader after the run `as`. -/
structure Exact (as : List (Action ι κ V E)) (m : Memory ι κ V E) : Prop where
  /-- The batches are the loads of the windows that are over, the queue is the open one. -/
  windows : windows as = (m.batches, m.queue)
  /-- No `flush` finds the queue empty. -/
  nonempty : ∀ batch ∈ m.batches, batch ≠ []
  /-- No load is in two batches, nor twice in one. -/
  once : m.promises.Nodup
  /-- One callback is left as long as a load waits, and none otherwise. -/
  callback : m.ticks = if m.queue = [] then 0 else 1
  /-- The promises are those of the loads, pending as long as the load waits … -/
  waits : ∀ e ∈ m.queue, m.promise e.promise = some .pending
  /-- … or `batchFn` has not answered, and then as it has for that key. -/
  settled : ∀ b batch, m.batches[b]? = some batch →
    ∀ e ∈ batch, m.promise e.promise = some (m.due b e)
  others : ∀ i, i ∉ m.promises → m.promise i = none

/-- **In every run the batches are the windows**, and every promise is settled from the answer
to its own batch. -/
theorem batches_are_windows (as : List (Action ι κ V E))
    (h : exec Loader.step Memory.init as = some m) : Exact as m := by
  have hinv := inv_of_exec as h
  refine ⟨windows_eq as h, hinv.nonempty, hinv.nodup, ?_, hinv.queued, hinv.batched,
    fun i hi => ?_⟩
  · rw [hinv.ticks]
    split
    · next hnil =>
      rw [Bool.eq_false_iff.mpr fun hs => hinv.scheduled.mp hs hnil]
      rfl
    · next hne =>
      rw [hinv.scheduled.mpr hne]
      rfl
  · by_contra hne
    exact hi ((hinv.known i).mpr hne)

/-- Two loads in one tick, one of them twice, and one in the next; the second batch fails before
the first is answered. -/
theorem batches_are_windows_two : ∃ m : Memory ℕ ℕ ℕ ℕ,
    m.batches = [[⟨5, 0⟩, ⟨7, 1⟩, ⟨5, 2⟩], [⟨5, 3⟩]] ∧
    (List.range 4).map m.promise =
      [some (.resolved (some 50)), some (.resolved none), some (.resolved (some 50)),
        some (.rejected 1)] ∧
    Exact [.load 5 0, .load 7 1, .load 5 2, .tick, .turn, .load 5 3, .tick, .answer 1 (.error 1),
      .turn, .answer 0 (.ok fun key => if key = 5 then some 50 else none)] m := by
  obtain ⟨m, hm⟩ : ∃ m : Memory ℕ ℕ ℕ ℕ, exec Loader.step Memory.init
      [.load 5 0, .load 7 1, .load 5 2, .tick, .turn, .load 5 3, .tick, .answer 1 (.error 1),
        .turn, .answer 0 (.ok fun key => if key = 5 then some 50 else none)] = some m :=
    ⟨_, rfl⟩
  refine ⟨m, ?_, ?_, batches_are_windows _ hm⟩
  · obtain rfl := Option.some_inj.mp hm
    rfl
  · obtain rfl := Option.some_inj.mp hm
    decide

end DataLoader
end SepLab
