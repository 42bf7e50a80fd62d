import Mathlib.Algebra.Order.BigOperators.Group.Finset
import Mathlib.Algebra.Order.Ring.Nat
import SepLab.Lib.Potential
import SepLab.Metastable.Settlement

/-!
# The clients come to rest, and every request is counted

A request makes three attempts at most, and each of them keeps the threads busy for so many steps
at most.  So between arrivals and restarts the threads do only so much; and when there is nothing
left to do, every request that has arrived is counted.

## Main definitions

* `threads`, `Pc.rank`, `State.work` — the threads of the apps made so far, and what is left to do.
* `Sound` — what every reachable state keeps.
* `AtRest` — no thread goes on, however long one waits.

## Main results

* `advance_work` — a thread that goes on does some of the work.
* `AtRest.counted` — at rest every request is counted.
* `settles_once` — every run settles each attempt, and counts each request, once.
-/

namespace SepLab
namespace Metastable
namespace Client

open Finset

variable {R K : Type} [DecidableEq R] [DecidableEq K]

/-- The threads of an app. -/
def workers (k : ℕ) : Finset Thread :=
  (range poolSize).image (.worker k true) ∪ (range fastThreads).image (.worker k false)

/-- The threads, when `n` apps have been made. -/
def threads (n : ℕ) : Finset Thread :=
  {.arrivals, .timer} ∪ (range n).biUnion workers

theorem mem_workers {k k' n : ℕ} {db : Bool} :
    .worker k db n ∈ workers k' ↔ k = k' ∧ n < if db then poolSize else fastThreads := by
  cases db <;> simp [workers, eq_comm, and_comm]

theorem mem_threads {k m n : ℕ} {db : Bool} :
    .worker k db n ∈ threads m ↔ k < m ∧ n < if db then poolSize else fastThreads := by
  simp [threads, mem_workers]

theorem arrivals_mem (n : ℕ) : .arrivals ∈ threads n := by
  simp [threads]

theorem timer_mem (n : ℕ) : .timer ∈ threads n := by
  simp [threads]

theorem workers_card (k : ℕ) : (workers k).card ≤ 10 := by
  refine (card_union_le _ _).trans ?_
  have hdb : ((range poolSize).image (Thread.worker k true)).card ≤ poolSize :=
    card_image_le.trans (card_range _).le
  have hfast : ((range fastThreads).image (Thread.worker k false)).card ≤ fastThreads :=
    card_image_le.trans (card_range _).le
  exact Nat.add_le_add hdb hfast

theorem threads_succ (n : ℕ) : threads (n + 1) = workers n ∪ threads n := by
  unfold threads
  rw [range_add_one, biUnion_insert, union_left_comm]

theorem disjoint_workers (n : ℕ) : Disjoint (workers n) (threads n) := by
  rw [disjoint_left]
  intro θ hθ hmem
  cases θ with
  | arrivals => simp [workers] at hθ
  | timer => simp [workers] at hθ
  | worker k db m =>
    have hk := (mem_workers.mp hθ).1
    have hlt := (mem_threads.mp hmem).1
    omega

variable {s s' s₁ : State R K} {key : R → K} {θ : Thread} {a : Attempt R} {p : Pc R}

/-! ### What a thread leaves as it is -/

/-- Only the thread itself has gone on; the current app and the number of apps are the same. -/
structure Frame (θ : Thread) (s s' : State R K) : Prop where
  gApp : s'.gApp = s.gApp
  nApps : s'.nApps = s.nApps
  pc : ∃ p, s'.pc = Function.update s.pc θ p
  exits : s'.pc θ = .exited → ∃ k db n, θ = .worker k db n

omit [DecidableEq R] [DecidableEq K] in
theorem Frame.goto (hg : s₁.gApp = s.gApp) (hn : s₁.nApps = s.nApps) (hpc : s₁.pc = s.pc)
    (hp : p ≠ .exited) : Frame θ s (s₁.goto θ p) where
  gApp := hg
  nApps := hn
  pc := ⟨p, by rw [← hpc]; rfl⟩
  exits h := by
    replace h : Function.update s₁.pc θ p θ = .exited := h
    rw [Function.update_self] at h
    exact absurd h hp

omit [DecidableEq K] in
theorem Frame.exchange {settler : Settler} {ok : Bool} (hg : s₁.gApp = s.gApp)
    (hn : s₁.nApps = s.nApps) (hpc : s₁.pc = s.pc) (hp : p ≠ .exited) :
    Frame θ s (s₁.exchange θ a settler ok p) := by
  unfold State.exchange
  split
  · exact Frame.goto hg hn hpc nofun
  · exact Frame.goto hg hn hpc hp

omit [DecidableEq R] [DecidableEq K] in
theorem Frame.dequeue {k n : ℕ} {db : Bool} (hs : s.dequeue k db n = some s') :
    Frame (.worker k db n) s s' := by
  unfold State.dequeue at hs
  obtain ⟨-, hs⟩ := Option.ite_none_right_eq_some.mp hs
  split at hs
  · cases hs
    exact ⟨rfl, rfl, ⟨_, rfl⟩, fun _ => ⟨k, db, n, rfl⟩⟩
  · split at hs
    · cases hs
      exact Frame.goto rfl rfl rfl nofun
    · cases hs
      exact Frame.goto rfl rfl rfl nofun
    · cases hs

omit [DecidableEq R] [DecidableEq K] in
theorem Frame.pop (hs : s.pop = some s') : Frame .timer s s' := by
  unfold State.pop at hs
  split at hs
  · obtain ⟨-, hs⟩ := Option.ite_none_right_eq_some.mp hs
    cases hs
    exact Frame.goto rfl rfl rfl nofun
  · cases hs

omit [DecidableEq R] [DecidableEq K] in
theorem Frame.enqueue (hp : p ≠ .exited) : Frame θ s ((s.enqueue a).goto θ p) := by
  unfold State.enqueue
  split
  · exact Frame.goto rfl rfl rfl hp
  · exact Frame.goto rfl rfl rfl hp

theorem advance_frame (hs : s.advance key θ = some s') : Frame θ s s' := by
  unfold State.advance at hs
  split at hs
  · split at hs
    · cases hs
    · exact Frame.pop hs
    · exact Frame.dequeue hs
  -- the three calls of `settled.exchange(true)`
  case h_5 | h_10 | h_12 =>
    cases hs
    exact Frame.exchange rfl rfl rfl nofun
  case h_24 =>
    cases hs
    exact Frame.enqueue nofun
  -- the sites with a branch each: expired or not, an app or none, shed or not
  case h_3 | h_18 | h_20 =>
    split at hs
    · cases hs
      exact Frame.goto rfl rfl rfl nofun
    · cases hs
      exact Frame.goto rfl rfl rfl nofun
  case h_13 =>
    cases hs
    refine Frame.goto rfl rfl rfl ?_
    split
    · exact nofun
    · exact nofun
  case h_16 =>
    split at hs
    · split at hs
      · cases hs
        exact Frame.goto rfl rfl rfl nofun
      · cases hs
        exact Frame.goto rfl rfl rfl nofun
    · cases hs
      exact Frame.goto rfl rfl rfl nofun
  case h_2 => cases hs
  all_goals
    cases hs
    exact Frame.goto rfl rfl rfl nofun

/-! ### Every reachable state -/

/-- What every reachable state keeps. -/
structure Sound (s : State R K) : Prop where
  inv : Inv s.clients s.pc s.apps
  current : s.gApp ≠ none
  idle : ∀ θ, θ ∉ threads s.nApps → s.pc θ = .idle
  timer : s.pc .timer ≠ .exited

omit [DecidableEq K] in
theorem Sound.init : Sound (State.init : State R K) where
  inv := Inv.init
  current := nofun
  idle _ _ := rfl
  timer := nofun

/-- Only the threads that have been started go on. -/
theorem Sound.mem_threads (h : Sound s) (hs : s.advance key θ = some s') :
    θ ∈ threads s.nApps := by
  -- a thread outside has not been started, and a worker's loop asks for that
  by_contra hnot
  have hidle := h.idle θ hnot
  unfold State.advance at hs
  rw [hidle] at hs
  cases θ with
  | arrivals => exact hnot (arrivals_mem _)
  | timer => exact hnot (timer_mem _)
  | worker k db n =>
    exact hnot (Client.mem_threads.mpr (Option.ite_none_right_eq_some.mp hs).1)

omit [DecidableEq K] in
theorem Sound.of_frame (h : Sound s) (hθ : θ ∈ threads s.nApps) (hframe : Frame θ s s')
    (hinv : Inv s'.clients s'.pc s'.apps) : Sound s' := by
  obtain ⟨p, hp⟩ := hframe.pc
  refine ⟨hinv, hframe.gApp ▸ h.current, fun θ' hθ' => ?_, fun htimer => ?_⟩
  · rw [hframe.nApps] at hθ'
    have hne : θ' ≠ θ := fun heq => hθ' (heq ▸ hθ)
    rw [hp, Function.update_of_ne hne]
    exact h.idle θ' hθ'
  · by_cases heq : θ = .timer
    · obtain ⟨k, db, n, hworker⟩ := hframe.exits (heq ▸ htimer)
      rw [heq] at hworker
      cases hworker
    · rw [hp, Function.update_of_ne (Ne.symm heq)] at htimer
      exact h.timer htimer

theorem Sound.advance (h : Sound s) (hs : s.advance key θ = some s') : Sound s' :=
  h.of_frame (h.mem_threads hs) (advance_frame hs) (h.inv.advance h.current hs)

omit [DecidableEq K] in
theorem Sound.arrive {r : R} (h : Sound s) (hs : s.arrive r = some s') : Sound s' := by
  unfold State.arrive at hs
  split at hs
  · next hidle =>
    obtain ⟨hr, hs⟩ := Option.ite_none_left_eq_some.mp hs
    cases hs
    exact h.of_frame (arrivals_mem _) (Frame.goto rfl rfl rfl nofun) (h.inv.arrive hidle hr)
  · cases hs

omit [DecidableEq K] in
theorem Sound.restart (h : Sound s) (hs : s.restart = some s') : Sound s' := by
  unfold State.restart at hs
  split at hs
  · cases hs
    refine ⟨h.inv.update_app s.nApps ?_, nofun, fun θ hθ => h.idle θ fun hmem => hθ ?_, h.timer⟩
    · rintro a (ha | ha)
      · cases ha
      · cases ha
    · rw [threads_succ]
      exact mem_union_right _ hmem
  · cases hs

omit [DecidableEq K] in
theorem Sound.stop {k : ℕ} (h : Sound s) (hs : s.stop k = some s') : Sound s' := by
  unfold State.stop at hs
  obtain ⟨-, hs⟩ := Option.ite_none_right_eq_some.mp hs
  cases hs
  refine ⟨h.inv.update_app k ?_, h.current, h.idle, h.timer⟩
  rintro a (ha | ha)
  · cases ha
  · cases ha

theorem Sound.step {α : Action R K} (h : Sound s) (hs : step key s α = some s') : Sound s' := by
  cases α with
  -- settings change neither queues nor who is where
  | tick d =>
    cases hs
    exact ⟨h.inv, h.current, h.idle, h.timer⟩
  | arrive r => exact h.arrive hs
  | advance θ => exact h.advance hs
  | restart => exact h.restart hs
  | stop k => exact h.stop hs
  | setBudget budget =>
    cases hs
    exact ⟨h.inv, h.current, h.idle, h.timer⟩
  | setShedLimit k limit =>
    cases hs
    exact ⟨h.inv.update_app k (h.inv.queues k), h.current, h.idle, h.timer⟩
  | setDropExpired k drop =>
    cases hs
    exact ⟨h.inv.update_app k (h.inv.queues k), h.current, h.idle, h.timer⟩
  | flushall =>
    cases hs
    exact ⟨h.inv, h.current, h.idle, h.timer⟩
  | evict key =>
    cases hs
    exact ⟨h.inv, h.current, h.idle, h.timer⟩

/-! ### What is left to do -/

/-- How many steps the thread can take before it is idle again, and one more; a step that puts
something into a queue or the timer wheel counts for what will be done with it. -/
def Pc.rank : Pc R → ℕ
  | .idle => 1
  | .taken _ => 10
  | .dropping _ => 6
  | .dropped _ => 5
  | .serving _ => 9
  | .completing _ => 8
  | .checking _ => 7
  | .filling _ _ => 6
  | .completed _ _ => 5
  | .late _ => 2
  | .exited => 0
  | .popped _ => 5
  | .finishing _ _ _ => 4
  | .scoring _ _ => 3
  | .depositing => 2
  | .deciding _ => 3
  | .failing _ => 2
  -- the attempt will be queued (10) and watched (5) when the thread is through with it
  | .submitting _ => 23
  | .choosing _ _ => 22
  | .limiting _ _ _ => 21
  | .shedding _ => 5
  | .creating _ _ => 20
  | .joining _ => 19
  | .enqueuing _ => 18
  | .arming _ => 7

/-- How many tasks wait in the two queues of an app. -/
def App.queued (app : App R) : ℕ := app.dbq.length + app.fastq.length

/-- How often the requests can still be submitted again. -/
def Clients.left (c : Clients R) : ℕ :=
  (c.arrived.map fun r => maxAttempts - 1 - c.attempt r).sum

/-- What is left to do. -/
def State.work (s : State R K) : ℕ :=
  ∑ θ ∈ threads s.nApps, (s.pc θ).rank + 10 * ∑ k ∈ range s.nApps, (s.apps k).queued +
    5 * s.clients.pending.length + 21 * s.clients.left

variable {d e : ℕ}

omit [DecidableEq R] [DecidableEq K] in
theorem work_goto (hθ : θ ∈ threads s.nApps) (p : Pc R) :
    (s.goto θ p).work + (s.pc θ).rank = s.work + p.rank := by
  have hsum := sum_update (f := s.pc) hθ Pc.rank p
  unfold State.work State.goto
  dsimp only
  omega

omit [DecidableEq R] [DecidableEq K] in
/-- A thread goes on, and has less to do than it puts into the queues. -/
theorem goto_work (hθ : θ ∈ threads s.nApps) (hp : s.pc θ = p) {q : Pc R}
    (hn : s₁.nApps = s.nApps) (hpc : s₁.pc = s.pc) (hwork : s₁.work + e ≤ s.work + d)
    (hrank : q.rank + d < p.rank + e) : (s₁.goto θ q).work < s.work := by
  have hgoto := work_goto (s := s₁) (hn ▸ hθ : θ ∈ threads s₁.nApps) q
  rw [hpc, hp] at hgoto
  omega

omit [DecidableEq R] [DecidableEq K] in
theorem onApp_work_le {k : ℕ} {f : App R → App R}
    (h : (f (s.apps k)).queued ≤ (s.apps k).queued + d) :
    (s.onApp k f).work ≤ s.work + 10 * d := by
  have hsum : ∑ k' ∈ range s.nApps, (Function.update s.apps k (f (s.apps k)) k').queued ≤
      ∑ k' ∈ range s.nApps, (s.apps k').queued + d := by
    by_cases hk : k ∈ range s.nApps
    · have := sum_update (f := s.apps) hk App.queued (f (s.apps k))
      omega
    · rw [sum_update_of_notMem hk]
      exact Nat.le_add_right _ _
  unfold State.work State.onApp
  dsimp only
  omega

omit [DecidableEq R] [DecidableEq K] in
theorem onApp_work {k : ℕ} {f : App R → App R} (hk : k < s.nApps)
    (h : (f (s.apps k)).queued + 1 = (s.apps k).queued) : (s.onApp k f).work + 10 = s.work := by
  have hsum := sum_update (f := s.apps) (mem_range.mpr hk) App.queued (f (s.apps k))
  unfold State.work State.onApp
  dsimp only
  omega

omit [DecidableEq R] [DecidableEq K] in
/-- A thread goes on, and nothing comes into the queues. -/
theorem goes_work (hθ : θ ∈ threads s.nApps) (hp : s.pc θ = p) {q : Pc R}
    (hn : s₁.nApps = s.nApps) (hpc : s₁.pc = s.pc) (hwork : s₁.work ≤ s.work)
    (hrank : q.rank < p.rank) : (s₁.goto θ q).work < s.work :=
  goto_work (d := 0) (e := 0) hθ hp hn hpc hwork hrank

omit [DecidableEq R] [DecidableEq K] in
/-- A thread changes the counters of an app. -/
theorem onApp_goes_work {k : ℕ} {f : App R → App R} (hθ : θ ∈ threads s.nApps) (hp : s.pc θ = p)
    {q : Pc R} (hf : (f (s.apps k)).queued = (s.apps k).queued) (hrank : q.rank < p.rank) :
    ((s.onApp k f).goto θ q).work < s.work :=
  goes_work hθ hp rfl rfl (onApp_work_le (d := 0) hf.le) hrank

theorem left_retry {c : Clients R} {r : R} (hr : r ∈ c.arrived)
    (htries : c.attempt r + 1 < maxAttempts) :
    ({ c with attempt := Function.update c.attempt r (c.attempt r + 1) } : Clients R).left <
      c.left := by
  refine List.sum_lt_sum _ _ (fun r' _ => ?_) ⟨r, hr, ?_⟩
  · dsimp only
    by_cases hr' : r' = r
    · rw [hr', Function.update_self]
      omega
    · rw [Function.update_of_ne hr']
  · dsimp only
    rw [Function.update_self]
    omega

omit [DecidableEq R] in
theorem length_emplace (pending : List (Attempt R)) (a : Attempt R) :
    (emplace pending a).length = pending.length + 1 := by
  have hsplit : pending.takeWhile (·.deadline ≤ a.deadline) ++
      pending.dropWhile (·.deadline ≤ a.deadline) = pending := List.takeWhile_append_dropWhile
  have hlen := congrArg List.length hsplit
  rw [List.length_append] at hlen
  rw [emplace, List.length_append, List.length_cons]
  omega

omit [DecidableEq K] in
theorem exchange_work {q : Pc R} {settler : Settler} {ok : Bool} (hθ : θ ∈ threads s.nApps)
    (hp : s.pc θ = p) (hn : s₁.nApps = s.nApps) (hpc : s₁.pc = s.pc) (hwork : s₁.work ≤ s.work)
    (hrank : q.rank < p.rank) (hfinish : 4 < p.rank) :
    (s₁.exchange θ a settler ok q).work < s.work := by
  unfold State.exchange
  split
  · exact goes_work hθ hp hn hpc hwork hfinish
  · exact goes_work hθ hp hn hpc hwork hrank

omit [DecidableEq R] [DecidableEq K] in
theorem pop_work (h : s.pop = some s') (hp : s.pc .timer = .idle) : s'.work < s.work := by
  unfold State.pop at h
  split at h
  · next a pending hpending =>
    obtain ⟨-, h⟩ := Option.ite_none_right_eq_some.mp h
    cases h
    refine goto_work (d := 0) (e := 5) (timer_mem _) hp rfl rfl ?_ (by simp [Pc.rank])
    unfold State.work State.onClients Clients.left
    dsimp only
    rw [hpending, List.length_cons]
    omega
  · cases h

omit [DecidableEq R] [DecidableEq K] in
theorem dequeue_work {k n : ℕ} {db : Bool} (h : s.dequeue k db n = some s')
    (hp : s.pc (.worker k db n) = .idle) : s'.work < s.work := by
  unfold State.dequeue at h
  obtain ⟨hstarted, h⟩ := Option.ite_none_right_eq_some.mp h
  have hθ := mem_threads.mpr hstarted
  split at h
  · cases h
    -- a worker of a stopped app returns
    exact goes_work hθ hp rfl rfl le_rfl (by simp [Pc.rank])
  · cases db with
    | true =>
      cases hq : (s.apps k).dbq with
      | nil =>
        rw [hq] at h
        cases h
      | cons a dbq =>
        rw [hq] at h
        cases h
        -- an attempt leaves the queue for the worker, who has at most as much to do with it
        refine goto_work (d := 0) (e := 10) hθ hp rfl rfl (onApp_work hstarted.1 ?_).le
          (by simp [Pc.rank])
        show dbq.length + (s.apps k).fastq.length + 1 = (s.apps k).dbq.length + _
        rw [hq, List.length_cons]
        exact Nat.add_right_comm _ _ _
    | false =>
      cases hq : (s.apps k).fastq with
      | nil =>
        rw [hq] at h
        cases h
      | cons a fastq =>
        rw [hq] at h
        cases h
        refine goto_work (d := 0) (e := 10) hθ hp rfl rfl (onApp_work hstarted.1 ?_).le
          (by simp [Pc.rank])
        show (s.apps k).dbq.length + fastq.length + 1 = _ + (s.apps k).fastq.length
        rw [hq, List.length_cons]
        rfl

omit [DecidableEq R] [DecidableEq K] in
theorem enqueue_work (hθ : θ ∈ threads s.nApps) (hp : s.pc θ = .enqueuing a) :
    ((s.enqueue a).goto θ (.arming a)).work < s.work := by
  unfold State.enqueue
  split
  · exact goes_work hθ hp rfl rfl le_rfl (by simp [Pc.rank])
  · refine goto_work (d := 10) (e := 0) hθ hp rfl rfl (onApp_work_le (d := 1) ?_)
      (by simp [Pc.rank])
    split
    · show (_ ++ [a]).length + _ ≤ _ + _ + 1
      rw [List.length_append, List.length_singleton, Nat.add_right_comm]
    · show _ + (_ ++ [a]).length ≤ _ + _ + 1
      rw [List.length_append, List.length_singleton, Nat.add_assoc]

/-- **A thread that goes on does some of the work.** -/
theorem advance_work (h : Sound s) (hs : s.advance key θ = some s') : s'.work < s.work := by
  have hθ := h.mem_threads hs
  unfold State.advance at hs
  cases hp : s.pc θ with
  | idle =>
    rw [hp] at hs
    cases θ with
    | arrivals => cases hs
    | timer => exact pop_work hs hp
    | worker k db n => exact dequeue_work hs hp
  | exited =>
    rw [hp] at hs
    cases hs
  | taken a =>
    rw [hp] at hs
    dsimp only at hs
    split at hs
    · cases hs
      exact goes_work hθ hp rfl rfl le_rfl (by simp [Pc.rank])
    · cases hs
      exact onApp_goes_work hθ hp rfl (by simp [Pc.rank])
  | dropping a =>
    rw [hp] at hs
    cases hs
    exact onApp_goes_work hθ hp rfl (by simp [Pc.rank])
  | dropped a =>
    rw [hp] at hs
    cases hs
    exact exchange_work hθ hp rfl rfl le_rfl (by simp [Pc.rank]) (by simp [Pc.rank])
  | serving a =>
    rw [hp] at hs
    cases hs
    exact onApp_goes_work hθ hp rfl (by simp [Pc.rank])
  | completing a =>
    rw [hp] at hs
    cases hs
    exact onApp_goes_work hθ hp rfl (by simp [Pc.rank])
  | checking a =>
    rw [hp] at hs
    cases hs
    exact goes_work hθ hp rfl rfl le_rfl (by simp [Pc.rank])
  | filling a t =>
    rw [hp] at hs
    cases hs
    exact goes_work hθ hp rfl rfl le_rfl (by simp [Pc.rank])
  | completed a t =>
    rw [hp] at hs
    cases hs
    exact exchange_work hθ hp rfl rfl le_rfl (by simp [Pc.rank]) (by simp [Pc.rank])
  | late a =>
    rw [hp] at hs
    cases hs
    exact goes_work hθ hp rfl rfl le_rfl (by simp [Pc.rank])
  | popped a =>
    rw [hp] at hs
    cases hs
    exact exchange_work hθ hp rfl rfl le_rfl (by simp [Pc.rank]) (by simp [Pc.rank])
  | finishing r ok origin =>
    rw [hp] at hs
    cases hs
    refine goes_work hθ hp rfl rfl le_rfl ?_
    cases ok <;> simp [Pc.rank]
  | scoring r origin =>
    rw [hp] at hs
    cases hs
    exact goes_work hθ hp rfl rfl le_rfl (by simp [Pc.rank])
  | depositing =>
    rw [hp] at hs
    cases hs
    exact goes_work hθ hp rfl rfl le_rfl (by simp [Pc.rank])
  | deciding r =>
    rw [hp] at hs
    dsimp only at hs
    split at hs
    · next htries =>
      split at hs
      · -- a retry starts over, at the cost of one of the submissions that are left
        cases hs
        have hleft := left_retry (h.inv.arrived_of_holds (by rw [hp]; rfl)) htries
        refine goto_work (d := 0) (e := 21) hθ hp rfl rfl ?_ (by simp [Pc.rank])
        unfold Clients.left at hleft
        unfold State.work State.onClients Clients.left
        dsimp only at hleft ⊢
        omega
      · cases hs
        exact goes_work hθ hp rfl rfl le_rfl (by simp [Pc.rank])
    · cases hs
      exact goes_work hθ hp rfl rfl le_rfl (by simp [Pc.rank])
  | failing r =>
    rw [hp] at hs
    cases hs
    exact goes_work hθ hp rfl rfl le_rfl (by simp [Pc.rank])
  | submitting r =>
    rw [hp] at hs
    dsimp only at hs
    split at hs
    · cases hs
      exact goes_work hθ hp rfl rfl le_rfl (by simp [Pc.rank])
    · cases hs
      exact goes_work hθ hp rfl rfl le_rfl (by simp [Pc.rank])
  | choosing r k =>
    rw [hp] at hs
    cases hs
    exact goes_work hθ hp rfl rfl le_rfl (by simp [Pc.rank])
  | limiting r k limit =>
    rw [hp] at hs
    dsimp only at hs
    split at hs
    · cases hs
      exact goes_work hθ hp rfl rfl le_rfl (by simp [Pc.rank])
    · cases hs
      exact goes_work hθ hp rfl rfl le_rfl (by simp [Pc.rank])
  | shedding r =>
    rw [hp] at hs
    cases hs
    exact goes_work hθ hp rfl rfl le_rfl (by simp [Pc.rank])
  | creating r k =>
    rw [hp] at hs
    cases hs
    exact goes_work hθ hp rfl rfl le_rfl (by simp [Pc.rank])
  | joining a =>
    rw [hp] at hs
    cases hs
    exact onApp_goes_work hθ hp rfl (by simp [Pc.rank])
  | enqueuing a =>
    rw [hp] at hs
    cases hs
    exact enqueue_work hθ hp
  | arming a =>
    rw [hp] at hs
    cases hs
    refine goto_work (d := 5) (e := 0) hθ hp rfl rfl ?_ (by simp [Pc.rank])
    unfold State.work State.onClients Clients.left
    dsimp only
    rw [length_emplace]
    omega

/-- How many of the steps are a thread's. -/
def Action.steps : Action R K → ℕ
  | .advance _ => 1
  | _ => 0

/-- What an arrival and a restart bring at most. -/
def Action.brings : Action R K → ℕ
  | .arrive _ => 64
  | .restart => 10
  | _ => 0

omit [DecidableEq K] in
theorem arrive_work {r : R} (hs : s.arrive r = some s') : s'.work ≤ s.work + 64 := by
  unfold State.arrive at hs
  split at hs
  · next hidle =>
    obtain ⟨-, hs⟩ := Option.ite_none_left_eq_some.mp hs
    cases hs
    set s₁ := s.onClients fun c => { c with
      arrived := c.arrived ++ [r]
      submits := Function.update c.submits r (c.submits r + 1) }
    -- submitting costs what an arrival brings
    have hgoto : (s₁.goto .arrivals (.submitting r)).work + 1 = s₁.work + 23 := by
      have := work_goto (s := s₁) (arrivals_mem _) (.submitting r)
      rwa [show s₁.pc .arrivals = .idle from hidle] at this
    have hleft : s₁.clients.left ≤ s.clients.left + 2 := by
      show (List.map _ (s.clients.arrived ++ [r])).sum ≤ _
      rw [List.map_append, List.sum_append, List.map_singleton, List.sum_singleton]
      exact Nat.add_le_add_left (Nat.sub_le 2 _) _
    have hwork : s₁.work + 21 * s.clients.left = s.work + 21 * s₁.clients.left :=
      Nat.add_right_comm _ _ _
    omega
  · cases hs

omit [DecidableEq K] in
theorem restart_work (h : Sound s) (hs : s.restart = some s') : s'.work ≤ s.work + 10 := by
  unfold State.restart at hs
  split at hs
  · cases hs
    -- the new app has ten workers, each of them before its first look at the queue
    have hnew : ∑ θ ∈ workers s.nApps, (s.pc θ).rank ≤ 10 := by
      have hidle : ∀ θ ∈ workers s.nApps, (s.pc θ).rank ≤ 1 := by
        intro θ hθ
        rw [h.idle θ (disjoint_left.mp (disjoint_workers _) hθ)]
        exact le_rfl
      calc ∑ θ ∈ workers s.nApps, (s.pc θ).rank
          ≤ (workers s.nApps).card • 1 := sum_le_card_nsmul _ _ _ hidle
        _ ≤ 10 := by simpa using workers_card s.nApps
    unfold State.work
    dsimp only
    rw [threads_succ, sum_union (disjoint_workers _), sum_range_succ, Function.update_self,
      sum_update_of_notMem notMem_range_self]
    show _ + 10 * (_ + 0) + _ + _ ≤ _
    omega
  · cases hs

omit [DecidableEq R] [DecidableEq K] in
theorem stop_work {k : ℕ} (hs : s.stop k = some s') : s'.work ≤ s.work := by
  unfold State.stop at hs
  obtain ⟨-, hs⟩ := Option.ite_none_right_eq_some.mp hs
  cases hs
  exact onApp_work_le (s := { s with replaced := s.replaced.erase k }) (d := 0) (Nat.zero_le _)

theorem step_work {α : Action R K} (h : Sound s) (hs : step key s α = some s') :
    s'.work + α.steps ≤ s.work + α.brings := by
  cases α with
  | tick d =>
    cases hs
    exact le_rfl
  | arrive r => exact arrive_work hs
  | advance θ => exact advance_work h hs
  | restart => exact restart_work h hs
  | stop k => exact stop_work hs
  | setBudget budget =>
    cases hs
    exact le_rfl
  | setShedLimit k limit =>
    -- settings bring no work
    cases hs
    exact onApp_work_le (d := 0) le_rfl
  | setDropExpired k drop =>
    cases hs
    exact onApp_work_le (d := 0) le_rfl
  | flushall =>
    cases hs
    exact le_rfl
  | evict key =>
    cases hs
    exact le_rfl

/-! ### At rest -/

/-- No thread goes on, however long one waits. -/
def AtRest (key : R → K) (s : State R K) : Prop :=
  ∀ d θ, ({ s with now := s.now + d } : State R K).advance key θ = none

/-- A thread waits only at the head of its loop. -/
theorem advance_ne_none (hidle : s.pc θ ≠ .idle) (hexited : s.pc θ ≠ .exited) :
    s.advance key θ ≠ none := by
  unfold State.advance
  split
  case h_1 hp => exact absurd hp hidle
  case h_2 hp => exact absurd hp hexited
  case h_3 | h_18 | h_20 =>
    split
    · exact nofun
    · exact nofun
  case h_16 =>
    split
    · split
      · exact nofun
      · exact nofun
    · exact nofun
  all_goals exact nofun

namespace AtRest

theorem idle (h : AtRest key s) (θ : Thread) : s.pc θ = .idle ∨ s.pc θ = .exited := by
  by_contra hnot
  rw [not_or] at hnot
  exact advance_ne_none hnot.1 hnot.2 (h 0 θ)

/-- The timer has nothing to wait for. -/
theorem pending (h : AtRest key s) (hs : Sound s) : s.clients.pending = [] := by
  have htimer : s.pc .timer = .idle := (h.idle .timer).resolve_right hs.timer
  cases hpending : s.clients.pending with
  | nil => rfl
  | cons a pending =>
    -- wait for its deadline: then the timer takes the first entry
    have hpop := h a.deadline .timer
    unfold State.advance at hpop
    rw [show ({ s with now := s.now + a.deadline } : State R K).pc .timer = .idle from htimer]
      at hpop
    replace hpop : ({ s with now := s.now + a.deadline } : State R K).pop = none := hpop
    unfold State.pop at hpop
    dsimp only at hpop
    rw [hpending] at hpop
    dsimp only at hpop
    rw [if_pos (Nat.le_add_left _ _)] at hpop
    cases hpop

/-- **At rest every request that has arrived is counted.** -/
theorem counted (h : AtRest key s) (hs : Sound s) {r : R} (hr : r ∈ s.clients.arrived) :
    r ∈ s.clients.counted := by
  refine (hs.inv.settlesOnce hs.current).counted_all r hr (fun θ hθ => ?_) fun a ha _ => ?_
  · rcases h.idle θ with hp | hp
    · rw [hp] at hθ
      cases hθ
    · rw [hp] at hθ
      cases hθ
  · rcases hs.inv.watched a ha with hpending | ⟨θ, hθ⟩ | hprocessed
    · rw [h.pending hs] at hpending
      cases hpending
    · rcases h.idle θ with hp | hp
      · rw [hp] at hθ
        cases hθ
      · rw [hp] at hθ
        cases hθ
    · exact hprocessed

end AtRest

omit [DecidableEq R] [DecidableEq K] in
theorem init_work : (State.init : State R K).work = 12 := by
  show ∑ θ ∈ threads 1, 1 + 10 * ∑ k ∈ range 1, 0 + 0 + 0 = 12
  rw [sum_const_zero, ← card_eq_sum_ones]
  decide

/-- **Every run settles each attempt, and counts each request, once**: between arrivals and
restarts the threads take only so many steps, and then every request is counted. -/
theorem settles_once {key : R → K} {as : List (Action R K)} {s : State R K}
    (h : exec (step key) State.init as = some s) :
    SettlesOnce s ∧ (AtRest key s → ∀ r ∈ s.clients.arrived, s.clients.counted.count r = 1) ∧
      (as.map Action.steps).sum ≤ 12 + (as.map Action.brings).sum := by
  have hstep : ∀ s a s', Sound s → step key s a = some s' → Sound s' := fun _ _ _ hs => hs.step
  have hs : Sound s := (Reach.of_exec as h).invariant Sound.init hstep
  have honce := hs.inv.settlesOnce hs.current
  have hwork := exec_work_le hstep (fun _ _ _ hs => step_work hs) Sound.init h
  rw [init_work] at hwork
  refine ⟨honce, fun hrest r hr => ?_, ?_⟩
  · exact List.count_eq_one_of_mem honce.counted (hrest.counted hs hr)
  · exact (Nat.le_add_left _ _).trans hwork

/-- The timer gives the first attempt up just before a worker completes it, and the second one, in
the queue of the next app, succeeds. -/
theorem settles_once_late : ∃ s : State Unit Unit, s.clients.metrics.zombie = 1 ∧
    s.clients.metrics.goodput = 1 ∧ s.clients.counted = [()] ∧ SettlesOnce s := by
  have hrun : ((exec (step (id : Unit → Unit)) State.init
      (List.flatten (α := Action Unit Unit) [[.arrive ()], .replicate 7 (.advance .arrivals),
        [.tick 500], .replicate 2 (.advance .timer), .replicate 8 (.advance (.worker 0 false 0)),
        [.restart, .stop 0], .replicate 9 (.advance .timer),
        .replicate 9 (.advance (.worker 1 false 0))])).map fun s =>
          (s.clients.metrics.zombie, s.clients.metrics.goodput, s.clients.counted)) =
      some (1, 1, [()]) := by decide +kernel
  obtain ⟨s, hs, hobs⟩ := Option.map_eq_some_iff.mp hrun
  simp only [Prod.mk.injEq] at hobs
  exact ⟨s, hobs.1, hobs.2.1, hobs.2.2, (settles_once hs).1⟩

end Client
end Metastable
end SepLab
