import Mathlib.Data.Rat.Floor
import SepLab.Lib.Listed
import SepLab.Shedding.Admission

/-!
# The lab service's shedder

`Shedder` of the failure lab: a counter of the requests in flight, and a condition
variable on which requests wait whose tier's allowance is reached.  `release`
wakes the first waiter with `notify()`, and a wait that ends with an exception calls
`notify(1)` for somebody else.  The lock of the condition is never held across an
`await`, so that nobody ever waits for it.

## Main definitions

* `allowance` — the limit of a tier.
* `Shedder`, `Action`, `Lab.step` — `acquire` and `release` of any number of requests.
* `Spared` — who still waits would find no room.
* `KeepsWakeUp` — a step that loses no wake-up.

## Main results

* `Inv.step` — while no wake-up is lost, there is one on its way for whoever has room.
* `shed_without_room` — and then nobody is shed who has room.
* `shed_with_room` — what happens otherwise.
-/

namespace SepLab
namespace Shedding
namespace Lab

/-- `TIER_FRACTION` -/
def tierFraction : List ℚ := [1, 3 / 4, 1 / 2, 1 / 4]

/-- `int(x)`, which rounds towards zero. -/
def toInt (x : ℚ) : ℤ := if x < 0 then ⌈x⌉ else ⌊x⌋

/-- `_allowance`; `gradient` is what the limiter of mode `adaptive` has come to. -/
def allowance (mode : Mode) (limit gradient tier : ℤ) : Option ℤ :=
  match mode with
  | .none => none
  | .static => some limit
  | .adaptive => some gradient
  | .priority =>
    let frac := tierFraction.getD (min (max tier 0) (tierFraction.length - 1)).toNat 0
    some (max 1 (toInt (limit * frac)))

/-- Where a request stands. -/
inductive Phase
  | idle
  /-- In `self._cond.wait()`, and not notified. -/
  | waiting
  /-- Notified, and yet to run. -/
  | notified
  /-- Its wait has timed out, and it is yet to run; `after` says that it was notified before. -/
  | timedOut (after : Bool)
  | admitted
  | refused
  | released
deriving DecidableEq

/-- A wake-up is on its way to the request. -/
def Phase.woken : Phase → Bool
  | .notified => true
  | .timedOut after => after
  | _ => false

/-- A `Shedder`, its requests, and all refusals with the number of requests in flight. -/
structure Shedder (ι : Type) where
  inflight : ℤ
  /-- `gradient.current()` -/
  gradient : ℤ
  /-- The waiters of the condition that have not been notified, the first one first. -/
  queue : List ι
  /-- The requests to which a wake-up is on its way. -/
  woken : List ι
  /-- The requests admitted and not released. -/
  running : List ι
  phase : ι → Phase
  refusals : List (ι × ℤ)

/-- What the requests do between two awaits. -/
inductive Action (ι : Type)
  /-- `acquire`, up to its wait; `late` says that no time is left for one. -/
  | acquire (i : ι) (late : Bool)
  /-- A notified request runs. -/
  | wake (i : ι) (late : Bool)
  /-- The timer of a request fires. -/
  | expire (i : ι)
  /-- A request runs whose wait has timed out. -/
  | giveUp (i : ι)
  | release (i : ι)
  /-- The limiter of mode `adaptive` changes its mind. -/
  | observe (gradient : ℤ)

variable {ι : Type} [DecidableEq ι]

namespace Shedder

/-- A shedder without requests. -/
def init (gradient : ℤ) : Shedder ι := ⟨0, gradient, [], [], [], fun _ => .idle, []⟩

/-- The request `i` goes on to `p`. -/
def enter (s : Shedder ι) (i : ι) (p : Phase) : Shedder ι :=
  { s with phase := Function.update s.phase i p }

/-- `self._cond.notify()` -/
def notify (s : Shedder ι) : Shedder ι :=
  match s.queue with
  | [] => s
  | i :: q =>
    { s with
      queue := q
      woken := s.woken ++ [i] }.enter i .notified

/-- `self.inflight += 1`, and the request is admitted. -/
def letIn (s : Shedder ι) (i : ι) : Shedder ι :=
  { s with
    inflight := s.inflight + 1
    running := s.running ++ [i] }.enter i .admitted

/-- The request is shed. -/
def shed (s : Shedder ι) (i : ι) : Shedder ι :=
  { s with refusals := s.refusals ++ [(i, s.inflight)] }.enter i .refused

/-- The request waits. -/
def sleep (s : Shedder ι) (i : ι) : Shedder ι :=
  { s with queue := s.queue ++ [i] }.enter i .waiting

/-- One turn of the loop of `acquire`, with the allowance it has found. -/
def turn (s : Shedder ι) (i : ι) (late : Bool) : Option ℤ → Shedder ι
  | none => s.letIn i
  | some a => if a ≤ s.inflight then if late then s.shed i else s.sleep i else s.letIn i

/-- `release` -/
def release (s : Shedder ι) (i : ι) : Shedder ι :=
  ({ s with
    inflight := max 0 (s.inflight - 1)
    running := s.running.erase i }.enter i .released).notify

end Shedder

/-- One step: each request calls `acquire` once, and `release` once if admitted. -/
def step (mode : Mode) (limit : ℤ) (tier : ι → ℤ) (s : Shedder ι) :
    Action ι → Option (Shedder ι)
  | .acquire i late =>
    match s.phase i with
    | .idle => some (s.turn i late (allowance mode limit s.gradient (tier i)))
    | _ => none
  | .wake i late =>
    match s.phase i with
    | .notified =>
      some ({ s with woken := s.woken.erase i }.turn i late
        (allowance mode limit s.gradient (tier i)))
    | _ => none
  | .expire i =>
    match s.phase i with
    | .waiting => some ({ s with queue := s.queue.erase i }.enter i (.timedOut false))
    | .notified => some (s.enter i (.timedOut true))
    | _ => none
  | .giveUp i =>
    match s.phase i with
    | .timedOut _ => some ({ s with woken := s.woken.erase i }.shed i).notify
    | _ => none
  | .release i =>
    match s.phase i with
    | .admitted => some (s.release i)
    | _ => none
  | .observe gradient => some { s with gradient := gradient }

/-! ### Wake-ups -/

/-- The allowance of a tier in the modes `static` and `priority`, which does not change. -/
def ceiling (mode : Mode) (limit tier : ℤ) : ℤ := (allowance mode limit 0 tier).getD 0

theorem allowance_eq {mode : Mode} (hmode : mode = .static ∨ mode = .priority)
    (limit gradient tier : ℤ) :
    allowance mode limit gradient tier = some (ceiling mode limit tier) := by
  rcases hmode with rfl | rfl
  · rfl
  · rfl

variable (mode : Mode) (limit : ℤ) (tier : ι → ℤ)

omit [DecidableEq ι] in
/-- Nobody whose wait goes on, or has timed out without a wake-up, would find room with `n`
requests in flight. -/
def Spared (s : Shedder ι) (n : ℤ) : Prop :=
  ∀ w, s.phase w = .waiting ∨ s.phase w = .timedOut false → ceiling mode limit (tier w) ≤ n

/-- A step that loses no wake-up.  A woken request that finds no room leaves nobody asleep
who would find it next to those woken besides.  A wake-up for which nobody is in the
queue leaves nobody like that behind either, of those whose wait has timed out.  And
nobody times out with room for it while a wake-up is on its way. -/
def KeepsWakeUp (s : Shedder ι) : Action ι → Prop
  | .wake i _ => s.phase i = .notified → ceiling mode limit (tier i) ≤ s.inflight →
      Spared mode limit tier s (s.inflight + s.woken.length - 1)
  | .release i => s.phase i = .admitted → s.queue = [] →
      Spared mode limit tier s (max 0 (s.inflight - 1) + s.woken.length)
  | .giveUp i =>
      (s.woken ≠ [] → ceiling mode limit (tier i) ≤ s.inflight) ∧
      (s.phase i = .timedOut true → s.queue = [] →
        Spared mode limit tier s (s.inflight + s.woken.length - 1))
  | _ => True

omit [DecidableEq ι] in
/-- Whoever has room has a wake-up on its way, and nobody has been shed with room. -/
structure Inv (s : Shedder ι) : Prop where
  queue : Listed s.queue s.phase .waiting
  woken : Listed s.woken (fun i => (s.phase i).woken) true
  spared : Spared mode limit tier s (s.inflight + s.woken.length)
  refusals : ∀ i n, (i, n) ∈ s.refusals → ceiling mode limit (tier i) ≤ n

variable {mode limit tier} {s s' : Shedder ι} {i : ι}

omit [DecidableEq ι] in
theorem Inv.init (gradient : ℤ) : Inv mode limit tier (.init gradient) where
  queue := .nil fun i => by simp [Shedder.init]
  woken := .nil fun i => by simp [Shedder.init, Phase.woken]
  spared w hw := by simp [Shedder.init] at hw
  refusals i n h := by cases h

theorem woken_update (phase : ι → Phase) (i : ι) (p : Phase) :
    (fun j => (Function.update phase i p j).woken) =
      Function.update (fun j => (phase j).woken) i p.woken := by
  funext j
  by_cases hj : j = i
  · subst hj
    simp
  · simp [Function.update_of_ne hj]

/-- What is spared stays so while one request goes on, and more are in flight. -/
theorem Spared.update {n n' : ℤ} {p : Phase} (h : Spared mode limit tier s n)
    (hphase : s'.phase = Function.update s.phase i p) (hn : n ≤ n')
    (hp : p = .waiting ∨ p = .timedOut false → ceiling mode limit (tier i) ≤ n') :
    Spared mode limit tier s' n' := by
  intro w hw
  rw [hphase] at hw
  by_cases hwi : w = i
  · subst hwi
    rw [Function.update_self] at hw
    exact hp hw
  · rw [Function.update_of_ne hwi] at hw
    exact (h w hw).trans hn

/-- **A wake-up goes to the first waiter**, or is for nobody. -/
theorem Inv.notify (hqueue : Listed s.queue s.phase .waiting)
    (hwoken : Listed s.woken (fun i => (s.phase i).woken) true)
    (hempty : s.queue = [] → Spared mode limit tier s (s.inflight + s.woken.length))
    (hspared : Spared mode limit tier s (s.inflight + s.woken.length + 1))
    (hrefusals : ∀ i n, (i, n) ∈ s.refusals → ceiling mode limit (tier i) ≤ n) :
    Inv mode limit tier s.notify := by
  unfold Shedder.notify
  split
  · next hq => exact ⟨hqueue, hwoken, hempty hq, hrefusals⟩
  · next i q hq =>
    -- one wake-up more is on its way, which makes up for the slot that is free
    have hphase : s.phase i = .waiting := by
      rw [← hqueue.mem, hq]
      exact List.mem_cons_self
    refine ⟨?_, ?_, ?_, hrefusals⟩
    · have hleave := hqueue.leave (i := i) (p := .notified) (by simp)
      rw [hq, List.erase_cons_head] at hleave
      exact hleave
    · show Listed (s.woken ++ [i]) (fun j => (Function.update s.phase i .notified j).woken) true
      rw [woken_update]
      apply hwoken.enter
      simp [hphase, Phase.woken]
    · apply hspared.update rfl _ (by simp)
      show _ ≤ s.inflight + ((s.woken ++ [i]).length : ℤ)
      rw [List.length_append, List.length_singleton]
      push_cast
      omega

/-- **A turn of the loop of `acquire`**: with room the request is admitted, and otherwise it
leaves the others to the wake-ups `xs` besides its own. -/
theorem Inv.turn (h : Inv mode limit tier s) {xs : List ι} (late : Bool)
    (hxs : Listed xs (Function.update (fun j => (s.phase j).woken) i false) true)
    (hphase : s.phase i ≠ .waiting)
    (hfull : ceiling mode limit (tier i) ≤ s.inflight →
      Spared mode limit tier s (s.inflight + xs.length))
    (hroom : Spared mode limit tier s (s.inflight + 1 + xs.length)) :
    Inv mode limit tier
      ({ s with woken := xs }.turn i late (some (ceiling mode limit (tier i)))) := by
  have hwoken : ∀ p : Phase, p.woken = false →
      Listed xs (fun j => (Function.update s.phase i p j).woken) true := by
    intro p hp
    rw [woken_update, hp]
    exact hxs
  unfold Shedder.turn
  simp only
  split
  · next hle =>
    have hfull' := hfull hle
    split
    · refine ⟨h.queue.other hphase (by simp), hwoken _ rfl, hfull'.update rfl le_rfl (by simp), ?_⟩
      intro j n hj
      rcases List.mem_append.mp hj with hj | hj
      · exact h.refusals j n hj
      · obtain ⟨rfl, rfl⟩ := Prod.mk.inj (List.mem_singleton.mp hj)
        exact hle
    · refine ⟨h.queue.enter hphase, hwoken _ rfl, hfull'.update rfl le_rfl ?_, h.refusals⟩
      intro _
      show _ ≤ s.inflight + (xs.length : ℤ)
      omega
  · exact ⟨h.queue.other hphase (by simp), hwoken _ rfl, hroom.update rfl le_rfl (by simp),
      h.refusals⟩

/-- The timer of a request fires. -/
theorem Inv.expire_waiting (h : Inv mode limit tier s) (hphase : s.phase i = .waiting) :
    Inv mode limit tier ({ s with queue := s.queue.erase i }.enter i (.timedOut false)) := by
  refine ⟨h.queue.leave (by simp), ?_, h.spared.update rfl le_rfl ?_, h.refusals⟩
  · show Listed s.woken (fun j => (Function.update s.phase i (.timedOut false) j).woken) true
    rw [woken_update]
    apply h.woken.other
    · simp [hphase, Phase.woken]
    · simp [Phase.woken]
  · exact fun _ => h.spared i (Or.inl hphase)

/-- The timer of a notified request fires before it has run: it keeps its wake-up until then. -/
theorem Inv.expire_notified (h : Inv mode limit tier s) (hphase : s.phase i = .notified) :
    Inv mode limit tier (s.enter i (.timedOut true)) := by
  refine ⟨h.queue.other (by simp [hphase]) (by simp), ?_, h.spared.update rfl le_rfl (by simp),
    h.refusals⟩
  show Listed s.woken (fun j => (Function.update s.phase i (.timedOut true) j).woken) true
  have hsame : (fun j => (Function.update s.phase i (.timedOut true) j).woken) =
      fun j => (s.phase j).woken := by
    rw [woken_update]
    apply Function.update_eq_self_iff.mpr
    simp [hphase, Phase.woken]
  rw [hsame]
  exact h.woken

/-- A request whose wait has timed out is shed, and passes a wake-up on. -/
theorem Inv.giveUp (h : Inv mode limit tier s) {after : Bool}
    (hphase : s.phase i = .timedOut after) (ha : KeepsWakeUp mode limit tier s (.giveUp i)) :
    Inv mode limit tier ({ s with woken := s.woken.erase i }.shed i).notify := by
  obtain ⟨hshed, hlast⟩ := ha
  have hwoken : Listed (s.woken.erase i)
      (fun j => (Function.update s.phase i .refused j).woken) true := by
    rw [woken_update]
    exact h.woken.leave (by simp [Phase.woken])
  -- the request takes away its own wake-up, if it has one
  have hown : after = false → s.woken.erase i = s.woken := by
    rintro rfl
    apply List.erase_of_not_mem
    rw [h.woken.mem]
    simp [hphase, Phase.woken]
  have htaken : after = true → s.woken.length = (s.woken.erase i).length + 1 := by
    rintro rfl
    apply h.woken.length_erase
    simp [hphase, Phase.woken]
  have hfull : ceiling mode limit (tier i) ≤ s.inflight := by
    -- with no wake-up on its way, there is no room for anybody who waits
    by_cases hne : s.woken = []
    · have hafter : after = false := by
        cases after with
        | false => rfl
        | true => simp [hne] at htaken
      subst hafter
      have hle := h.spared i (Or.inr hphase)
      simpa [hne] using hle
    · exact hshed hne
  have hrest : ∀ n, Spared mode limit tier s n →
      Spared mode limit tier ({ s with woken := s.woken.erase i }.shed i) n := by
    intro n hn
    exact hn.update (p := .refused) rfl le_rfl (by simp)
  apply Inv.notify (h.queue.other (by simp [hphase]) (by simp)) hwoken
  · intro hq
    apply hrest
    cases after with
    | false =>
      show Spared mode limit tier s (s.inflight + ((s.woken.erase i).length : ℤ))
      rw [hown rfl]
      exact h.spared
    | true =>
      have hspared := hlast hphase hq
      rw [htaken rfl] at hspared
      push_cast at hspared
      rw [← add_assoc, add_sub_cancel_right] at hspared
      exact hspared
  · apply hrest
    have hle : (s.woken.length : ℤ) ≤ (s.woken.erase i).length + 1 := by
      cases after with
      | false =>
        rw [hown rfl]
        omega
      | true =>
        rw [htaken rfl]
        push_cast
        omega
    intro w hw
    apply (h.spared w hw).trans
    show _ ≤ s.inflight + ((s.woken.erase i).length : ℤ) + 1
    omega
  · intro j n hj
    rcases List.mem_append.mp hj with hj | hj
    · exact h.refusals j n hj
    · obtain ⟨rfl, rfl⟩ := Prod.mk.inj (List.mem_singleton.mp hj)
      exact hfull

/-- A slot that becomes free wakes a waiter. -/
theorem Inv.release (h : Inv mode limit tier s) (hphase : s.phase i = .admitted)
    (ha : KeepsWakeUp mode limit tier s (.release i)) : Inv mode limit tier (s.release i) := by
  have hrest : ∀ n n', Spared mode limit tier s n → n ≤ n' →
      Spared mode limit tier ({ s with
        inflight := max 0 (s.inflight - 1)
        running := s.running.erase i }.enter i .released) n' := by
    intro n n' hn hle
    exact hn.update (p := .released) rfl hle (by simp)
  apply Inv.notify
  · exact h.queue.other (by simp [hphase]) (by simp)
  · show Listed s.woken (fun j => (Function.update s.phase i .released j).woken) true
    rw [woken_update]
    apply h.woken.other
    · simp [hphase, Phase.woken]
    · simp [Phase.woken]
  · intro hq
    exact hrest _ _ (ha hphase hq) le_rfl
  · apply hrest _ _ h.spared
    show s.inflight + (s.woken.length : ℤ) ≤ max 0 (s.inflight - 1) + (s.woken.length : ℤ) + 1
    omega
  · exact h.refusals

/-- **While no wake-up is lost, there is one on its way for whoever has room.** -/
theorem Inv.step (hmode : mode = .static ∨ mode = .priority) (s : Shedder ι) (a : Action ι)
    (s' : Shedder ι) (h : Inv mode limit tier s) (ha : KeepsWakeUp mode limit tier s a)
    (hs : step mode limit tier s a = some s') : Inv mode limit tier s' := by
  cases a with
  | acquire i late =>
    simp only [Lab.step] at hs
    split at hs
    · next hphase =>
      obtain rfl := Option.some_inj.mp hs
      rw [allowance_eq hmode]
      show Inv mode limit tier ({ s with woken := s.woken }.turn i late _)
      apply h.turn late
      · apply h.woken.other
        · simp [hphase, Phase.woken]
        · simp
      · simp [hphase]
      · exact fun _ => h.spared
      · intro w hw
        have hle := h.spared w hw
        omega
    · cases hs
  | wake i late =>
    simp only [Lab.step] at hs
    split at hs
    · next hphase =>
      obtain rfl := Option.some_inj.mp hs
      rw [allowance_eq hmode]
      have hlength : s.woken.length = (s.woken.erase i).length + 1 := by
        apply h.woken.length_erase
        simp [hphase, Phase.woken]
      apply h.turn late
      · exact h.woken.leave (by simp)
      · simp [hphase]
      · intro hle w hw
        have hspared := ha hphase hle w hw
        omega
      · intro w hw
        have hspared := h.spared w hw
        omega
    · cases hs
  | expire i =>
    simp only [Lab.step] at hs
    split at hs
    · next hphase =>
      obtain rfl := Option.some_inj.mp hs
      exact h.expire_waiting hphase
    · next hphase =>
      obtain rfl := Option.some_inj.mp hs
      exact h.expire_notified hphase
    · cases hs
  | giveUp i =>
    simp only [Lab.step] at hs
    split at hs
    · next after hphase =>
      obtain rfl := Option.some_inj.mp hs
      exact h.giveUp hphase ha
    · cases hs
  | release i =>
    simp only [Lab.step] at hs
    split at hs
    · next hphase =>
      obtain rfl := Option.some_inj.mp hs
      exact h.release hphase ha
    · cases hs
  | observe gradient =>
    obtain rfl := Option.some_inj.mp hs
    exact ⟨h.queue, h.woken, h.spared, h.refusals⟩

omit [DecidableEq ι] in
/-- Everybody shed so far has been shed with the allowance reached. -/
def ShedFull (mode : Mode) (limit : ℤ) (tier : ι → ℤ) (s : Shedder ι) : Prop :=
  ∀ i n, (i, n) ∈ s.refusals → ∀ a, allowance mode limit s.gradient (tier i) = some a → a ≤ n

/-- **In a run whose steps lose no wake-up nobody is shed who has room.** -/
theorem shed_without_room (hmode : mode = .static ∨ mode = .priority) (gradient : ℤ)
    (as : List (Action ι))
    (hok : ∀ bs a s, bs ++ [a] <+: as → exec (step mode limit tier) (.init gradient) bs = some s →
      KeepsWakeUp mode limit tier s a) :
    ∀ bs s, bs <+: as → exec (step mode limit tier) (.init gradient) bs = some s →
      ShedFull mode limit tier s := by
  intro bs s hpre hs i n hi a ha
  have hinv := exec_forall (Inv.init gradient) (Inv.step hmode) as hok bs s hpre hs
  rw [allowance_eq hmode] at ha
  obtain rfl := Option.some_inj.mp ha
  exact hinv.refusals i n hi

/-- With one request in flight a second one waits for a slot, and is shed. -/
theorem shed_without_room_waiting :
    ∃ s : Shedder ℕ, exec (step .static 1 fun _ => 0) (.init 10)
        [.acquire 0 false, .acquire 1 false, .expire 1, .giveUp 1] = some s ∧
      s.refusals = [(1, 1)] ∧ ShedFull .static 1 (fun _ => 0) s := by
  have hrun : ((exec (step .static 1 fun _ => 0) (.init 10)
      [.acquire 0 false, .acquire 1 false, .expire 1, .giveUp 1]).map
        fun s : Shedder ℕ => s.refusals) = some [(1, 1)] := by decide +kernel
  obtain ⟨s, hs, hrefusals⟩ := Option.map_eq_some_iff.mp hrun
  refine ⟨s, hs, hrefusals, ?_⟩
  refine shed_without_room (Or.inl rfl) 10 _ (allSteps_iff.mp ?_) _ s List.prefix_rfl hs
  refine ⟨trivial, fun s₁ h₁ => ⟨trivial, fun s₂ h₂ => ⟨trivial, fun s₃ h₃ => ⟨?_, ?_⟩⟩⟩⟩
  rotate_left
  · exact fun _ _ => trivial
  obtain rfl := Option.some_inj.mp h₁
  obtain rfl := Option.some_inj.mp h₂
  obtain rfl := Option.some_inj.mp h₃
  constructor
  · intro hne
    exact absurd rfl hne
  · intro hafter
    cases hafter

/-- **A wake-up is lost**: of five requests in mode `priority`, with a limit of four, the
first one releases its slot to a waiter of tier 3, who goes on waiting; one of tier 0 is
shed with three in flight.  In mode `static`, with a limit of one, a waiter is notified and
times out before it runs, and is shed with nobody in flight. -/
theorem shed_with_room :
    (¬ ∀ s : Shedder ℕ, Reach (step .priority 4 fun i => if i = 4 then 3 else 0) (.init 10) s →
      ShedFull .priority 4 (fun i => if i = 4 then 3 else 0) s) ∧
    ¬ ∀ s : Shedder ℕ, Reach (step .static 1 fun _ => 0) (.init 10) s →
      ShedFull .static 1 (fun _ => 0) s := by
  constructor
  · intro h
    have hrun : ((exec (step .priority 4 fun i => if i = 4 then 3 else 0) (.init 10)
        [.acquire 0 false, .acquire 1 false, .acquire 2 false, .acquire 3 false,
          .acquire 4 false, .acquire 5 false, .release 0, .wake 4 false, .expire 5,
          .giveUp 5]).map fun s : Shedder ℕ => s.refusals) = some [(5, 3)] := by decide +kernel
    obtain ⟨s, hs, hrefusals⟩ := Option.map_eq_some_iff.mp hrun
    have hallowance : allowance .priority 4 s.gradient 0 = some 4 := by
      show allowance .priority 4 0 0 = some 4
      decide +kernel
    have hle := h s (.of_exec _ hs) 5 3 (by simp [hrefusals]) 4 hallowance
    omega
  · intro h
    have hrun : ((exec (step .static 1 fun _ => 0) (.init 10)
        [.acquire 0 false, .acquire 1 false, .release 0, .expire 1, .giveUp 1]).map
          fun s : Shedder ℕ => s.refusals) = some [(1, 0)] := by decide +kernel
    obtain ⟨s, hs, hrefusals⟩ := Option.map_eq_some_iff.mp hrun
    have hle := h s (.of_exec _ hs) 1 0 (by simp [hrefusals]) 1 rfl
    omega

end Lab
end Shedding
end SepLab
