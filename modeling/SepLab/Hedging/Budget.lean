import Mathlib.Algebra.Order.BigOperators.Group.Finset
import Mathlib.Algebra.Order.Ring.Unbundled.Rat
import Mathlib.Tactic.Linarith
import SepLab.Lib.Potential

/-!
# Hedged requests within a budget

The gateway of the tail-latency topic, whose legs send a second call to a backend when the
first one is slow, if a token bucket has a token for it.  A leg drops the call that loses,
with what it has not begun, or leaves it to a task that it has spawned.  Tokens are rational
numbers, and a leg outlives the hedge delay at any time.

## Main definitions

* `Shared.onPrimary`, `Shared.take` — `TokenBucket`, with the counters of the gateway.
* `Leg`, `Leg.step` — `Gateway.leg` and `leg_leaky`, with the calls they have made.
* `step` — any number of legs, one step of one of them at a time.
* `Balanced` — what a step of a leg has to do with the counters.

## Main results

* `Leg.balanced_step` — every step of a leg is counted.
* `hedges_le` — the hedges of any part of a run, against its primary calls.
* `within_budget` — **hedging stays within its budget**, and so do the calls it makes.
-/

namespace SepLab
namespace Hedging

/-- `HedgeMode`: what becomes of the call that loses. -/
inductive HedgeMode
  | off
  /-- `select!` drops the loser. -/
  | dropLoser
  /-- The loser is a task of its own, and runs to its end. -/
  | leakLoser
deriving DecidableEq

/-- What the legs of a gateway are started with; `hedgeDelay` says whether there is one. -/
structure Config where
  ratio : ℚ
  capacity : ℚ
  hedgeDelay : Bool
  mode : HedgeMode

/-- The tokens, the counters of the gateway, and `started` of all its backends together. -/
structure Shared where
  tokens : ℚ
  legsHedged : ℕ
  budgetDenied : ℕ
  started : ℕ

/-- `TokenBucket::on_primary` -/
def Shared.onPrimary (c : Config) (s : Shared) : Shared :=
  { s with tokens := min (s.tokens + c.ratio) c.capacity }

/-- `TokenBucket::take` -/
def Shared.take (s : Shared) : Bool × Shared :=
  if 1 ≤ s.tokens then (true, { s with tokens := s.tokens - 1 }) else (false, s)

/-! ### The legs -/

/-- How far a call of a backend has come. -/
inductive Call
  | absent
  /-- Its future has been made, or its task spawned, and has not been polled. -/
  | created
  | running
  | finished
  /-- Its future has been dropped, after it had been polled or before. -/
  | dropped (polled : Bool)
deriving DecidableEq

/-- How a leg has come to its end. -/
inductive Path
  /-- Without a hedge delay. -/
  | plain
  /-- The first call has been faster than the delay. -/
  | first
  | denied
  | hedged
deriving DecidableEq

/-- Where a leg stands. -/
inductive Phase
  | outside
  /-- It waits for its only call. -/
  | plain
  /-- It waits for its first call or the end of the delay. -/
  | racing
  /-- The delay is over. -/
  | late
  /-- `take` has returned this, and nothing is counted yet. -/
  | taken (granted : Bool)
  /-- It has no token, and waits for its first call. -/
  | waiting
  /-- It waits for one of two calls. -/
  | hedging
  | done (path : Path)
deriving DecidableEq

/-- A leg with its two calls. -/
structure Leg where
  phase : Phase
  first : Call
  second : Call
deriving DecidableEq

/-- Which of the two calls. -/
inductive Which
  | first
  | second
deriving DecidableEq

/-- The calls that a leg polls itself where it stands. -/
def Phase.awaits : Phase → Which → Bool
  | .plain, .first => true
  | .racing, .first => true
  | .waiting, .first => true
  | .hedging, _ => true
  | _, _ => false

/-- What the end of a call that a leg waits for makes of it. -/
def Phase.path : Phase → Path
  | .racing => .first
  | .waiting => .denied
  | .hedging => .hedged
  | _ => .plain

/-- A call at the end of the scope of its future. -/
def Call.drop : Call → Call
  | .created => .dropped false
  | .running => .dropped true
  | c => c

namespace Leg

/-- The call that is meant. -/
def call (l : Leg) : Which → Call
  | .first => l.first
  | .second => l.second

/-- The leg after a call has come further. -/
def setCall (l : Leg) (k : Which) (c : Call) : Leg :=
  match k with
  | .first => { l with first := c }
  | .second => { l with second := c }

/-- The calls are tasks of their own, which the runtime polls at any time. -/
def spawned (c : Config) : Bool := c.hedgeDelay && decide (c.mode = .leakLoser)

end Leg

/-- What a leg, or the runtime for one of its tasks, does next. -/
inductive Action
  | begin
  /-- The first poll of a call, which counts it. -/
  | poll (k : Which)
  /-- A call comes to its end. -/
  | finish (k : Which)
  /-- A leg sees that one of its tasks has ended. -/
  | join (k : Which)
  /-- The hedge delay is over before the first call. -/
  | outlive
  | take
  /-- The decision is counted, and acted upon. -/
  | count
deriving DecidableEq

/-- One step of a leg. -/
def Leg.step (c : Config) (s : Shared) (l : Leg) : Action → Option (Shared × Leg)
  | .begin =>
    if l.phase = .outside then
      if c.hedgeDelay then some (s.onPrimary c, { l with phase := .racing, first := .created })
      else some (s, { l with phase := .plain, first := .created })
    else none
  | .poll k =>
    if l.call k = .created ∧ (Leg.spawned c = true ∨ l.phase.awaits k = true) then
      some ({ s with started := s.started + 1 }, l.setCall k .running)
    else none
  | .finish k =>
    if l.call k = .running then
      if Leg.spawned c then some (s, l.setCall k .finished)
      else if l.phase.awaits k then
        let l' := l.setCall k .finished
        some (s, ⟨.done l.phase.path, l'.first.drop, l'.second.drop⟩)
      else none
    else none
  | .join k =>
    if Leg.spawned c = true ∧ l.call k = .finished ∧ l.phase.awaits k = true then
      some (s, { l with phase := .done l.phase.path })
    else none
  | .outlive => if l.phase = .racing then some (s, { l with phase := .late }) else none
  | .take =>
    if l.phase = .late then some (s.take.2, { l with phase := .taken s.take.1 }) else none
  | .count =>
    match l.phase with
    | .taken true =>
      some ({ s with legsHedged := s.legsHedged + 1 },
        { l with phase := .hedging, second := .created })
    | .taken false =>
      some ({ s with budgetDenied := s.budgetDenied + 1 }, { l with phase := .waiting })
    | _ => none

/-- All legs, and what they share. -/
structure State (ι : Type) where
  shared : Shared
  legs : ι → Leg

variable {ι : Type} [DecidableEq ι]

/-- No leg has begun, and the bucket is full. -/
def init (ι : Type) (c : Config) : State ι :=
  ⟨⟨c.capacity, 0, 0, 0⟩, fun _ => ⟨.outside, .absent, .absent⟩⟩

/-- One step of one leg. -/
def step (c : Config) (s : State ι) : ι × Action → Option (State ι)
  | (i, a) =>
    match (s.legs i).step c s.shared a with
    | none => none
    | some (shared, l) => some ⟨shared, Function.update s.legs i l⟩

/-! ### What is counted -/

/-- What a leg counts as, zero or one each. -/
structure Counts where
  begun : ℕ
  /-- It has called `on_primary`. -/
  primary : ℕ
  /-- `take` has granted it a hedge. -/
  granted : ℕ
  /-- `take` has answered. -/
  decided : ℕ
  /-- The answer is not counted yet. -/
  uncounted : ℕ
  /-- It has made its second call. -/
  hedged : ℕ

/-- What a leg in this phase counts as. -/
def Phase.counts : Phase → Counts
  | .outside => ⟨0, 0, 0, 0, 0, 0⟩
  | .plain => ⟨1, 0, 0, 0, 0, 0⟩
  | .racing => ⟨1, 1, 0, 0, 0, 0⟩
  | .late => ⟨1, 1, 0, 0, 0, 0⟩
  | .taken true => ⟨1, 1, 1, 1, 1, 0⟩
  | .taken false => ⟨1, 1, 0, 1, 1, 0⟩
  | .waiting => ⟨1, 1, 0, 1, 0, 0⟩
  | .hedging => ⟨1, 1, 1, 1, 0, 1⟩
  | .done .plain => ⟨1, 0, 0, 0, 0, 0⟩
  | .done .first => ⟨1, 1, 0, 0, 0, 0⟩
  | .done .denied => ⟨1, 1, 0, 1, 0, 0⟩
  | .done .hedged => ⟨1, 1, 1, 1, 0, 1⟩

/-- The call has been made. -/
def Call.made : Call → ℕ
  | .absent => 0
  | _ => 1

/-- The call has been polled. -/
def Call.polled : Call → ℕ
  | .absent => 0
  | .created => 0
  | .running => 1
  | .finished => 1
  | .dropped polled => polled.toNat

/-- How many of a leg's calls have been polled. -/
def Leg.polled (l : Leg) : ℕ := l.first.polled + l.second.polled

/-- The legs of a state that count as `f` says. -/
def State.count [Fintype ι] (s : State ι) (f : Counts → ℕ) : ℕ := ∑ i, f (s.legs i).phase.counts

/-- A leg that has come to its end counts as before. -/
theorem Phase.counts_done {p : Phase} {k : Which} (h : p.awaits k = true) :
    (Phase.done p.path).counts = p.counts := by
  cases p with
  | plain => rfl
  | racing => rfl
  | waiting => rfl
  | hedging => rfl
  | outside => cases h
  | late => cases h
  | taken granted => cases h
  | done path => cases h

namespace Call

theorem polled_le_made (c : Call) : c.polled ≤ c.made := by
  cases c with
  | dropped polled => exact Bool.toNat_le polled
  | _ => decide

@[simp] theorem polled_drop (c : Call) : c.drop.polled = c.polled := by
  cases c <;> rfl

@[simp] theorem made_drop (c : Call) : c.drop.made = c.made := by
  cases c <;> rfl

theorem drop_of_made {c : Call} (h : c.made = 0) : c.drop = c := by
  cases c with
  | absent => rfl
  | _ => cases h

/-- A call that has been made and is not lost has been polled or will be. -/
theorem polled_eq_made {c : Call} (hcreated : c ≠ .created) (hdropped : ∀ p, c ≠ .dropped p) :
    c.polled = c.made := by
  cases c with
  | created => exact absurd rfl hcreated
  | dropped polled => exact absurd rfl (hdropped polled)
  | _ => rfl

end Call

/-- No call of the leg has been dropped. -/
def Leg.Whole (l : Leg) : Prop := ∀ k p, l.call k ≠ .dropped p

/-- A leg has made the calls that it should have, and loses none that it has spawned; without a
hedge delay it has a single call, and keeps it. -/
structure Leg.Ok (c : Config) (l : Leg) : Prop where
  first : l.first.made = l.phase.counts.begun
  second : l.second.made = l.phase.counts.hedged
  spawned : Leg.spawned c = true → l.Whole
  plain : c.hedgeDelay = false → l.Whole ∧
    (l.phase = .outside ∨ l.phase = .plain ∨ l.phase = .done .plain)

/-- The counters have taken part in what a leg has done. -/
structure Balanced (c : Config) (s : Shared) (l : Leg) (s' : Shared) (l' : Leg) : Prop where
  ok : l'.Ok c
  nonneg : 0 ≤ s'.tokens
  le_capacity : s'.tokens ≤ c.capacity
  /-- A hedge is paid with a token, and a primary call brings a part of one. -/
  tokens : s'.tokens + l'.phase.counts.granted + c.ratio * l.phase.counts.primary ≤
    s.tokens + l.phase.counts.granted + c.ratio * l'.phase.counts.primary
  decided : s'.legsHedged + s'.budgetDenied + l'.phase.counts.uncounted + l.phase.counts.decided =
    s.legsHedged + s.budgetDenied + l.phase.counts.uncounted + l'.phase.counts.decided
  hedged : s'.legsHedged + l.phase.counts.hedged = s.legsHedged + l'.phase.counts.hedged
  started : s'.started + l.polled = s.started + l'.polled

section
variable {c : Config} {s s' : Shared} {l l' : Leg}

/-- A step after which a leg counts as before, and the backends know of what has changed. -/
theorem Balanced.of_counts (hnonneg : 0 ≤ s.tokens) (hle : s.tokens ≤ c.capacity)
    (hok : l'.Ok c) (hcounts : l'.phase.counts = l.phase.counts) {n : ℕ}
    (hstarted : n + l.polled = s.started + l'.polled) :
    Balanced c s l { s with started := n } l' where
  ok := hok
  nonneg := hnonneg
  le_capacity := hle
  tokens := by rw [hcounts]
  decided := by rw [hcounts]
  hedged := by rw [hcounts]
  started := hstarted

theorem Leg.setCall_phase (l : Leg) (k : Which) (call : Call) :
    (l.setCall k call).phase = l.phase := by
  cases k <;> rfl

theorem Leg.Whole.setCall (h : l.Whole) {k : Which} {call : Call}
    (hcall : ∀ p, call ≠ .dropped p) : (l.setCall k call).Whole := by
  intro k' p
  have hold := h k' p
  cases k with
  | first =>
    cases k' with
    | first => exact hcall p
    | second => exact hold
  | second =>
    cases k' with
    | first => exact hold
    | second => exact hcall p

/-- Another state of a call that has been made. -/
theorem Leg.Ok.setCall (h : l.Ok c) {k : Which} {call : Call} (hmade : call.made = (l.call k).made)
    (hcall : ∀ p, call ≠ .dropped p) : (l.setCall k call).Ok c where
  first := by
    rw [l.setCall_phase, ← h.first]
    cases k with
    | first => exact hmade
    | second => rfl
  second := by
    rw [l.setCall_phase, ← h.second]
    cases k with
    | first => rfl
    | second => exact hmade
  spawned hspawned := (h.spawned hspawned).setCall hcall
  plain hdelay := by
    rw [l.setCall_phase]
    exact ⟨(h.plain hdelay).1.setCall hcall, (h.plain hdelay).2⟩

theorem Leg.polled_setCall (l : Leg) (k : Which) (call : Call) :
    (l.setCall k call).polled + (l.call k).polled = l.polled + call.polled := by
  cases k with
  | first =>
    show call.polled + l.second.polled + l.first.polled = l.first.polled + l.second.polled + _
    omega
  | second =>
    show l.first.polled + call.polled + l.second.polled = l.first.polled + l.second.polled + _
    omega

/-- A leg that has called `on_primary` has a hedge delay. -/
theorem Leg.Ok.delayed (h : l.Ok c) (hprimary : l.phase.counts.primary = 1) :
    c.hedgeDelay = true := by
  cases hdelay : c.hedgeDelay with
  | true => rfl
  | false =>
    rcases (h.plain hdelay).2 with hphase | hphase | hphase <;>
      · rw [hphase] at hprimary
        cases hprimary

/-- A leg with a hedge delay whose phase alone has changed. -/
theorem Leg.Ok.phase_of (h : l.Ok c) (htrue : c.hedgeDelay = true) {p : Phase}
    (hbegun : p.counts.begun = l.phase.counts.begun)
    (hhedged : p.counts.hedged = l.phase.counts.hedged) : Leg.Ok c { l with phase := p } where
  first := h.first.trans hbegun.symm
  second := h.second.trans hhedged.symm
  spawned := h.spawned
  plain hdelay := by
    rw [htrue] at hdelay
    cases hdelay

/-- The end of a leg that drops its calls, of which a leg without a hedge delay has one. -/
theorem Leg.Ok.drop (h : l.Ok c) {p : Phase} (hcounts : p.counts = l.phase.counts)
    (hspawned : Leg.spawned c = false)
    (hplain : c.hedgeDelay = false → p = .done .plain ∧ l.first.drop = l.first) :
    Leg.Ok c ⟨p, l.first.drop, l.second.drop⟩ where
  first := by rw [Call.made_drop, hcounts, h.first]
  second := by rw [Call.made_drop, hcounts, h.second]
  spawned htrue := by
    rw [hspawned] at htrue
    cases htrue
  plain hdelay := by
    obtain ⟨hdone, hfirst⟩ := hplain hdelay
    have hsecond : l.second.drop = l.second := by
      refine Call.drop_of_made ?_
      rw [h.second, ← hcounts, hdone]
      rfl
    rw [hfirst, hsecond]
    exact ⟨fun k => (h.plain hdelay).1 k, Or.inr (Or.inr hdone)⟩

/-! ### One action of a leg -/

/-- A leg that begins has a first call, which is new. -/
theorem Leg.Ok.begun (hok : l.Ok c) (hphase : l.phase = .outside) {p : Phase}
    (hfirst : p.counts.begun = 1) (hnohedge : p.counts.hedged = 0)
    (hplain : c.hedgeDelay = false → p = .plain) :
    Leg.Ok c { l with phase := p, first := .created } := by
  have hsecond : l.second.made = 0 := hok.second.trans (by rw [hphase]; rfl)
  have hwhole : l.Whole → Leg.Whole { l with phase := p, first := .created } := by
    intro hold
    have hnew : (l.setCall .first .created).Whole := hold.setCall nofun
    exact hnew
  exact ⟨hfirst.symm, hsecond.trans hnohedge.symm, fun hspawned => hwhole (hok.spawned hspawned),
    fun hdelay => ⟨hwhole (hok.plain hdelay).1, Or.inr (Or.inl (hplain hdelay))⟩⟩

theorem Leg.Ok.polled_begun (hok : l.Ok c) (hphase : l.phase = .outside) (p : Phase) :
    Leg.polled { l with phase := p, first := .created } = l.polled := by
  have hmade : l.first.made = 0 := hok.first.trans (by rw [hphase]; rfl)
  have hnone : l.first.polled = 0 := Nat.le_zero.mp (hmade ▸ l.first.polled_le_made)
  show 0 + l.second.polled = l.first.polled + l.second.polled
  rw [hnone]

theorem Leg.Ok.balanced_begin (hok : l.Ok c) (hratio : 0 ≤ c.ratio) (hcapacity : 0 ≤ c.capacity)
    (hnonneg : 0 ≤ s.tokens) (hle : s.tokens ≤ c.capacity)
    (h : l.step c s .begin = some (s', l')) : Balanced c s l s' l' := by
  simp only [Leg.step] at h
  split at h
  case isFalse => cases h
  next hphase =>
  split at h
  · next htrue =>
    -- with a hedge delay the first call brings a part of a token
    obtain ⟨rfl, rfl⟩ := Prod.mk.inj (Option.some_inj.mp h)
    have hnotplain : c.hedgeDelay = false → Phase.racing = .plain := fun hdelay => by
      rw [htrue] at hdelay
      cases hdelay
    refine ⟨hok.begun hphase rfl rfl hnotplain, le_min (add_nonneg hnonneg hratio) hcapacity,
      min_le_right _ _, ?_, ?_, ?_, ?_⟩
    · have hmin : (s.onPrimary c).tokens ≤ s.tokens + c.ratio := min_le_left _ _
      simpa [hphase, Phase.counts] using hmin
    · rw [hphase]
      rfl
    · rw [hphase]
      rfl
    · rw [hok.polled_begun hphase]
      rfl
  · obtain ⟨rfl, rfl⟩ := Prod.mk.inj (Option.some_inj.mp h)
    refine ⟨hok.begun hphase rfl rfl fun _ => rfl, hnonneg, hle, ?_, ?_, ?_, ?_⟩
    · simp [hphase, Phase.counts]
    · rw [hphase]
      rfl
    · rw [hphase]
      rfl
    · rw [hok.polled_begun hphase]

theorem Leg.Ok.balanced_poll (hok : l.Ok c) (hnonneg : 0 ≤ s.tokens)
    (hle : s.tokens ≤ c.capacity) {k : Which} (h : l.step c s (.poll k) = some (s', l')) :
    Balanced c s l s' l' := by
  simp only [Leg.step] at h
  split at h
  · next hcall =>
    obtain ⟨rfl, rfl⟩ := Prod.mk.inj (Option.some_inj.mp h)
    have hset : (l.setCall k .running).Ok c := hok.setCall (by rw [hcall.1]; rfl) nofun
    refine .of_counts hnonneg hle hset (by rw [l.setCall_phase]) ?_
    have hpolled := l.polled_setCall k .running
    rw [hcall.1] at hpolled
    simp only [Call.polled] at hpolled
    omega
  · cases h

theorem Leg.polled_finished {k : Which} (hcall : l.call k = .running) :
    (l.setCall k .finished).polled = l.polled := by
  have hpolled := l.polled_setCall k .finished
  rw [hcall] at hpolled
  simp only [Call.polled] at hpolled
  omega

/-- A leg without a hedge delay that comes to its end has waited for its first call. -/
theorem Leg.Ok.finished_plain (hok : l.Ok c) {k : Which} (hawaits : l.phase.awaits k = true)
    (hdelay : c.hedgeDelay = false) : Phase.done l.phase.path = .done .plain ∧
      (l.setCall k .finished).first.drop = (l.setCall k .finished).first := by
  rcases (hok.plain hdelay).2 with hphase | hphase | hphase
  · rw [hphase] at hawaits
    cases hawaits
  · rw [hphase] at hawaits ⊢
    cases k with
    | first => exact ⟨rfl, rfl⟩
    | second => cases hawaits
  · rw [hphase] at hawaits
    cases hawaits

theorem Leg.Ok.balanced_finish (hok : l.Ok c) (hnonneg : 0 ≤ s.tokens)
    (hle : s.tokens ≤ c.capacity) {k : Which} (h : l.step c s (.finish k) = some (s', l')) :
    Balanced c s l s' l' := by
  simp only [Leg.step] at h
  split at h
  case isFalse => cases h
  next hcall =>
  have hset : (l.setCall k .finished).Ok c := hok.setCall (by rw [hcall]; rfl) nofun
  have hpolled := Leg.polled_finished hcall
  split at h
  · -- a task of its own, of which the leg has yet to see the end
    obtain ⟨rfl, rfl⟩ := Prod.mk.inj (Option.some_inj.mp h)
    exact .of_counts hnonneg hle hset (by rw [l.setCall_phase]) (by rw [hpolled])
  · next hspawned =>
    split at h
    · next hawaits =>
      obtain ⟨rfl, rfl⟩ := Prod.mk.inj (Option.some_inj.mp h)
      have hcounts : (Phase.done l.phase.path).counts =
          (l.setCall k .finished).phase.counts := by
        rw [l.setCall_phase, Phase.counts_done hawaits]
      refine .of_counts hnonneg hle (hset.drop hcounts (Bool.not_eq_true _ ▸ hspawned)
        (hok.finished_plain hawaits)) (Phase.counts_done hawaits) ?_
      rw [← hpolled]
      simp only [Leg.polled, Call.polled_drop]
    · cases h

theorem Leg.Ok.balanced_join (hok : l.Ok c) (hnonneg : 0 ≤ s.tokens)
    (hle : s.tokens ≤ c.capacity) {k : Which} (h : l.step c s (.join k) = some (s', l')) :
    Balanced c s l s' l' := by
  simp only [Leg.step] at h
  split at h
  · next hjoin =>
    obtain ⟨rfl, rfl⟩ := Prod.mk.inj (Option.some_inj.mp h)
    have hcounts := Phase.counts_done hjoin.2.2
    have htrue : c.hedgeDelay = true := (Bool.and_eq_true_iff.mp hjoin.1).1
    exact .of_counts hnonneg hle (hok.phase_of htrue (by rw [hcounts]) (by rw [hcounts]))
      hcounts rfl
  · cases h

theorem Leg.Ok.balanced_outlive (hok : l.Ok c) (hnonneg : 0 ≤ s.tokens)
    (hle : s.tokens ≤ c.capacity) (h : l.step c s .outlive = some (s', l')) :
    Balanced c s l s' l' := by
  simp only [Leg.step] at h
  split at h
  · next hphase =>
    obtain ⟨rfl, rfl⟩ := Prod.mk.inj (Option.some_inj.mp h)
    have hcounts : Phase.late.counts = l.phase.counts := by
      rw [hphase]
      rfl
    have htrue := hok.delayed (by rw [hphase]; rfl)
    exact .of_counts hnonneg hle (hok.phase_of htrue (by rw [hcounts]) (by rw [hcounts]))
      hcounts rfl
  · cases h

theorem Leg.Ok.balanced_take (hok : l.Ok c) (hnonneg : 0 ≤ s.tokens)
    (hle : s.tokens ≤ c.capacity) (h : l.step c s .take = some (s', l')) :
    Balanced c s l s' l' := by
  simp only [Leg.step] at h
  split at h
  · next hphase =>
    obtain ⟨rfl, rfl⟩ := Prod.mk.inj (Option.some_inj.mp h)
    have htrue := hok.delayed (by rw [hphase]; rfl)
    by_cases htoken : 1 ≤ s.tokens
    · -- the hedge is paid
      have htake : s.take = (true, { s with tokens := s.tokens - 1 }) := if_pos htoken
      rw [htake]
      refine ⟨hok.phase_of htrue (by rw [hphase]; rfl) (by rw [hphase]; rfl),
        sub_nonneg.mpr htoken, ?_, ?_, ?_, ?_, rfl⟩
      · show s.tokens - 1 ≤ c.capacity
        linarith
      · simp [hphase, Phase.counts]
      · rw [hphase]
        rfl
      · rw [hphase]
        rfl
    · -- no token, and nothing changes but the phase
      have htake : s.take = (false, s) := if_neg htoken
      rw [htake]
      refine ⟨hok.phase_of htrue (by rw [hphase]; rfl) (by rw [hphase]; rfl), hnonneg, hle,
        ?_, ?_, ?_, rfl⟩
      · simp [hphase, Phase.counts]
      · rw [hphase]
        rfl
      · rw [hphase]
        rfl
  · cases h

theorem Leg.Ok.balanced_count (hok : l.Ok c) (hnonneg : 0 ≤ s.tokens)
    (hle : s.tokens ≤ c.capacity) (h : l.step c s .count = some (s', l')) :
    Balanced c s l s' l' := by
  simp only [Leg.step] at h
  split at h
  · next hphase =>
    obtain ⟨rfl, rfl⟩ := Prod.mk.inj (Option.some_inj.mp h)
    -- the second call is new
    have hnone : l.second.polled = 0 := by
      have hmade : l.second.made = 0 := hok.second.trans (by rw [hphase]; rfl)
      exact Nat.le_zero.mp (hmade ▸ l.second.polled_le_made)
    have htrue := hok.delayed (by rw [hphase]; rfl)
    refine ⟨⟨hok.first.trans (by rw [hphase]; rfl), rfl, fun hspawned => ?_, fun hdelay => ?_⟩,
      hnonneg, hle, ?_, ?_, ?_, ?_⟩
    · have hnew : (l.setCall .second .created).Whole := (hok.spawned hspawned).setCall nofun
      exact hnew
    · rw [htrue] at hdelay
      cases hdelay
    · simp [hphase, Phase.counts]
    · rw [hphase]
      simp only [Phase.counts]
      omega
    · rw [hphase]
      rfl
    · show s.started + (l.first.polled + l.second.polled) = s.started + (l.first.polled + 0)
      rw [hnone]
  · next hphase =>
    obtain ⟨rfl, rfl⟩ := Prod.mk.inj (Option.some_inj.mp h)
    have htrue := hok.delayed (by rw [hphase]; rfl)
    refine ⟨hok.phase_of htrue (by rw [hphase]; rfl) (by rw [hphase]; rfl), hnonneg, hle, ?_, ?_,
      ?_, rfl⟩
    · simp [hphase, Phase.counts]
    · rw [hphase]
      simp only [Phase.counts]
      omega
    · rw [hphase]
      rfl
  · cases h

/-- **Every step of a leg is counted.** -/
theorem Leg.balanced_step (hratio : 0 ≤ c.ratio) (hcapacity : 0 ≤ c.capacity)
    (hnonneg : 0 ≤ s.tokens) (hle : s.tokens ≤ c.capacity) (hok : l.Ok c) {a : Action}
    (h : l.step c s a = some (s', l')) : Balanced c s l s' l' := by
  cases a with
  | begin => exact hok.balanced_begin hratio hcapacity hnonneg hle h
  | poll k => exact hok.balanced_poll hnonneg hle h
  | finish k => exact hok.balanced_finish hnonneg hle h
  | join k => exact hok.balanced_join hnonneg hle h
  | outlive => exact hok.balanced_outlive hnonneg hle h
  | take => exact hok.balanced_take hnonneg hle h
  | count => exact hok.balanced_count hnonneg hle h

end

/-! ### All legs -/

section
variable {c : Config} {s s' : State ι}

theorem step_cases {i : ι} {a : Action} (h : step c s (i, a) = some s') :
    ∃ shared l, (s.legs i).step c s.shared a = some (shared, l) ∧
      s' = ⟨shared, Function.update s.legs i l⟩ := by
  simp only [step] at h
  split at h
  · cases h
  · next shared l hl => exact ⟨shared, l, hl, (Option.some_inj.mp h).symm⟩

variable [Fintype ι]

/-- The counters say what the legs have done. -/
structure State.Inv (c : Config) (s : State ι) : Prop where
  legs : ∀ i, (s.legs i).Ok c
  nonneg : 0 ≤ s.shared.tokens
  le_capacity : s.shared.tokens ≤ c.capacity
  decided : s.shared.legsHedged + s.shared.budgetDenied + s.count Counts.uncounted =
    s.count Counts.decided
  hedged : s.shared.legsHedged = s.count Counts.hedged
  started : s.shared.started = ∑ i, (s.legs i).polled

/-- The legs that count, when one has taken a step. -/
theorem State.count_update (s : State ι) (shared : Shared) (i : ι) (l : Leg) (f : Counts → ℕ) :
    State.count ⟨shared, Function.update s.legs i l⟩ f + f (s.legs i).phase.counts =
      s.count f + f l.phase.counts :=
  sum_update (Finset.mem_univ i) (fun l : Leg => f l.phase.counts) l

omit [DecidableEq ι] in
theorem State.Inv.init (hcapacity : 0 ≤ c.capacity) : State.Inv c (init ι c) where
  legs _ := by
    have hwhole : Leg.Whole ⟨.outside, .absent, .absent⟩ := fun k _ => by cases k <;> nofun
    exact ⟨rfl, rfl, fun _ => hwhole, fun _ => ⟨hwhole, Or.inl rfl⟩⟩
  nonneg := hcapacity
  le_capacity := le_rfl
  decided := by
    simp only [State.count, Hedging.init, Phase.counts, Finset.sum_const_zero, add_zero]
  hedged := by simp only [State.count, Hedging.init, Phase.counts, Finset.sum_const_zero]
  started := by
    simp only [Hedging.init, Leg.polled, Call.polled, add_zero, Finset.sum_const_zero]

/-- **Every step keeps the counters in line with the legs**, and pays for its hedge. -/
theorem State.Inv.step (hratio : 0 ≤ c.ratio) (hcapacity : 0 ≤ c.capacity) (h : s.Inv c)
    {a : ι × Action} (hstep : Hedging.step c s a = some s') : s'.Inv c ∧
      s'.shared.tokens + s'.count Counts.granted + c.ratio * s.count Counts.primary ≤
        s.shared.tokens + s.count Counts.granted + c.ratio * s'.count Counts.primary := by
  obtain ⟨i, a⟩ := a
  obtain ⟨shared, l, hl, rfl⟩ := step_cases hstep
  -- what one leg has done is what the counters have counted
  have hb := (s.legs i).balanced_step hratio hcapacity h.nonneg h.le_capacity (h.legs i) hl
  have hcount := s.count_update shared i l
  refine ⟨⟨fun j => ?_, hb.nonneg, hb.le_capacity, ?_, ?_, ?_⟩, ?_⟩
  -- the other legs are as they were
  · by_cases hj : j = i
    · subst hj
      show Leg.Ok c (Function.update s.legs j l j)
      rw [Function.update_self]
      exact hb.ok
    · show Leg.Ok c (Function.update s.legs i l j)
      rw [Function.update_of_ne hj]
      exact h.legs j
  -- decisions are taken or denied, or not counted yet
  · have huncounted := hcount Counts.uncounted
    have hdecided := hcount Counts.decided
    have hbal := hb.decided
    have hold := h.decided
    show shared.legsHedged + shared.budgetDenied + _ = _
    omega
  · have hhedged := hcount Counts.hedged
    have hbal := hb.hedged
    have hold := h.hedged
    show shared.legsHedged = _
    omega
  · have hsum := sum_update (f := s.legs) (Finset.mem_univ i) Leg.polled l
    have hbal := hb.started
    have hold := h.started
    show shared.started = ∑ j, (Function.update s.legs i l j).polled
    omega
  -- the tokens that are granted are paid for by primary calls, each of which brings `ratio`
  · have hgranted : ((State.count ⟨shared, Function.update s.legs i l⟩ Counts.granted : ℕ) : ℚ) +
        (s.legs i).phase.counts.granted = s.count Counts.granted + l.phase.counts.granted := by
      exact_mod_cast hcount Counts.granted
    have hprimary : ((State.count ⟨shared, Function.update s.legs i l⟩ Counts.primary : ℕ) : ℚ) +
        (s.legs i).phase.counts.primary = s.count Counts.primary + l.phase.counts.primary := by
      exact_mod_cast hcount Counts.primary
    have hbal := hb.tokens
    have hscaled : c.ratio * (State.count ⟨shared, Function.update s.legs i l⟩ Counts.primary : ℕ) +
        c.ratio * (s.legs i).phase.counts.primary =
          c.ratio * s.count Counts.primary + c.ratio * l.phase.counts.primary := by
      rw [← mul_add, hprimary, mul_add]
    show shared.tokens + _ + _ ≤ _
    linarith

/-- **The hedges of any part of a run are paid** with the tokens at its beginning, and those that
its primary calls have brought. -/
theorem hedges_le (hratio : 0 ≤ c.ratio) (hcapacity : 0 ≤ c.capacity) (hs : s.Inv c)
    (h : Reach (step c) s s') : s'.Inv c ∧
      s'.shared.tokens + s'.count Counts.granted + c.ratio * s.count Counts.primary ≤
        s.shared.tokens + s.count Counts.granted + c.ratio * s'.count Counts.primary := by
  refine h.invariant (P := fun t => t.Inv c ∧ t.shared.tokens + t.count Counts.granted +
    c.ratio * s.count Counts.primary ≤ s.shared.tokens + s.count Counts.granted +
      c.ratio * t.count Counts.primary) ⟨hs, le_rfl⟩ ?_
  rintro t a t' ⟨ht, hle⟩ hstep
  obtain ⟨ht', hle'⟩ := ht.step hratio hcapacity hstep
  exact ⟨ht', by linarith⟩

/-- A leg has polled no more calls than it has made. -/
theorem Leg.Ok.polled_le {l : Leg} (h : l.Ok c) :
    l.polled ≤ l.phase.counts.begun + l.phase.counts.hedged := by
  rw [← h.first, ← h.second]
  exact Nat.add_le_add l.first.polled_le_made l.second.polled_le_made

/-- A leg that leaks its loser loses no call. -/
theorem Leg.Ok.polled_eq {l : Leg} (h : l.Ok c) (hmode : c.mode = .leakLoser)
    (hcreated : ∀ k, l.call k ≠ .created) :
    l.polled = l.phase.counts.begun + l.phase.counts.hedged := by
  have hwhole : l.Whole := by
    cases hdelay : c.hedgeDelay with
    | true => exact h.spawned (by simp [Leg.spawned, hdelay, hmode])
    | false => exact (h.plain hdelay).1
  have hfirst : l.first.polled = l.first.made :=
    Call.polled_eq_made (hcreated .first) (hwhole .first)
  have hsecond : l.second.polled = l.second.made :=
    Call.polled_eq_made (hcreated .second) (hwhole .second)
  rw [← h.first, ← h.second, Leg.polled, hfirst, hsecond]

/-- **Hedging stays within its budget**: over any part of a run no more hedges are granted than
the bucket holds and the primary calls of that part bring; the gateway counts every decision; and
no calls are started but those of the legs and their hedges, all of them if no call is ever
dropped and those that have been spawned have been polled. -/
theorem within_budget (c : Config) (hratio : 0 ≤ c.ratio) (hcapacity : 0 ≤ c.capacity)
    (h : Reach (step c) (init ι c) s) (h' : Reach (step c) s s') :
    (s'.count Counts.granted : ℚ) - s.count Counts.granted ≤
        c.capacity + c.ratio * (s'.count Counts.primary - s.count Counts.primary) ∧
      s'.shared.legsHedged + s'.shared.budgetDenied + s'.count Counts.uncounted =
        s'.count Counts.decided ∧
      s'.shared.started ≤ s'.count Counts.begun + s'.shared.legsHedged ∧
      (c.mode = .leakLoser → (∀ i k, (s'.legs i).call k ≠ .created) →
        s'.shared.started = s'.count Counts.begun + s'.shared.legsHedged) := by
  obtain ⟨hs, -⟩ := hedges_le hratio hcapacity (State.Inv.init hcapacity) h
  obtain ⟨hs', hle⟩ := hedges_le hratio hcapacity hs h'
  -- legs by legs, so that the bound of each leg gives that of the sum
  have hsum : s'.count Counts.begun + s'.shared.legsHedged =
      ∑ i, ((s'.legs i).phase.counts.begun + (s'.legs i).phase.counts.hedged) := by
    rw [hs'.hedged, Finset.sum_add_distrib]
    rfl
  refine ⟨?_, hs'.decided, ?_, fun hmode hpolled => ?_⟩
  -- the bucket was full at most, and is not below zero
  · have hfull := hs.le_capacity
    have hempty := hs'.nonneg
    rw [mul_sub]
    linarith
  · rw [hsum, hs'.started]
    exact Finset.sum_le_sum fun i _ => (hs'.legs i).polled_le
  · rw [hsum, hs'.started]
    exact Finset.sum_congr rfl fun i _ => (hs'.legs i).polled_eq hmode (hpolled i)

end

/-- Two slow legs, and a token for one of them: it wins with its second call, and its first one
goes on. -/
theorem within_budget_two_legs : ∃ s : State Bool,
    Reach (step ⟨1 / 20, 1, true, .leakLoser⟩) (init Bool ⟨1 / 20, 1, true, .leakLoser⟩) s ∧
      (s.count Counts.granted : ℚ) -
          (init Bool ⟨1 / 20, 1, true, .leakLoser⟩).count Counts.granted ≤
        1 + 1 / 20 * (s.count Counts.primary -
          (init Bool ⟨1 / 20, 1, true, .leakLoser⟩).count Counts.primary) ∧
      s.shared.legsHedged + s.shared.budgetDenied + s.count Counts.uncounted =
        s.count Counts.decided ∧
      s.shared.started = s.count Counts.begun + s.shared.legsHedged ∧ s.shared.started = 3 := by
  -- two legs, of which the second finds no token
  have hrun : ((exec (step ⟨1 / 20, 1, true, .leakLoser⟩)
      (init Bool ⟨1 / 20, 1, true, .leakLoser⟩)
      [(true, .begin), (false, .begin), (true, .poll .first), (false, .poll .first),
        (true, .outlive), (true, .take), (false, .outlive), (false, .take), (true, .count),
        (false, .count), (true, .poll .second), (true, .finish .second),
        (true, .join .second)]).map fun s => (s.shared.started, s.legs true, s.legs false)) =
      some (3, ⟨.done .hedged, .running, .finished⟩, ⟨.waiting, .running, .absent⟩) := by
    decide +kernel
  obtain ⟨s, hs, hobs⟩ := Option.map_eq_some_iff.mp hrun
  simp only [Prod.mk.injEq] at hobs
  obtain ⟨hstarted, htrue, hfalse⟩ := hobs
  have hpolled : ∀ i k, (s.legs i).call k ≠ .created := by
    intro i k
    cases i with
    | true => cases k <;> simp [htrue, Leg.call]
    | false => cases k <;> simp [hfalse, Leg.call]
  have hreach := Reach.of_exec _ hs
  obtain ⟨hgranted, hdecided, -, hall⟩ := within_budget ⟨1 / 20, 1, true, .leakLoser⟩
    (by decide +kernel) (by decide +kernel) .refl hreach
  exact ⟨s, hreach, hgranted, hdecided, hall rfl hpolled, hstarted⟩

end Hedging
end SepLab
