import Mathlib.Algebra.Order.Ring.Unbundled.Rat
import Mathlib.Logic.Function.Basic
import SepLab.Lib.Transition

/-!
# The latency breaker

The API lab's `LatencyBreaker`, which opens when the 95th percentile of its samples is
over a threshold, and the calls that are guarded by it.  Once an open period is over, the
next call is its probe.  Times are rational numbers.

## Main definitions

* `LatencyBreaker.isOpen`, `LatencyBreaker.observe` — the breaker.
* `State`, `Action`, `step` — calls of `guard` in any interleaving.
* `HalfOpens` — a call finds no probe, or the breaker open again, and the duration of a probe
  decides.

## Main results

* `probe_holds_nobody_back` — next to a probe that has just begun, anybody is admitted.
* `halfOpens_iff` — the step before which the condition fails is that which breaks the rule.
* `one_probe_iff` — **a probe is alone and decides** exactly in the runs whose steps meet the
  condition.
-/

namespace SepLab
namespace Resilience

/-- The breaker, with its samples in milliseconds. -/
structure LatencyBreaker where
  thresholdMs : Option ℤ
  window : ℕ
  minSamples : ℤ
  openForS : ℚ
  samples : List ℚ
  openedAt : Option ℚ
  trips : ℕ

namespace LatencyBreaker

/-- `__init__` -/
def new (thresholdMs : Option ℤ) (window : ℕ) (minSamples : ℤ) (openForS : ℚ) : LatencyBreaker :=
  ⟨thresholdMs, window, minSamples, openForS, [], none, 0⟩

/-- `is_open`, which ends an open period that is over. -/
def isOpen (b : LatencyBreaker) (now : ℚ) : Bool × LatencyBreaker :=
  match b.openedAt with
  | none => (false, b)
  | some t =>
    if b.openForS ≤ now - t then (false, { b with openedAt := none, samples := [] })
    else (true, b)

/-- `self._samples.append(x)`, on a deque of at most `window` samples. -/
def append (b : LatencyBreaker) (x : ℚ) : LatencyBreaker :=
  { b with samples := (b.samples ++ [x]).drop (b.samples.length + 1 - b.window) }

/-- `ordered[min(len(ordered) - 1, int(0.95 * len(ordered)))]`, which raises without samples. -/
def p95 (samples : List ℚ) : Option ℚ :=
  let ordered := samples.mergeSort fun x y => decide (x ≤ y)
  ordered[min (ordered.length - 1) (19 * ordered.length / 20)]?

/-- `observe` -/
def observe (b : LatencyBreaker) (durationS now : ℚ) : LatencyBreaker :=
  match b.thresholdMs with
  | none => b
  | some threshold =>
    let b := b.append (durationS * 1000)
    if (b.samples.length : ℤ) < b.minSamples ∨ b.openedAt.isSome then b
    else
      match p95 b.samples with
      | none => b
      | some p =>
        if (threshold : ℚ) < p then { b with openedAt := some now, trips := b.trips + 1 } else b

/-- The test of `observe`: enough samples, and their 95th percentile over the threshold. -/
def Trips (b : LatencyBreaker) (threshold : ℤ) : Prop :=
  b.minSamples ≤ b.samples.length ∧ ∃ p ∈ p95 b.samples, (threshold : ℚ) < p

/-- A call of this duration is slow. -/
def slow (b : LatencyBreaker) (durationS : ℚ) : Bool :=
  b.thresholdMs.any fun threshold => decide ((threshold : ℚ) < durationS * 1000)

end LatencyBreaker

namespace Breaker

/-- Where a call of `guard` stands. -/
inductive Phase
  | outside
  /-- Admitted at the time `started`. -/
  | inside (started : ℚ)
  /-- It has raised `Unavailable`. -/
  | refused
  | done
deriving DecidableEq

/-- The breaker and its calls.  The probes are those that have ended an open period and have not
been observed yet; `between` are the calls that have been admitted next to a probe, and
`misjudged` the probes whose duration has not closed or opened the breaker as it should. -/
structure State (ι : Type) where
  clock : ℚ
  breaker : LatencyBreaker
  phase : ι → Phase
  probes : List ι
  between : List ι
  misjudged : List ι

/-- What the clock and the calls do. -/
inductive Action (ι : Type)
  | tick (now : ℚ)
  | enter (i : ι)
  /-- The body of `guard` ends, in any way. -/
  | exit (i : ι)

variable {ι : Type} [DecidableEq ι]

/-- Before the first call. -/
def State.init (clock : ℚ) (b : LatencyBreaker) : State ι := 
  ⟨clock, b, fun _ => .outside, [], [], []⟩

/-- `guard`, up to its `yield`. -/
def State.enter (s : State ι) (i : ι) : State ι :=
  match s.breaker.isOpen s.clock with
  | (true, b) => { s with breaker := b, phase := Function.update s.phase i .refused }
  | (false, b) =>
    { s with
      breaker := b
      phase := Function.update s.phase i (.inside s.clock)
      probes := if s.breaker.openedAt.isSome then s.probes ++ [i] else s.probes
      between := if s.probes = [] then s.between else s.between ++ [i] }

/-- `guard`, from its `yield` on. -/
def State.exit (s : State ι) (i : ι) (started : ℚ) : State ι :=
  let breaker := s.breaker.observe (s.clock - started) s.clock
  let wanted := if s.breaker.slow (s.clock - started) then some s.clock else none
  { s with
    breaker := breaker
    phase := Function.update s.phase i .done
    probes := s.probes.erase i
    misjudged := if i ∈ s.probes ∧ breaker.openedAt ≠ wanted then s.misjudged ++ [i]
      else s.misjudged }

/-- One step: each call enters once, and leaves once if admitted. -/
def step (s : State ι) : Action ι → Option (State ι)
  | .tick now => if s.clock ≤ now then some { s with clock := now } else none
  | .enter i =>
    match s.phase i with
    | .outside => some (s.enter i)
    | _ => none
  | .exit i =>
    match s.phase i with
    | .inside started => some (s.exit i started)
    | _ => none

/-! ### Probes -/

/-- With this duration a slow call opens the breaker and another one leaves it closed. -/
def Decides (b : LatencyBreaker) (durationS now : ℚ) : Prop :=
  let b' := b.append (durationS * 1000)
  match b.thresholdMs with
  | none => b.openedAt = none
  | some threshold =>
    if b.slow durationS then
      b.openedAt = some now ∨ b.openedAt = none ∧ b'.Trips threshold
    else b.openedAt = none ∧ ¬ b'.Trips threshold

/-- Whoever enters finds no probe inside, or finds the breaker open again, and the duration of a
probe that leaves decides. -/
def HalfOpens (s : State ι) : Action ι → Prop
  | .enter i => s.phase i = .outside → s.probes = [] ∨
      ∃ t, s.breaker.openedAt = some t ∧ s.clock - t < s.breaker.openForS
  | .exit i => ∀ started, s.phase i = .inside started → i ∈ s.probes →
      Decides s.breaker (s.clock - started) s.clock
  | _ => True

/-- A probe has been alone, and its duration has decided. -/
structure State.Ruled (s : State ι) : Prop where
  alone : s.between = []
  decided : s.misjudged = []

variable {s s' : State ι} {i j : ι}

theorem isOpen_eq_true {b : LatencyBreaker} {now : ℚ} :
    (b.isOpen now).1 = true ↔ ∃ t, b.openedAt = some t ∧ now - t < b.openForS := by
  unfold LatencyBreaker.isOpen
  cases b.openedAt with
  | none => simp
  | some t =>
    simp only [Option.some.injEq, exists_eq_left']
    split
    · next hover => exact iff_of_false Bool.false_ne_true (not_lt.mpr hover)
    · next hover => exact iff_of_true rfl (not_le.mp hover)

/-- What a call that enters finds, and whether it is admitted. -/
theorem State.enter_cases (s : State ι) (i : ι) :
    (s.enter i).misjudged = s.misjudged ∧
    ((s.breaker.isOpen s.clock).1 = true ∧ (s.enter i).phase i = .refused ∧
      (s.enter i).between = s.between ∨
    (s.breaker.isOpen s.clock).1 = false ∧ (s.enter i).phase i = .inside s.clock ∧
      (s.enter i).between = if s.probes = [] then s.between else s.between ++ [i]) := by
  unfold State.enter
  split
  · next b heq => exact ⟨rfl, Or.inl ⟨by rw [heq], Function.update_self .., rfl⟩⟩
  · next b heq => exact ⟨rfl, Or.inr ⟨by rw [heq], Function.update_self .., rfl⟩⟩

/-- When `observe` opens the breaker. -/
theorem observe_openedAt {b : LatencyBreaker} {threshold : ℤ}
    (hthreshold : b.thresholdMs = some threshold) (durationS now : ℚ) :
    (b.observe durationS now).openedAt = some now ∧ b.openedAt = none ∧
      (b.append (durationS * 1000)).Trips threshold ∨
    (b.observe durationS now).openedAt = b.openedAt ∧
      ¬ (b.openedAt = none ∧ (b.append (durationS * 1000)).Trips threshold) := by
  unfold LatencyBreaker.observe LatencyBreaker.Trips
  simp only [hthreshold]
  -- the fields that `append` does not change
  have hopened : (b.append (durationS * 1000)).openedAt = b.openedAt := rfl
  split
  · next hfew =>
    refine Or.inr ⟨rfl, ?_⟩
    rintro ⟨hclosed, henough, -⟩
    rcases hfew with hfew | hopen
    · exact absurd henough (not_le.mpr hfew)
    · rw [hopened, hclosed] at hopen
      cases hopen
  · next henough =>
    obtain ⟨henough, hclosed⟩ := not_or.mp henough
    rw [hopened, Option.not_isSome_iff_eq_none] at hclosed
    split
    · next hnone => exact Or.inr ⟨rfl, by simp [hnone]⟩
    · next p hp =>
      split
      · next hover => exact Or.inl ⟨rfl, hclosed, not_lt.mp henough, p, hp, hover⟩
      · next hover =>
        refine Or.inr ⟨rfl, ?_⟩
        rintro ⟨-, -, q, hq, hlt⟩
        rw [hp, Option.mem_some_iff] at hq
        exact hover (hq ▸ hlt)

/-- What the duration of a probe needs to decide. -/
theorem decides_iff (b : LatencyBreaker) (durationS now : ℚ) :
    (b.observe durationS now).openedAt = (if b.slow durationS then some now else none) ↔
      Decides b durationS now := by
  unfold Decides
  cases hthreshold : b.thresholdMs with
  | none => simp [LatencyBreaker.observe, LatencyBreaker.slow, hthreshold]
  | some threshold =>
    simp only
    rcases observe_openedAt hthreshold durationS now with ⟨heq, hclosed, htrips⟩ | ⟨heq, hno⟩
    · rw [heq]
      split <;> simp [hclosed, htrips]
    · rw [heq]
      split
      · exact ⟨Or.inl, fun h => h.resolve_right hno⟩
      · exact ⟨fun h => ⟨h, fun htrips => hno ⟨h, htrips⟩⟩, And.left⟩

/-- **A probe holds nobody back**: whoever comes after it, before anybody has left, is
admitted as well. -/
theorem probe_holds_nobody_back {t : ℚ} (hopened : s.breaker.openedAt = some t)
    (hover : s.breaker.openForS ≤ s.clock - t) (hi : s.phase i = .outside)
    (hj : s.phase j = .outside) (hne : j ≠ i) :
    ∃ s₁ s₂, step s (.enter i) = some s₁ ∧ i ∈ s₁.probes ∧
      step s₁ (.enter j) = some s₂ ∧ s₂.phase j = .inside s.clock := by
  have hopen : s.breaker.isOpen s.clock =
      (false, { s.breaker with openedAt := none, samples := [] }) := by
    simp only [LatencyBreaker.isOpen, hopened, if_pos hover]
  have henter : s.enter i =
      { s with
        breaker := { s.breaker with openedAt := none, samples := [] }
        phase := Function.update s.phase i (.inside s.clock)
        probes := s.probes ++ [i]
        between := if s.probes = [] then s.between else s.between ++ [i] } := by
    simp only [State.enter, hopen, hopened, Option.isSome_some, if_true]
  have hj' : (s.enter i).phase j = .outside := by
    rw [henter]
    exact (Function.update_of_ne hne _ _).trans hj
  refine ⟨s.enter i, (s.enter i).enter j, by simp only [step, hi], ?_, by simp only [step, hj'], ?_⟩
  · rw [henter]
    exact List.mem_append_right _ List.mem_cons_self
  · -- the breaker has forgotten that it was open
    rcases ((s.enter i).enter_cases j).2 with ⟨hopen', -⟩ | ⟨-, hphase, -⟩
    · rw [henter] at hopen'
      cases hopen'
    · rw [hphase, henter]

theorem enter_iff (hs : s.Ruled) (i : ι) :
    HalfOpens s (.enter i) ↔ ∀ s', step s (.enter i) = some s' → s'.Ruled := by
  have hopen : (s.breaker.isOpen s.clock).1 = true ↔ _ := isOpen_eq_true
  obtain ⟨hmisjudged, hcases⟩ := s.enter_cases i
  constructor
  · intro hok s' hstep
    simp only [step] at hstep
    split at hstep
    · next hphase =>
      obtain rfl := Option.some_inj.mp hstep
      refine ⟨?_, hmisjudged.trans hs.decided⟩
      rcases hcases with ⟨-, -, hbetween⟩ | ⟨hclosed, -, hbetween⟩
      · rw [hbetween, hs.alone]
      -- no probe is out, or the breaker is open, which it was not
      · rcases hok hphase with hnone | ⟨t, ht⟩
        · rw [hbetween, if_pos hnone, hs.alone]
        · rw [hopen.mpr ⟨t, ht⟩] at hclosed
          cases hclosed
    · cases hstep
  · intro hnext hphase
    have hbetween := (hnext (s.enter i) (by simp only [step, hphase])).alone
    rcases hcases with ⟨hopened, -⟩ | ⟨-, -, hadmitted⟩
    · exact Or.inr (hopen.mp hopened)
    · by_cases hprobes : s.probes = []
      · exact Or.inl hprobes
      · rw [hadmitted, if_neg hprobes, hs.alone] at hbetween
        cases hbetween

theorem exit_iff (hs : s.Ruled) (i : ι) :
    HalfOpens s (.exit i) ↔ ∀ s', step s (.exit i) = some s' → s'.Ruled := by
  simp only [HalfOpens, ← decides_iff]
  constructor
  · intro hok s' hstep
    simp only [step] at hstep
    split at hstep
    · next started hphase =>
      obtain rfl := Option.some_inj.mp hstep
      refine ⟨hs.alone, (if_neg ?_).trans hs.decided⟩
      rintro ⟨hprobe, hne⟩
      exact hne (hok started hphase hprobe)
    · cases hstep
  · intro hnext started hphase hprobe
    have hdecided := (hnext (s.exit i started) (by simp only [step, hphase])).decided
    by_contra hne
    rw [State.exit, if_pos ⟨hprobe, hne⟩] at hdecided
    exact absurd hdecided (List.append_ne_nil_of_right_ne_nil _ (List.cons_ne_nil _ _))

/-- **From a state in which probes have been alone and have decided**, a step meets the condition
exactly when this is so after it. -/
theorem halfOpens_iff (hs : s.Ruled) (a : Action ι) :
    HalfOpens s a ↔ ∀ s', step s a = some s' → s'.Ruled := by
  cases a with
  | tick now =>
    refine iff_of_true trivial fun s' hstep => ?_
    simp only [step] at hstep
    split at hstep
    · obtain rfl := Option.some_inj.mp hstep
      exact ⟨hs.alone, hs.decided⟩
    · cases hstep
  | enter i => exact enter_iff hs i
  | exit i => exact exit_iff hs i

/-- **After an open period one probe is alone and decides exactly in the runs whose steps meet the
condition**: whoever enters next to a probe finds the breaker open again, and a slow probe opens
the breaker, another one leaves it closed. -/
theorem one_probe_iff (clock : ℚ) (thresholdMs : Option ℤ) (window : ℕ) (minSamples : ℤ)
    (openForS : ℚ) (as : List (Action ι)) :
    (∀ bs s, bs <+: as →
      exec step (.init clock (.new thresholdMs window minSamples openForS)) bs = some s →
      s.Ruled) ↔
    ∀ bs a s, bs ++ [a] <+: as →
      exec step (.init clock (.new thresholdMs window minSamples openForS)) bs = some s →
      HalfOpens s a :=
  exec_forall_iff (I := fun _ => True) (P := State.Ruled) trivial
    (fun _ _ _ _ _ => trivial) ⟨rfl, rfl⟩ (fun _ a _ hs => halfOpens_iff hs a) as

/-- One slow call opens the breaker for five seconds, and the two calls after that are both
admitted. -/
theorem two_probes :
    ¬ ∀ s : State ℕ, Reach step (.init 0 (.new (some 20) 50 1 5)) s → s.between = [] := by
  intro h
  have hrun : ((exec step (.init 0 (.new (some 20) 50 1 5))
      [.enter 0, .tick 1, .exit 0, .tick 6, .enter 1, .enter 2]).map
        fun s : State ℕ => s.between) = some [2] := by decide +kernel
  obtain ⟨s, hs, hbetween⟩ := Option.map_eq_some_iff.mp hrun
  rw [h s (.of_exec _ hs)] at hbetween
  cases hbetween

/-- A call from before the open period opens the breaker again while the probe is inside, whose
duration then decides nothing. -/
example : ((exec step (.init 0 (.new (some 20) 50 1 5))
    [.enter 0, .enter 1, .tick 1, .exit 0, .tick 6, .enter 2, .exit 1, .exit 2]).map
      fun s : State ℕ => (s.breaker.openedAt, s.misjudged)) = some (some 6, [2]) := by
  decide +kernel

end Breaker
end Resilience
end SepLab
