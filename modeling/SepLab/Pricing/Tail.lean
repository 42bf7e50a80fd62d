import Mathlib.Algebra.BigOperators.Group.Finset.Basic
import Mathlib.Algebra.BigOperators.Group.Finset.Piecewise
import Mathlib.Data.Fintype.Basic
import SepLab.Lib.Potential

/-!
# The tail of the pricing service

The observability lab's `handlePrice` counts a request on an atomic counter, and then asks
`tailFires`, which loads the counter again, whether this is the request that is made to wait.
Other requests may be counted in between.

## Main definitions

* `Config`, `tailFires` — the settings of the tail, and the test of the counter.
* `Server`, `step` — the counters, and the atomic operations of the requests.
* `Server.slow` — the requests that take the tail path.
* `Undisturbed cfg` — a load that finds what the request's own count would have told it.

## Main results

* `Inv.step`, `Tallied.step` — what the requests count, and which of them are due for the tail.
* `undisturbed_of_last` — a load that comes right after the request's count.
* `slow_card_of_undisturbed` — **when one request in `tailEvery` is slow**.
* `not_slow_card` — two requests that are both slow.
-/

namespace SepLab
namespace Pricing

/-! ### The service -/

/-- The settings that `handlePrice` reads. -/
structure Config where
  tailEnabled : Bool
  tailEvery : ℤ
  tailMS : ℤ
  fastMS : ℤ

/-- A sum as an `atomic.Int64` keeps it. -/
def wrap (x : ℤ) : ℤ := x.bmod (2 ^ 64)

/-- `tailFires`, with what it loads from the counter. -/
def tailFires (cfg : Config) (served : ℤ) : Bool :=
  if !cfg.tailEnabled || decide (cfg.tailEvery ≤ 0) then false
  else served.tmod cfg.tailEvery == 0

/-- What the log line says of a request. -/
structure Answer where
  n : ℤ
  durationMs : ℤ
  tail : Bool

/-- Where a request stands. -/
inductive Phase
  | waiting
  /-- It was the `ordinal`-th to be counted, and `Add` returned `n`. -/
  | counted (ordinal : ℕ) (n : ℤ)
  | decided (n : ℤ) (slow : Bool)
  | answered (a : Answer)

namespace Phase

/-- The request has been answered on the tail path. -/
def tail : Phase → Bool
  | .answered a => a.tail
  | _ => false

/-- The request has not been counted, or has been answered. -/
def AtRest : Phase → Bool
  | .waiting | .answered _ => true
  | _ => false

end Phase

/-- The counters, with the requests that have been counted. -/
structure Server (ι : Type) where
  served : ℤ
  tails : ℤ
  arrived : Finset ι
  phase : ι → Phase

/-- An atomic operation of a request: `served.Add(1)`, the load in `tailFires`, and the rest. -/
inductive Action (ι : Type)
  | add (i : ι)
  | load (i : ι)
  | finish (i : ι)

/-- `main` -/
def Server.start {ι : Type} : Server ι := ⟨0, 0, ∅, fun _ => .waiting⟩

variable {ι : Type} [DecidableEq ι]

/-- `n := s.served.Add(1)` -/
def Server.add (s : Server ι) (i : ι) : Server ι :=
  let n := wrap (s.served + 1)
  { s with
    served := n
    arrived := insert i s.arrived
    phase := Function.update s.phase i (.counted (s.arrived.card + 1) n) }

/-- `slow := s.tailFires()` -/
def Server.load (s : Server ι) (cfg : Config) (i : ι) (n : ℤ) : Server ι :=
  { s with phase := Function.update s.phase i (.decided n (tailFires cfg s.served)) }

/-- From there to the end of `handlePrice`. -/
def Server.finish (s : Server ι) (cfg : Config) (i : ι) (n : ℤ) (slow : Bool) : Server ι :=
  { s with
    tails := if slow then wrap (s.tails + 1) else s.tails
    phase := Function.update s.phase i
      (.answered ⟨n, if slow then cfg.tailMS else cfg.fastMS, slow⟩) }

/-- The server after one operation of a request. -/
def step (cfg : Config) (s : Server ι) : Action ι → Option (Server ι)
  | .add i =>
    match s.phase i with
    | .waiting => some (s.add i)
    | _ => none
  | .load i =>
    match s.phase i with
    | .counted _ n => some (s.load cfg i n)
    | _ => none
  | .finish i =>
    match s.phase i with
    | .decided n slow => some (s.finish cfg i n slow)
    | _ => none

omit [DecidableEq ι] in
/-- The requests that have taken the tail path. -/
def Server.slow (s : Server ι) : Finset ι := s.arrived.filter fun i => (s.phase i).tail

omit [DecidableEq ι] in
/-- No request is between its count and its answer. -/
def Server.AtRest (s : Server ι) : Prop := ∀ i, (s.phase i).AtRest

omit [DecidableEq ι] in
instance {ι : Type} [Fintype ι] (s : Server ι) : Decidable s.AtRest :=
  inferInstanceAs (Decidable (∀ i, (s.phase i).AtRest))

/-- What a load finds divides by `tailEvery` just if the request's own ordinal does. -/
def Phase.Undisturbed (cfg : Config) (served : ℤ) : Phase → Prop
  | .counted ordinal _ => cfg.tailEvery ∣ served ↔ cfg.tailEvery ∣ (ordinal : ℤ)
  | _ => True

instance (cfg : Config) (served : ℤ) : ∀ p : Phase, Decidable (p.Undisturbed cfg served)
  | .counted ordinal _ =>
    inferInstanceAs (Decidable (cfg.tailEvery ∣ served ↔ cfg.tailEvery ∣ (ordinal : ℤ)))
  | .waiting | .decided .. | .answered _ => .isTrue trivial

omit [DecidableEq ι] in
/-- The operation is no load that finds other than the request's own count told it. -/
def Undisturbed (cfg : Config) (s : Server ι) : Action ι → Prop
  | .load i => (s.phase i).Undisturbed cfg s.served
  | _ => True

omit [DecidableEq ι] in
instance (cfg : Config) (s : Server ι) : ∀ a, Decidable (Undisturbed cfg s a)
  | .load i => inferInstanceAs (Decidable ((s.phase i).Undisturbed cfg s.served))
  | .add _ | .finish _ => .isTrue trivial

/-! ### What an operation does -/

theorem tailFires_eq_true {cfg : Config} (hon : cfg.tailEnabled = true)
    (hpos : 0 < cfg.tailEvery) (x : ℤ) : tailFires cfg x = true ↔ cfg.tailEvery ∣ x := by
  have hnot : ¬ cfg.tailEvery ≤ 0 := by omega
  simp [tailFires, hon, hnot, Int.dvd_iff_tmod_eq_zero]

/-- The operations, with the phase in which a request makes each of them. -/
theorem step_cases {cfg : Config} {s s' : Server ι} {a : Action ι} (h : step cfg s a = some s') :
    (∃ i, a = .add i ∧ s.phase i = .waiting ∧ s' = s.add i) ∨
    (∃ i o n, a = .load i ∧ s.phase i = .counted o n ∧ s' = s.load cfg i n) ∨
    ∃ i n slow, a = .finish i ∧ s.phase i = .decided n slow ∧ s' = s.finish cfg i n slow := by
  cases a with
  | add i =>
    cases hp : s.phase i with
    | waiting => exact .inl ⟨i, rfl, hp, by simpa [step, hp] using h.symm⟩
    | _ => simp [step, hp] at h
  | load i =>
    cases hp : s.phase i with
    | counted o n => exact .inr (.inl ⟨i, o, n, rfl, hp, by simpa [step, hp] using h.symm⟩)
    | _ => simp [step, hp] at h
  | finish i =>
    cases hp : s.phase i with
    | decided n slow =>
      exact .inr (.inr ⟨i, n, slow, rfl, hp, by simpa [step, hp] using h.symm⟩)
    | _ => simp [step, hp] at h

/-! ### What the requests count -/

/-- What holds at any time. -/
structure Inv (s : Server ι) : Prop where
  served : s.served = wrap s.arrived.card
  arrived : ∀ i, i ∈ s.arrived ↔ s.phase i ≠ .waiting
  tails : s.tails = wrap s.slow.card

omit [DecidableEq ι] in
theorem slow_card (s : Server ι) :
    s.slow.card = ∑ i ∈ s.arrived, (s.phase i).tail.toNat := by
  rw [Server.slow, Finset.card_filter]
  refine Finset.sum_congr rfl fun i _ => ?_
  cases (s.phase i).tail <;> rfl

theorem wrap_add_one {x : ℤ} (y : ℤ) (h : x = wrap y) : wrap (x + 1) = wrap (y + 1) := by
  rw [h, wrap, wrap, Int.bmod_add_bmod]
  rfl

namespace Inv

variable {s s' : Server ι} {cfg : Config} {i : ι} {a : Action ι}

omit [DecidableEq ι] in
theorem start : Inv (.start : Server ι) := by
  refine ⟨by simp [Server.start, wrap], ?_, by simp [Server.start, slow_card, wrap]⟩
  intro i
  simp [Server.start]

/-- A sum over the requests, after one more has been counted. -/
theorem sum_add (hs : Inv s) (hi : s.phase i = .waiting) (g : Phase → ℕ) :
    ∑ j ∈ (s.add i).arrived, g ((s.add i).phase j) =
      ∑ j ∈ s.arrived, g (s.phase j) +
        g (.counted (s.arrived.card + 1) (wrap (s.served + 1))) := by
  have hnew : i ∉ s.arrived := fun h => (hs.arrived i).mp h hi
  have hrest := sum_update_of_notMem (f := s.phase) hnew g
    (.counted (s.arrived.card + 1) (wrap (s.served + 1)))
  change ∑ j ∈ insert i s.arrived, g (Function.update s.phase i _ j) = _
  rw [Finset.sum_insert hnew, hrest, Function.update_self]
  exact Nat.add_comm _ _

/-- A sum over the requests, after one of them has moved on. -/
theorem sum_move (hs : Inv s) (hi : s.phase i ≠ .waiting) (g : Phase → ℕ) (p : Phase) :
    ∑ j ∈ s.arrived, g (Function.update s.phase i p j) + g (s.phase i) =
      ∑ j ∈ s.arrived, g (s.phase j) + g p :=
  sum_update ((hs.arrived i).mpr hi) g p

theorem arrived_move (hs : Inv s) (hi : s.phase i ≠ .waiting) {p : Phase} (hp : p ≠ .waiting)
    (j : ι) : j ∈ s.arrived ↔ Function.update s.phase i p j ≠ .waiting := by
  by_cases hj : j = i
  · subst hj
    rw [Function.update_self]
    exact iff_of_true ((hs.arrived j).mpr hi) hp
  · rw [Function.update_of_ne hj]
    exact hs.arrived j

theorem add (hs : Inv s) (hi : s.phase i = .waiting) : Inv (s.add i) := by
  have hnew : i ∉ s.arrived := fun h => (hs.arrived i).mp h hi
  refine ⟨?_, ?_, ?_⟩
  · change wrap (s.served + 1) = wrap (insert i s.arrived).card
    rw [Finset.card_insert_of_notMem hnew, wrap_add_one _ hs.served]
    push_cast
    rfl
  · intro j
    change j ∈ insert i s.arrived ↔ Function.update s.phase i _ j ≠ .waiting
    rw [Finset.mem_insert]
    by_cases hj : j = i
    · simp [hj]
    · rw [Function.update_of_ne hj, ← hs.arrived j]
      simp [hj]
  · rw [slow_card, hs.sum_add hi (·.tail.toNat), ← slow_card]
    exact hs.tails

theorem load (hs : Inv s) {o : ℕ} {n : ℤ} (hi : s.phase i = .counted o n) :
    Inv (s.load cfg i n) := by
  have hne : s.phase i ≠ .waiting := by simp [hi]
  refine ⟨hs.served, hs.arrived_move hne (by simp), ?_⟩
  have hsum := hs.sum_move hne (·.tail.toNat) (.decided n (tailFires cfg s.served))
  rw [hi] at hsum
  rw [slow_card]
  exact hs.tails.trans (by rw [slow_card]; exact congrArg (fun k : ℕ => wrap k) hsum.symm)

theorem finish (hs : Inv s) {n : ℤ} {slow : Bool} (hi : s.phase i = .decided n slow) :
    Inv (s.finish cfg i n slow) := by
  have hne : s.phase i ≠ .waiting := by simp [hi]
  refine ⟨hs.served, hs.arrived_move hne (by simp), ?_⟩
  have hsum := hs.sum_move hne (·.tail.toNat)
    (.answered ⟨n, if slow then cfg.tailMS else cfg.fastMS, slow⟩)
  rw [hi, ← slow_card] at hsum
  have hcard : (s.finish cfg i n slow).slow.card = s.slow.card + slow.toNat := by
    rw [slow_card]
    exact hsum
  change (if slow then wrap (s.tails + 1) else s.tails) = _
  rw [hcard]
  cases slow with
  | false => simpa using hs.tails
  | true => simpa using wrap_add_one _ hs.tails

/-- **What every operation keeps.** -/
theorem step (hs : Inv s) (h : step cfg s a = some s') : Inv s' := by
  obtain ⟨i, -, hi, rfl⟩ | ⟨i, o, n, -, hi, rfl⟩ | ⟨i, n, slow, -, hi, rfl⟩ := step_cases h
  · exact hs.add hi
  · exact hs.load hi
  · exact hs.finish hi

end Inv

/-! ### The requests that are due -/

/-- One for a request that is, or by its ordinal should be, made to wait. -/
def Phase.due (cfg : Config) : Phase → ℕ
  | .waiting => 0
  | .counted ordinal _ => if cfg.tailEvery ∣ (ordinal : ℤ) then 1 else 0
  | .decided _ slow => slow.toNat
  | .answered a => a.tail.toNat

omit [DecidableEq ι] in
/-- As many requests are due as there are multiples of `tailEvery` among the ordinals. -/
def Tallied (cfg : Config) (s : Server ι) : Prop :=
  ∑ i ∈ s.arrived, (s.phase i).due cfg = s.arrived.card / cfg.tailEvery.toNat

variable {s s' : Server ι} {cfg : Config} {i : ι} {a : Action ι}

omit [DecidableEq ι] in
theorem Tallied.start (cfg : Config) : Tallied cfg (.start : Server ι) := by
  simp [Tallied, Server.start]

theorem Tallied.add (hs : Inv s) (hpos : 0 < cfg.tailEvery) (ht : Tallied cfg s)
    (hi : s.phase i = .waiting) : Tallied cfg (s.add i) := by
  have hnew : i ∉ s.arrived := fun h => (hs.arrived i).mp h hi
  have hcard : (s.add i).arrived.card = s.arrived.card + 1 := Finset.card_insert_of_notMem hnew
  obtain ⟨m, hm⟩ := Int.eq_ofNat_of_zero_le (le_of_lt hpos)
  rw [Tallied, hs.sum_add hi (Phase.due cfg), hcard, ht, hm, Int.toNat_natCast]
  by_cases hdvd : m ∣ s.arrived.card + 1
  · rw [Nat.succ_div_of_dvd hdvd, Phase.due, if_pos]
    rw [hm]
    exact_mod_cast hdvd
  · rw [Nat.succ_div_of_not_dvd hdvd, Phase.due, if_neg, Nat.add_zero]
    rw [hm]
    exact_mod_cast hdvd

theorem Tallied.load (hs : Inv s) (hon : cfg.tailEnabled = true) (hpos : 0 < cfg.tailEvery)
    (ht : Tallied cfg s) {o : ℕ} {n : ℤ} (hi : s.phase i = .counted o n)
    (hok : Undisturbed cfg s (.load i)) : Tallied cfg (s.load cfg i n) := by
  have hne : s.phase i ≠ .waiting := by simp [hi]
  have hsame : (Phase.decided n (tailFires cfg s.served)).due cfg = (s.phase i).due cfg := by
    have hdvd : cfg.tailEvery ∣ s.served ↔ cfg.tailEvery ∣ (o : ℤ) := by
      simpa [Undisturbed, Phase.Undisturbed, hi] using hok
    rw [hi, Phase.due, Phase.due]
    by_cases hfire : cfg.tailEvery ∣ s.served
    · rw [(tailFires_eq_true hon hpos _).mpr hfire, if_pos (hdvd.mp hfire)]
      rfl
    · rw [Bool.eq_false_iff.mpr fun h => hfire ((tailFires_eq_true hon hpos _).mp h),
        if_neg fun h => hfire (hdvd.mpr h)]
      rfl
  have hsum := hs.sum_move hne (Phase.due cfg) (.decided n (tailFires cfg s.served))
  rw [hsame] at hsum
  exact (Nat.add_right_cancel hsum).trans ht

theorem Tallied.finish (hs : Inv s) (ht : Tallied cfg s) {n : ℤ} {slow : Bool}
    (hi : s.phase i = .decided n slow) : Tallied cfg (s.finish cfg i n slow) := by
  have hne : s.phase i ≠ .waiting := by simp [hi]
  have hsum := hs.sum_move hne (Phase.due cfg)
    (.answered ⟨n, if slow then cfg.tailMS else cfg.fastMS, slow⟩)
  rw [hi] at hsum
  exact (Nat.add_right_cancel hsum).trans ht

/-- **The tally over one operation.** -/
theorem Tallied.step (hs : Inv s) (hon : cfg.tailEnabled = true) (hpos : 0 < cfg.tailEvery)
    (ht : Tallied cfg s) (hok : Undisturbed cfg s a) (h : step cfg s a = some s') :
    Tallied cfg s' := by
  obtain ⟨i, -, hi, rfl⟩ | ⟨i, o, n, rfl, hi, rfl⟩ | ⟨i, n, slow, -, hi, rfl⟩ := step_cases h
  · exact ht.add hs hpos hi
  · exact ht.load hs hon hpos hi hok
  · exact ht.finish hs hi

omit [DecidableEq ι] in
/-- At rest, a request is due just if it has been made to wait. -/
theorem slow_card_of_atRest (hrest : s.AtRest) :
    s.slow.card = ∑ i ∈ s.arrived, (s.phase i).due cfg := by
  rw [slow_card]
  refine Finset.sum_congr rfl fun i _ => ?_
  have hi := hrest i
  cases hp : s.phase i with
  | waiting => rfl
  | answered a => rfl
  | counted _ _ => simp [hp, Phase.AtRest] at hi
  | decided _ _ => simp [hp, Phase.AtRest] at hi

omit [DecidableEq ι] in
/-- A load right after the request's own count is undisturbed. -/
theorem undisturbed_of_last (hs : Inv s) {n : ℤ} (hi : s.phase i = .counted s.arrived.card n)
    (hsmall : s.arrived.card < 2 ^ 63) : Undisturbed cfg s (.load i) := by
  have hserved : s.served = s.arrived.card := by
    rw [hs.served, wrap]
    apply Int.bmod_eq_of_le <;> omega
  simp only [Undisturbed, Phase.Undisturbed, hi, hserved]

/-- **One request in `tailEvery` is slow** after a run in which every load is undisturbed. -/
theorem slow_card_of_undisturbed (hon : cfg.tailEnabled = true) (hpos : 0 < cfg.tailEvery)
    {as : List (Action ι)} (hok : AllSteps (Undisturbed cfg) (Pricing.step cfg) .start as)
    (hrun : exec (Pricing.step cfg) .start as = some s) (hrest : s.AtRest) :
    (s.slow.card : ℤ) = s.arrived.card / cfg.tailEvery := by
  have htally : Inv s ∧ Tallied cfg s := by
    refine exec_forall (P := fun s => Inv s ∧ Tallied cfg s) ⟨Inv.start, Tallied.start cfg⟩ ?_ as
      (allSteps_iff.mp hok) as s List.prefix_rfl hrun
    rintro s₁ a s₂ ⟨hs, ht⟩ ha h
    exact ⟨hs.step h, ht.step hs hon hpos ha h⟩
  obtain ⟨m, hm⟩ := Int.eq_ofNat_of_zero_le (le_of_lt hpos)
  rw [slow_card_of_atRest hrest, htally.2, hm, Int.toNat_natCast]
  push_cast
  rfl

/-- The condition at work: two requests, each of which loads before the other is counted. -/
theorem slow_card_alternating :
    ∃ s : Server (Fin 2),
      (s.slow.card : ℤ) = s.arrived.card / 2 ∧ s.arrived.card = 2 := by
  let cfg : Config := ⟨true, 2, 900, 8⟩
  let as : List (Action (Fin 2)) := [.add 0, .load 0, .finish 0, .add 1, .load 1, .finish 1]
  have hrun : ((exec (step cfg) .start as).map fun s => (s.arrived.card, decide s.AtRest)) =
      some (2, true) := by decide
  obtain ⟨s, hs, hobs⟩ := Option.map_eq_some_iff.mp hrun
  have hcard : s.arrived.card = 2 := congrArg (·.1) hobs
  have hrest : s.AtRest := of_decide_eq_true (congrArg (·.2) hobs)
  have hok : AllSteps (Undisturbed cfg) (step cfg) .start as := by decide
  have hpos : 0 < cfg.tailEvery := by decide
  exact ⟨s, slow_card_of_undisturbed rfl hpos hok hs hrest, hcard⟩

/-- Two requests are counted before either of them loads, and both are slow. -/
theorem not_slow_card : ¬ ∀ (cfg : Config) (as : List (Action (Fin 2))) (s : Server (Fin 2)),
    cfg.tailEnabled = true → 0 < cfg.tailEvery → exec (step cfg) .start as = some s → s.AtRest →
      (s.slow.card : ℤ) = s.arrived.card / cfg.tailEvery := by
  intro h
  have hrun : ((exec (step ⟨true, 2, 900, 8⟩) .start
      [.add 0, .add 1, .load 0, .load 1, .finish 0, .finish (1 : Fin 2)]).map fun s =>
        (s.slow.card, s.arrived.card, decide s.AtRest)) = some (2, 2, true) := by decide
  obtain ⟨s, hs, hobs⟩ := Option.map_eq_some_iff.mp hrun
  have hslow : s.slow.card = 2 := congrArg (·.1) hobs
  have harrived : s.arrived.card = 2 := congrArg (·.2.1) hobs
  have hrest : s.AtRest := of_decide_eq_true (congrArg (·.2.2) hobs)
  have hfloor := h ⟨true, 2, 900, 8⟩ _ s rfl (by decide) hs hrest
  rw [hslow, harrived] at hfloor
  exact absurd hfloor (by decide)

end Pricing
end SepLab
