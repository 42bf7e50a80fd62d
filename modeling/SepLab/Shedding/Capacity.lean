import Mathlib.Data.List.GetD
import SepLab.Shedding.Lab

/-!
# How many requests the lab's shedder lets in

The counter `inflight` against the requests it counts, whoever is woken, overtaken or
timed out in between.

## Main definitions

* `Counted` — the counter says who runs, and has not passed the limit.

## Main results

* `ceiling_le` — no tier may use more than the limit.
* `Counted.step` — every step keeps the count.
* `inflight_within_limit` — the count in every reachable state, and what an admission and
  a release find there.
-/

namespace SepLab
namespace Shedding
namespace Lab

/-! ### The ceilings -/

theorem tierFraction_le (n : ℕ) : tierFraction.getD n 0 ≤ 1 := by
  by_cases hn : n < tierFraction.length
  · have hall : ∀ q ∈ tierFraction, q ≤ 1 := by decide +kernel
    rw [List.getD_eq_getElem _ _ hn]
    exact hall _ (List.getElem_mem hn)
  · rw [List.getD_eq_default _ _ (not_lt.mp hn)]
    exact zero_le_one

theorem toInt_le {x : ℚ} {n : ℤ} (h : x ≤ n) : toInt x ≤ n := by
  unfold toInt
  split
  · exact Int.ceil_le.mpr h
  · exact Int.cast_le.mp ((Int.floor_le x).trans h)

/-- No tier may use more than the limit. -/
theorem ceiling_le {mode : Mode} (hmode : mode = .static ∨ mode = .priority) {limit : ℤ}
    (hlimit : 1 ≤ limit) (tier : ℤ) : ceiling mode limit tier ≤ limit := by
  rcases hmode with rfl | rfl
  · exact le_rfl
  · refine max_le hlimit (toInt_le ?_)
    -- a fraction of the limit, which is not negative
    have hlimit' : (0 : ℚ) ≤ limit := by exact_mod_cast zero_le_one.trans hlimit
    exact mul_le_of_le_one_right hlimit' (tierFraction_le _)

variable {ι : Type} [DecidableEq ι] {mode : Mode} {limit : ℤ} {tier : ι → ℤ}
  {s s' : Shedder ι} {i : ι}

/-! ### The count -/

omit [DecidableEq ι] in
/-- The counter is the number of the requests that run, which the limit bounds. -/
structure Counted (limit : ℤ) (s : Shedder ι) : Prop where
  queue : Listed s.queue s.phase .waiting
  running : Listed s.running s.phase .admitted
  inflight : s.inflight = s.running.length
  le : s.inflight ≤ limit

omit [DecidableEq ι] in
theorem Counted.init (hlimit : 1 ≤ limit) (gradient : ℤ) :
    Counted limit (.init gradient : Shedder ι) where
  queue := .nil fun i => by simp [Shedder.init]
  running := .nil fun i => by simp [Shedder.init]
  inflight := rfl
  le := zero_le_one.trans hlimit

omit [DecidableEq ι] in
/-- Whoever runs is counted. -/
theorem Counted.pos (h : Counted limit s) (hphase : s.phase i = .admitted) : 1 ≤ s.inflight := by
  have hlength : 0 < s.running.length := List.length_pos_of_mem ((h.running.mem i).mpr hphase)
  have hinflight := h.inflight
  omega

/-- A request goes on that runs neither before nor after. -/
theorem Counted.enter {p : Phase} (h : Counted limit s) (hold : s.phase i ≠ .admitted)
    (hnew : p ≠ .admitted) (hqueue : Listed s'.queue s'.phase .waiting)
    (hphase : s'.phase = Function.update s.phase i p)
    (hinflight : s'.inflight = s.inflight) (hrunning : s'.running = s.running) :
    Counted limit s' where
  queue := hqueue
  running := by
    rw [hrunning, hphase]
    exact h.running.other hold hnew
  inflight := by rw [hinflight, hrunning, h.inflight]
  le := hinflight ▸ h.le

/-- A notified waiter does not run yet. -/
theorem Counted.notify (h : Counted limit s) : Counted limit s.notify := by
  unfold Shedder.notify
  split
  · exact h
  · next j q hq =>
    have hphase : s.phase j = .waiting := by
      rw [← h.queue.mem, hq]
      exact List.mem_cons_self
    have hqueue := h.queue.leave (i := j) (p := .notified) (by simp)
    rw [hq, List.erase_cons_head] at hqueue
    exact h.enter (p := .notified) (by simp [hphase]) (by simp) hqueue rfl rfl rfl

/-- **A turn of the loop of `acquire`** admits a request only below its ceiling. -/
theorem Counted.turn (h : Counted limit s) (hwait : s.phase i ≠ .waiting)
    (hold : s.phase i ≠ .admitted) (late : Bool) {n : ℤ} (hn : n ≤ limit) :
    Counted limit (s.turn i late (some n)) := by
  unfold Shedder.turn
  simp only
  split
  · split
    · exact h.enter (p := .refused) hold (by simp) (h.queue.other hwait (by simp)) rfl rfl rfl
    · exact h.enter (p := .waiting) hold (by simp) (h.queue.enter hwait) rfl rfl rfl
  · next hroom =>
    refine ⟨h.queue.other hwait (by simp), h.running.enter hold, ?_, ?_⟩
    · show s.inflight + 1 = ((s.running ++ [i]).length : ℤ)
      rw [List.length_append, List.length_singleton, h.inflight]
      push_cast
      rfl
    · show s.inflight + 1 ≤ limit
      omega

/-- **A slot becomes free**, and the clamp of the counter at zero has no effect. -/
theorem Counted.release (h : Counted limit s) (hphase : s.phase i = .admitted) :
    Counted limit (s.release i) := by
  have hpos := h.pos hphase
  have hlength := h.running.length_erase hphase
  have hinflight := h.inflight
  have hle := h.le
  refine Counted.notify ⟨?_, ?_, ?_, ?_⟩
  · exact h.queue.other (by simp [hphase]) (by simp)
  · exact h.running.leave (by simp)
  · show max 0 (s.inflight - 1) = ((s.running.erase i).length : ℤ)
    omega
  · show max 0 (s.inflight - 1) ≤ limit
    omega

/-- **Every step keeps the count.** -/
theorem Counted.step (hmode : mode = .static ∨ mode = .priority) (hlimit : 1 ≤ limit)
    (s : Shedder ι) (a : Action ι) (s' : Shedder ι) (h : Counted limit s)
    (hs : step mode limit tier s a = some s') : Counted limit s' := by
  cases a with
  | acquire i late =>
    simp only [Lab.step] at hs
    split at hs
    · next hphase =>
      obtain rfl := Option.some_inj.mp hs
      rw [allowance_eq hmode]
      exact h.turn (by simp [hphase]) (by simp [hphase]) late (ceiling_le hmode hlimit _)
    · cases hs
  | wake i late =>
    simp only [Lab.step] at hs
    split at hs
    · next hphase =>
      obtain rfl := Option.some_inj.mp hs
      rw [allowance_eq hmode]
      -- the list of wake-ups does not count
      have h' : Counted limit { s with woken := s.woken.erase i } :=
        ⟨h.queue, h.running, h.inflight, h.le⟩
      exact h'.turn (by simp [hphase]) (by simp [hphase]) late (ceiling_le hmode hlimit _)
    · cases hs
  | expire i =>
    simp only [Lab.step] at hs
    split at hs
    · next hphase =>
      obtain rfl := Option.some_inj.mp hs
      exact h.enter (p := .timedOut false) (by simp [hphase]) (by simp)
        (h.queue.leave (by simp)) rfl rfl rfl
    · next hphase =>
      obtain rfl := Option.some_inj.mp hs
      exact h.enter (p := .timedOut true) (by simp [hphase]) (by simp)
        (h.queue.other (by simp [hphase]) (by simp)) rfl rfl rfl
    · cases hs
  | giveUp i =>
    simp only [Lab.step] at hs
    split at hs
    · next after hphase =>
      obtain rfl := Option.some_inj.mp hs
      refine Counted.notify ?_
      exact h.enter (p := .refused) (by simp [hphase]) (by simp)
        (h.queue.other (by simp [hphase]) (by simp)) rfl rfl rfl
    · cases hs
  | release i =>
    simp only [Lab.step] at hs
    split at hs
    · next hphase =>
      obtain rfl := Option.some_inj.mp hs
      exact h.release hphase
    · cases hs
  | observe gradient =>
    obtain rfl := Option.some_inj.mp hs
    exact ⟨h.queue, h.running, h.inflight, h.le⟩

/-! ### Admissions -/

/-- A change to another phase than `admitted` admits nobody. -/
theorem update_admitted {p : Phase} {j : ι} (hold : s.phase i ≠ .admitted) (hp : p ≠ .admitted) :
    Function.update s.phase j p i ≠ .admitted := by
  by_cases hj : i = j
  · rw [hj, Function.update_self]
    exact hp
  · rw [Function.update_of_ne hj]
    exact hold

/-- Who comes to run in a turn of `acquire` is the one whose turn it is, below its allowance. -/
theorem turn_admitted {late : Bool} {n : ℤ} {j : ι} (hold : s.phase j ≠ .admitted)
    (hnew : (s.turn i late (some n)).phase j = .admitted) :
    j = i ∧ s.inflight < n := by
  unfold Shedder.turn at hnew
  simp only at hnew
  split at hnew
  · split at hnew
    · exact absurd hnew (update_admitted hold (by simp))
    · exact absurd hnew (update_admitted hold (by simp))
  · next hroom =>
    refine ⟨?_, not_le.mp hroom⟩
    by_contra hj
    have hsame : (s.letIn i).phase j = s.phase j := Function.update_of_ne hj _ _
    exact hold (hsame ▸ hnew)

@[simp] theorem inflight_notify (s : Shedder ι) : s.notify.inflight = s.inflight := by
  unfold Shedder.notify
  split
  · rfl
  · rfl

theorem notify_admitted (h : s.notify.phase i = .admitted) : s.phase i = .admitted := by
  unfold Shedder.notify at h
  split at h
  · exact h
  · next j q hq =>
    by_contra hold
    exact update_admitted (p := .notified) hold (by simp) h

/-- **An admission finds fewer in flight than its tier is allowed.** -/
theorem step_admitted (hmode : mode = .static ∨ mode = .priority) {a : Action ι}
    (hs : step mode limit tier s a = some s') (hold : s.phase i ≠ .admitted)
    (hnew : s'.phase i = .admitted) : s.inflight < ceiling mode limit (tier i) := by
  cases a with
  | acquire j late =>
    simp only [Lab.step] at hs
    split at hs
    · obtain rfl := Option.some_inj.mp hs
      rw [allowance_eq hmode] at hnew
      obtain ⟨rfl, hroom⟩ := turn_admitted hold hnew
      exact hroom
    · cases hs
  | wake j late =>
    simp only [Lab.step] at hs
    split at hs
    · obtain rfl := Option.some_inj.mp hs
      rw [allowance_eq hmode] at hnew
      obtain ⟨rfl, hroom⟩ := turn_admitted (s := { s with woken := s.woken.erase j }) hold hnew
      exact hroom
    · cases hs
  | expire j =>
    simp only [Lab.step] at hs
    split at hs
    · obtain rfl := Option.some_inj.mp hs
      exact absurd hnew (update_admitted hold (by simp))
    · obtain rfl := Option.some_inj.mp hs
      exact absurd hnew (update_admitted hold (by simp))
    · cases hs
  | giveUp j =>
    simp only [Lab.step] at hs
    split at hs
    · obtain rfl := Option.some_inj.mp hs
      exact absurd (notify_admitted hnew) (update_admitted hold (by simp))
    · cases hs
  | release j =>
    simp only [Lab.step] at hs
    split at hs
    · obtain rfl := Option.some_inj.mp hs
      exact absurd (notify_admitted hnew) (update_admitted hold (by simp))
    · cases hs
  | observe gradient =>
    obtain rfl := Option.some_inj.mp hs
    exact absurd hnew hold

/-- **The counter is the number of the requests in flight, and at most the limit.**  Each tier
is admitted below its own allowance, and the clamp in `release` has no effect. -/
theorem inflight_within_limit (hmode : mode = .static ∨ mode = .priority) (hlimit : 1 ≤ limit)
    (gradient : ℤ) (hs : Reach (step mode limit tier) (.init gradient) s) :
    (∃ rs : List ι, rs.Nodup ∧ (∀ i, i ∈ rs ↔ s.phase i = .admitted) ∧
      s.inflight = rs.length) ∧
    s.inflight ≤ limit ∧
    (∀ a s' i, step mode limit tier s a = some s' → s.phase i ≠ .admitted →
      s'.phase i = .admitted → ∃ n, allowance mode limit s.gradient (tier i) = some n ∧
        s.inflight ≤ n - 1) ∧
    ∀ i s', step mode limit tier s (.release i) = some s' → s'.inflight = s.inflight - 1 := by
  have hcount : Counted limit s :=
    hs.invariant (Counted.init hlimit gradient) (Counted.step hmode hlimit)
  refine ⟨⟨s.running, hcount.running.nodup, hcount.running.mem, hcount.inflight⟩, hcount.le, ?_, ?_⟩
  · intro a s' i hstep hold hnew
    exact ⟨_, allowance_eq hmode _ _ _, Int.le_sub_one_of_lt (step_admitted hmode hstep hold hnew)⟩
  · intro i s' hstep
    simp only [Lab.step] at hstep
    split at hstep
    · next hphase =>
      obtain rfl := Option.some_inj.mp hstep
      have hpos := hcount.pos hphase
      rw [Shedder.release, inflight_notify]
      show max 0 (s.inflight - 1) = s.inflight - 1
      exact max_eq_right (by omega)
    · cases hstep

/-- Two requests of tier 0 fill a limit of two, next to which tier 3 waits. -/
theorem inflight_within_limit_full :
    ∃ s : Shedder ℕ, exec (step .priority 2 fun i => if i = 2 then 3 else 0) (.init 10)
        [.acquire 0 false, .acquire 1 false, .acquire 2 false] = some s ∧
      s.inflight = 2 ∧ s.inflight ≤ 2 := by
  have hrun : ((exec (step .priority 2 fun i => if i = 2 then 3 else 0) (.init 10)
      [.acquire 0 false, .acquire 1 false, .acquire 2 false]).map
        fun s : Shedder ℕ => s.inflight) = some 2 := by decide +kernel
  obtain ⟨s, hs, hinflight⟩ := Option.map_eq_some_iff.mp hrun
  refine ⟨s, hs, hinflight, ?_⟩
  exact (inflight_within_limit (Or.inr rfl) (by decide) 10 (.of_exec _ hs)).2.1

end Lab
end Shedding
end SepLab
