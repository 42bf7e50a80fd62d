import Mathlib.Data.Rat.Defs
import SepLab.Lib.Listed
import SepLab.Lib.Semaphore
import SepLab.Lib.Transition

/-!
# Admission control with a semaphore and a counter

The load-shedding topic's Python `Admission`.  Tier 0 takes a permit of a semaphore;
in mode `priority` the other tiers take none, and look at the number of requests
in flight instead.  A call of `admit` runs without interruption up to the wait for a
permit, and again from the end of that wait.

## Main definitions

* `State`, `Action`, `Admission.step` — `admit` and `release` of any number of requests.
* `Within` — the limits that mode `priority` is meant to keep.
* `HasRoom` — a request of tier 0 leaves the permits that the other tiers should hold.

## Main results

* `Inv.step` — the counter and the semaphore count what they should.
* `within_iff_hasRoom` — the limits hold exactly as long as tier 0 leaves those permits.
* `not_within_tenLow` — ten requests of tier 3 and three of tier 0 are admitted together.
-/

namespace SepLab
namespace Shedding

/-- The modes of `Admission`. -/
inductive Mode
  | none
  | static
  | priority
  | adaptive
deriving DecidableEq

/-- `SHED_LIMIT` -/
def shedLimit : ℕ := 12

/-- `TIER3_LIMIT` -/
def tier3Limit : ℕ := 10

namespace Python

/-- Where a request stands. -/
inductive Phase
  | idle
  /-- It waits for a permit. -/
  | waiting
  /-- `SHED_WAIT_S` has passed, and the wait is cancelled. -/
  | timedOut
  | admitted
  | refused
  | released
deriving DecidableEq

/-- An `Admission`, its requests, and those admitted and not released. -/
structure State (ι : Type) where
  sem : Semaphore ι
  inflight : ℤ
  /-- `limiter.limit` -/
  limit : ℚ
  phase : ι → Phase
  running : List ι

/-- What happens to the requests. -/
inductive Action (ι : Type)
  /-- `admit`, up to its wait. -/
  | admission (i : ι)
  /-- The wait times out. -/
  | timeout (i : ι)
  /-- The request runs again, with a permit. -/
  | resume (i : ι)
  /-- The request runs again, with a `TimeoutError`. -/
  | giveUp (i : ι)
  | release (i : ι)
  /-- The limiter changes its mind. -/
  | update (limit : ℚ)

variable {ι : Type} [DecidableEq ι]

/-- `uses_sem` -/
def usesSem (mode : Mode) (tier : ℤ) : Bool :=
  match mode with
  | .none | .adaptive => false
  | .priority => decide (tier ≤ 0)
  | .static => true

namespace State

/-- An `Admission` without requests. -/
def init (limit : ℚ) : State ι := ⟨.init shedLimit, 0, limit, fun _ => .idle, []⟩

/-- The request `i` goes on to `p`. -/
def enter (s : State ι) (i : ι) (p : Phase) : State ι :=
  { s with phase := Function.update s.phase i p }

/-- `self.inflight += 1`, and the request is admitted. -/
def accept (s : State ι) (i : ι) : State ι :=
  { s with
    inflight := s.inflight + 1
    running := s.running ++ [i] }.enter i .admitted

/-- `await asyncio.wait_for(self.sem.acquire(), SHED_WAIT_S)`, up to its wait if there is one. -/
def acquire (s : State ι) (i : ι) : State ι :=
  if s.sem.locked then { s with sem := s.sem.wait i }.enter i .waiting
  else { s with sem := s.sem.take }.accept i

/-- `admit` -/
def admission (mode : Mode) (tier : ι → ℤ) (s : State ι) (i : ι) : State ι :=
  match mode with
  | .none => s.accept i
  | .adaptive => if s.limit ≤ s.inflight then s.enter i .refused else s.accept i
  | .priority =>
    if 0 < tier i then
      if tier3Limit ≤ s.inflight then s.enter i .refused else s.accept i
    else s.acquire i
  | .static => s.acquire i

/-- `release` -/
def release (s : State ι) (i : ι) (admittedViaSem : Bool) : State ι :=
  { s with
    inflight := s.inflight - 1
    running := s.running.erase i
    sem := if admittedViaSem then s.sem.release else s.sem }.enter i .released

end State

/-- One step: each request calls `admit` once, and `release(uses_sem(tier))` once if admitted. -/
def step (mode : Mode) (tier : ι → ℤ) (s : State ι) : Action ι → Option (State ι)
  | .admission i =>
    match s.phase i with
    | .idle => some (s.admission mode tier i)
    | _ => none
  | .timeout i =>
    match s.phase i with
    | .waiting => some ({ s with sem := s.sem.cancel i }.enter i .timedOut)
    | _ => none
  | .resume i =>
    match s.phase i with
    | .waiting =>
      if s.sem.GrantedTo i then some ({ s with sem := s.sem.resume i }.accept i) else none
    | _ => none
  | .giveUp i =>
    match s.phase i with
    | .timedOut => some ({ s with sem := s.sem.giveUp i }.enter i .refused)
    | _ => none
  | .release i =>
    match s.phase i with
    | .admitted => some (s.release i (usesSem mode (tier i)))
    | _ => none
  | .update limit => some { s with limit := limit }

/-! ### The limits of mode `priority` -/

variable (tier : ι → ℤ)

omit [DecidableEq ι] in
/-- The number of requests in flight that are not of tier 0. -/
def State.low (s : State ι) : ℕ := s.running.countP fun i => decide (0 < tier i)

omit [DecidableEq ι] in
/-- The number of requests of tier 0 in flight. -/
def State.high (s : State ι) : ℕ := s.running.countP fun i => decide (tier i ≤ 0)

omit [DecidableEq ι] in
/-- At most `SHED_LIMIT` requests are in flight, and at most `TIER3_LIMIT` of them are not of
tier 0, which leaves the reserved permits to tier 0. -/
def Within (s : State ι) : Prop := s.running.length ≤ shedLimit ∧ s.low tier ≤ tier3Limit

/-- A request of tier 0 that gets a permit leaves one for each request of another tier that
is in flight: those hold none. -/
def HasRoom (s : State ι) : Action ι → Prop
  | .admission i => s.phase i = .idle → tier i ≤ 0 → s.sem.locked = false →
      s.low tier < s.sem.permits
  | .resume i => s.phase i = .waiting → s.sem.GrantedTo i → s.low tier < s.sem.permits
  | _ => True

omit [DecidableEq ι] in
/-- The counter counts the requests in flight, and the semaphore those of tier 0. -/
structure Inv (s : State ι) : Prop where
  inflight : s.inflight = s.running.length
  running : Listed s.running s.phase .admitted
  low : s.low tier ≤ tier3Limit
  permits : s.sem.permits + s.high tier = shedLimit
  waiting : ∀ i, s.phase i = .waiting ∨ s.phase i = .timedOut → tier i ≤ 0

variable {tier} {s s' : State ι} {i : ι}

omit [DecidableEq ι] in
theorem Inv.init (limit : ℚ) : Inv tier (.init limit) where
  inflight := rfl
  running := .nil fun i => by simp [State.init]
  low := Nat.zero_le _
  permits := rfl
  waiting i hi := by simp [State.init] at hi

omit [DecidableEq ι] in
/-- What is in flight is of tier 0 or not. -/
theorem State.low_add_high (s : State ι) : s.low tier + s.high tier = s.running.length := by
  rw [List.length_eq_countP_add_countP (fun i => decide (0 < tier i))]
  unfold State.low State.high
  congr 2
  funext i
  simp

/-- Only those of tier 0 wait, if the one that goes on is one of them. -/
theorem Inv.waiting_update (h : Inv tier s) {p : Phase}
    (hp : p = .waiting ∨ p = .timedOut → tier i ≤ 0) (j : ι)
    (hj : Function.update s.phase i p j = .waiting ∨ Function.update s.phase i p j = .timedOut) :
    tier j ≤ 0 := by
  by_cases hji : j = i
  · subst hji
    rw [Function.update_self] at hj
    exact hp hj
  · rw [Function.update_of_ne hji] at hj
    exact h.waiting j hj

/-- A request goes on that is not in flight before or after. -/
theorem Inv.enter (h : Inv tier s) {p : Phase} (sem : Semaphore ι)
    (hold : s.phase i ≠ .admitted) (hnew : p ≠ .admitted) (hsem : sem.permits = s.sem.permits)
    (hwait : p = .waiting ∨ p = .timedOut → tier i ≤ 0) :
    Inv tier ({ s with sem := sem }.enter i p) := by
  refine ⟨h.inflight, h.running.other hold hnew, h.low, ?_, h.waiting_update hwait⟩
  show sem.permits + s.high tier = shedLimit
  rw [hsem]
  exact h.permits

/-- A request is admitted: below the limit of its tier, or with a permit. -/
theorem Inv.accept (h : Inv tier s) (sem : Semaphore ι) (hold : s.phase i ≠ .admitted)
    (hlow : 0 < tier i → s.low tier < tier3Limit ∧ sem.permits = s.sem.permits)
    (hhigh : tier i ≤ 0 → sem.permits + 1 = s.sem.permits) :
    Inv tier ({ s with sem := sem }.accept i) := by
  have hle := h.low
  have hpermits := h.permits
  refine ⟨?_, h.running.enter hold, ?_, ?_, h.waiting_update (by simp)⟩
  · show s.inflight + 1 = ((s.running ++ [i]).length : ℤ)
    rw [List.length_append, h.inflight]
    rfl
  · show (s.running ++ [i]).countP _ ≤ _
    unfold State.low at hle hlow
    rw [List.countP_append, List.countP_singleton]
    split
    · next hi =>
      have hlt := (hlow (of_decide_eq_true hi)).1
      omega
    · exact hle
  · show sem.permits + (s.running ++ [i]).countP _ = _
    unfold State.high at hpermits
    rw [List.countP_append, List.countP_singleton]
    split
    · next hi =>
      have hsem := hhigh (of_decide_eq_true hi)
      omega
    · next hi =>
      rw [(hlow (by simpa using hi)).2]
      exact hpermits

/-- A request is released, with its permit if it has one. -/
theorem Inv.release (h : Inv tier s) (hphase : s.phase i = .admitted) :
    Inv tier (s.release i (usesSem .priority (tier i))) := by
  have hle := h.low
  have hpermits := h.permits
  refine ⟨?_, h.running.leave (by simp), ?_, ?_, h.waiting_update (by simp)⟩
  · show s.inflight - 1 = ((s.running.erase i).length : ℤ)
    have hlength := h.running.length_erase hphase
    have hinflight := h.inflight
    omega
  · show (s.running.erase i).countP _ ≤ _
    unfold State.low at hle
    rw [h.running.countP_erase hphase] at hle
    omega
  · show (if usesSem .priority (tier i) then s.sem.release else s.sem).permits +
      (s.running.erase i).countP _ = _
    unfold State.high at hpermits
    rw [h.running.countP_erase hphase] at hpermits
    unfold usesSem
    split at hpermits
    · next hi =>
      rw [if_pos (by simpa using hi), Semaphore.permits_release]
      omega
    · next hi =>
      rw [if_neg (by simpa using hi)]
      exact hpermits

/-- `admit` in mode `priority`. -/
theorem Inv.admission (h : Inv tier s) (hphase : s.phase i = .idle) :
    Inv tier (s.admission .priority tier i) := by
  have hold : s.phase i ≠ .admitted := by simp [hphase]
  unfold State.admission
  simp only
  split
  · next htier =>
    split
    · exact h.enter s.sem hold (by simp) rfl (by simp)
    · next hroom =>
      have hlow : s.low tier + s.high tier = s.running.length := s.low_add_high
      rw [h.inflight] at hroom
      refine h.accept s.sem hold (fun _ => ⟨?_, rfl⟩) fun hle => absurd htier (by omega)
      omega
  · next htier =>
    unfold State.acquire
    split
    · exact h.enter _ hold (by simp) (Semaphore.permits_wait i) fun _ => by omega
    · next hfree =>
      refine h.accept _ hold (fun hlt => absurd hlt htier) fun _ => ?_
      exact Semaphore.permits_take (by simpa using hfree)

/-- **Every step keeps the counts**, whatever tier 0 finds. -/
theorem Inv.step (h : Inv tier s) {a : Action ι} (hs : step .priority tier s a = some s') :
    Inv tier s' := by
  cases a with
  | admission i =>
    simp only [Python.step] at hs
    split at hs
    · next hphase => exact Option.some_inj.mp hs ▸ h.admission hphase
    · cases hs
  | timeout i =>
    simp only [Python.step] at hs
    split at hs
    · next hphase =>
      refine Option.some_inj.mp hs ▸ h.enter _ (by simp [hphase]) (by simp)
        (Semaphore.permits_cancel i) fun _ => h.waiting i (Or.inl hphase)
    · cases hs
  | resume i =>
    simp only [Python.step] at hs
    split at hs
    · next hphase =>
      split at hs
      · next hgranted =>
        have htier := h.waiting i (Or.inl hphase)
        refine Option.some_inj.mp hs ▸ h.accept _ (by simp [hphase]) (fun hlt => by omega)
          fun _ => ?_
        exact Semaphore.permits_resume hgranted
      · cases hs
    · cases hs
  | giveUp i =>
    simp only [Python.step] at hs
    split at hs
    · next hphase =>
      exact Option.some_inj.mp hs ▸ h.enter _ (by simp [hphase]) (by simp)
        (Semaphore.permits_giveUp i) (by simp)
    · cases hs
  | release i =>
    simp only [Python.step] at hs
    split at hs
    · next hphase => exact Option.some_inj.mp hs ▸ h.release hphase
    · cases hs
  | update limit =>
    obtain rfl := Option.some_inj.mp hs
    exact ⟨h.inflight, h.running, h.low, h.permits, h.waiting⟩

theorem length_accept (s : State ι) (i : ι) :
    (s.accept i).running.length = s.running.length + 1 := by
  simp [State.accept, State.enter]

omit [DecidableEq ι] in
/-- There is room exactly while the semaphore has a permit for each request that holds none. -/
theorem Inv.length_lt_iff (h : Inv tier s) :
    s.running.length < shedLimit ↔ s.low tier < s.sem.permits := by
  have hsplit : s.low tier + s.high tier = s.running.length := s.low_add_high
  have hpermits := h.permits
  omega

/-- **A step keeps the limit if tier 0 finds room.**  The other tiers find it by themselves. -/
theorem length_step (h : Inv tier s) (hle : s.running.length ≤ shedLimit) {a : Action ι}
    (ha : HasRoom tier s a) (hs : step .priority tier s a = some s') :
    s'.running.length ≤ shedLimit := by
  cases a with
  | admission i =>
    simp only [Python.step] at hs
    split at hs
    · next hphase =>
      obtain rfl := Option.some_inj.mp hs
      unfold State.admission
      simp only
      split
      · split
        · exact hle
        · next hroom =>
          -- another tier is let in below `TIER3_LIMIT`, which is less than `SHED_LIMIT`
          rw [h.inflight] at hroom
          rw [length_accept]
          unfold shedLimit
          unfold tier3Limit at hroom
          omega
      · next htier =>
        unfold State.acquire
        split
        · exact hle
        · next hfree =>
          have hlt := ha hphase (by omega) (by simpa using hfree)
          rw [length_accept]
          exact h.length_lt_iff.mpr hlt
    · cases hs
  | resume i =>
    simp only [Python.step] at hs
    split at hs
    · next hphase =>
      split at hs
      · next hgranted =>
        obtain rfl := Option.some_inj.mp hs
        rw [length_accept]
        exact h.length_lt_iff.mpr (ha hphase hgranted)
      · cases hs
    · cases hs
  | timeout i =>
    simp only [Python.step] at hs
    split at hs
    · exact Option.some_inj.mp hs ▸ hle
    · cases hs
  | giveUp i =>
    simp only [Python.step] at hs
    split at hs
    · exact Option.some_inj.mp hs ▸ hle
    · cases hs
  | release i =>
    simp only [Python.step] at hs
    split at hs
    · obtain rfl := Option.some_inj.mp hs
      exact Nat.le_trans List.length_erase_le hle
    · cases hs
  | update limit => exact Option.some_inj.mp hs ▸ hle

/-- A request of tier 0 that finds no room makes one too many. -/
theorem hasRoom_of_within (hinv : Inv tier s) {a : Action ι}
    (h : ∀ s', step .priority tier s a = some s' → s'.running.length ≤ shedLimit) :
    HasRoom tier s a := by
  cases a with
  | admission i =>
    intro hphase htier hfree
    -- the semaphore alone lets the request in
    have hlow : ¬ 0 < tier i := by omega
    have hs : step .priority tier s (.admission i) =
        some ({ s with sem := s.sem.take }.accept i) := by
      simp [Python.step, hphase, State.admission, State.acquire, hfree, hlow]
    have hle := h _ hs
    rw [length_accept] at hle
    exact hinv.length_lt_iff.mp hle
  | resume i =>
    intro hphase hgranted
    have hs : step .priority tier s (.resume i) =
        some ({ s with sem := s.sem.resume i }.accept i) := by
      simp [Python.step, hphase, hgranted]
    have hle := h _ hs
    rw [length_accept] at hle
    exact hinv.length_lt_iff.mp hle
  | _ => trivial

/-- **The limits hold exactly as long as tier 0 leaves permits for the others.**  In every
state that a run passes through at most `SHED_LIMIT` requests are in flight and at most
`TIER3_LIMIT` of them are not of tier 0, if and only if each request of tier 0 that gets a
permit finds more of them than requests of other tiers are in flight. -/
theorem within_iff_hasRoom (tier : ι → ℤ) (limit : ℚ) (as : List (Action ι)) :
    (∀ bs s, bs <+: as → exec (step .priority tier) (.init limit) bs = some s → Within tier s) ↔
    ∀ bs a s, bs ++ [a] <+: as → exec (step .priority tier) (.init limit) bs = some s →
      HasRoom tier s a := by
  apply exec_forall_iff (I := Inv tier) (.init limit) (fun _ _ _ h hs => h.step hs)
    ⟨Nat.zero_le _, Nat.zero_le _⟩
  intro s a h hw
  constructor
  · intro ha s' hs
    exact ⟨length_step h hw.1 ha hs, (h.step hs).low⟩
  · intro hnext
    exact hasRoom_of_within h fun s' hs => (hnext s' hs).1

/-- Requests `0` to `9` are of tier 3, the others of tier 0. -/
def tenLow (i : ℕ) : ℤ := if i < 10 then 3 else 0

/-- **Ten requests of tier 3 and three of tier 0 are admitted together**: the semaphore knows
nothing of the ten. -/
theorem not_within_tenLow : ¬ ∀ s : State ℕ, Reach (step .priority tenLow) (.init 10) s →
    s.running.length ≤ shedLimit ∧ s.low tenLow ≤ tier3Limit := by
  intro h
  have hrun : ((exec (step .priority tenLow) (.init 10)
      ((List.range 13).map Action.admission)).map fun s => s.running.length) = some 13 := by
    decide +kernel
  obtain ⟨s, hs, hlength⟩ := Option.map_eq_some_iff.mp hrun
  have hle := (h s (.of_exec _ hs)).1
  rw [hlength] at hle
  exact absurd hle (by decide)

end Python
end Shedding
end SepLab
