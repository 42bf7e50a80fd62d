import Mathlib.Data.List.Basic

/-!
# A semaphore with a queue of cancellable waiters

A counting semaphore as event loops have it: `acquire` takes a permit at once if one
is free and nobody waits, and otherwise queues a future.  A permit that comes
back is granted to the first waiter that is still pending; the waiter leaves the
queue when it next runs, and may have been cancelled by then, which gives the
permit back.

## Main definitions

* `Semaphore` — the free permits, and the waiters with the states of their futures.
* `Semaphore.take`, `Semaphore.wait`, `Semaphore.release` — `acquire` and `release`.
* `Semaphore.cancel`, `Semaphore.resume`, `Semaphore.giveUp` — the ends of a wait.
* `Semaphore.permits` — the permits that are free or granted to a waiter.

## Main results

* `Semaphore.permits_take`, `Semaphore.permits_release`, … — no operation loses a permit.
-/

namespace SepLab

/-- The state of a waiter's future. -/
inductive Fut
  | pending
  | granted
  | cancelled
deriving DecidableEq

/-- The free permits, and the queue of those who wait. -/
structure Semaphore (ι : Type) where
  value : ℕ
  waiters : List (ι × Fut)

namespace Semaphore

variable {ι : Type} [DecidableEq ι]

/-- A semaphore with `n` permits. -/
def init (n : ℕ) : Semaphore ι := ⟨n, []⟩

omit [DecidableEq ι] in
/-- No permit can be taken at once: none is free, or others wait for one. -/
def locked (s : Semaphore ι) : Bool :=
  decide (s.value = 0) || s.waiters.any fun w => decide (w.2 ≠ .cancelled)

omit [DecidableEq ι] in
/-- `acquire` when it is not locked. -/
def take (s : Semaphore ι) : Semaphore ι := { s with value := s.value - 1 }

omit [DecidableEq ι] in
/-- `acquire` when it is locked: `i` queues. -/
def wait (s : Semaphore ι) (i : ι) : Semaphore ι :=
  { s with waiters := s.waiters ++ [(i, .pending)] }

omit [DecidableEq ι] in
/-- The queue after the first pending waiter has got a permit. -/
def grantNext : List (ι × Fut) → Option (List (ι × Fut))
  | [] => none
  | (i, .pending) :: ws => some ((i, .granted) :: ws)
  | w :: ws => (grantNext ws).map (w :: ·)

omit [DecidableEq ι] in
/-- Grant a permit to the first pending waiter, if there is one. -/
def wakeUpNext (s : Semaphore ι) : Option (Semaphore ι) :=
  (grantNext s.waiters).map fun ws => ⟨s.value - 1, ws⟩

omit [DecidableEq ι] in
/-- Grant permits while there are some, at most `n`. -/
def wakeUpMany : ℕ → Semaphore ι → Semaphore ι
  | 0, s => s
  | n + 1, s =>
    match s.wakeUpNext with
    | none => s
    | some s' => wakeUpMany n s'

omit [DecidableEq ι] in
/-- Give a permit back. -/
def release (s : Semaphore ι) : Semaphore ι :=
  let s := { s with value := s.value + 1 }
  s.wakeUpNext.getD s

/-- The wait of `i` is cancelled, before a permit was granted to it. -/
def cancel (s : Semaphore ι) (i : ι) : Semaphore ι :=
  { s with
    waiters := s.waiters.map fun w => if w = (i, .pending) then (i, .cancelled) else w }

/-- `i` runs with its permit. -/
def resume (s : Semaphore ι) (i : ι) : Semaphore ι :=
  let s := { s with waiters := s.waiters.erase (i, .granted) }
  wakeUpMany s.value s

omit [DecidableEq ι] in
/-- A permit has been granted to `i`, which has not run since. -/
def GrantedTo (s : Semaphore ι) (i : ι) : Prop := (i, .granted) ∈ s.waiters

instance (s : Semaphore ι) (i : ι) : Decidable (s.GrantedTo i) :=
  inferInstanceAs (Decidable ((i, .granted) ∈ s.waiters))

/-- `i` runs with an exception: a permit that was granted to it meanwhile goes back. -/
def giveUp (s : Semaphore ι) (i : ι) : Semaphore ι :=
  let s :=
    if s.GrantedTo i then
      ⟨s.value + 1, s.waiters.erase (i, .granted)⟩
    else { s with waiters := s.waiters.erase (i, .cancelled) }
  wakeUpMany s.value s

/-! ### Permits -/

omit [DecidableEq ι] in
/-- The waiters that have been granted a permit. -/
def granted (ws : List (ι × Fut)) : ℕ := ws.countP fun w => decide (w.2 = .granted)

omit [DecidableEq ι] in
/-- The permits that are free or granted to a waiter. -/
def permits (s : Semaphore ι) : ℕ := s.value + granted s.waiters

variable {s s' : Semaphore ι}

omit [DecidableEq ι] in
@[simp] theorem permits_init (n : ℕ) : (init n : Semaphore ι).permits = n := rfl

omit [DecidableEq ι] in
theorem value_ne_zero (h : s.locked = false) : s.value ≠ 0 := by
  intro h0
  simp [locked, h0] at h

omit [DecidableEq ι] in
theorem permits_take (h : s.locked = false) : s.take.permits + 1 = s.permits := by
  have hpos := value_ne_zero h
  unfold permits take
  simp only
  omega

omit [DecidableEq ι] in
@[simp] theorem permits_wait (i : ι) : (s.wait i).permits = s.permits := by
  simp [permits, wait, granted]

omit [DecidableEq ι] in
theorem granted_grantNext {ws ws' : List (ι × Fut)} (h : grantNext ws = some ws') :
    granted ws' = granted ws + 1 := by
  -- who has been granted a permit or has given up is passed over
  induction ws generalizing ws' with
  | nil => cases h
  | cons w ws ih =>
    obtain ⟨i, f⟩ := w
    cases f with
    | pending =>
      obtain rfl := Option.some_inj.mp h
      simp [granted]
    | granted =>
      obtain ⟨vs, hvs, rfl⟩ := Option.map_eq_some_iff.mp h
      have hvs' := ih hvs
      simp only [granted, List.countP_cons] at hvs' ⊢
      omega
    | cancelled =>
      obtain ⟨vs, hvs, rfl⟩ := Option.map_eq_some_iff.mp h
      have hvs' := ih hvs
      simp only [granted, List.countP_cons] at hvs' ⊢
      omega

omit [DecidableEq ι] in
/-- A permit that is granted is no longer free. -/
theorem permits_wakeUpNext (hpos : s.value ≠ 0) (h : s.wakeUpNext = some s') :
    s'.permits = s.permits ∧ s'.value + 1 = s.value := by
  obtain ⟨ws, hws, rfl⟩ := Option.map_eq_some_iff.mp h
  have hgranted := granted_grantNext hws
  unfold permits
  simp only
  omega

omit [DecidableEq ι] in
theorem permits_wakeUpMany {n : ℕ} (hn : n ≤ s.value) : (wakeUpMany n s).permits = s.permits := by
  -- each of the `n` rounds takes a free permit, so that there must be so many
  induction n generalizing s with
  | zero => rfl
  | succ n ih =>
    unfold wakeUpMany
    cases h : s.wakeUpNext with
    | none => rfl
    | some s' =>
      obtain ⟨hpermits, hvalue⟩ := permits_wakeUpNext (by omega) h
      exact (ih (by omega)).trans hpermits

omit [DecidableEq ι] in
@[simp] theorem permits_release : s.release.permits = s.permits + 1 := by
  have hone : ({ s with value := s.value + 1 } : Semaphore ι).permits = s.permits + 1 := by
    unfold permits
    simp only
    omega
  unfold release
  simp only
  cases h : ({ s with value := s.value + 1 } : Semaphore ι).wakeUpNext with
  | none => exact hone
  | some s' => exact (permits_wakeUpNext (Nat.succ_ne_zero _) h).1.trans hone

@[simp] theorem permits_cancel (i : ι) : (s.cancel i).permits = s.permits := by
  unfold permits cancel granted
  rw [List.countP_map]
  congr 2
  funext w
  by_cases hw : w = (i, .pending)
  · simp [hw]
  · simp [hw]

/-- A waiter leaves the queue. -/
theorem granted_erase {ws : List (ι × Fut)} {i : ι} (h : (i, Fut.granted) ∈ ws) :
    granted (ws.erase (i, .granted)) + 1 = granted ws := by
  have hperm := (List.perm_cons_erase h).countP_eq fun w => decide (w.2 = Fut.granted)
  rw [List.countP_cons_of_pos (by simp)] at hperm
  exact hperm.symm

theorem granted_erase_cancelled (ws : List (ι × Fut)) (i : ι) :
    granted (ws.erase (i, .cancelled)) = granted ws := by
  by_cases h : (i, Fut.cancelled) ∈ ws
  · have hperm := (List.perm_cons_erase h).countP_eq fun w => decide (w.2 = Fut.granted)
    rw [List.countP_cons_of_neg (by simp)] at hperm
    exact hperm.symm
  · rw [List.erase_of_not_mem h]

/-- The permit goes to the waiter. -/
theorem permits_resume {i : ι} (h : (i, Fut.granted) ∈ s.waiters) :
    (s.resume i).permits + 1 = s.permits := by
  have hgranted := granted_erase h
  unfold resume
  rw [permits_wakeUpMany (Nat.le_refl _)]
  unfold permits
  simp only
  omega

@[simp] theorem permits_giveUp (i : ι) : (s.giveUp i).permits = s.permits := by
  unfold giveUp
  rw [permits_wakeUpMany (Nat.le_refl _)]
  split
  · next h =>
    have hgranted := granted_erase h
    unfold permits
    simp only
    omega
  · exact congrArg (s.value + ·) (granted_erase_cancelled _ _)

end Semaphore
end SepLab
