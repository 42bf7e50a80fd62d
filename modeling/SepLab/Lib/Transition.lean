import Mathlib.Data.List.Basic
import Mathlib.Data.List.Induction

/-!
# Runs of an executable transition system

A system is a function `step : σ → α → Option σ`: the state after an action, or
`none` when the action is not enabled.  Interleavings of threads, messages and
crashes are lists of actions.

## Main definitions

* `exec step s as` — the state after the actions `as`, if each is enabled in turn.
* `guarded ok step` — the system that takes only the actions `ok` admits.
* `Reach step s₀ s` — `s` is reached from `s₀`.
* `AllSteps ok step s as` — every step of an execution meets the condition `ok`.

## Main results

* `Reach.invariant` — an initial property that steps preserve holds of every
  reachable state.
* `exec_forall` — the same over the states passed through by one execution whose
  steps meet a condition.
* `exec_forall_iff` — the same where a step that does not meet the condition breaks
  the property.
-/

namespace SepLab

variable {σ α : Type*}

/-- The state after the actions `as`, `none` once one of them is not enabled. -/
def exec (step : σ → α → Option σ) : σ → List α → Option σ
  | s, [] => some s
  | s, a :: as => (step s a).bind fun s' => exec step s' as

/-- The system that takes only the actions `ok` admits in the current state. -/
def guarded (ok : σ → α → Bool) (step : σ → α → Option σ) (s : σ) (a : α) : Option σ :=
  if ok s a then step s a else none

/-- The states a system reaches from `s₀`. -/
inductive Reach (step : σ → α → Option σ) (s₀ : σ) : σ → Prop
  | refl : Reach step s₀ s₀
  | tail {s s' : σ} {a : α} : Reach step s₀ s → step s a = some s' → Reach step s₀ s'

@[simp] theorem exec_nil (step : σ → α → Option σ) (s : σ) : exec step s [] = some s := rfl

@[simp] theorem exec_cons (step : σ → α → Option σ) (s : σ) (a : α) (as : List α) :
    exec step s (a :: as) = (step s a).bind fun s' => exec step s' as := rfl

theorem exec_append (step : σ → α → Option σ) (s : σ) (as bs : List α) :
    exec step s (as ++ bs) = (exec step s as).bind fun s' => exec step s' bs := by
  induction as generalizing s with
  | nil => rfl
  | cons a as ih =>
    rw [List.cons_append, exec_cons, exec_cons]
    cases step s a with
    | none => rfl
    | some s' => exact ih s'

theorem exec_concat (step : σ → α → Option σ) (s : σ) (as : List α) (a : α) :
    exec step s (as ++ [a]) = (exec step s as).bind fun s' => step s' a := by
  rw [exec_append]
  cases exec step s as with
  | none => rfl
  | some s' => cases h : step s' a <;> simp [h]

theorem step_of_guarded {ok : σ → α → Bool} {step : σ → α → Option σ} {s s' : σ} {a : α}
    (h : guarded ok step s a = some s') : ok s a = true ∧ step s a = some s' := by
  unfold guarded at h
  split at h
  · next hok => exact ⟨hok, h⟩
  · next => simp at h

namespace Reach

variable {step : σ → α → Option σ} {s₀ : σ}

theorem trans {s s' : σ} (h : Reach step s₀ s) (h' : Reach step s s') : Reach step s₀ s' := by
  induction h' with
  | refl => exact h
  | tail _ hs ih => exact ih.tail hs

theorem of_exec {s : σ} (as : List α) (h : exec step s₀ as = some s) : Reach step s₀ s := by
  induction as generalizing s₀ with
  | nil =>
    rw [exec_nil, Option.some_inj] at h
    exact h ▸ .refl
  | cons a as ih =>
    rw [exec_cons, Option.bind_eq_some_iff] at h
    obtain ⟨s₁, h₁, h₂⟩ := h
    exact (Reach.refl.tail h₁).trans (ih h₂)

/-- A state that is reached is reached by an execution. -/
theorem exists_exec {s : σ} (h : Reach step s₀ s) : ∃ as, exec step s₀ as = some s := by
  induction h with
  | refl => exact ⟨[], rfl⟩
  | @tail s s' a _ hs ih =>
    obtain ⟨as, has⟩ := ih
    exact ⟨as ++ [a], by rw [exec_concat, has, Option.bind_some, hs]⟩

/-- **A property that holds at first and that steps preserve holds throughout.** -/
theorem invariant {P : σ → Prop} (h₀ : P s₀)
    (hstep : ∀ s a s', P s → step s a = some s' → P s') {s : σ} (h : Reach step s₀ s) : P s := by
  induction h with
  | refl => exact h₀
  | tail _ hs ih => exact hstep _ _ _ ih hs

end Reach

/-- **An invariant along one execution.**  If `P` holds at first and each step of
the execution that meets `ok` preserves it, it holds after every prefix of an
execution whose steps all meet `ok`. -/
theorem exec_forall {step : σ → α → Option σ} {P : σ → Prop} {ok : σ → α → Prop} {s₀ : σ}
    (h₀ : P s₀) (hstep : ∀ s a s', P s → ok s a → step s a = some s' → P s') (as : List α)
    (hok : ∀ bs a s, bs ++ [a] <+: as → exec step s₀ bs = some s → ok s a) :
    ∀ bs s, bs <+: as → exec step s₀ bs = some s → P s := by
  intro bs
  induction bs using List.reverseRecOn with
  | nil =>
    intro s _ h
    rw [exec_nil, Option.some_inj] at h
    exact h ▸ h₀
  | append_singleton bs a ih =>
    intro s hpre h
    rw [exec_concat, Option.bind_eq_some_iff] at h
    obtain ⟨s₁, h₁, h₂⟩ := h
    exact hstep s₁ a s (ih s₁ ((List.prefix_append bs [a]).trans hpre) h₁)
      (hok bs a s₁ hpre h₁) h₂

/-- **The exact condition on the steps of an execution.**  Next to an invariant that all steps
keep, if `P` holds at first, and a step from a state with `P` meets `ok` exactly when `P`
holds after it, then `P` holds throughout an execution exactly when all its steps meet `ok`. -/
theorem exec_forall_iff {step : σ → α → Option σ} {I P : σ → Prop} {ok : σ → α → Prop} {s₀ : σ}
    (hI₀ : I s₀) (hI : ∀ s a s', I s → step s a = some s' → I s') (hP₀ : P s₀)
    (hok : ∀ s a, I s → P s → (ok s a ↔ ∀ s', step s a = some s' → P s')) (as : List α) :
    (∀ bs s, bs <+: as → exec step s₀ bs = some s → P s) ↔
      ∀ bs a s, bs ++ [a] <+: as → exec step s₀ bs = some s → ok s a := by
  constructor
  · intro h bs a s hpre hs
    have hbs : bs <+: as := (List.prefix_append bs [a]).trans hpre
    refine (hok s a ((Reach.of_exec bs hs).invariant hI₀ hI) (h bs s hbs hs)).mpr ?_
    intro s' hs'
    apply h (bs ++ [a]) s' hpre
    rw [exec_concat, hs]
    exact hs'
  · intro h bs s hpre hs
    refine (exec_forall (P := fun s => I s ∧ P s) ⟨hI₀, hP₀⟩ ?_ as h bs s hpre hs).2
    rintro s a s' ⟨hIs, hPs⟩ ha hs'
    exact ⟨hI s a s' hIs hs', (hok s a hIs hPs).mp ha s' hs'⟩

/-- Every step of the execution of `as` from `s` meets the condition `ok`. -/
def AllSteps (ok : σ → α → Prop) (step : σ → α → Option σ) : σ → List α → Prop
  | _, [] => True
  | s, a :: as => ok s a ∧ ∀ s', step s a = some s' → AllSteps ok step s' as

/-- A condition that can be tested at each step can be tested of an execution. -/
instance AllSteps.decidable {ok : σ → α → Prop} [∀ s a, Decidable (ok s a)]
    {step : σ → α → Option σ} : ∀ s as, Decidable (AllSteps ok step s as)
  | _, [] => .isTrue trivial
  | s, a :: as =>
    match h : step s a with
    | none => decidable_of_iff (ok s a) (by simp [AllSteps, h])
    | some s' =>
      haveI : Decidable (AllSteps ok step s' as) := AllSteps.decidable s' as
      decidable_of_iff (ok s a ∧ AllSteps ok step s' as) (by simp [AllSteps, h])

theorem allSteps_iff {ok : σ → α → Prop} {step : σ → α → Option σ} {s : σ} {as : List α} :
    AllSteps ok step s as ↔
      ∀ bs a s', bs ++ [a] <+: as → exec step s bs = some s' → ok s' a := by
  induction as generalizing s with
  | nil =>
    refine iff_of_true trivial ?_
    intro bs a s' hpre
    simp at hpre
  | cons b as ih =>
    constructor
    · rintro ⟨hok, hrest⟩ bs a s' hpre hs
      cases bs with
      -- the first step, or one of the run that follows it
      | nil =>
        obtain rfl := Option.some_inj.mp hs
        obtain rfl := (List.cons_prefix_cons.mp hpre).1
        exact hok
      | cons c bs =>
        obtain ⟨rfl, hpre'⟩ := List.cons_prefix_cons.mp hpre
        obtain ⟨s₁, hs₁, hs⟩ := Option.bind_eq_some_iff.mp hs
        exact ih.mp (hrest s₁ hs₁) bs a s' hpre' hs
    · intro h
      refine ⟨h [] b s (by simp) rfl, ?_⟩
      intro s₁ hs₁
      refine ih.mpr fun bs a s' hpre hs => ?_
      apply h (b :: bs) a s'
      · exact List.cons_prefix_cons.mpr ⟨rfl, hpre⟩
      · rw [exec_cons, hs₁]
        exact hs

/-- Conditions that agree on the reachable states are met by the same executions. -/
theorem allSteps_congr {ok ok' : σ → α → Prop} {step : σ → α → Option σ} {s : σ}
    (h : ∀ s' a, Reach step s s' → (ok s' a ↔ ok' s' a)) (as : List α) :
    AllSteps ok step s as ↔ AllSteps ok' step s as := by
  rw [allSteps_iff, allSteps_iff]
  constructor
  · intro hok bs a s' hpre hs
    exact (h s' a (.of_exec bs hs)).mp (hok bs a s' hpre hs)
  · intro hok bs a s' hpre hs
    exact (h s' a (.of_exec bs hs)).mpr (hok bs a s' hpre hs)

end SepLab
