import SepLab.Lib.Credit

/-!
# What a program has asked

The log of a program has its questions in their order, with the answers.  A finished program
is a sequence of finished parts, each with a part of the log, and the log of one of many
threads is that of its own questions.

## Main definitions

* `Prog.Follows p log q` — through the answered questions `log`, `p` comes to `q`.
* `Prog.Returns p log a` — it comes to its end, and returns `a`.
* `Prog.Ensures p post` — what holds of the log and the result of `p` when it ends.
* `Threads.log` — what a thread has asked in a run of all threads.

## Main results

* `Prog.returns_bind` — the two parts of a program have the two parts of its log.
* `Prog.Returns.unique` — a log ends where the program does.
* `Prog.Ensures.bind` — what a program ensures is what the next one starts with.
* `Within.log_le` — no log costs more than the credit.
* `Threads.follows_log` — **a thread follows its log**, whatever the others do.
-/

namespace SepLab

universe u v w

namespace Prog

variable {E : Type u} {A : E → Type v} {α β : Type w} {p q : Prog E A α}

/-- Through the answered questions `log`, `p` comes to `q`. -/
inductive Follows : Prog E A α → List ((e : E) × A e) → Prog E A α → Prop
  | refl (p : Prog E A α) : Follows p [] p
  | ask {e : E} {a : A e} {k : A e → Prog E A α} {log : List ((e : E) × A e)}
      {q : Prog E A α} : Follows (k a) log q → Follows (.ask e k) (⟨e, a⟩ :: log) q

/-- Through `log`, `p` comes to its end, and returns `a`. -/
abbrev Returns (p : Prog E A α) (log : List ((e : E) × A e)) (a : α) : Prop :=
  Follows p log (.ret a)

variable {log log' rest rest' : List ((e : E) × A e)} {a a' : α}

theorem returns_pure : Returns (Pure.pure a : Prog E A α) log a' ↔ log = [] ∧ a = a' := by
  constructor
  · rintro ⟨⟩
    exact ⟨rfl, rfl⟩
  · rintro ⟨rfl, rfl⟩
    exact .refl _

/-- A program that has come some way is in one of its two parts. -/
theorem Follows.of_bind {f : α → Prog E A β} {r : Prog E A β} (h : Follows (p >>= f) log r) :
    (∃ q, Follows p log q ∧ r = q >>= f) ∨
      ∃ log₁ a log₂, log = log₁ ++ log₂ ∧ Returns p log₁ a ∧ Follows (f a) log₂ r := by
  induction p generalizing log with
  | ret a => exact Or.inr ⟨[], a, log, rfl, .refl _, h⟩
  | ask e k ih =>
    cases h with
    | refl => exact Or.inl ⟨.ask e k, .refl _, rfl⟩
    | ask h =>
      rcases ih _ h with ⟨q, hq, rfl⟩ | ⟨log₁, b, log₂, rfl, hfirst, hsecond⟩
      · exact Or.inl ⟨q, hq.ask, rfl⟩
      · exact Or.inr ⟨_, b, log₂, rfl, hfirst.ask, hsecond⟩

theorem Follows.bind {f : α → Prog E A β} {r : Prog E A β} (h : Returns p log a)
    (h' : Follows (f a) log' r) : Follows (p >>= f) (log ++ log') r := by
  induction p generalizing log with
  | ret b =>
    cases h
    exact h'
  | ask e k ih =>
    cases h with
    | ask h => exact (ih _ h).ask

/-- **The two parts of a program have the two parts of its log.** -/
theorem returns_bind {f : α → Prog E A β} {b : β} : Returns (p >>= f) log b ↔
    ∃ log₁ a log₂, log = log₁ ++ log₂ ∧ Returns p log₁ a ∧ Returns (f a) log₂ b := by
  constructor
  · intro h
    rcases Follows.of_bind h with ⟨q, hq, hr⟩ | hparts
    · cases q with
      | ret a =>
        refine ⟨log, a, [], (List.append_nil log).symm, hq, ?_⟩
        rw [Returns, hr]
        exact .refl _
      | ask e k => cases hr
    · exact hparts
  · rintro ⟨log₁, a, log₂, rfl, hfirst, hsecond⟩
    exact .bind hfirst hsecond

/-- A question, and what is done with its answer. -/
theorem returns_query_bind {A : E → Type w} {e : E} {f : A e → Prog E A β}
    {log : List ((e : E) × A e)} {b : β} : Returns (query e >>= f) log b ↔
      ∃ a rest, log = ⟨e, a⟩ :: rest ∧ Returns (f a) rest b := by
  constructor
  · rintro ⟨⟩
    exact ⟨_, _, rfl, ‹_›⟩
  · rintro ⟨a, rest, rfl, h⟩
    exact .ask h

/-- **A log ends where the program does**, with the same result. -/
theorem Returns.unique (h : Returns p log a) (h' : Returns p log' a')
    (heq : log ++ rest = log' ++ rest') : log = log' ∧ a = a' := by
  induction p generalizing log log' with
  | ret b =>
    cases h
    cases h'
    exact ⟨rfl, rfl⟩
  | ask e k ih =>
    cases h with
    | ask h =>
      cases h' with
      | ask h' =>
        obtain ⟨hfirst, hlater⟩ := List.cons.inj heq
        cases hfirst
        obtain ⟨rfl, rfl⟩ := ih _ h h' hlater
        exact ⟨rfl, rfl⟩

/-! ### What a program ensures of its log -/

/-- Whenever `p` ends, `post` holds of its log and its result. -/
def Ensures (p : Prog E A α) (post : List ((e : E) × A e) → α → Prop) : Prop :=
  ∀ log a, p.Returns log a → post log a

namespace Ensures

variable {post post₂ : List ((e : E) × A e) → α → Prop}
  {post' : List ((e : E) × A e) → β → Prop}

theorem mono (h : p.Ensures post) (hpost : ∀ log a, post log a → post₂ log a) :
    p.Ensures post₂ :=
  fun log a hlog => hpost log a (h log a hlog)

theorem pure (h : post [] a) : (Pure.pure a : Prog E A α).Ensures post := by
  intro log b hlog
  obtain ⟨rfl, rfl⟩ := returns_pure.mp hlog
  exact h

/-- What a program ensures is what the next one starts with. -/
theorem bind {f : α → Prog E A β} (h : p.Ensures post)
    (hf : ∀ log a, post log a → (f a).Ensures fun rest b => post' (log ++ rest) b) :
    (p >>= f).Ensures post' := by
  intro log b hlog
  obtain ⟨log₁, a, log₂, rfl, hfirst, hsecond⟩ := returns_bind.mp hlog
  exact hf log₁ a (h log₁ a hfirst) log₂ b hsecond

theorem query_bind {A : E → Type w} {post' : List ((e : E) × A e) → β → Prop} {e : E}
    {f : A e → Prog E A β} (hf : ∀ a, (f a).Ensures fun rest b => post' (⟨e, a⟩ :: rest) b) :
    (query e >>= f).Ensures post' := by
  intro log b hlog
  obtain ⟨a, rest, rfl, hrest⟩ := returns_query_bind.mp hlog
  exact hf a rest b hrest

end Ensures
end Prog

/-- **No log costs more than the credit.** -/
theorem Within.log_le {E : Type u} {A : E → Type v} {α : Type w} {R : Type*} [AddCommGroup R]
    [LinearOrder R] [IsOrderedAddMonoid R] {cost : (e : E) → A e → R} {post : α → R}
    {p q : Prog E A α} {credit : R} {log : List ((e : E) × A e)} (h : Within cost post p credit)
    (hpost : ∀ a, 0 ≤ post a) (hlog : p.Follows log q) :
    (log.map fun x => cost x.1 x.2).sum ≤ credit := by
  induction hlog generalizing credit with
  | refl p => exact h.nonneg hpost
  | ask _ ih =>
    rw [List.map_cons, List.sum_cons]
    exact le_sub_iff_add_le'.mp (ih (h.2 _))

namespace Threads

variable {σ ι E α : Type*} {A : E → Type*} [DecidableEq ι]

/-- What the thread `i` has asked in a run of all threads. -/
def log (answer : σ → (e : E) → A e → A e × σ) (i : ι) :
    Threads σ ι A α → List (ι × ((e : E) → A e)) → List ((e : E) × A e)
  | _, [] => []
  | s, (j, w) :: later =>
    match s.threads j with
    | .ret _ => []
    | .ask e k =>
      let r := answer s.shared e (w e)
      let rest := log answer i ⟨r.2, Function.update s.threads j (k r.1)⟩ later
      if j = i then ⟨e, r.1⟩ :: rest else rest

/-- **A thread follows its log**, whatever the others do. -/
theorem follows_log {answer : σ → (e : E) → A e → A e × σ} {s s' : Threads σ ι A α} (i : ι)
    {events : List (ι × ((e : E) → A e))} (h : exec (step answer) s events = some s') :
    (s.threads i).Follows (log answer i s events) (s'.threads i) := by
  induction events generalizing s with
  | nil =>
    obtain rfl := Option.some_inj.mp h
    exact .refl _
  | cons event later ih =>
    obtain ⟨j, w⟩ := event
    rw [exec_cons] at h
    obtain ⟨t, ht, hlater⟩ := Option.bind_eq_some_iff.mp h
    obtain ⟨e, k, hj, rfl⟩ := step_cases ht
    have hrest : Prog.Follows (Function.update s.threads j _ i) _ _ := ih hlater
    simp only [log, hj]
    -- the event is of this thread, which goes on, or of another, which it does not notice
    by_cases hne : j = i
    · subst hne
      rw [Function.update_self] at hrest
      rw [if_pos rfl, hj]
      exact hrest.ask
    · rw [Function.update_of_ne (Ne.symm hne)] at hrest
      rw [if_neg hne]
      exact hrest

end Threads
end SepLab
