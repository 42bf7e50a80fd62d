import Mathlib.Data.List.Nodup
import SepLab.Lib.ReadCommitted
import SepLab.Lib.Transition

/-!
# The idempotent consumer

The two handlers of `idempotent_consumer.js`.  `checkThenAct` selects the claim of a
message, inserts the effect and then the claim, each by itself; `insertThenAct`
inserts the claim and the effect in one transaction, and acts only if its claim is
the one row that was inserted.  An `INSERT … ON CONFLICT DO NOTHING` waits while
another transaction has inserted the row and not committed.  A statement may
raise, whether it has taken effect or not, and the handler then throws.

## Main definitions

* `Call`, `Effect` — a call of a handler, and a row of `t6_consumer_effects`.
* `Consumers`, `Action`, `step` — the statements of the calls, in any order.
* `Consumers.Inv` — what claims and effects have to do with each other.

## Main results

* `Consumers.Inv.step` — every statement keeps the invariant.
* `insertThenAct_acts_once` — **a message has one effect of `insertThenAct`, however often it
  is delivered.**
* `checkThenAct_duplicates` — **calls of `checkThenAct` that all select before the first claim all
  act**, in any interleaving.
-/

namespace SepLab
namespace Outbox

/-- `--mode`. -/
inductive Mode
  | checkThenAct
  | insertThenAct
  deriving DecidableEq, Repr

/-- A call of the handler of a mode. -/
structure Call (R : Type) where
  mode : Mode
  runId : R
  outboxId : ℕ
  consumer : String

/-- A row of `t6_consumer_effects`. -/
structure Effect (R : Type) where
  runId : R
  mode : Mode
  outboxId : ℕ
  consumer : String
  deriving DecidableEq, Repr

variable {R κ : Type}

/-- The key of a claim: `(run_id, outbox_id)`. -/
def Call.message (c : Call R) : R × ℕ := (c.runId, c.outboxId)

/-- The message that the effect is of. -/
def Effect.message (e : Effect R) : R × ℕ := (e.runId, e.outboxId)

/-- What a call inserts into `t6_consumer_effects`. -/
def Call.effect (c : Call R) : Effect R := ⟨c.runId, c.mode, c.outboxId, c.consumer⟩

namespace Consumers

/-- How far a call has got. -/
inductive Phase
  | idle
  /-- `checkThenAct` has seen no claim. -/
  | unseen
  /-- `checkThenAct` has inserted its effect. -/
  | acted
  /-- `insertThenAct` is after its `BEGIN`. -/
  | begun
  /-- Its `INSERT` has inserted the claim. -/
  | claimed
  /-- Its `INSERT` has inserted nothing. -/
  | lost
  /-- It has inserted its effect, and not committed. -/
  | applied
  | returned (applied : Bool)
  | threw
  deriving DecidableEq, Repr

end Consumers

/-- The claims and the effects, with the calls `κ`.  Each committed effect is listed with
its call. -/
structure Consumers (κ R : Type) where
  claims : Table (R × ℕ) κ String
  effects : List (κ × Effect R)
  phase : κ → Consumers.Phase

namespace Consumers

/-- What a statement of a call comes to. -/
inductive Action (κ : Type)
  /-- The next statement of the call takes effect. -/
  | next (j : κ)
  /-- The next statement raises; `took` tells whether it has taken effect. -/
  | fail (j : κ) (took : Bool)
  deriving DecidableEq, Repr

/-- The call that the statement is of. -/
def Action.call : Action κ → κ
  | .next j | .fail j _ => j

/-- No claim, no effect, and no call has begun. -/
def init : Consumers κ R := ⟨fun _ => .empty, [], fun _ => .idle⟩

/-- The effects of a message. -/
def effectsOf [DecidableEq R] (s : Consumers κ R) (m : R × ℕ) : List (κ × Effect R) :=
  s.effects.filter fun x => x.2.message = m

/-- The effects of a message that the handler of the mode has inserted. -/
def actsOf [DecidableEq R] (s : Consumers κ R) (mode : Mode) (m : R × ℕ) : List (κ × Effect R) :=
  (s.effectsOf m).filter fun x => x.2.mode = mode

variable [DecidableEq κ]

/-- The call `j` moves on to `p`. -/
def enter (s : Consumers κ R) (j : κ) (p : Phase) : Consumers κ R :=
  { s with phase := Function.update s.phase j p }

theorem enter_phase_self (s : Consumers κ R) (j : κ) (p : Phase) : (s.enter j p).phase j = p :=
  Function.update_self ..

/-- The transaction of call `j` is rolled back, if there is one. -/
def rollback (s : Consumers κ R) (j : κ) : Consumers κ R :=
  { s with claims := s.claims.rollback j }

variable [DecidableEq R]

/-- The next statement of `checkThenAct`; each commits by itself. -/
def checkThenAct (s : Consumers κ R) (j : κ) (c : Call R) : Option (Consumers κ R) :=
  match s.phase j with
  | .idle =>
    match (s.claims c.message).committed with
    | some _ => some (s.enter j (.returned false))
    | none => some (s.enter j .unseen)
  | .unseen => some ({ s with effects := s.effects ++ [(j, c.effect)] }.enter j .acted)
  | .acted =>
    match (s.claims c.message).committed with
    | some _ => some (s.enter j (.returned true))
    | none =>
      if (s.claims c.message).free j then
        some ({ s with claims := (s.claims.put c.message j (some c.consumer)).commit j }.enter j
          (.returned true))
      else none
  | _ => none

/-- The next statement of `insertThenAct`, in a transaction. -/
def insertThenAct (s : Consumers κ R) (j : κ) (c : Call R) : Option (Consumers κ R) :=
  match s.phase j with
  | .idle => some (s.enter j .begun)
  | .begun =>
    match (s.claims c.message).committed with
    | some _ => some (s.enter j .lost)
    | none =>
      if (s.claims c.message).free j then
        some ({ s with claims := s.claims.put c.message j (some c.consumer) }.enter j .claimed)
      else none
  | .claimed => some (s.enter j .applied)
  | .applied =>
    some ({ s with
      claims := s.claims.commit j
      effects := s.effects ++ [(j, c.effect)] }.enter j (.returned true))
  | .lost => some ({ s with claims := s.claims.commit j }.enter j (.returned false))
  | _ => none

variable (call : κ → Call R)

/-- The next statement of a call. -/
def next (s : Consumers κ R) (j : κ) : Option (Consumers κ R) :=
  match (call j).mode with
  | .checkThenAct => s.checkThenAct j (call j)
  | .insertThenAct => s.insertThenAct j (call j)

/-- The call throws; what it has not committed is rolled back. -/
def fail (s : Consumers κ R) (j : κ) (took : Bool) : Option (Consumers κ R) :=
  match s.phase j with
  | .returned _ | .threw => none
  | _ =>
    if took then (s.next call j).map fun s' => (s'.rollback j).enter j .threw
    else some ((s.rollback j).enter j .threw)

/-- One statement of one call. -/
def step (s : Consumers κ R) : Action κ → Option (Consumers κ R)
  | .next j => s.next call j
  | .fail j took => s.fail call j took

/-! ### Claims and effects -/

/-- The mode of a call in this phase. -/
def Phase.mode? : Phase → Option Mode
  | .unseen | .acted => some .checkThenAct
  | .begun | .claimed | .lost | .applied => some .insertThenAct
  | _ => none

/-- The transaction of the call has inserted the claim. -/
def Phase.Holds : Phase → Prop
  | .claimed | .applied => True
  | _ => False

/-- The message has been claimed. -/
def Phase.Saw : Phase → Prop
  | .lost | .returned _ => True
  | _ => False

/-- The call has acted. -/
def Phase.Acted : Phase → Prop
  | .acted | .returned true => True
  | _ => False

/-- The call may have acted. -/
def Phase.Spent : Phase → Prop
  | .acted | .returned true | .threw => True
  | _ => False

/-- A claim is new until its transaction commits, and a claimed message has an effect. -/
structure Inv (s : Consumers κ R) : Prop where
  mode : ∀ j mode, (s.phase j).mode? = some mode → (call j).mode = mode
  pending : ∀ m j v, (s.claims m).pending = some (j, v) → m = (call j).message ∧
    v = some (call j).consumer ∧ (s.claims m).committed = none ∧ (s.phase j).Holds
  holds : ∀ j, (s.phase j).Holds →
    (s.claims (call j).message).pending = some (j, some (call j).consumer)
  saw : ∀ j, (s.phase j).Saw → (s.claims (call j).message).committed ≠ none
  acted : ∀ j, (s.phase j).Acted → (j, (call j).effect) ∈ s.effects
  own : ∀ j e, (j, e) ∈ s.effects → e = (call j).effect ∧ (s.phase j).Spent
  nodup : (s.effects.map Prod.fst).Nodup
  claimed : ∀ m, (s.claims m).committed ≠ none → s.effectsOf m ≠ []
  effect : ∀ m, s.actsOf .insertThenAct m ≠ [] → (s.claims m).committed ≠ none
  once : ∀ m, (s.actsOf .insertThenAct m).length ≤ 1

variable {call} {s s' : Consumers κ R}

omit [DecidableEq κ] in
theorem Inv.init : (init : Consumers κ R).Inv call where
  mode j mode h := by cases h
  pending m j v h := by cases h
  holds j h := h.elim
  saw j h := h.elim
  acted j h := h.elim
  own j e h := by cases h
  nodup := List.nodup_nil
  claimed m h := absurd rfl h
  effect m h := absurd rfl h
  once m := Nat.zero_le 1

omit [DecidableEq κ] in
/-- The effects of a message after one more effect. -/
theorem effectsOf_concat {x : κ × Effect R} (heff : s'.effects = s.effects ++ [x]) (m : R × ℕ) :
    s'.effectsOf m = s.effectsOf m ++ if x.2.message = m then [x] else [] := by
  unfold effectsOf
  rw [heff, List.filter_append]
  by_cases hm : x.2.message = m
  · simp [hm]
  · simp [hm]

omit [DecidableEq κ] in
theorem effectsOf_of_ne {j : κ} {m : R × ℕ}
    (heff : s'.effects = s.effects ++ [(j, (call j).effect)]) (hm : (call j).message ≠ m) :
    s'.effectsOf m = s.effectsOf m := by
  have hm' : (j, (call j).effect).2.message ≠ m := hm
  rw [effectsOf_concat heff, if_neg hm', List.append_nil]

omit [DecidableEq κ] in
theorem actsOf_concat {x : κ × Effect R} (heff : s'.effects = s.effects ++ [x]) (mode : Mode)
    (m : R × ℕ) : s'.actsOf mode m =
      s.actsOf mode m ++ if x.2.message = m ∧ x.2.mode = mode then [x] else [] := by
  unfold actsOf
  rw [effectsOf_concat heff, List.filter_append]
  by_cases hm : x.2.message = m
  · by_cases hmode : x.2.mode = mode
    · simp [hm, hmode]
    · simp [hm, hmode]
  · simp [hm]

/-- **A call moves on** to phase `p`.  It keeps off the claims of other messages, and off that
of its own while another transaction has it. -/
theorem Inv.act (h : s.Inv call) {j : κ} {p : Phase}
    (hphase : s'.phase = Function.update s.phase j p)
    (hmode : ∀ mode, p.mode? = some mode → (call j).mode = mode)
    (hother : ∀ m, m ≠ (call j).message → s'.claims m = s.claims m)
    (hrow : (s.claims (call j).message).committed ≠ none →
      (s'.claims (call j).message).committed ≠ none)
    (hkept : ∀ i v, i ≠ j → (s.claims (call j).message).pending = some (i, v) →
      s'.claims (call j).message = s.claims (call j).message)
    (hpending : ∀ i v, (s'.claims (call j).message).pending = some (i, v) →
      i ≠ j ∧ (s.claims (call j).message).pending = some (i, v) ∨
        i = j ∧ v = some (call j).consumer ∧
          (s'.claims (call j).message).committed = none ∧ p.Holds)
    (hholds : p.Holds → (s'.claims (call j).message).pending = some (j, some (call j).consumer))
    (hsaw : p.Saw → (s'.claims (call j).message).committed ≠ none)
    (hacted : p.Acted → (j, (call j).effect) ∈ s'.effects)
    (hown : ∀ i e, (i, e) ∈ s'.effects → e = (call i).effect ∧
      (i = j ∧ p.Spent ∨ i ≠ j ∧ (s.phase i).Spent))
    (hgrows : ∀ x ∈ s.effects, x ∈ s'.effects)
    (hnodup : (s'.effects.map Prod.fst).Nodup)
    (hclaimed : (s'.claims (call j).message).committed ≠ none →
      s'.effectsOf (call j).message ≠ [])
    (heffect : ∀ m, s'.actsOf .insertThenAct m ≠ [] → (s'.claims m).committed ≠ none)
    (honce : ∀ m, (s'.actsOf .insertThenAct m).length ≤ 1) : s'.Inv call := by
  have hself : s'.phase j = p := by rw [hphase, Function.update_self]
  have hne : ∀ {i}, i ≠ j → s'.phase i = s.phase i := by
    intro i hi
    rw [hphase, Function.update_of_ne hi]
  -- a claim, once committed, is there for good
  have hcom : ∀ m, (s.claims m).committed ≠ none → (s'.claims m).committed ≠ none := by
    intro m hm
    by_cases hj : m = (call j).message
    · subst hj
      exact hrow hm
    · rwa [hother m hj]
  refine
    { mode := fun i mode hi => ?_, pending := fun m i v hp => ?_, holds := fun i hi => ?_
      saw := fun i hi => ?_, acted := fun i hi => ?_, own := fun i e he => ?_, nodup := hnodup
      claimed := fun m hm => ?_, effect := heffect, once := honce }
  · by_cases hj : i = j
    · subst hj
      exact hmode mode (hself ▸ hi)
    · exact h.mode i mode (hne hj ▸ hi)
  · have hold : i ≠ j → (s.claims m).pending = some (i, v) → s'.claims m = s.claims m →
        m = (call i).message ∧ v = some (call i).consumer ∧
          (s'.claims m).committed = none ∧ (s'.phase i).Holds := by
      intro hi hp' hkeep
      obtain ⟨hm, hv, hc, hh⟩ := h.pending m i v hp'
      exact ⟨hm, hv, by rw [hkeep, hc], by rwa [hne hi]⟩
    -- only rows of the call's own message may have changed
    by_cases hm : m = (call j).message
    · subst hm
      rcases hpending i v hp with ⟨hi, hp'⟩ | ⟨rfl, hv, hc, hh⟩
      · exact hold hi hp' (hkept i v hi hp')
      · exact ⟨rfl, hv, hc, by rwa [hself]⟩
    · have hp' := hp
      rw [hother m hm] at hp'
      refine hold ?_ hp' (hother m hm)
      rintro rfl
      exact hm (h.pending m i v hp').1
  · by_cases hj : i = j
    · subst hj
      exact hholds (hself ▸ hi)
    · have hp := h.holds i (hne hj ▸ hi)
      by_cases hm : (call i).message = (call j).message
      · rw [hm] at hp ⊢
        rw [hkept i _ hj hp, hp]
      · rw [hother _ hm, hp]
  · by_cases hj : i = j
    · subst hj
      exact hsaw (hself ▸ hi)
    · exact hcom _ (h.saw i (hne hj ▸ hi))
  · by_cases hj : i = j
    · subst hj
      exact hacted (hself ▸ hi)
    · exact hgrows _ (h.acted i (hne hj ▸ hi))
  · obtain ⟨he, hspent⟩ := hown i e he
    refine ⟨he, ?_⟩
    -- the effect is the call's own new one, or an older one
    rcases hspent with ⟨rfl, hp⟩ | ⟨hi, hp⟩
    · rwa [hself]
    · rwa [hne hi]
  · by_cases hj : m = (call j).message
    · subst hj
      exact hclaimed hm
    · rw [hother m hj] at hm
      obtain ⟨x, hx⟩ := List.exists_mem_of_ne_nil _ (h.claimed m hm)
      rw [effectsOf, List.mem_filter] at hx
      exact List.ne_nil_of_mem (List.mem_filter.mpr ⟨hgrows x hx.1, hx.2⟩)

/-- A call moves on without an effect. -/
theorem Inv.act_quiet (h : s.Inv call) {j : κ} {p : Phase}
    (hphase : s'.phase = Function.update s.phase j p) (heff : s'.effects = s.effects)
    (hmode : ∀ mode, p.mode? = some mode → (call j).mode = mode)
    (hother : ∀ m, m ≠ (call j).message → s'.claims m = s.claims m)
    (hrow : (s.claims (call j).message).committed ≠ none →
      (s'.claims (call j).message).committed ≠ none)
    (hkept : ∀ i v, i ≠ j → (s.claims (call j).message).pending = some (i, v) →
      s'.claims (call j).message = s.claims (call j).message)
    (hpending : ∀ i v, (s'.claims (call j).message).pending = some (i, v) →
      i ≠ j ∧ (s.claims (call j).message).pending = some (i, v) ∨
        i = j ∧ v = some (call j).consumer ∧
          (s'.claims (call j).message).committed = none ∧ p.Holds)
    (hholds : p.Holds → (s'.claims (call j).message).pending = some (j, some (call j).consumer))
    (hsaw : p.Saw → (s'.claims (call j).message).committed ≠ none)
    (hacted : p.Acted → (s.phase j).Acted) (hspent : (s.phase j).Spent → p.Spent)
    (hclaimed : (s'.claims (call j).message).committed ≠ none →
      (s.claims (call j).message).committed ≠ none ∨ (s.phase j).Acted) : s'.Inv call := by
  refine h.act hphase hmode hother hrow hkept hpending hholds hsaw ?_ ?_ ?_ ?_ ?_ ?_ ?_
  · intro hp
    rw [heff]
    exact h.acted j (hacted hp)
  · intro i e he
    rw [heff] at he
    obtain ⟨he, hi⟩ := h.own i e he
    refine ⟨he, ?_⟩
    by_cases hj : i = j
    · subst hj
      exact Or.inl ⟨rfl, hspent hi⟩
    · exact Or.inr ⟨hj, hi⟩
  · intro x hx
    rwa [heff]
  · rw [heff]
    exact h.nodup
  · intro hm
    unfold effectsOf
    rw [heff]
    rcases hclaimed hm with hm | hp
    · exact h.claimed _ hm
    · exact List.ne_nil_of_mem (List.mem_filter.mpr ⟨h.acted j hp, decide_eq_true rfl⟩)
  · intro m hm
    unfold actsOf effectsOf at hm
    rw [heff] at hm
    have hc := h.effect m hm
    by_cases hj : m = (call j).message
    · subst hj
      exact hrow hc
    · rwa [hother m hj]
  · intro m
    unfold actsOf effectsOf
    rw [heff]
    exact h.once m

/-- A call moves on and leaves the claims alone. -/
theorem Inv.enter (h : s.Inv call) {j : κ} {p : Phase}
    (hmode : ∀ mode, p.mode? = some mode → (call j).mode = mode)
    (hholds : p.Holds ↔ (s.phase j).Holds)
    (hsaw : p.Saw → (s.claims (call j).message).committed ≠ none)
    (hacted : p.Acted → (s.phase j).Acted) (hspent : (s.phase j).Spent → p.Spent) :
    (s.enter j p).Inv call := by
  refine h.act_quiet rfl rfl hmode (fun _ _ => rfl) id (fun _ _ _ _ => rfl) ?_ ?_ hsaw hacted
    hspent Or.inl
  · intro i v hp
    by_cases hi : i = j
    · subst hi
      obtain ⟨-, hv, hc, hh⟩ := h.pending _ i v hp
      exact Or.inr ⟨rfl, hv, hc, hholds.mpr hh⟩
    · exact Or.inl ⟨hi, hp⟩
  · intro hp
    exact h.holds j (hholds.mp hp)

/-- `insertThenAct` inserts its claim. -/
theorem Inv.put (h : s.Inv call) {j : κ} (hmode : (call j).mode = .insertThenAct)
    (hphase : s.phase j = .begun) (hnone : (s.claims (call j).message).committed = none)
    (hfree : (s.claims (call j).message).free j = true) :
    ({ s with claims := s.claims.put (call j).message j (some (call j).consumer) }.enter j
      .claimed).Inv call := by
  refine h.act_quiet rfl rfl ?_ ?_ ?_ ?_ ?_ ?_ (fun hp => hp.elim) (fun hp => hp.elim) ?_ ?_
  · intro mode hm
    exact hmode.trans (Option.some_inj.mp hm)
  · exact fun m hm => Table.put_of_ne hm
  · exact fun hm => absurd hnone hm
  · exact fun i v hi hp => absurd (Row.free_iff.mp hfree i v hp) hi
  · intro i v hp
    replace hp : (s.claims.put (call j).message j _ (call j).message).pending = some (i, v) := hp
    rw [Table.put_self, Row.pending_put, Option.some_inj, Prod.mk.injEq] at hp
    refine Or.inr ⟨hp.1.symm, hp.2.symm, ?_, trivial⟩
    exact (Table.committed_put _ _).trans hnone
  · intro _
    show (s.claims.put (call j).message j _ (call j).message).pending = _
    rw [Table.put_self, Row.pending_put]
  · rw [hphase]
    exact fun hp => hp.elim
  · intro hm
    exact absurd ((Table.committed_put _ _).trans hnone) hm

omit [DecidableEq κ] in
/-- The claim of a call that does not hold it has not been inserted by it. -/
theorem Inv.pending_ne (h : s.Inv call) {j : κ} (hj : ¬ (s.phase j).Holds) (m : R × ℕ)
    (v : Option String) : (s.claims m).pending ≠ some (j, v) :=
  fun hp => hj (h.pending m j v hp).2.2.2

omit [DecidableEq κ] in
/-- Another message's claim has not been inserted by the call. -/
theorem Inv.pending_ne_of_ne (h : s.Inv call) {j : κ} {m : R × ℕ} (hm : m ≠ (call j).message)
    (v : Option String) : (s.claims m).pending ≠ some (j, v) :=
  fun hp => hm (h.pending m j v hp).1

omit [DecidableEq κ] in
/-- The effects with that of a call which has not acted yet. -/
theorem Inv.own_concat (h : s.Inv call) {j : κ} {p : Phase} (hj : ¬ (s.phase j).Spent)
    (hp : p.Spent) {i : κ} {e : Effect R} (he : (i, e) ∈ s.effects ++ [(j, (call j).effect)]) :
    e = (call i).effect ∧ (i = j ∧ p.Spent ∨ i ≠ j ∧ (s.phase i).Spent) := by
  rcases List.mem_append.mp he with he | he
  · obtain ⟨he, hi⟩ := h.own i e he
    refine ⟨he, Or.inr ⟨?_, hi⟩⟩
    rintro rfl
    exact hj hi
  · obtain ⟨rfl, rfl⟩ := Prod.mk.inj (List.mem_singleton.mp he)
    exact ⟨rfl, Or.inl ⟨rfl, hp⟩⟩

omit [DecidableEq κ] in
theorem Inv.nodup_concat (h : s.Inv call) {j : κ} (hj : ¬ (s.phase j).Spent) :
    ((s.effects ++ [(j, (call j).effect)]).map Prod.fst).Nodup := by
  rw [List.map_append, List.map_singleton, ← List.concat_eq_append]
  refine h.nodup.concat fun hmem => ?_
  obtain ⟨x, hx, rfl⟩ := List.mem_map.mp hmem
  exact hj (h.own x.1 x.2 hx).2

omit [DecidableEq κ] in
theorem effectsOf_concat_ne_nil {j : κ} (heff : s'.effects = s.effects ++ [(j, (call j).effect)]) :
    s'.effectsOf (call j).message ≠ [] := by
  refine List.ne_nil_of_mem (a := (j, (call j).effect)) (List.mem_filter.mpr ⟨?_, ?_⟩)
  · rw [heff]
    exact List.mem_append_right _ (List.mem_singleton_self _)
  · exact decide_eq_true rfl

/-- **`checkThenAct` acts**, next to others that may do so too. -/
theorem Inv.checked (h : s.Inv call) {j : κ} (hmode : (call j).mode = .checkThenAct)
    (hphase : s.phase j = .unseen) :
    ({ s with effects := s.effects ++ [(j, (call j).effect)] }.enter j .acted).Inv call := by
  have hj : ¬ (s.phase j).Holds := by
    rw [hphase]
    exact id
  have hspent : ¬ (s.phase j).Spent := by
    rw [hphase]
    exact id
  -- the effect of a check is counted among those of its mode alone
  have hacts : ∀ m, ({ s with effects := s.effects ++ [(j, (call j).effect)] }.enter j
      .acted).actsOf .insertThenAct m = s.actsOf .insertThenAct m := by
    intro m
    have hm : (call j).effect.mode ≠ .insertThenAct := by
      show (call j).mode ≠ _
      rw [hmode]
      exact nofun
    rw [actsOf_concat (s := s) (x := (j, (call j).effect)) rfl, if_neg fun hc => hm hc.2,
      List.append_nil]
  refine h.act rfl ?_ (fun _ _ => rfl) id (fun _ _ _ _ => rfl) ?_ (fun hp => hp.elim)
    (fun hp => hp.elim) ?_ ?_ ?_ ?_ ?_ ?_ ?_
  · intro mode hm
    exact hmode.trans (Option.some_inj.mp hm)
  · intro i v hp
    refine Or.inl ⟨?_, hp⟩
    rintro rfl
    exact h.pending_ne hj _ v hp
  · exact fun _ => List.mem_append_right _ (List.mem_singleton_self _)
  · exact fun i e => h.own_concat (p := .acted) hspent trivial
  · exact fun x hx => List.mem_append_left _ hx
  · exact h.nodup_concat hspent
  · exact fun _ => effectsOf_concat_ne_nil rfl
  · intro m hm
    rw [hacts] at hm
    exact h.effect m hm
  · intro m
    rw [hacts]
    exact h.once m

/-- **`insertThenAct` commits**, its claim together with its effect. -/
theorem Inv.commit (h : s.Inv call) {j : κ} (hphase : s.phase j = .applied) :
    ({ s with
      claims := s.claims.commit j
      effects := s.effects ++ [(j, (call j).effect)] }.enter j (.returned true)).Inv call := by
  -- the call has not yet spent its one effect
  have hspent : ¬ (s.phase j).Spent := by
    rw [hphase]
    exact id
  have hp := h.holds j (by rw [hphase]; trivial)
  obtain ⟨-, -, hnone, -⟩ := h.pending _ j _ hp
  have hself : s.claims.commit j (call j).message = ⟨some (call j).consumer, none⟩ :=
    Row.commit_of_pending hp
  have hother : ∀ m, m ≠ (call j).message → s.claims.commit j m = s.claims m :=
    fun m hm => Row.commit_of_ne (h.pending_ne_of_ne hm)
  -- the commit brings the call's one effect
  have hacts : ∀ m, ({ s with
      claims := s.claims.commit j
      effects := s.effects ++ [(j, (call j).effect)] }.enter j (.returned true)).actsOf
        .insertThenAct m = s.actsOf .insertThenAct m ++ if (call j).message = m ∧
          (call j).mode = .insertThenAct then [(j, (call j).effect)] else [] :=
    fun m => actsOf_concat (s := s) (x := (j, (call j).effect)) rfl .insertThenAct m
  -- an earlier act on the message would have left a claim, and there was none
  have hfirst : s.actsOf .insertThenAct (call j).message = [] := by
    by_contra hne
    exact h.effect _ hne hnone
  refine h.act rfl nofun hother (fun hm => absurd hnone hm) ?_ ?_ (fun hp => hp.elim) ?_ ?_ ?_
    ?_ ?_ ?_ ?_ ?_
  · intro i v hi hp'
    rw [hp, Option.some_inj, Prod.mk.injEq] at hp'
    exact absurd hp'.1.symm hi
  · intro i v hp'
    replace hp' : (s.claims.commit j (call j).message).pending = some (i, v) := hp'
    rw [hself] at hp'
    cases hp'
  · intro _ hm
    replace hm : (s.claims.commit j (call j).message).committed = none := hm
    rw [hself] at hm
    cases hm
  · exact fun _ => List.mem_append_right _ (List.mem_singleton_self _)
  · exact fun i e => h.own_concat (p := .returned true) hspent trivial
  · exact fun x hx => List.mem_append_left _ hx
  · exact h.nodup_concat hspent
  · exact fun _ => effectsOf_concat_ne_nil rfl
  · intro m hm
    show (s.claims.commit j m).committed ≠ none
    by_cases hj : m = (call j).message
    · rw [hj, hself]
      exact Option.some_ne_none _
    · rw [hacts, if_neg fun hc => hj hc.1.symm, List.append_nil] at hm
      rw [hother m hj]
      exact h.effect m hm
  · intro m
    rw [hacts]
    by_cases hj : m = (call j).message
    · rw [hj, hfirst, List.nil_append]
      split <;> simp
    · rw [if_neg fun hc => hj hc.1.symm, List.append_nil]
      exact h.once m

/-- `checkThenAct` inserts its claim, by itself. -/
theorem Inv.claimed_alone (h : s.Inv call) {j : κ} (hphase : s.phase j = .acted)
    (hfree : (s.claims (call j).message).free j = true) :
    ({ s with
      claims := (s.claims.put (call j).message j (some (call j).consumer)).commit j }.enter j
        (.returned true)).Inv call := by
  have hj : ¬ (s.phase j).Holds := by
    rw [hphase]
    exact id
  -- the claim and its commit are one statement here
  have hself : (s.claims.put (call j).message j (some (call j).consumer)).commit j
      (call j).message = ⟨some (call j).consumer, none⟩ := by
    refine Row.commit_of_pending ?_
    rw [Table.put_self, Row.pending_put]
  refine h.act_quiet rfl rfl nofun ?_ ?_ ?_ ?_ (fun hp => hp.elim) ?_ ?_ ?_ ?_
  · intro m hm
    show ((s.claims.put (call j).message j _) m).commit j = _
    rw [Table.put_of_ne hm]
    exact Row.commit_of_ne (h.pending_ne hj m)
  · intro _ hm
    replace hm : ((s.claims.put (call j).message j _).commit j (call j).message).committed =
      none := hm
    rw [hself] at hm
    cases hm
  · exact fun i v hi hp => absurd (Row.free_iff.mp hfree i v hp) hi
  · intro i v hp
    replace hp : ((s.claims.put (call j).message j _).commit j (call j).message).pending =
      some (i, v) := hp
    rw [hself] at hp
    cases hp
  · intro _ hm
    replace hm : ((s.claims.put (call j).message j _).commit j (call j).message).committed =
      none := hm
    rw [hself] at hm
    cases hm
  · rw [hphase]
    exact fun _ => trivial
  · exact fun _ => trivial
  · rw [hphase]
    exact fun _ => Or.inr trivial

/-- **A call throws**, and leaves what it has committed. -/
theorem Inv.throw (h : s.Inv call) {j : κ} : ((s.rollback j).enter j .threw).Inv call := by
  have hcom : ∀ m, (s.claims.rollback j m).committed = (s.claims m).committed :=
    fun m => Row.committed_rollback
  refine h.act_quiet rfl rfl nofun ?_ ?_ ?_ ?_ (fun hp => hp.elim) (fun hp => hp.elim)
    (fun hp => hp.elim) (fun _ => trivial) ?_
  · exact fun m hm => Row.rollback_of_ne (h.pending_ne_of_ne hm)
  · exact fun hm hc => hm ((hcom _).symm.trans hc)
  · exact fun i v hi hp => Row.rollback_of_ne (Row.pending_ne_of_ne hp hi)
  · intro i v hp
    exact Or.inl (Row.pending_of_rollback hp).symm
  · exact fun hm => Or.inl fun hc => hm ((hcom _).trans hc)

/-- The next statement keeps the invariant. -/
theorem Inv.next (h : s.Inv call) {j : κ} (hs : s.next call j = some s') : s'.Inv call := by
  unfold Consumers.next at hs
  split at hs
  · next hmode =>
    unfold checkThenAct at hs
    split at hs
    · next hphase =>
      split at hs
      · next consumer hc =>
        obtain rfl := Option.some_inj.mp hs
        refine h.enter nofun (by rw [hphase]; rfl) ?_ (fun hp => hp.elim) (by rw [hphase]; exact id)
        rw [hc]
        exact fun _ => Option.some_ne_none _
      · obtain rfl := Option.some_inj.mp hs
        refine h.enter ?_ (by rw [hphase]; rfl) (fun hp => hp.elim) (fun hp => hp.elim)
          (by rw [hphase]; exact id)
        exact fun mode hm => hmode.trans (Option.some_inj.mp hm)
    · next hphase =>
      obtain rfl := Option.some_inj.mp hs
      exact h.checked hmode hphase
    · next hphase =>
      split at hs
      · next consumer hc =>
        obtain rfl := Option.some_inj.mp hs
        refine h.enter nofun (by rw [hphase]; rfl) ?_ (by rw [hphase]; exact id) fun _ => trivial
        rw [hc]
        exact fun _ => Option.some_ne_none _
      · split at hs
        · next hfree =>
          obtain rfl := Option.some_inj.mp hs
          exact h.claimed_alone hphase hfree
        · cases hs
    · cases hs
  · next hmode =>
    unfold insertThenAct at hs
    split at hs
    · next hphase =>
      obtain rfl := Option.some_inj.mp hs
      refine h.enter ?_ (by rw [hphase]; rfl) (fun hp => hp.elim) (fun hp => hp.elim)
        (by rw [hphase]; exact id)
      exact fun mode hm => hmode.trans (Option.some_inj.mp hm)
    · next hphase =>
      split at hs
      · next consumer hc =>
        obtain rfl := Option.some_inj.mp hs
        refine h.enter ?_ (by rw [hphase]; rfl) ?_ (fun hp => hp.elim) (by rw [hphase]; exact id)
        · exact fun mode hm => hmode.trans (Option.some_inj.mp hm)
        · rw [hc]
          exact fun _ => Option.some_ne_none _
      · next hnone =>
        split at hs
        · next hfree =>
          obtain rfl := Option.some_inj.mp hs
          exact h.put hmode hphase hnone hfree
        · cases hs
    · next hphase =>
      obtain rfl := Option.some_inj.mp hs
      refine h.enter ?_ (by rw [hphase]; rfl) (fun hp => hp.elim) (fun hp => hp.elim)
        (by rw [hphase]; exact id)
      exact fun mode hm => hmode.trans (Option.some_inj.mp hm)
    · next hphase =>
      obtain rfl := Option.some_inj.mp hs
      exact h.commit hphase
    · next hphase =>
      obtain rfl := Option.some_inj.mp hs
      -- the transaction has inserted nothing
      have hj : ¬ (s.phase j).Holds := by
        rw [hphase]
        exact id
      have hclaims : s.claims.commit j = s.claims :=
        funext fun m => Row.commit_of_ne (h.pending_ne hj m)
      rw [hclaims]
      refine h.enter nofun (by rw [hphase]; rfl) (fun _ => h.saw j ?_) (fun hp => hp.elim)
        (by rw [hphase]; exact id)
      rw [hphase]
      trivial
    · cases hs

/-- **Every statement keeps the invariant.** -/
theorem Inv.step (h : s.Inv call) {a : Action κ} (hs : step call s a = some s') : s'.Inv call := by
  cases a with
  | next j => exact h.next hs
  | fail j took =>
    simp only [Consumers.step, Consumers.fail] at hs
    split at hs
    · cases hs
    · cases hs
    · split at hs
      · obtain ⟨s₁, hs₁, rfl⟩ := Option.map_eq_some_iff.mp hs
        exact (h.next hs₁).throw
      · obtain rfl := Option.some_inj.mp hs
        exact h.throw

/-! ### Overlapping calls -/

/-- The calls have all run their `SELECT`, and the message is not claimed yet. -/
def AllSelected (m : R × ℕ) (l : List κ) (s : Consumers κ R) : Prop :=
  (∀ j ∈ l, s.phase j ≠ .idle) ∧ (s.claims m).committed = none

/-- The call has found no claim. -/
def Phase.FoundNone : Phase → Prop
  | .unseen | .acted | .returned true | .threw => True
  | _ => False

/-- A `SELECT` that finds no claim is alone: no other call of the message has found none and is
still to act, and none has acted. -/
def Alone (call : κ → Call R) (s : Consumers κ R) (a : Action κ) : Prop :=
  ∀ j, a = .next j → s.phase j = .idle → (s.claims (call j).message).committed = none →
    ∀ i, (call i).message = (call j).message →
      s.phase i ≠ .unseen ∧ (i, (call i).effect) ∉ s.effects

/-- What the next statement does to the phases and to the effects. -/
theorem next_cases {j : κ} (hs : s.next call j = some s') :
    ∃ p, s'.phase = Function.update s.phase j p ∧
      (s'.effects = s.effects ∧
          (p = .unseen → s.phase j = .idle ∧ (s.claims (call j).message).committed = none) ∨
        s'.effects = s.effects ++ [(j, (call j).effect)] ∧ p ≠ .unseen ∧
          (s.phase j = .unseen ∨ s.phase j = .applied)) := by
  unfold Consumers.next at hs
  split at hs
  · unfold checkThenAct at hs
    split at hs
    · next hphase =>
      split at hs
      · obtain rfl := Option.some_inj.mp hs
        exact ⟨_, rfl, Or.inl ⟨rfl, nofun⟩⟩
      · next hnone =>
        obtain rfl := Option.some_inj.mp hs
        exact ⟨_, rfl, Or.inl ⟨rfl, fun _ => ⟨hphase, hnone⟩⟩⟩
    · next hphase =>
      obtain rfl := Option.some_inj.mp hs
      exact ⟨_, rfl, Or.inr ⟨rfl, nofun, Or.inl hphase⟩⟩
    · split at hs
      · obtain rfl := Option.some_inj.mp hs
        exact ⟨_, rfl, Or.inl ⟨rfl, nofun⟩⟩
      · split at hs
        · obtain rfl := Option.some_inj.mp hs
          exact ⟨_, rfl, Or.inl ⟨rfl, nofun⟩⟩
        · cases hs
    · cases hs
  · unfold insertThenAct at hs
    split at hs
    · obtain rfl := Option.some_inj.mp hs
      exact ⟨_, rfl, Or.inl ⟨rfl, nofun⟩⟩
    · split at hs
      · obtain rfl := Option.some_inj.mp hs
        exact ⟨_, rfl, Or.inl ⟨rfl, nofun⟩⟩
      · split at hs
        · obtain rfl := Option.some_inj.mp hs
          exact ⟨_, rfl, Or.inl ⟨rfl, nofun⟩⟩
        · cases hs
    · obtain rfl := Option.some_inj.mp hs
      exact ⟨_, rfl, Or.inl ⟨rfl, nofun⟩⟩
    · next hphase =>
      obtain rfl := Option.some_inj.mp hs
      exact ⟨_, rfl, Or.inr ⟨rfl, nofun, Or.inr hphase⟩⟩
    · obtain rfl := Option.some_inj.mp hs
      exact ⟨_, rfl, Or.inl ⟨rfl, nofun⟩⟩
    · cases hs

/-- What a statement does to the phases and to the effects. -/
theorem step_cases {a : Action κ} (hs : Consumers.step call s a = some s') :
    ∃ j p, a.call = j ∧ s'.phase = Function.update s.phase j p ∧
      (s'.effects = s.effects ∧ (p = .unseen → a = .next j ∧ s.phase j = .idle ∧
          (s.claims (call j).message).committed = none) ∨
        s'.effects = s.effects ++ [(j, (call j).effect)] ∧ p ≠ .unseen ∧
          (s.phase j = .unseen ∨ s.phase j = .applied)) := by
  cases a with
  | next j =>
    -- a call that takes its next statement
    obtain ⟨p, hphase, heff⟩ := next_cases hs
    exact ⟨j, p, rfl, hphase, heff.imp_left fun h => ⟨h.1, fun hp => ⟨rfl, h.2 hp⟩⟩⟩
  | fail j took =>
    simp only [Consumers.step, Consumers.fail] at hs
    split at hs
    · cases hs
    · cases hs
    · split at hs
      -- a call that throws after its statement took, or before it
      · obtain ⟨s₁, hs₁, rfl⟩ := Option.map_eq_some_iff.mp hs
        obtain ⟨p, hphase, heff⟩ := next_cases hs₁
        refine ⟨j, .threw, rfl, ?_, ?_⟩
        · show Function.update s₁.phase j _ = _
          rw [hphase, Function.update_idem]
        · rcases heff with ⟨heff, -⟩ | ⟨heff, -, hp⟩
          · exact Or.inl ⟨heff, nofun⟩
          · exact Or.inr ⟨heff, nofun, hp⟩
      · obtain rfl := Option.some_inj.mp hs
        exact ⟨j, .threw, rfl, rfl, Or.inl ⟨rfl, nofun⟩⟩

/-- At most one call of the message has found no claim and is still to act, and then none has. -/
structure Single (call : κ → Call R) (m : R × ℕ) (s : Consumers κ R) : Prop where
  inv : s.Inv call
  unseen : ∀ j, s.phase j = .unseen → (call j).message = m →
    s.effectsOf m = [] ∧ ∀ i, s.phase i = .unseen → (call i).message = m → i = j
  once : (s.effectsOf m).length ≤ 1

/-- **A step that is alone** leaves the message with one effect. -/
theorem Single.step {m : R × ℕ} (hm : ∀ j, (call j).message = m → (call j).mode = .checkThenAct)
    (h : s.Single call m) {a : Action κ} (ha : s.Alone call a)
    (hs : Consumers.step call s a = some s') : s'.Single call m := by
  obtain ⟨j, p, -, hphase, heff⟩ := step_cases hs
  have hself : s'.phase j = p := by rw [hphase, Function.update_self]
  have hne : ∀ {i}, i ≠ j → s'.phase i = s.phase i := by
    intro i hi
    rw [hphase, Function.update_of_ne hi]
  refine ⟨h.inv.step hs, ?_, ?_⟩
  · intro i hi hmi
    rcases heff with ⟨heff, hseen⟩ | ⟨heff, hp, hj⟩
    · have hsame : s'.effectsOf m = s.effectsOf m := by
        unfold effectsOf
        rw [heff]
      rw [hsame]
      by_cases hmj : (call j).message = m ∧ p = .unseen
      · -- the call has just found no claim
        obtain ⟨hmj, hp⟩ := hmj
        obtain ⟨hnext, hidle, hnone⟩ := hseen hp
        have halone := ha j hnext hidle hnone
        have honly : ∀ k, s'.phase k = .unseen → (call k).message = m → k = j := by
          intro k hk hmk
          by_contra hkj
          rw [hne hkj] at hk
          exact (halone k (hmk.trans hmj.symm)).1 hk
        obtain rfl := honly i hi hmi
        refine ⟨?_, honly⟩
        by_contra hcon
        obtain ⟨x, hx⟩ := List.exists_mem_of_ne_nil _ hcon
        rw [effectsOf, List.mem_filter] at hx
        obtain ⟨hmem, hxm⟩ := hx
        obtain ⟨hxe, -⟩ := h.inv.own x.1 x.2 hmem
        have hxm : (call x.1).message = m := by
          have hxm' := of_decide_eq_true hxm
          rw [hxe] at hxm'
          exact hxm'
        exact (halone x.1 (hxm.trans hmj.symm)).2 (hxe ▸ hmem)
      · have hold : ∀ k, s'.phase k = .unseen → (call k).message = m → s.phase k = .unseen := by
          intro k hk hmk
          have hkj : k ≠ j := by
            rintro rfl
            exact hmj ⟨hmk, hself ▸ hk⟩
          rwa [hne hkj] at hk
        obtain ⟨hnil, honly⟩ := h.unseen i (hold i hi hmi) hmi
        exact ⟨hnil, fun k hk hmk => honly k (hold k hk hmk) hmk⟩
    · have hij : i ≠ j := by
        rintro rfl
        exact hp (hself ▸ hi)
      rw [hne hij] at hi
      have hmj : (call j).message ≠ m := by
        intro hmj
        rcases hj with hj | hj
        · exact hij ((h.unseen i hi hmi).2 j hj hmj).symm
        · have hmode := h.inv.mode j .insertThenAct (by rw [hj]; rfl)
          rw [hm j hmj] at hmode
          cases hmode
      rw [effectsOf_of_ne heff hmj]
      refine ⟨(h.unseen i hi hmi).1, fun k hk hmk => ?_⟩
      have hkj : k ≠ j := by
        rintro rfl
        exact hmj hmk
      exact (h.unseen i hi hmi).2 k (hne hkj ▸ hk) hmk
  · rcases heff with ⟨heff, -⟩ | ⟨heff, -, hj⟩
    · have honce := h.once
      unfold effectsOf at honce ⊢
      rwa [heff]
    · by_cases hmj : (call j).message = m
      · rcases hj with hj | hj
        · rw [effectsOf_concat heff, (h.unseen j hj hmj).1, List.nil_append]
          split <;> simp
        · have hmode := h.inv.mode j .insertThenAct (by rw [hj]; rfl)
          rw [hm j hmj] at hmode
          cases hmode
      · rw [effectsOf_of_ne heff hmj]
        exact h.once

/-- The last statement of `checkThenAct`, when no transaction is about to claim the message. -/
theorem exists_checkThenAct_of_acted {j : κ} {c : Call R} (hphase : s.phase j = .acted)
    (hnone : (s.claims c.message).pending = none) :
    ∃ s', s.checkThenAct j c = some s' ∧ (s'.claims c.message).pending = none ∧
      s'.phase = Function.update s.phase j (.returned true) ∧ s'.effects = s.effects := by
  unfold checkThenAct
  rw [hphase]
  cases hc : (s.claims c.message).committed with
  | some consumer => exact ⟨_, rfl, hnone, rfl, rfl⟩
  | none =>
    have hfree : (s.claims c.message).free j = true :=
      Row.free_iff.mpr fun u v hp => by rw [hnone] at hp; cases hp
    refine ⟨_, if_pos hfree, ?_, rfl, rfl⟩
    show ((s.claims.put c.message j _).commit j c.message).pending = none
    unfold Table.commit
    rw [Table.put_self, Row.commit_of_pending Row.pending_put]

omit [DecidableEq κ] in
/-- Who has selected before the first claim has found none. -/
theorem Inv.foundNone (h : s.Inv call) {j : κ} (hmode : (call j).mode = .checkThenAct)
    (hidle : s.phase j ≠ .idle) (hnone : (s.claims (call j).message).committed = none) :
    (s.phase j).FoundNone := by
  have hcheck : ∀ mode, (s.phase j).mode? = some mode → mode = .checkThenAct :=
    fun mode hm => (h.mode j mode hm).symm.trans hmode
  have hsaw : ¬ (s.phase j).Saw := fun hs => h.saw j hs hnone
  cases hphase : s.phase j with
  | idle => exact hidle hphase
  | unseen => trivial
  | acted => trivial
  | threw => trivial
  | returned applied => exact (hsaw (by rw [hphase]; trivial)).elim
  | begun => exact absurd (hcheck _ (by rw [hphase]; rfl)) (by decide)
  | claimed => exact absurd (hcheck _ (by rw [hphase]; rfl)) (by decide)
  | lost => exact absurd (hcheck _ (by rw [hphase]; rfl)) (by decide)
  | applied => exact absurd (hcheck _ (by rw [hphase]; rfl)) (by decide)

/-- **Who has found no claim goes on to act**, or throws, whatever the others do. -/
theorem FoundNone.step {j : κ} (hmode : (call j).mode = .checkThenAct)
    (hj : (s.phase j).FoundNone) {a : Action κ} (hs : Consumers.step call s a = some s') :
    (s'.phase j).FoundNone := by
  -- the call that saw no claim, or another one
  by_cases ha : a.call = j
  case neg =>
    obtain ⟨i, p, hi, hphase, -⟩ := step_cases hs
    rwa [hphase, Function.update_of_ne fun hji => ha (hi.trans hji.symm)]
  cases a with
  | next i =>
    obtain rfl : i = j := ha
    simp only [Consumers.step, Consumers.next, hmode, checkThenAct] at hs
    split at hs
    · next hphase =>
      rw [hphase] at hj
      exact hj.elim
    · obtain rfl := Option.some_inj.mp hs
      rw [enter_phase_self]
      trivial
    · split at hs
      · obtain rfl := Option.some_inj.mp hs
        rw [enter_phase_self]
        trivial
      · split at hs
        · obtain rfl := Option.some_inj.mp hs
          rw [enter_phase_self]
          trivial
        · cases hs
    · cases hs
  | fail i took =>
    obtain rfl : i = j := ha
    have hthrew : s'.phase i = .threw := by
      simp only [Consumers.step, Consumers.fail] at hs
      split at hs
      · cases hs
      · cases hs
      · split at hs
        · obtain ⟨s₁, -, rfl⟩ := Option.map_eq_some_iff.mp hs
          exact enter_phase_self ..
        · obtain rfl := Option.some_inj.mp hs
          exact enter_phase_self ..
    rw [hthrew]
    trivial

/-- A call that has found no claim can run to its return, if it has not thrown. -/
theorem Inv.exists_returned (h : s.Inv call) {m : R × ℕ}
    (hm : ∀ j, (call j).message = m → (call j).mode = .checkThenAct) {j : κ}
    (hjm : (call j).message = m) (hj : (s.phase j).FoundNone) :
    ∃ as s', exec (Consumers.step call) s as = some s' ∧
      (s.phase j ≠ .threw → s'.phase j = .returned true) ∧ ∀ i, i ≠ j → s'.phase i = s.phase i := by
  have hcheck : ∀ t : Consumers κ R, Consumers.step call t (.next j) =
      t.checkThenAct j (call j) := by
    intro t
    simp only [Consumers.step, Consumers.next, hm j hjm]
  -- no transaction holds a claim of the message
  have hfree : (s.claims (call j).message).pending = none := by
    rw [hjm]
    refine Option.eq_none_iff_forall_ne_some.mpr fun ⟨i, v⟩ hp => ?_
    obtain ⟨him, -, -, hholds⟩ := h.pending m i v hp
    have hmode : (call i).mode = .insertThenAct := by
      cases hphase : s.phase i with
      | claimed => exact h.mode i _ (by rw [hphase]; rfl)
      | applied => exact h.mode i _ (by rw [hphase]; rfl)
      | _ => rw [hphase] at hholds; exact hholds.elim
    rw [hm i him.symm] at hmode
    cases hmode
  cases hphase : s.phase j with
  | unseen =>
    let t : Consumers κ R :=
      { s with effects := s.effects ++ [(j, (call j).effect)] }.enter j .acted
    obtain ⟨s', hs', -, hret, -⟩ :=
      exists_checkThenAct_of_acted (s := t) (c := call j) (Function.update_self ..) hfree
    refine ⟨[.next j, .next j], s', ?_, fun _ => by rw [hret, Function.update_self],
      fun i hi => ?_⟩
    · have hfirst : s.checkThenAct j (call j) = some t := by
        simp only [checkThenAct, hphase]
        rfl
      simp only [exec_cons, hcheck, hfirst, Option.bind_some, hs', exec_nil]
    · rw [hret, Function.update_of_ne hi]
      exact Function.update_of_ne hi _ _
  | acted =>
    obtain ⟨s', hs', -, hret, -⟩ := exists_checkThenAct_of_acted (c := call j) hphase hfree
    refine ⟨[.next j], s', ?_, fun _ => by rw [hret, Function.update_self],
      fun i hi => by rw [hret, Function.update_of_ne hi]⟩
    simp only [exec_cons, hcheck, hs', Option.bind_some, exec_nil]
  | returned applied =>
    rw [hphase] at hj
    cases applied with
    | true => exact ⟨[], s, rfl, fun _ => hphase, fun _ _ => rfl⟩
    | false => exact hj.elim
  | threw => exact ⟨[], s, rfl, fun hne => absurd rfl hne, fun _ _ => rfl⟩
  | _ => rw [hphase] at hj; exact hj.elim

/-- **All the calls that have found no claim can run to their returns.** -/
theorem Inv.exists_all_returned (h : s.Inv call) {m : R × ℕ}
    (hm : ∀ j, (call j).message = m → (call j).mode = .checkThenAct) (l : List κ)
    (hlm : ∀ j ∈ l, (call j).message = m) (hl : ∀ j ∈ l, (s.phase j).FoundNone) :
    ∃ as s', exec (Consumers.step call) s as = some s' ∧
      ∀ j ∈ l, s.phase j ≠ .threw → s'.phase j = .returned true := by
  -- one call after the other
  suffices hsuff : ∃ as s', exec (Consumers.step call) s as = some s' ∧
      (∀ j ∈ l, s.phase j ≠ .threw → s'.phase j = .returned true) ∧
      ∀ j, j ∉ l → s'.phase j = s.phase j by
    obtain ⟨as, s', hs', hret, -⟩ := hsuff
    exact ⟨as, s', hs', hret⟩
  induction l with
  | nil => exact ⟨[], s, rfl, nofun, fun _ _ => rfl⟩
  | cons j l ih =>
    obtain ⟨as, s₁, hs₁, hret, hframe⟩ := ih (fun i hi => hlm i (List.mem_cons_of_mem _ hi))
      fun i hi => hl i (List.mem_cons_of_mem _ hi)
    have hreach : Reach (Consumers.step call) s s₁ := .of_exec as hs₁
    have hjm : (call j).message = m := hlm j List.mem_cons_self
    have hinv : s₁.Inv call := hreach.invariant h fun _ _ _ hs hstep => hs.step hstep
    have hj : (s₁.phase j).FoundNone :=
      hreach.invariant (P := fun s => (s.phase j).FoundNone) (hl j List.mem_cons_self)
        fun _ _ _ hs hstep => FoundNone.step (hm j hjm) hs hstep
    obtain ⟨bs, s₂, hs₂, hret₂, hframe₂⟩ := hinv.exists_returned hm hjm hj
    refine ⟨as ++ bs, s₂, by rw [exec_append, hs₁]; exact hs₂, fun i hi hthrew => ?_,
      fun i hi => ?_⟩
    · by_cases hij : i = j
      · subst hij
        by_cases hil : i ∈ l
        · refine hret₂ ?_
          rw [hret i hil hthrew]
          nofun
        · exact hret₂ (by rwa [hframe i hil])
      · rw [hframe₂ i hij]
        exact hret i ((List.mem_cons.mp hi).resolve_left hij) hthrew
    · rw [List.mem_cons, not_or] at hi
      rw [hframe₂ i hi.1, hframe i hi.2]

end Consumers

open Consumers

variable [DecidableEq κ] [DecidableEq R]

/-- **A message has one effect.**  In every interleaving of calls of both handlers, with any of
them throwing at any statement, `insertThenAct` has acted at most once on a message; a call that
has returned tells rightly whether its effect is there; and a message that one call has returned
for has an effect, and just one if `insertThenAct` alone is used. -/
theorem insertThenAct_acts_once (call : κ → Call R) {s : Consumers κ R}
    (h : Reach (Consumers.step call) Consumers.init s) :
    (∀ m, (s.actsOf .insertThenAct m).length ≤ 1) ∧
    ∀ j applied, s.phase j = .returned applied →
      (applied = true ↔ (j, (call j).effect) ∈ s.effects) ∧ s.effectsOf (call j).message ≠ [] ∧
        ((∀ i, (call i).mode = .insertThenAct) → (s.effectsOf (call j).message).length = 1) := by
  have hinv := h.invariant (P := Inv call) .init fun _ _ _ hs hstep => hs.step hstep
  refine ⟨hinv.once, fun j applied hj => ?_⟩
  -- a call that returned has seen an effect on its message, its own or another's
  have hne : s.effectsOf (call j).message ≠ [] :=
    hinv.claimed _ (hinv.saw j (by rw [hj]; trivial))
  refine ⟨⟨?_, fun hmem => ?_⟩, hne, fun hmode => ?_⟩
  · rintro rfl
    exact hinv.acted j (by rw [hj]; trivial)
  · have hspent := (hinv.own j _ hmem).2
    rw [hj] at hspent
    cases applied with
    | true => rfl
    | false => exact hspent.elim
  -- with inserting calls only, every effect comes from an insert
  · have hall : s.actsOf .insertThenAct (call j).message = s.effectsOf (call j).message := by
      refine List.filter_eq_self.mpr fun x hx => decide_eq_true ?_
      rw [(hinv.own x.1 x.2 (List.mem_of_mem_filter hx)).1]
      exact hmode x.1
    have honce := hinv.once (call j).message
    rw [hall] at honce
    exact Nat.le_antisymm honce (List.length_pos_of_ne_nil hne)

/-- **Looking first acts as often as calls overlap.**  On a message that only `checkThenAct` is
called for: if calls all run their `SELECT` before the first claim, then in any interleaving each
of them that returns has acted and returns `true`, and those that have not thrown can all
return; and a run in which no call that finds no claim overlaps another one, or follows one
that has thrown before its claim, acts once. -/
theorem checkThenAct_duplicates (call : κ → Call R) {m : R × ℕ}
    (hm : ∀ j, (call j).message = m → (call j).mode = .checkThenAct) :
    (∀ (l : List κ) (as bs : List (Action κ)) (s₁ s : Consumers κ R),
      (∀ j ∈ l, (call j).message = m) →
      exec (Consumers.step call) Consumers.init as = some s₁ → AllSelected m l s₁ →
      exec (Consumers.step call) s₁ bs = some s →
        (∀ j ∈ l, ∀ applied, s.phase j = .returned applied →
          applied = true ∧ (j, (call j).effect) ∈ s.effectsOf m) ∧
        ∃ cs s', exec (Consumers.step call) s cs = some s' ∧
          ∀ j ∈ l, s.phase j ≠ .threw → s'.phase j = .returned true) ∧
    ∀ as s, AllSteps (Alone call) (Consumers.step call) Consumers.init as →
      exec (Consumers.step call) Consumers.init as = some s → (s.effectsOf m).length ≤ 1 := by
  constructor
  · intro l as bs s₁ s hlm hs₁ hselected hs
    have hreach : Reach (Consumers.step call) s₁ s := .of_exec bs hs
    have hinv₁ : s₁.Inv call :=
      (Reach.of_exec as hs₁).invariant .init fun _ _ _ h hstep => h.step hstep
    have hinv : s.Inv call := hreach.invariant hinv₁ fun _ _ _ h hstep => h.step hstep
    -- what a call has found it does not forget
    have hfound : ∀ j ∈ l, (s.phase j).FoundNone := by
      intro j hj
      have hmode := hm j (hlm j hj)
      refine hreach.invariant (P := fun s => (s.phase j).FoundNone) ?_
        fun _ _ _ h hstep => FoundNone.step hmode h hstep
      exact hinv₁.foundNone hmode (hselected.1 j hj) (by rw [hlm j hj]; exact hselected.2)
    refine ⟨fun j hj applied hret => ?_, hinv.exists_all_returned hm l hlm hfound⟩
    have hj' := hfound j hj
    rw [hret] at hj'
    cases applied with
    | false => exact hj'.elim
    | true =>
      refine ⟨rfl, List.mem_filter.mpr ⟨hinv.acted j (by rw [hret]; trivial), ?_⟩⟩
      exact decide_eq_true (hlm j hj)
  · intro as s has hs
    have hsingle : s.Single call m := by
      refine exec_forall (P := Single call m) ⟨.init, nofun, Nat.zero_le 1⟩
        (fun _ a _ h ha hs => h.step hm ha hs) as ?_ as s List.prefix_rfl hs
      exact fun bs a s' hpre hs' => allSteps_iff.mp has bs a s' hpre hs'
    exact hsingle.once

/-- Two deliveries of row `4` to calls of each mode. -/
def redelivered (mode : Mode) (j : Bool) : Call ℕ := ⟨mode, 6, 4, if j then "c1" else "c0"⟩

/-- The first call of `insertThenAct` throws after its `COMMIT`, and the second one finds the
claim. -/
theorem insertThenAct_acts_once_redelivered : ∃ s : Consumers Bool ℕ,
    exec (Consumers.step (redelivered .insertThenAct)) Consumers.init
      [.next false, .next true, .next false, .next false, .fail false true, .next true,
        .next true] = some s ∧ s.phase true = .returned false ∧
    s.effectsOf (6, 4) = [(false, ⟨6, .insertThenAct, 4, "c0"⟩)] ∧
    (s.effectsOf (6, 4)).length = 1 := by
  have hrun : (exec (Consumers.step (redelivered .insertThenAct)) Consumers.init
      [.next false, .next true, .next false, .next false, .fail false true, .next true,
        .next true]).map (fun s => (s.phase true, s.effectsOf (6, 4))) =
      some (.returned false, [(false, ⟨6, .insertThenAct, 4, "c0"⟩)]) := by decide
  obtain ⟨s, hs, hobs⟩ := Option.map_eq_some_iff.mp hrun
  rw [Prod.mk.injEq] at hobs
  refine ⟨s, hs, hobs.1, hobs.2, ?_⟩
  obtain ⟨-, hret⟩ := insertThenAct_acts_once (redelivered .insertThenAct) (.of_exec _ hs)
  exact (hret true false hobs.1).2.2 fun _ => rfl

/-- Two calls of `checkThenAct` select before one of them claims, and both act. -/
theorem checkThenAct_duplicates_redelivered : ∃ s : Consumers Bool ℕ,
    exec (Consumers.step (redelivered .checkThenAct)) Consumers.init
      [.next true, .next false, .next false, .next false, .next true, .next true] = some s ∧
    (true, ⟨6, .checkThenAct, 4, "c1"⟩) ∈ s.effectsOf (6, 4) ∧
    (false, ⟨6, .checkThenAct, 4, "c0"⟩) ∈ s.effectsOf (6, 4) := by
  -- both calls read before either writes
  have hselect : (exec (Consumers.step (redelivered .checkThenAct)) Consumers.init
      [.next true, .next false]).map (fun s => (s.phase true, s.phase false,
        (s.claims (6, 4)).committed)) = some (.unseen, .unseen, none) := by decide
  obtain ⟨s₁, hs₁, hobs₁⟩ := Option.map_eq_some_iff.mp hselect
  have hrun : (exec (Consumers.step (redelivered .checkThenAct)) Consumers.init
      [.next true, .next false, .next false, .next false, .next true, .next true]).map
        (fun s => (s.phase true, s.phase false)) = some (.returned true, .returned true) := by
    decide
  obtain ⟨s, hs, hobs⟩ := Option.map_eq_some_iff.mp hrun
  simp only [Prod.mk.injEq] at hobs₁ hobs
  -- then each of them writes its effect, and both return
  have hrest : exec (Consumers.step (redelivered .checkThenAct)) s₁
      [.next false, .next false, .next true, .next true] = some s := by
    rw [show [Action.next true, .next false, .next false, .next false, .next true, .next true] =
      [.next true, .next false] ++ [.next false, .next false, .next true, .next true] from rfl,
      exec_append, hs₁, Option.bind_some] at hs
    exact hs
  have hselected : AllSelected (6, 4) [true, false] s₁ := by
    refine ⟨fun j _ => ?_, hobs₁.2.2⟩
    cases j with
    | false => rw [hobs₁.2.1]; nofun
    | true => rw [hobs₁.1]; nofun
  obtain ⟨hacted, -⟩ := (checkThenAct_duplicates (redelivered .checkThenAct) (m := (6, 4))
    fun _ _ => rfl).1 [true, false] _ _ s₁ s (fun _ _ => rfl) hs₁ hselected hrest
  exact ⟨s, hs, (hacted true (by simp) true hobs.1).2, (hacted false (by simp) true hobs.2).2⟩

end Outbox
end SepLab
