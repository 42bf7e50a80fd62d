import Mathlib.Data.Int.Notation
import Mathlib.Data.List.Nodup
import SepLab.Lib.Transition

/-!
# The consumer behind the broker

`consume_loop` of `relay6.py`, with a client that has `enable.auto.commit`: it commits, at a
poll or at a close, the position after the last message it has returned.  The loop swallows
every exception and polls again.  The connections of the pool are in autocommit, so of the two
`INSERT`s of a message none, the first or both may have taken effect when one fails.

## Main definitions

* `Payload`, `Effect`, `Delivered` — a message's value, and the rows of the two tables.
* `Consumer`, `Action`, `step` — the topic, the client's offsets, and what may happen.
* `Consumer.NothingLost` — every event before the committed offset has exactly one effect.
* `Consumer.CommitsApplied` — the condition on a commit of the position.

## Main results

* `consume_loop_loses_nothing_iff` — nothing is lost exactly when every commit meets the
  condition.
-/

namespace SepLab
namespace Outbox.KafkaConsumer

/-- A message's value as JSON: the two keys that the consumer reads. -/
structure Payload (R : Type) where
  runId : Option R
  outboxId : Option ℤ
  deriving DecidableEq, Repr

/-- A row of `t6_consumer_effects`. -/
structure Effect (R : Type) where
  runId : R
  consumer : String
  outboxId : ℤ
  deriving DecidableEq, Repr

/-- A row of `t6_delivered`. -/
structure Delivered (R : Type) where
  runId : R
  relay : String
  wokenBy : String
  outboxId : ℤ
  deriving DecidableEq, Repr

/-- `RUN_ID` and `RELAY_NAME`. -/
structure Env (R : Type) where
  runId : R
  name : String

/-- The broker's log, the client and the two tables.  A value that `json.loads` or `d.get`
cannot take is `none`. -/
structure Consumer (R : Type) where
  topic : List (Option (Payload R))
  /-- The offset after the last message the client has returned. -/
  position : ℕ
  /-- The offset committed for the group. -/
  committed : ℕ
  /-- The offset of the message in hand. -/
  handling : Option ℕ
  delivered : List (Delivered R)
  effects : List (Effect R)
  /-- The offsets of the messages returned since the client has started whose handling ended
  in an exception. -/
  failed : List ℕ

/-- What happens next. -/
inductive Action (R : Type)
  /-- The broker appends a message. -/
  | append (value : Option (Payload R))
  /-- `c.poll` returns the next message. -/
  | poll (autoCommit : Bool)
  /-- `c.poll` returns `None` or an error. -/
  | pollNone (autoCommit : Bool)
  /-- Both `INSERT`s of the message in hand are through. -/
  | succeed
  /-- An exception, before the first `INSERT` has taken effect, after it, or after both. -/
  | fail (inserts : ℕ)
  /-- The client stops, with a close or without one, and starts again. -/
  | restart (close : Bool)
  deriving DecidableEq, Repr

variable {R : Type} [DecidableEq R]

/-- The key of the event: `d.get("run_id", RUN_ID)` and `d.get("outbox_id", 0)`. -/
def Payload.key (env : Env R) (d : Payload R) : R × ℤ := (d.runId.getD env.runId, d.outboxId.getD 0)

namespace Consumer

/-- An empty topic, and a group without an offset: it starts from the earliest. -/
def init : Consumer R := ⟨[], 0, 0, none, [], [], []⟩

/-- The effects of an event. -/
def effectsOf (c : Consumer R) (key : R × ℤ) : ℕ :=
  c.effects.countP fun e => e.runId = key.1 ∧ e.outboxId = key.2

/-- `INSERT INTO t6_delivered`. -/
def insertDelivered (env : Env R) (c : Consumer R) (d : Payload R) : Consumer R :=
  { c with delivered := c.delivered ++ [⟨(d.key env).1, env.name, "kafka", (d.key env).2⟩] }

/-- `INSERT INTO t6_consumer_effects … ON CONFLICT DO NOTHING`. -/
def insertEffect (env : Env R) (c : Consumer R) (d : Payload R) : Consumer R :=
  { c with
    effects :=
      if c.effectsOf (d.key env) = 0 then
        c.effects ++ [⟨(d.key env).1, env.name, (d.key env).2⟩]
      else c.effects }

/-- The position is committed, if the client does so now. -/
def autoCommit (c : Consumer R) (commits : Bool) : Consumer R :=
  if commits then { c with committed := c.position } else c

/-- A `poll` that returns the next message. -/
def poll (c : Consumer R) (commits : Bool) : Option (Consumer R) :=
  match c.handling with
  | none =>
    if c.position < c.topic.length then
      some { c.autoCommit commits with handling := some c.position, position := c.position + 1 }
    else none
  | some _ => none

/-- A `poll` that returns `None`. -/
def pollNone (c : Consumer R) (commits : Bool) : Option (Consumer R) :=
  match c.handling with
  | none => some (c.autoCommit commits)
  | some _ => none

/-- A value that is no JSON object never gets so far. -/
def succeed (env : Env R) (c : Consumer R) : Option (Consumer R) :=
  match c.handling.bind fun n => c.topic[n]? with
  | some (some d) => some { (c.insertDelivered env d).insertEffect env d with handling := none }
  | _ => none

/-- The exception is swallowed, and the loop goes on. -/
def fail (env : Env R) (c : Consumer R) (inserts : ℕ) : Option (Consumer R) :=
  match c.handling with
  | none => none
  | some n =>
    let c' : Consumer R := { c with handling := none, failed := c.failed ++ [n] }
    match c.topic[n]?, inserts with
    | some (some d), 1 => some (c'.insertDelivered env d)
    | some (some d), 2 => some ((c'.insertDelivered env d).insertEffect env d)
    | _, 0 => some c'
    | _, _ => none

/-- The client takes up the group's offset again. -/
def restart (c : Consumer R) (close : Bool) : Consumer R :=
  let c' := c.autoCommit close
  { c' with position := c'.committed, handling := none, failed := [] }

end Consumer

/-- One step. -/
def Consumer.step (env : Env R) (c : Consumer R) : Action R → Option (Consumer R)
  | .append value => some { c with topic := c.topic ++ [value] }
  | .poll commits => c.poll commits
  | .pollNone commits => c.pollNone commits
  | .succeed => c.succeed env
  | .fail inserts => c.fail env inserts
  | .restart close => some (c.restart close)

namespace Consumer

/-- The step is one of the client's that commits the position. -/
def commitsAt (c : Consumer R) : Action R → Bool
  | .poll commits => commits && c.handling.isNone && decide (c.position < c.topic.length)
  | .pollNone commits => commits && c.handling.isNone
  | .restart close => close
  | _ => false

/-- Every event before the committed offset has exactly one effect. -/
def NothingLost (env : Env R) (c : Consumer R) : Prop :=
  ∀ n d, n < c.committed → c.topic[n]? = some (some d) → c.effectsOf (d.key env) = 1

/-- When the step commits, each message whose handling ended in an exception since the client
has started, or is cut off by the close, has its effect after all. -/
def CommitsApplied (env : Env R) (c : Consumer R) (a : Action R) : Prop :=
  c.commitsAt a = true → ∀ n d, n ∈ c.failed ∨ c.handling = some n →
    c.topic[n]? = some (some d) → c.effectsOf (d.key env) ≠ 0

/-! ### The invariant -/

/-- What the offsets and the effects have to do with each other. -/
structure Inv (env : Env R) (c : Consumer R) : Prop where
  unique : ∀ key, c.effectsOf key ≤ 1
  position : c.position ≤ c.topic.length
  committed : c.committed ≤ c.position
  handling : ∀ n, c.handling = some n → n < c.position
  failed : ∀ n ∈ c.failed, n < c.position
  accounted : ∀ n d, c.committed ≤ n → n < c.position → c.topic[n]? = some (some d) →
    n ∈ c.failed ∨ c.handling = some n ∨ c.effectsOf (d.key env) ≠ 0

variable {env : Env R} {c c' : Consumer R}

theorem Inv.init : Inv env (init : Consumer R) where
  unique _ := Nat.zero_le 1
  position := Nat.le_refl 0
  committed := Nat.le_refl 0
  handling _ h := by cases h
  failed _ h := by cases h
  accounted _ _ _ h := absurd h (Nat.not_lt_zero _)

/-- One more effect, of an event that had none. -/
theorem effectsOf_insertEffect (c : Consumer R) (d : Payload R) (key : R × ℤ) :
    (c.insertEffect env d).effectsOf key =
      if key = d.key env then max 1 (c.effectsOf key) else c.effectsOf key := by
  -- the first effect of the key, or one that ON CONFLICT leaves alone
  by_cases hnone : c.effectsOf (d.key env) = 0
  · have heff : (c.insertEffect env d).effects = c.effects ++
        [⟨(d.key env).1, env.name, (d.key env).2⟩] := if_pos hnone
    rw [effectsOf, heff, List.countP_append, ← effectsOf, List.countP_singleton]
    by_cases hkey : key = d.key env
    · rw [if_pos hkey, hkey, hnone]
      simp
    · have hne : ¬ ((d.key env).1 = key.1 ∧ (d.key env).2 = key.2) :=
        fun h => hkey (Prod.ext h.1.symm h.2.symm)
      rw [if_neg hkey]
      simp [hne]
  · have heff : (c.insertEffect env d).effects = c.effects := if_neg hnone
    rw [effectsOf, heff, ← effectsOf]
    split
    · next hkey =>
      subst hkey
      omega
    · rfl

/-- The effects only grow, and stay single. -/
theorem Inv.effects (h : c.Inv env) (d : Payload R) (key : R × ℤ) :
    c.effectsOf key ≤ (c.insertEffect env d).effectsOf key ∧
      (c.insertEffect env d).effectsOf key ≤ 1 := by
  have hone := h.unique key
  rw [effectsOf_insertEffect]
  split <;> omega

/-- **The message in hand is done with**, and it has failed or has its effect. -/
theorem Inv.handled (h : c.Inv env) {n : ℕ} (hn : c.handling = some n)
    (htopic : c'.topic = c.topic) (hpos : c'.position = c.position)
    (hcom : c'.committed = c.committed) (hnone : c'.handling = none)
    (hfailed : ∀ m ∈ c.failed, m ∈ c'.failed)
    (hfailed' : ∀ m ∈ c'.failed, m ∈ c.failed ∨ m = n)
    (heff : ∀ key, c.effectsOf key ≤ c'.effectsOf key ∧ c'.effectsOf key ≤ 1)
    (hdone : ∀ d, c.topic[n]? = some (some d) → n ∈ c'.failed ∨ c'.effectsOf (d.key env) ≠ 0) :
    c'.Inv env where
  unique key := (heff key).2
  position := by rw [hpos, htopic]; exact h.position
  committed := by rw [hpos, hcom]; exact h.committed
  handling m hm := by rw [hnone] at hm; cases hm
  failed m hm := by
    rw [hpos]
    rcases hfailed' m hm with hm | rfl
    · exact h.failed m hm
    · exact h.handling m hn
  accounted m d hle hlt hm := by
    rw [hcom] at hle
    rw [hpos] at hlt
    rw [htopic] at hm
    -- a message that had its effect keeps it, since effects are never taken back
    rcases h.accounted m d hle hlt hm with hm' | hm' | hm'
    · exact .inl (hfailed m hm')
    · rw [hn, Option.some_inj] at hm'
      subst hm'
      exact (hdone d hm).imp_right .inr
    · have hle := (heff (d.key env)).1
      exact .inr (.inr (by omega))

/-- The position moves forward over what is in hand, with a commit or without one. -/
theorem Inv.autoCommit (h : c.Inv env) (commits : Bool) : (c.autoCommit commits).Inv env := by
  unfold Consumer.autoCommit
  split
  · exact { h with
      committed := Nat.le_refl _
      accounted := fun n d hle hlt => absurd hlt (Nat.not_lt.mpr hle) }
  · exact h

/-- The next message is in hand. -/
theorem Inv.next (h : c.Inv env) (hnone : c.handling = none)
    (hlt : c.position < c.topic.length) :
    Inv env { c with handling := some c.position, position := c.position + 1 } where
  unique := h.unique
  position := hlt
  committed := Nat.le_succ_of_le h.committed
  handling n hn := by
    rw [Option.some_inj] at hn
    exact hn ▸ Nat.lt_succ_self _
  failed n hn := Nat.lt_succ_of_lt (h.failed n hn)
  accounted n d hle hn hd := by
    rcases Nat.lt_succ_iff_lt_or_eq.mp hn with hn | rfl
    · rcases h.accounted n d hle hn hd with hn' | hn' | hn'
      · exact .inl hn'
      · rw [hnone] at hn'
        cases hn'
      · exact .inr (.inr hn')
    · exact .inr (.inl rfl)

theorem Inv.succeed (h : c.Inv env) (hstep : c.succeed env = some c') : c'.Inv env := by
  unfold Consumer.succeed at hstep
  split at hstep
  · next d hd =>
    obtain ⟨n, hn, hd⟩ := Option.bind_eq_some_iff.mp hd
    obtain rfl := Option.some_inj.mp hstep
    have heff : ∀ key, c.effectsOf key ≤ (c.insertEffect env d).effectsOf key ∧
        (c.insertEffect env d).effectsOf key ≤ 1 := fun key => h.effects d key
    refine h.handled hn rfl rfl rfl rfl (fun m hm => hm) (fun m hm => .inl hm) heff ?_
    intro d' hd'
    rw [hd, Option.some_inj, Option.some_inj] at hd'
    subst hd'
    have hnew : (c.insertEffect env d).effectsOf (d.key env) ≠ 0 := by
      rw [effectsOf_insertEffect, if_pos rfl]
      omega
    exact .inr hnew
  · cases hstep

theorem Inv.fail (h : c.Inv env) {inserts : ℕ} (hstep : c.fail env inserts = some c') :
    c'.Inv env := by
  unfold Consumer.fail at hstep
  split at hstep
  · cases hstep
  · next n hn =>
    have hmem : ∀ m ∈ c.failed, m ∈ c.failed ++ [n] := fun m hm => List.mem_append_left _ hm
    have hmem' : ∀ m ∈ c.failed ++ [n], m ∈ c.failed ∨ m = n := by simp
    have hself : n ∈ c.failed ++ [n] := by simp
    have hsame : ∀ key, c.effectsOf key ≤ c.effectsOf key ∧ c.effectsOf key ≤ 1 :=
      fun key => ⟨Nat.le_refl _, h.unique key⟩
    dsimp only at hstep
    split at hstep
    · obtain rfl := Option.some_inj.mp hstep
      exact h.handled hn rfl rfl rfl rfl hmem hmem' hsame fun _ _ => .inl hself
    · -- the exception came after the transaction, and the effect is in
      next d _ =>
      obtain rfl := Option.some_inj.mp hstep
      have heff : ∀ key, c.effectsOf key ≤ (c.insertEffect env d).effectsOf key ∧
          (c.insertEffect env d).effectsOf key ≤ 1 := fun key => h.effects d key
      exact h.handled hn rfl rfl rfl rfl hmem hmem' heff fun _ _ => .inl hself
    · obtain rfl := Option.some_inj.mp hstep
      exact h.handled hn rfl rfl rfl rfl hmem hmem' hsame fun _ _ => .inl hself
    · cases hstep

theorem Inv.restart (h : c.Inv env) (close : Bool) : (c.restart close).Inv env := by
  have h' := h.autoCommit close
  exact {
    unique := h'.unique
    position := Nat.le_trans h'.committed h'.position
    committed := Nat.le_refl _
    handling := fun n hn => by cases hn
    failed := fun n hn => by cases hn
    accounted := fun n d hle hlt => absurd hlt (Nat.not_lt.mpr hle) }

/-- **Every step keeps the invariant.** -/
theorem Inv.step (h : c.Inv env) {a : Action R} (hstep : c.step env a = some c') :
    c'.Inv env := by
  cases a with
  | append value =>
    obtain rfl := Option.some_inj.mp hstep
    refine { h with
      position := Nat.le_trans h.position (by simp)
      accounted := fun n d hle hlt hd => h.accounted n d hle hlt ?_ }
    rwa [List.getElem?_append_left (Nat.lt_of_lt_of_le hlt h.position)] at hd
  | poll commits =>
    simp only [Consumer.step, Consumer.poll] at hstep
    split at hstep
    · next hnone =>
      split at hstep
      · next hlt =>
        -- the poll commits what was handled so far, and then hands over the next message
        obtain rfl := Option.some_inj.mp hstep
        have hcommit := h.autoCommit commits
        cases commits with
        | false => exact h.next hnone hlt
        | true => exact Inv.next hcommit hnone hlt
      · cases hstep
    · cases hstep
  | pollNone commits =>
    simp only [Consumer.step, Consumer.pollNone] at hstep
    split at hstep
    · exact Option.some_inj.mp hstep ▸ h.autoCommit commits
    · cases hstep
  | succeed => exact h.succeed hstep
  | fail inserts => exact h.fail hstep
  | restart close => exact Option.some_inj.mp hstep ▸ h.restart close

/-! ### When nothing is lost -/

/-- Nothing is lost by a step that does not commit. -/
theorem NothingLost.grow (hlost : c.NothingLost env) (hcom : c'.committed = c.committed)
    (htopic : ∀ n, n < c.committed → c'.topic[n]? = c.topic[n]?)
    (heff : ∀ key, c.effectsOf key ≤ c'.effectsOf key ∧ c'.effectsOf key ≤ 1) :
    c'.NothingLost env := by
  intro n d hn hd
  rw [hcom] at hn
  rw [htopic n hn] at hd
  have hone := hlost n d hn hd
  have hgrow := heff (d.key env)
  omega

/-- A commit of the position loses nothing exactly when what has failed, or is cut off, has
its effects. -/
theorem Inv.commit_iff (h : c.Inv env) (hlost : c.NothingLost env) :
    (∀ n d, n ∈ c.failed ∨ c.handling = some n → c.topic[n]? = some (some d) →
        c.effectsOf (d.key env) ≠ 0) ↔
      ∀ n d, n < c.position → c.topic[n]? = some (some d) → c.effectsOf (d.key env) = 1 := by
  constructor
  · intro hall n d hn hd
    by_cases hcom : n < c.committed
    · exact hlost n d hcom hd
    · -- between the two offsets, only what failed or is in hand can be without an effect
      have hsome : c.effectsOf (d.key env) ≠ 0 := by
        rcases h.accounted n d (Nat.not_lt.mp hcom) hn hd with hn' | hn' | hn'
        · exact hall n d (.inl hn') hd
        · exact hall n d (.inr hn') hd
        · exact hn'
      have hone := h.unique (d.key env)
      omega
  · intro hall n d hn hd
    have hlt : n < c.position := hn.elim (h.failed n) (h.handling n)
    rw [hall n d hlt hd]
    exact Nat.one_ne_zero

/-- A step that commits moves the group's offset to the position. -/
theorem step_of_commits (env : Env R) {a : Action R} (hcommits : c.commitsAt a = true) :
    ∃ c', c.step env a = some c' ∧ c'.committed = c.position ∧ c'.topic = c.topic ∧
      c'.effects = c.effects := by
  cases a with
  | poll commits =>
    simp only [commitsAt, Bool.and_eq_true, decide_eq_true_eq, Option.isNone_iff_eq_none]
      at hcommits
    obtain ⟨⟨rfl, hnone⟩, hlt⟩ := hcommits
    simp only [Consumer.step, Consumer.poll, hnone, if_pos hlt]
    exact ⟨_, rfl, rfl, rfl, rfl⟩
  | pollNone commits =>
    simp only [commitsAt, Bool.and_eq_true, Option.isNone_iff_eq_none] at hcommits
    obtain ⟨rfl, hnone⟩ := hcommits
    simp only [Consumer.step, Consumer.pollNone, hnone]
    exact ⟨_, rfl, rfl, rfl, rfl⟩
  | restart close =>
    obtain rfl : close = true := hcommits
    exact ⟨_, rfl, rfl, rfl, rfl⟩
  | append value => cases hcommits
  | succeed => cases hcommits
  | fail inserts => cases hcommits

/-- Any other step leaves the group's offset where it is. -/
theorem Inv.step_of_not_commits (h : c.Inv env) {a : Action R} (hcommits : c.commitsAt a = false)
    (hstep : c.step env a = some c') :
    c'.committed = c.committed ∧ (∀ n, n < c.committed → c'.topic[n]? = c.topic[n]?) ∧
      ∀ key, c.effectsOf key ≤ c'.effectsOf key := by
  cases a with
  | append value =>
    obtain rfl := Option.some_inj.mp hstep
    refine ⟨rfl, fun n hn => ?_, fun _ => Nat.le_refl _⟩
    -- an append moves neither the position nor what is committed
    have hlen := h.position
    have hcom := h.committed
    exact List.getElem?_append_left (by omega)
  | poll commits =>
    simp only [Consumer.step, Consumer.poll] at hstep
    split at hstep
    · next hnone =>
      split at hstep
      · next hlt =>
        obtain rfl := Option.some_inj.mp hstep
        have hno : commits = false := by simpa [commitsAt, hnone, hlt] using hcommits
        subst hno
        exact ⟨rfl, fun _ _ => rfl, fun _ => Nat.le_refl _⟩
      · cases hstep
    · cases hstep
  | pollNone commits =>
    simp only [Consumer.step, Consumer.pollNone] at hstep
    split at hstep
    · next hnone =>
      obtain rfl := Option.some_inj.mp hstep
      have hno : commits = false := by simpa [commitsAt, hnone] using hcommits
      subst hno
      exact ⟨rfl, fun _ _ => rfl, fun _ => Nat.le_refl _⟩
    · cases hstep
  | succeed =>
    simp only [Consumer.step, Consumer.succeed] at hstep
    split at hstep
    · next d _ =>
      obtain rfl := Option.some_inj.mp hstep
      exact ⟨rfl, fun _ _ => rfl, fun key => (h.effects d key).1⟩
    · cases hstep
  | fail inserts =>
    simp only [Consumer.step, Consumer.fail] at hstep
    split at hstep
    · cases hstep
    · split at hstep
      · obtain rfl := Option.some_inj.mp hstep
        exact ⟨rfl, fun _ _ => rfl, fun _ => Nat.le_refl _⟩
      · next d _ =>
        obtain rfl := Option.some_inj.mp hstep
        exact ⟨rfl, fun _ _ => rfl, fun key => (h.effects d key).1⟩
      · obtain rfl := Option.some_inj.mp hstep
        exact ⟨rfl, fun _ _ => rfl, fun _ => Nat.le_refl _⟩
      · cases hstep
  | restart close =>
    obtain rfl : close = false := hcommits
    obtain rfl := Option.some_inj.mp hstep
    exact ⟨rfl, fun _ _ => rfl, fun _ => Nat.le_refl _⟩

/-- From a consumer that has lost nothing, a step meets the condition exactly when nothing is
lost after it. -/
theorem commitsApplied_iff (h : c.Inv env) (hlost : c.NothingLost env) (a : Action R) :
    c.CommitsApplied env a ↔ ∀ c', c.step env a = some c' → c'.NothingLost env := by
  cases hcommits : c.commitsAt a with
  | false =>
    refine iff_of_true (fun hyes => by rw [hcommits] at hyes; cases hyes) fun c' hstep => ?_
    obtain ⟨hcom, htopic, hgrow⟩ := h.step_of_not_commits hcommits hstep
    exact hlost.grow hcom htopic fun key => ⟨hgrow key, (h.step hstep).unique key⟩
  | true =>
    obtain ⟨c₁, hstep, hcom, htopic, heff⟩ := step_of_commits env hcommits
    have hiff : c₁.NothingLost env ↔ ∀ n d, n < c.position → c.topic[n]? = some (some d) →
        c.effectsOf (d.key env) = 1 := by
      unfold NothingLost effectsOf
      rw [hcom, htopic, heff]
    simp only [CommitsApplied, hcommits, true_imp_iff, hstep, Option.some.injEq, forall_eq']
    exact (h.commit_iff hlost).trans hiff.symm

end Consumer

/-- **The consumer loses no event exactly in the runs whose commits meet the condition.** -/
theorem consume_loop_loses_nothing_iff (env : Env R) (as : List (Action R)) :
    (∀ bs c, bs <+: as → exec (Consumer.step env) Consumer.init bs = some c →
        c.NothingLost env) ↔
      ∀ bs a c, bs ++ [a] <+: as → exec (Consumer.step env) Consumer.init bs = some c →
        c.CommitsApplied env a := by
  apply exec_forall_iff (I := Consumer.Inv env) Consumer.Inv.init
  · intro c a c' hc hstep
    exact hc.step hstep
  · intro n d hn
    exact absurd hn (Nat.not_lt_zero n)
  · intro c a hc hlost
    exact Consumer.commitsApplied_iff hc hlost a

/-- The first message's transaction fails, and the next poll commits the position after it. -/
theorem consume_loop_loses_event :
    ¬ ∀ c : Consumer ℕ, exec (Consumer.step ⟨7, "relay"⟩) Consumer.init
      [.append (some ⟨some 7, some 1⟩), .poll false, .fail 0, .pollNone true] = some c →
        c.NothingLost ⟨7, "relay"⟩ := by
  intro h
  have hone := h _ rfl 0 ⟨some 7, some 1⟩ (by decide) rfl
  exact absurd hone (by decide)

end Outbox.KafkaConsumer
end SepLab
