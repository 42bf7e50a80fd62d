import SepLab.Outbox.Atomic
import SepLab.Outbox.Consumer

/-!
# From the charge to the effect

Writers, relays of every kind and consumers next to each other.  A consumer calls its
handler for rows of `t6_delivered`, each as often as it pleases, and a row of `t6_outbox`
is delivered by the high-water-mark relay and by another relay too.

## Main definitions

* `Pipeline`, `Pipeline.step` — the tables of `hwm_skip.py`, and the consumers behind them.
* `Pipeline.effectsOf` — the effects of a charge.
* `Pipeline.Settled` — everything is published, and every delivery has been handled.

## Main results

* `Pipeline.Inv.step` — what is delivered and what is handled stem from committed rows.
* `charge_has_one_effect` — **a charge has at most one effect, and exactly one when the
  pipeline has settled.**
-/

namespace SepLab
namespace Outbox

variable {R ι κ : Type}

/-- Writers, relays, and consumers. -/
structure Pipeline (ι κ R : Type) where
  relays : Hwm ι R
  consumers : Consumers κ R

namespace Pipeline

/-- The statements of the relay's side and of the consumer's side. -/
inductive Action (ι κ : Type)
  | relay (a : Hwm.Action ι)
  | consume (a : Consumers.Action κ)
  deriving DecidableEq, Repr

/-- Nothing written, relayed or consumed. -/
def init : Pipeline ι κ R := ⟨Hwm.init, Consumers.init⟩

/-- The rows of `t6_delivered`. -/
def delivered (s : Pipeline ι κ R) : List (Delivery R) :=
  s.relays.tables.delivered.map Prod.snd ++ s.relays.delivered

/-- The delivery is of the message that the call handles. -/
def Handles (c : Call R) (d : Delivery R) : Prop := (d.runId, d.outboxId) = c.message

instance [DecidableEq R] (c : Call R) (d : Delivery R) : Decidable (Handles c d) :=
  inferInstanceAs (Decidable (_ = _))

variable [DecidableEq ι] [DecidableEq κ] [DecidableEq R]

/-- A call is made for a row that has been delivered. -/
def step (txn : ι → Txn R) (runId : R) (batch : ℤ) (call : κ → Call R) (s : Pipeline ι κ R) :
    Action ι κ → Option (Pipeline ι κ R)
  | .relay a => (Hwm.step txn runId batch s.relays a).map fun relays => { s with relays := relays }
  | .consume a =>
    if ∃ d ∈ s.delivered, Handles (call a.call) d then
      (Consumers.step call s.consumers a).map fun consumers => { s with consumers := consumers }
    else none

omit [DecidableEq ι] [DecidableEq κ] in
/-- The effects of a charge: those of the run's outbox rows that record it. -/
def effectsOf (s : Pipeline ι κ R) (c : Charge R) : List (κ × Effect R) :=
  s.consumers.effects.filter fun x => x.2.runId = c.runId ∧
    (s.relays.tables.outbox x.2.outboxId).committed.any fun row => row.aggregateId = c.id

/-- A pass of `publish_batch` finds nothing while no other transaction is open, and for every
delivery a call has returned. -/
structure Settled (txn : ι → Txn R) (call : κ → Call R) (s : Pipeline ι κ R) : Prop where
  published : ∃ i name batch wokenBy tables, txn i = .pass (publishBatch name batch wokenBy) ∧
    0 < batch ∧ (∀ j, j ≠ i → ¬ (s.relays.tables.phase j).Open) ∧
    Outbox.step txn s.relays.tables (.select i) = some tables ∧
    tables.phase i = .publishing [] []
  handled : ∀ d ∈ s.delivered, ∃ j applied, Handles (call j) d ∧
    s.consumers.phase j = .returned applied

/-! ### Where deliveries and effects come from -/

variable {txn : ι → Txn R} {runId : R} {batch : ℤ} {call : κ → Call R} {s s' : Pipeline ι κ R}

/-- What the relays and the consumers are in, and that only deliveries are handled. -/
structure Inv (txn : ι → Txn R) (runId : R) (batch : ℤ) (call : κ → Call R)
    (s : Pipeline ι κ R) : Prop where
  tables : Reach (Outbox.step txn) State.init s.relays.tables
  relays : Reach (Hwm.step txn runId batch) Hwm.init s.relays
  consumers : Reach (Consumers.step call) Consumers.init s.consumers
  handled : ∀ j, s.consumers.phase j ≠ .idle → ∃ d ∈ s.delivered, Handles (call j) d

theorem Inv.init : (init : Pipeline ι κ R).Inv txn runId batch call where
  tables := .refl
  relays := .refl
  consumers := .refl
  handled _ h := absurd rfl h

omit [DecidableEq κ] in
/-- No statement withdraws a delivery. -/
theorem delivered_tables {t t' : State ι R} {a : Outbox.Action ι}
    (h : Outbox.step txn t a = some t') : t.delivered <+: t'.delivered := by
  cases a
  case tick =>
    obtain rfl := Option.some_inj.mp h
    exact List.prefix_rfl
  case commit i =>
    simp only [Outbox.step, State.commit] at h
    split at h
    · obtain rfl := Option.some_inj.mp h
      exact List.prefix_rfl
    · obtain rfl := Option.some_inj.mp h
      exact List.prefix_append _ _
    · cases h
  -- the others leave the deliveries alone, where they are enabled
  all_goals
    simp only [Outbox.step, State.begin, State.insertCharge, State.insertOutbox, State.stamp,
      State.select, State.deliver, State.mark, State.abort] at h
    repeat' split at h
  all_goals cases h
  all_goals exact List.prefix_rfl

omit [DecidableEq κ] in
/-- The high-water-mark relay delivers rows of its run. -/
theorem delivered_hwm {r r' : Hwm ι R} {a : Hwm.Action ι}
    (h : Hwm.step txn runId batch r a = some r') :
    r.tables.delivered <+: r'.tables.delivered ∧ r.delivered <+: r'.delivered ∧
      ((∀ d ∈ r.delivered, d.runId = runId) → ∀ d ∈ r'.delivered, d.runId = runId) := by
  cases a with
  | other a =>
    obtain ⟨tables, ht, rfl⟩ := Option.map_eq_some_iff.mp h
    exact ⟨delivered_tables ht, List.prefix_rfl, id⟩
  | poll =>
    simp only [Hwm.step, Hwm.poll] at h
    split at h
    · split at h
      · cases h
      · obtain rfl := Option.some_inj.mp h
        exact ⟨List.prefix_rfl, List.prefix_rfl, id⟩
    · cases h
  | deliver =>
    simp only [Hwm.step, Hwm.deliver] at h
    split at h
    · cases h
    · obtain rfl := Option.some_inj.mp h
      refine ⟨List.prefix_rfl, List.prefix_append _ _, fun hold d hd => ?_⟩
      rcases List.mem_append.mp hd with hd | hd
      · exact hold d hd
      · rw [List.mem_singleton.mp hd]

/-- **Every step keeps the invariant.** -/
theorem Inv.step (h : s.Inv txn runId batch call) {a : Action ι κ}
    (hs : Pipeline.step txn runId batch call s a = some s') : s'.Inv txn runId batch call := by
  -- a relay delivers to whoever calls, or a consumer handles what was delivered
  cases a with
  | relay a =>
    obtain ⟨relays, hr, rfl⟩ := Option.map_eq_some_iff.mp hs
    refine ⟨?_, h.relays.tail hr, h.consumers, fun j hj => ?_⟩
    · cases a with
      | other a =>
        obtain ⟨tables, ht, rfl⟩ := Option.map_eq_some_iff.mp hr
        exact h.tables.tail ht
      | poll =>
        simp only [Hwm.step, Hwm.poll] at hr
        split at hr
        · split at hr
          · cases hr
          · obtain rfl := Option.some_inj.mp hr
            exact h.tables
        · cases hr
      | deliver =>
        simp only [Hwm.step, Hwm.deliver] at hr
        split at hr
        · cases hr
        · obtain rfl := Option.some_inj.mp hr
          exact h.tables
    · obtain ⟨d, hd, hcall⟩ := h.handled j hj
      obtain ⟨htables, hhwm, -⟩ := delivered_hwm hr
      refine ⟨d, ?_, hcall⟩
      rcases List.mem_append.mp hd with hd | hd
      · exact List.mem_append_left _ ((htables.map Prod.snd).subset hd)
      · exact List.mem_append_right _ (hhwm.subset hd)
  | consume a =>
    simp only [Pipeline.step] at hs
    split at hs
    case isFalse => cases hs
    next hdel =>
    obtain ⟨consumers, hc, rfl⟩ := Option.map_eq_some_iff.mp hs
    refine ⟨h.tables, h.relays, h.consumers.tail hc, fun j hj => ?_⟩
    obtain ⟨i, p, rfl, hphase, -⟩ := Consumers.step_cases hc
    -- the call that steps has something delivered to handle
    by_cases hi : j = a.call
    · rw [hi]
      exact hdel
    · refine h.handled j fun hidle => hj ?_
      show consumers.phase j = _
      rw [hphase, Function.update_of_ne hi, hidle]

/-- **A delivery is of a committed row**, and of its run. -/
theorem Inv.row_of_delivery (h : s.Inv txn runId batch call) {d : Delivery R}
    (hd : d ∈ s.delivered) : ∃ row, (s.relays.tables.outbox d.outboxId).committed = some row ∧
      row.runId = d.runId := by
  rcases List.mem_append.mp hd with hd | hd
  · obtain ⟨x, hx, rfl⟩ := List.mem_map.mp hd
    obtain ⟨hinv, -, f, hf⟩ := State.named_of_reach x.2.runId h.tables
    exact hf.row_of_delivery hinv hx
  · have hrun : ∀ d ∈ s.relays.delivered, d.runId = runId := by
      refine h.relays.invariant (P := fun r => ∀ d ∈ r.delivered, d.runId = runId) nofun ?_
      exact fun _ _ _ hold hr => (delivered_hwm hr).2.2 hold
    obtain ⟨as, has⟩ := h.relays.exists_exec
    have hread : d.outboxId ∈ s.relays.read :=
      List.mem_append_left _ (List.mem_map_of_mem hd)
    obtain ⟨row, hrow, hrow'⟩ := (Hwm.highWater_of_exec has).2.mem_visible _ hread
    exact ⟨row, hrow, hrow'.trans (hrun d hd).symm⟩

/-- **An effect is that of a delivered row**, the row of a charge. -/
theorem Inv.row_of_effect (h : s.Inv txn runId batch call) {x : κ × Effect R}
    (hx : x ∈ s.consumers.effects) :
    ∃ row, (s.relays.tables.outbox x.2.outboxId).committed = some row ∧ row.runId = x.2.runId := by
  have hinv := h.consumers.invariant (P := Consumers.Inv call) .init fun _ _ _ hs => hs.step
  obtain ⟨heff, hspent⟩ := hinv.own x.1 x.2 hx
  obtain ⟨d, hd, hcall⟩ := h.handled x.1 fun hidle => by
    rw [hidle] at hspent
    exact hspent
  obtain ⟨hrun, hid⟩ := Prod.mk.inj hcall
  obtain ⟨row, hrow, hrow'⟩ := h.row_of_delivery hd
  rw [hid] at hrow
  rw [heff]
  exact ⟨row, hrow, hrow'.trans hrun⟩

omit [DecidableEq ι] [DecidableEq κ] in
/-- The effects of a charge are those of one message. -/
theorem mem_effectsOf {c : Charge R} {k : ℕ}
    (hk : ∀ m row, (s.relays.tables.outbox m).committed = some row →
      (row.aggregateId = c.id ↔ m = k))
    (hsome : (s.relays.tables.outbox k).committed ≠ none) :
    s.effectsOf c = s.consumers.effectsOf (c.runId, k) := by
  refine List.filter_congr fun x _ => decide_eq_decide.mpr ?_
  rw [Effect.message, Prod.mk.injEq, Option.any_eq_true]
  refine and_congr_right fun _ => ⟨?_, ?_⟩
  · rintro ⟨row, hrow, hid⟩
    exact (hk _ row hrow).mp (of_decide_eq_true hid)
  · rintro rfl
    obtain ⟨row, hrow⟩ := Option.ne_none_iff_exists'.mp hsome
    exact ⟨row, hrow, decide_eq_true ((hk _ row hrow).mpr rfl)⟩

end Pipeline

open Pipeline

variable [DecidableEq ι] [DecidableEq κ] [DecidableEq R]

/-- **A charge has one effect.**  In every interleaving of writers, relays and calls of
`insertThenAct`, with any of them failing, each effect is that of a committed charge of its
run, no charge has two, and once the pipeline has settled each charge has one. -/
theorem charge_has_one_effect (txn : ι → Txn R) (runId : R) (batch : ℤ) (call : κ → Call R)
    (hcall : ∀ j, (call j).mode = .insertThenAct) {s : Pipeline ι κ R}
    (h : Reach (Pipeline.step txn runId batch call) Pipeline.init s) :
    (∀ x ∈ s.consumers.effects, ∃ i c, (i, c) ∈ s.relays.tables.charges ∧ x ∈ s.effectsOf c) ∧
    (∀ i c, (i, c) ∈ s.relays.tables.charges → (s.effectsOf c).length ≤ 1) ∧
    (s.Settled txn call →
      ∀ i c, (i, c) ∈ s.relays.tables.charges → (s.effectsOf c).length = 1) := by
  have hinv := h.invariant (P := Pipeline.Inv txn runId batch call) .init fun _ _ _ hs => hs.step
  have hcons := hinv.consumers.invariant (P := Consumers.Inv call) .init fun _ _ _ hs => hs.step
  -- the effects of a charge are the acts on its outbox row
  have hrow : ∀ i c, (i, c) ∈ s.relays.tables.charges → ∃ k row,
      (s.relays.tables.outbox k).committed = some row ∧ row.runId = c.runId ∧
      s.effectsOf c = s.consumers.effectsOf (c.runId, k) := by
    intro i c hc
    obtain ⟨htables, hids, f, hf⟩ := State.named_of_reach c.runId hinv.tables
    obtain ⟨k, row, hk, hrun, hid⟩ := hf.row_of_charge hc
    refine ⟨k, row, hk, hrun, mem_effectsOf (fun m row' hm => ⟨fun heq => ?_, ?_⟩) ?_⟩
    · exact hf.eq_of_aggregateId htables hids hm hk (heq.trans hid.symm)
    · rintro rfl
      rw [hk, Option.some_inj] at hm
      rw [← hm, hid]
    · rw [hk]
      exact Option.some_ne_none row
  have hacts : ∀ m, s.consumers.actsOf .insertThenAct m = s.consumers.effectsOf m := by
    intro m
    refine List.filter_eq_self.mpr fun x hx => decide_eq_true ?_
    rw [(hcons.own x.1 x.2 (List.mem_of_mem_filter hx)).1]
    exact hcall x.1
  have hle : ∀ i c, (i, c) ∈ s.relays.tables.charges → (s.effectsOf c).length ≤ 1 := by
    intro i c hc
    obtain ⟨k, row, -, -, heff⟩ := hrow i c hc
    rw [heff, ← hacts]
    exact hcons.once _
  refine ⟨fun x hx => ?_, hle, fun hsettled i c hc => ?_⟩
  · obtain ⟨row, hk, hrun⟩ := hinv.row_of_effect hx
    obtain ⟨-, -, f, hf⟩ := State.named_of_reach x.2.runId hinv.tables
    obtain ⟨i, c, hc, hcrun, hid⟩ := hf.charge_of_row hk
    refine ⟨i, c, hc, List.mem_filter.mpr ⟨hx, decide_eq_true ⟨?_, ?_⟩⟩⟩
    · rw [hcrun, hrun]
    · rw [Option.any_eq_true]
      exact ⟨row, hk, decide_eq_true hid.symm⟩
  · obtain ⟨k, row, hk, hrun, heff⟩ := hrow i c hc
    obtain ⟨i₀, name, batch', wokenBy, tables, htxn, hbatch, hopen, hselect, hnil⟩ :=
      hsettled.published
    obtain ⟨htables, -, -⟩ := State.named_of_reach c.runId hinv.tables
    have hdrained : s.relays.tables.Drained txn _ := htables.drained
    have hone := hdrained i₀ _ tables htxn hopen hselect hnil k row hk ⟨hbatch, nofun⟩
    obtain ⟨x, hx⟩ := List.exists_mem_of_length_pos (by omega : 0 <
      (s.relays.tables.deliveries k).length)
    obtain ⟨hmem, hid⟩ := List.mem_filter.mp hx
    have hid := of_decide_eq_true hid
    have hdel : x.2 ∈ s.delivered := List.mem_append_left _ (List.mem_map_of_mem hmem)
    obtain ⟨row', hrow', hrun'⟩ := hinv.row_of_delivery hdel
    rw [hid, hk, Option.some_inj] at hrow'
    obtain ⟨j, applied, hj, hphase⟩ := hsettled.handled x.2 hdel
    have hclaimed := hcons.claimed _ (hcons.saw j (by rw [hphase]; trivial))
    rw [← hj, hid, ← hrun', ← hrow', hrun, ← heff] at hclaimed
    exact Nat.le_antisymm (hle i c hc) (List.length_pos_of_ne_nil hclaimed)

/-- The row of writer `i` is delivered by the high-water-mark relay and by pass `p`, and each
delivery is handled; pass `q` begins. -/
def deliveredTwice (i p q : ι) : List (Pipeline.Action ι Bool) :=
  ([.begin i, .insertCharge i, .insertOutbox i, .stamp i, .commit i].map fun a =>
      .relay (.other a)) ++
    [.relay .poll, .relay .deliver, .consume (.next false), .consume (.next false)] ++
    ([.begin p, .select p, .deliver p, .mark p, .commit p, .begin q].map fun a =>
      .relay (.other a)) ++
    [.consume (.next true), .consume (.next false), .consume (.next false), .consume (.next true),
      .consume (.next true)]

set_option synthInstance.maxSize 512 in
/-- Two deliveries of the one row, and one effect. -/
theorem charge_has_one_effect_deliveredTwice : ∃ s : Pipeline (Fin 6) Bool ℕ,
    exec (Pipeline.step twoWriters 6 20 fun j => ⟨.insertThenAct, 6, 1, if j then "c1" else "c0"⟩)
      Pipeline.init (deliveredTwice 0 2 5) = some s ∧ s.delivered.map Delivery.outboxId = [1, 1] ∧
    (s.effectsOf ⟨1, 6, 500⟩).length = 1 := by
  have hrun : (exec (Pipeline.step twoWriters 6 20
      fun j => ⟨.insertThenAct, 6, 1, if j then "c1" else "c0"⟩) Pipeline.init
      (deliveredTwice 0 2 5)).map (fun s => ((s.delivered, s.relays.tables.charges),
        ([0, 1, 2, 3, 4].map s.relays.tables.phase, s.consumers.phase true),
        (step twoWriters s.relays.tables (.select 5)).map fun t => t.phase 5)) =
      some (([⟨6, "skip-locked", none, 1⟩, ⟨6, "high-water-mark", none, 1⟩], [(0, ⟨1, 6, 500⟩)]),
        ([.committed, .idle, .committed, .idle, .idle], .returned false),
        some (.publishing [] [])) := by decide
  obtain ⟨s, hs, hobs⟩ := Option.map_eq_some_iff.mp hrun
  simp only [Prod.mk.injEq] at hobs
  obtain ⟨⟨hdel, hcharges⟩, ⟨hphases, hreturned⟩, hselect⟩ := hobs
  obtain ⟨tables, hselect, hnil⟩ := Option.map_eq_some_iff.mp hselect
  simp only [List.map_cons, List.map_nil, List.cons.injEq, and_true] at hphases
  obtain ⟨h₀, h₁, h₂, h₃, h₄⟩ := hphases
  refine ⟨s, hs, by rw [hdel]; rfl, ?_⟩
  obtain ⟨-, -, hone⟩ := charge_has_one_effect twoWriters 6 20 _ (fun _ => rfl) (.of_exec _ hs)
  refine hone ⟨?_, ?_⟩ 0 _ ?_
  · refine ⟨5, "relay-a", 100, "poll", tables, rfl, by decide, ?_, hselect, hnil⟩
    intro j hj
    match j with
    | 0 => rw [h₀]; exact id
    | 1 => rw [h₁]; exact id
    | 2 => rw [h₂]; exact id
    | 3 => rw [h₃]; exact id
    | 4 => rw [h₄]; exact id
    | 5 => exact absurd rfl hj
  · intro d hd
    refine ⟨true, false, ?_, hreturned⟩
    rw [hdel] at hd
    rcases List.mem_pair.mp hd with rfl | rfl
    · rfl
    · rfl
  · rw [hcharges]
    exact List.mem_singleton_self _

end Outbox
end SepLab
