import SepLab.Fencing.Lease

/-!
# Fencing keeps stale writes out

Whatever a worker believes, the row of the lease says which epochs have been
issued, and the row of the payout says how far the epochs of its writes have come.

## Main definitions

* `Statement p c s` — the states that one statement of a worker leaves.
* `LeaseEffect`, `WriteEffect` — what one statement does to the epochs and to the payouts.
* `Owner c s w e` — epoch `e` was issued to `w`, and nobody else may hold it.
* `Fenced s` — accepted writes are in the order of their epochs, none past the row's fence.

## Main results

* `Program.statement_of_step` — the steps of both programs are such statements.
* `Owned.step`, `Fenced.step` — every statement keeps the two invariants.
* `fencing_safe` — an epoch is held by one worker only, and accepted epochs never go down.
-/

namespace SepLab
namespace Fencing

variable {W N H R K : Type} [DecidableEq W] [DecidableEq N] [DecidableEq H] [DecidableEq R]
  [DecidableEq K]

/-! ### What one statement does -/

/-- The statements that the two programs are made of, with the state that each leaves. -/
inductive Statement (p : Program) (c : Config W N H) (s : State W N H R K) :
    State W N H R K → Prop
  | acquire (w : W) (now : ℤ) : Statement p c s (s.acquire c w now)
  | renew (w : W) (live : Bool) (e now : ℤ) (epoch : Option ℤ) (pc : Pc R K)
      (hepoch : epoch = none ∨ epoch = s.epoch w) :
      Statement p c s
        (s.answer w (s.db.renew live (c.lease w) (c.name w) e c.ttl now).2 epoch pc)
  | payout (w : W) (runId : R) (key : K) (e now : ℤ) :
      Statement p c s (s.updatePayout c p w runId key e now)
  | attempt (w : W) (a : Attempt H R K) :
      Statement p c s (s.answer w (s.db.insertAttempt a) (s.epoch w) .ready)
  | fail (w : W) (epoch : Option ℤ) (hepoch : epoch = none ∨ epoch = s.epoch w) :
      Statement p c s (s.answer w s.db epoch .ready)

/-- A worker records an attempt only after the payout's `UPDATE`. -/
theorem Statement.of_record {p : Program} {c : Config W N H} {s s' : State W N H R K} {w : W}
    {now : ℤ} (h : s.record c w now = some s') : Statement p c s s' := by
  unfold State.record at h
  split at h
  · exact Option.some_inj.mp h ▸ .attempt w _
  · cases h

/-- **Every step of a program is one of the statements.** -/
theorem Program.statement_of_step (p : Program) {c : Config W N H} {s s' : State W N H R K}
    {a : Action W R K} (h : p.step c s a = some s') : Statement p c s s' := by
  cases p with
  | fencingDemo =>
    cases a with
    | acquire w now =>
      simp only [Program.step, Fencing.fencingDemo] at h
      split at h
      · exact Option.some_inj.mp h ▸ .acquire w now
      · cases h
    | renew w now =>
      simp only [Program.step, Fencing.fencingDemo] at h
      split at h
      · next e _ he =>
        -- the demonstration forgets its epoch when a renewal fails
        refine Option.some_inj.mp h ▸ .renew w true e now _ .ready ?_
        split
        · exact Or.inr he.symm
        · exact Or.inl rfl
      · cases h
    | sendPayout w runId key now =>
      simp only [Program.step, Fencing.fencingDemo] at h
      split at h
      · exact Option.some_inj.mp h ▸ .payout w runId key _ now
      · cases h
    | record w now => exact .of_record h
    | fail w => exact Option.some_inj.mp h ▸ .fail w none (Or.inl rfl)
  | relay7 =>
    cases a with
    | acquire w now =>
      simp only [Program.step, Fencing.relay7] at h
      split at h
      · exact Option.some_inj.mp h ▸ .acquire w now
      · exact Option.some_inj.mp h ▸ .acquire w now
      · cases h
    | renew w now =>
      simp only [Program.step, Fencing.relay7] at h
      split at h
      · next e _ he =>
        -- the container version keeps it, whatever the renewal says
        exact Option.some_inj.mp h ▸ .renew w false e now (some e) _ (Or.inr he.symm)
      · cases h
    | sendPayout w runId key now =>
      simp only [Program.step, Fencing.relay7] at h
      split at h
      · exact Option.some_inj.mp h ▸ .payout w runId key _ now
      · cases h
    | record w now => exact .of_record h
    | fail w => exact Option.some_inj.mp h ▸ .fail w _ (Or.inr rfl)

/-- Epochs of leases do not go down, and a worker comes to believe in an epoch only
when the statement has issued it. -/
structure LeaseEffect (c : Config W N H) (s s' : State W N H R K) : Prop where
  leases : ∀ n row, s.db.leases n = some row →
    ∃ row', s'.db.leases n = some row' ∧ row.epoch ≤ row'.epoch
  epochs : ∀ w e, s'.epoch w = some e → s.epoch w = some e ∨
    (∀ row, s.db.leases (c.lease w) = some row → row.epoch < e) ∧
      (∃ row', s'.db.leases (c.lease w) = some row' ∧ row'.epoch = e) ∧
      ∀ w', w' ≠ w → s'.epoch w' = s.epoch w'

/-- A statement writes nothing, or a payout whose fence it has checked. -/
inductive WriteEffect (p : Program) (c : Config W N H) (s s' : State W N H R K) : Prop
  | none (hpayouts : s'.db.payouts = s.db.payouts) (haccepted : s'.accepted = s.accepted)
  | write (a : Write W R K) (row row' : Payout H)
      (hrow : s.db.payouts a.runId a.key = some row)
      (hguard : p.accepts c.fencing a.epoch row.fence = true) (hfence : row'.fence = a.epoch)
      (hpayouts : s'.db.payouts = Function.update s.db.payouts a.runId
        (Function.update (s.db.payouts a.runId) a.key (some row')))
      (haccepted : s'.accepted = s.accepted ++ [a])

section
variable {p : Program} {c : Config W N H} {s s' : State W N H R K}

omit [DecidableEq N] [DecidableEq H] [DecidableEq R] [DecidableEq K] in
/-- An answer that leaves the leases alone, to a worker who learns no epoch from it. -/
theorem LeaseEffect.answer {w : W} {db : Db N H R K} {e : Option ℤ} {pc : Pc R K}
    (hdb : ∀ n row, s.db.leases n = some row →
      ∃ row', db.leases n = some row' ∧ row.epoch ≤ row'.epoch)
    (he : e = none ∨ e = s.epoch w) : LeaseEffect c s (s.answer w db e pc) where
  leases := hdb
  epochs w' e' hw' := by
    replace hw' : Function.update s.epoch w e w' = some e' := hw'
    by_cases hww : w' = w
    · subst hww
      rw [Function.update_self] at hw'
      rcases he with rfl | rfl
      · cases hw'
      · exact Or.inl hw'
    · rw [Function.update_of_ne hww] at hw'
      exact Or.inl hw'

omit [DecidableEq H] [DecidableEq R] [DecidableEq K] in
/-- The upsert issues the epoch after the one in the row, or epoch `1`. -/
theorem LeaseEffect.acquire (s : State W N H R K) (w : W) (now : ℤ) :
    LeaseEffect c s (s.acquire c w now) := by
  unfold State.acquire Db.acquire
  split
  -- nobody has held the lease: it begins with epoch one
  · next hnone =>
    constructor
    · intro n row hrow
      by_cases hn : n = c.lease w
      · rw [hn, hnone] at hrow
        cases hrow
      · exact ⟨row, (Function.update_of_ne hn _ _).trans hrow, Int.le_refl _⟩
    · intro w' e he
      replace he : Function.update s.epoch w (some 1) w' = some e := he
      by_cases hw : w' = w
      · subst hw
        rw [Function.update_self, Option.some_inj] at he
        subst he
        refine Or.inr ⟨?_, ⟨_, Function.update_self _ _ _, rfl⟩, ?_⟩
        · intro row hrow
          rw [hnone] at hrow
          cases hrow
        · intro w'' hne
          exact Function.update_of_ne hne _ _
      · rw [Function.update_of_ne hw] at he
        exact Or.inl he
  · next row₀ hrow₀ =>
    split
    -- the lease is taken over, with the next epoch
    · constructor
      · intro n row hrow
        by_cases hn : n = c.lease w
        · rw [hn, hrow₀, Option.some_inj] at hrow
          subst hn hrow
          exact ⟨_, Function.update_self _ _ _, by simp only; omega⟩
        · exact ⟨row, (Function.update_of_ne hn _ _).trans hrow, Int.le_refl _⟩
      · intro w' e he
        -- the worker that acquires is the only one whose epoch changes
        replace he : Function.update s.epoch w (some (row₀.epoch + 1)) w' = some e := he
        by_cases hw : w' = w
        · subst hw
          rw [Function.update_self, Option.some_inj] at he
          subst he
          refine Or.inr ⟨?_, ⟨_, Function.update_self _ _ _, rfl⟩, ?_⟩
          -- any epoch seen before is below the new one
          · intro row hrow
            rw [hrow₀, Option.some_inj] at hrow
            subst hrow
            omega
          · intro w'' hne
            exact Function.update_of_ne hne _ _
        · rw [Function.update_of_ne hw] at he
          exact Or.inl he
    -- the lease is not free, and the worker learns nothing
    · exact .answer (fun n row hrow => ⟨row, hrow, Int.le_refl _⟩) (Or.inl rfl)

omit [DecidableEq R] [DecidableEq K] in
theorem leases_renew (db : Db N H R K) (live : Bool) (lease : N) (holder : H) (epoch ttl now : ℤ)
    (n : N) (row : Lease H) (hrow : db.leases n = some row) :
    ∃ row', (db.renew live lease holder epoch ttl now).2.leases n = some row' ∧
      row.epoch ≤ row'.epoch := by
  unfold Db.renew
  split
  · exact ⟨row, hrow, Int.le_refl _⟩
  · next row₀ hrow₀ =>
    split
    · by_cases hn : n = lease
      · subst hn
        rw [hrow₀, Option.some_inj] at hrow
        subst hrow
        exact ⟨_, Function.update_self _ _ _, Int.le_refl _⟩
      · exact ⟨row, (Function.update_of_ne hn _ _).trans hrow, Int.le_refl _⟩
    · exact ⟨row, hrow, Int.le_refl _⟩

/-- **Every statement leaves the epochs of leases in order.** -/
theorem Program.leaseEffect {a : Action W R K} (h : p.step c s a = some s') :
    LeaseEffect c s s' := by
  have hkept : ∀ n row, s.db.leases n = some row →
      ∃ row', s.db.leases n = some row' ∧ row.epoch ≤ row'.epoch :=
    fun n row hrow => ⟨row, hrow, Int.le_refl _⟩
  cases p.statement_of_step h with
  | acquire w now => exact .acquire s w now
  | renew w live e now epoch pc hepoch => exact .answer (leases_renew _ _ _ _ _ _ _) hepoch
  | payout w runId key e now =>
    -- the payout writes no lease; its answer takes the worker to the record of the attempt
    have heff : LeaseEffect c s (s.answer w
        (s.db.updatePayout (p.accepts c.fencing e) runId key (c.name w) e now).2 (s.epoch w)
        (.recording runId key e
          (s.db.updatePayout (p.accepts c.fencing e) runId key (c.name w) e now).1)) := by
      apply LeaseEffect.answer
      · rw [Db.leases_updatePayout]
        exact hkept
      · exact Or.inr rfl
    exact ⟨heff.leases, heff.epochs⟩
  | attempt w a => exact .answer hkept (Or.inr rfl)
  | fail w epoch hepoch => exact .answer hkept hepoch

omit [DecidableEq N] [DecidableEq H] in
/-- The payout's `UPDATE` is counted as one row exactly when it is accepted. -/
theorem WriteEffect.updatePayout (s : State W N H R K) (w : W) (runId : R) (key : K)
    (e now : ℤ) : WriteEffect p c s (s.updatePayout c p w runId key e now) := by
  unfold State.updatePayout Db.updatePayout
  split
  · exact .none rfl rfl
  · next row hrow =>
    split
    · next hguard =>
      exact .write ⟨w, runId, key, e⟩ row ⟨.sent, e, some (c.name w), some now⟩ hrow hguard rfl
        rfl rfl
    · exact .none rfl rfl

/-- **Every statement writes no payout, or one whose fence lets it.** -/
theorem Program.writeEffect {a : Action W R K} (h : p.step c s a = some s') :
    WriteEffect p c s s' := by
  cases p.statement_of_step h with
  | acquire w now => exact .none (Db.payouts_acquire _ _ _ _ _) rfl
  | renew w live e now epoch pc hepoch => exact .none (Db.payouts_renew _ _ _ _ _ _ _) rfl
  | payout w runId key e now => exact .updatePayout s w runId key e now
  | attempt w a => exact .none rfl rfl
  | fail w epoch hepoch => exact .none rfl rfl

/-! ### One holder for each epoch -/

/-- Epoch `e` of the lease of `w` has been issued, and nobody but `w` believes in it. -/
structure Owner (c : Config W N H) (s : State W N H R K) (w : W) (e : ℤ) : Prop where
  issued : ∃ row, s.db.leases (c.lease w) = some row ∧ e ≤ row.epoch
  only : ∀ w', c.lease w' = c.lease w → s.epoch w' = some e → w' = w

/-- What a worker believes was issued to it. -/
def Owned (c : Config W N H) (s : State W N H R K) : Prop :=
  ∀ w e, s.epoch w = some e → Owner c s w e

omit [DecidableEq W] [DecidableEq N] [DecidableEq H] [DecidableEq R] [DecidableEq K] in
/-- An epoch stays with its owner, since later ones are larger. -/
theorem Owner.step {w : W} {e : ℤ} (h : Owner c s w e) (heff : LeaseEffect c s s') :
    Owner c s' w e := by
  obtain ⟨row, hrow, hle⟩ := h.issued
  constructor
  · obtain ⟨row', hrow', hle'⟩ := heff.leases _ row hrow
    exact ⟨row', hrow', Int.le_trans hle hle'⟩
  · intro w' hlease hw'
    rcases heff.epochs w' e hw' with hold | ⟨hnew, -, -⟩
    · exact h.only w' hlease hold
    · have hlt := hnew row (hlease ▸ hrow)
      omega

omit [DecidableEq W] [DecidableEq N] [DecidableEq H] [DecidableEq R] [DecidableEq K] in
/-- **Every statement keeps epochs with their owners.** -/
theorem Owned.step (h : Owned c s) (heff : LeaseEffect c s s') : Owned c s' := by
  intro w e hw
  rcases heff.epochs w e hw with hold | ⟨hnew, hissued, hothers⟩
  · exact (h w e hold).step heff
  · constructor
    · obtain ⟨row', hrow', rfl⟩ := hissued
      exact ⟨row', hrow', Int.le_refl _⟩
    · intro w' hlease hw'
      by_contra hne
      -- an epoch that another worker has had before is not larger than the row's
      rw [hothers w' hne] at hw'
      obtain ⟨row, hrow, hle⟩ := (h w' e hw').issued
      have hlt := hnew row (hlease ▸ hrow)
      omega

/-! ### Writes in the order of their epochs -/

/-- Accepted writes are in the order of their epochs, and none is past the row's fence. -/
structure Fenced (s : State W N H R K) : Prop where
  sorted : s.accepted.Pairwise fun a b => a.runId = b.runId → a.key = b.key → a.epoch ≤ b.epoch
  bound : ∀ a ∈ s.accepted, ∃ row, s.db.payouts a.runId a.key = some row ∧ a.epoch ≤ row.fence

/-- With fencing on, the guard lets no epoch below the fence pass. -/
theorem Program.le_of_accepts {epoch fence : ℤ} (h : p.accepts true epoch fence = true) :
    fence ≤ epoch := by
  cases p with
  | fencingDemo =>
    have hlt : fence < epoch := by simpa [Program.accepts] using h
    omega
  | relay7 => simpa [Program.accepts] using h

omit [DecidableEq W] [DecidableEq N] [DecidableEq H] in
/-- **Every statement keeps accepted writes in the order of their epochs.** -/
theorem Fenced.step (hfencing : c.fencing = true) (h : Fenced s) (heff : WriteEffect p c s s') :
    Fenced s' := by
  cases heff with
  | none hpayouts haccepted =>
    constructor
    · rw [haccepted]
      exact h.sorted
    · rw [haccepted, hpayouts]
      exact h.bound
  | write a row row' hrow hguard hfence hpayouts haccepted =>
    rw [hfencing] at hguard
    have hle : row.fence ≤ a.epoch := p.le_of_accepts hguard
    have hself : s'.db.payouts a.runId a.key = some row' := by
      rw [hpayouts, Function.update_self, Function.update_self]
    constructor
    · rw [haccepted, List.pairwise_append]
      refine ⟨h.sorted, List.pairwise_singleton _ _, ?_⟩
      -- an earlier write of the same payout is bounded by the fence that the guard has passed
      intro b hb a' ha' hrun hkey
      obtain rfl := List.mem_singleton.mp ha'
      obtain ⟨rowb, hrowb, hleb⟩ := h.bound b hb
      rw [hrun, hkey, hrow, Option.some_inj] at hrowb
      subst hrowb
      omega
    · intro b hb
      rw [haccepted] at hb
      -- the payout that is written now has the new fence, which bounds the old writes as well
      by_cases hsame : b.runId = a.runId ∧ b.key = a.key
      · refine ⟨row', by rw [hsame.1, hsame.2, hself], ?_⟩
        rcases List.mem_append.mp hb with hb | hb
        · obtain ⟨rowb, hrowb, hleb⟩ := h.bound b hb
          rw [hsame.1, hsame.2, hrow, Option.some_inj] at hrowb
          subst hrowb
          omega
        · obtain rfl := List.mem_singleton.mp hb
          exact Int.le_of_eq hfence.symm
      · rcases List.mem_append.mp hb with hb | hb
        · obtain ⟨rowb, hrowb, hleb⟩ := h.bound b hb
          refine ⟨rowb, ?_, hleb⟩
          rw [hpayouts]
          -- any other payout is untouched
          by_cases hrun : b.runId = a.runId
          · have hkey : b.key ≠ a.key := fun hkey => hsame ⟨hrun, hkey⟩
            rw [hrun, Function.update_self, Function.update_of_ne hkey, ← hrun, hrowb]
          · rw [Function.update_of_ne hrun, hrowb]
        · exact absurd (List.mem_singleton.mp hb ▸ ⟨rfl, rfl⟩) hsame

/-- Epochs have their owners in every state that is reached. -/
theorem Owned.of_reach {db : Db N H R K} (h : Reach (p.step c) (.init db) s) : Owned c s := by
  apply h.invariant
  · intro w e hw
    cases hw
  · intro s a s' hs hstep
    exact hs.step (p.leaseEffect hstep)

/-- With fencing on, writes are in the order of their epochs in every state that is reached. -/
theorem Fenced.of_reach (hfencing : c.fencing = true) {db : Db N H R K}
    (h : Reach (p.step c) (.init db) s) : Fenced s := by
  apply h.invariant
  · constructor
    · exact List.Pairwise.nil
    · intro a ha
      cases ha
  · intro s a s' hs hstep
    exact hs.step hfencing (p.writeEffect hstep)

end

/-- **Fencing is safe.**  Whenever they hold it, two workers who hold the same epoch of
a lease are one; and the epochs of the accepted writes on a payout never go down. -/
theorem fencing_safe (p : Program) (c : Config W N H) (hfencing : c.fencing = true)
    (db : Db N H R K) {s s' : State W N H R K} (h : Reach (p.step c) (.init db) s)
    (h' : Reach (p.step c) s s') :
    (∀ w w' e, c.lease w = c.lease w' → s.epoch w = some e → s'.epoch w' = some e → w = w') ∧
    s'.accepted.Pairwise fun a b => a.runId = b.runId → a.key = b.key → a.epoch ≤ b.epoch := by
  constructor
  · intro w w' e hlease hw hw'
    have howner : Owner c s' w e := by
      refine h'.invariant (P := fun t => Owner c t w e) (Owned.of_reach h w e hw) ?_
      intro s a s' hs hstep
      exact hs.step (p.leaseEffect hstep)
    exact (howner.only w' hlease.symm hw').symm
  · exact (Fenced.of_reach hfencing (h.trans h')).sorted

/-- Two workers of one lease of ten time units, with fencing on. -/
def twoWorkers : Config ℕ ℕ ℕ := ⟨fun _ => 0, id, 10, true⟩

/-- No lease, and one pending payout for each key. -/
def pendingPayouts : Db ℕ ℕ ℕ ℕ := ⟨fun _ => none, fun _ _ => some ⟨.pending, 0, none, none⟩, []⟩

/-- Worker `0` stops after its first payout, and worker `1` takes over: when worker `0`
goes on with epoch `1`, its write is refused. -/
theorem fencing_safe_paused : ∃ s s' : State ℕ ℕ ℕ ℕ ℕ,
    s.epoch 0 = some 1 ∧ s'.epoch 0 = some 1 ∧ s'.epoch 1 = some 2 ∧
    s'.accepted = [⟨0, 7, 1, 1⟩, ⟨1, 7, 1, 2⟩] ∧
    s'.db.attempts.map Attempt.rowsUpdated = [1, 1, 0] ∧
    (∀ w w' e, s.epoch w = some e → s'.epoch w' = some e → w = w') ∧
    s'.accepted.Pairwise fun a b => a.runId = b.runId → a.key = b.key → a.epoch ≤ b.epoch := by
  -- worker 0 pauses after its first payout, and the lease runs out
  have hrun : ((exec (Program.relay7.step twoWorkers) (.init pendingPayouts)
      [.acquire 0 0, .sendPayout 0 7 1 1, .record 0 1]).bind fun s =>
    (exec (Program.relay7.step twoWorkers) s
      [.acquire 1 20, .sendPayout 1 7 1 21, .record 1 21, .sendPayout 0 7 1 22,
        .record 0 22]).map fun s' =>
        ([s.epoch 0, s'.epoch 0, s'.epoch 1], s'.accepted,
          s'.db.attempts.map Attempt.rowsUpdated)) =
      some ([some 1, some 1, some 2], [⟨0, 7, 1, 1⟩, ⟨1, 7, 1, 2⟩], [1, 1, 0]) := by decide
  obtain ⟨s, hs, hrun'⟩ := Option.bind_eq_some_iff.mp hrun
  obtain ⟨s', hs', hobs⟩ := Option.map_eq_some_iff.mp hrun'
  simp only [Prod.mk.injEq, List.cons.injEq] at hobs
  obtain ⟨⟨h₁, h₂, h₃, -⟩, h₄, h₅⟩ := hobs
  have hsafe := fencing_safe .relay7 twoWorkers rfl pendingPayouts (.of_exec _ hs) (.of_exec _ hs')
  exact ⟨s, s', h₁, h₂, h₃, h₄, h₅, fun w w' e => hsafe.1 w w' e rfl, hsafe.2⟩

end Fencing
end SepLab
