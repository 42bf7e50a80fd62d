import SepLab.Lib.ProgLog
import SepLab.Retry.Amplification

/-!
# Retries at the edge only

What one call of `gateway` does when the hop next to the database says that its attempts
are spent.  A loop that gets an error which is not retryable returns it, so that the hops
above get to the database once, except that a loop which has not called at all, for want
of time, leaves its call to the next attempt.

## Main definitions

* `counted c log` — how often a call has done what counts as `c`.
* `Leaves log rs` — the calls of the database in a log have returned `rs`.
* `owed c err` — after an error that is retryable, the credit of the call is still there.

## Main results

* `turns_once` — a loop over a call that leaves its credit, or ends the loop, makes it once.
* `gateway_ensures` — what is counted as `ok`.
* `edge_only` — **one call of the last hop**, and as many of the database as it has attempts.
-/

namespace SepLab
namespace Retry

/-- What a call has asked, with the answers. -/
abbrev Log : Type := List ((q : Question) × Reply q)

/-- How often a call has done what counts as `c`. -/
def counted (c : Count) (log : Log) : ℕ := log.countP fun x => ticks x.1 x.2 = some c

/-- The calls of the database in the log are finished, and have returned `rs`. -/
inductive Leaves : Log → List (Option Err) → Prop
  | nil : Leaves [] []
  | other {x : (q : Question) × Reply q} {log : Log} {rs : List (Option Err)} :
      ticks x.1 x.2 ≠ some (.metric .leafReceived) → Leaves log rs → Leaves (x :: log) rs
  | leaf {log rest : Log} {r : Option Err} {rs : List (Option Err)} :
      leafCall.Returns log r → Leaves rest rs → Leaves (log ++ rest) (r :: rs)

/-! ### How often it calls -/

/-- After an error that is retryable, the credit of the call is still there. -/
def owed (c : ℤ) (err : Option Err) : ℤ := if err.elim false retryableErr then c else 0

theorem owed_nonneg {c : ℤ} (hc : 0 ≤ c) (err : Option Err) : 0 ≤ owed c err := by
  unfold owed
  split
  · exact hc
  · exact le_rfl

section Credit

variable {w : Count → ℤ} {c : ℤ}

/-- Only the calls of the last hop and those of the database cost anything. -/
def Charged (w : Count → ℤ) : Prop :=
  ∀ c, c ≠ .entered .serviceC → c ≠ .metric .leafReceived → w c ≤ 0

theorem Charged.mayTry (hw : Charged w) (hc : 0 ≤ c) (hop : Hop) (attempt : ℕ) :
    Within (cost w) (fun _ => c) (mayTry hop attempt) c := by
  have hretried := hw (.retried hop) nofun nofun
  have hretries := hw (.metric .retries) nofun nofun
  have hdenied := hw (.metric .budgetDenied) nofun nofun
  cases attempt with
  | zero => exact Within.pure le_rfl
  | succ attempt =>
    apply Within.free_bind _ hc
    -- a granted retry is charged, and the deadline may still end it
    · intro granted
      cases granted with
      | true =>
        apply Within.free_bind (fun _ => hretries) hc
        intro _
        apply Within.free_bind (fun _ => le_rfl) hc
        intro late
        cases late with
        | true => exact Within.pure le_rfl
        | false =>
          apply Within.free_bind (fun _ => le_rfl) hc
          intro e
          exact Within.pure le_rfl
      | false =>
        apply Within.free_bind (fun _ => hdenied) hc
        intro _
        exact Within.pure le_rfl
    · intro granted
      cases granted with
      | true => exact hretried
      | false => exact le_rfl

/-- **A loop over a call that leaves its credit, or ends the loop, makes it once.** -/
theorem turns_once (hw : Charged w) (hc : 0 ≤ c) {hop : Hop} {call : Code (Option Err)}
    (hcall : Within (cost w) (owed c) call c) (attempt left : ℕ) :
    Within (cost w) (owed c) (turns hop call attempt left) c := by
  have hsucceeded := hw (.succeeded hop) nofun nofun
  induction left generalizing attempt with
  | zero => exact Within.pure le_rfl
  | succ left ih =>
    apply (hw.mayTry hc hop attempt).bind
    intro goes
    cases goes with
    | false => exact Within.pure le_rfl
    | true =>
      apply Within.free_bind (fun _ => le_rfl) hc
      intro e
      cases e with
      | some e => exact Within.pure le_rfl
      | none =>
        apply hcall.bind
        intro err
        cases err with
        | none =>
          apply Within.free_bind (fun _ => hsucceeded) le_rfl
          intro _
          exact Within.pure le_rfl
        | some err =>
          cases hretry : retryableErr err with
          | true =>
            -- the call has not been made
            have howed : owed c (some err) = c := by simp [owed, hretry]
            simp only [howed, hretry, if_true]
            exact ih (attempt + 1)
          | false =>
            simp only [hretry, if_false, Bool.false_eq_true]
            exact Within.pure le_rfl

/-- In any case a loop makes no more calls than it has attempts. -/
theorem turns_each (hw : Charged w) (hc : 0 ≤ c) {hop : Hop} {call : Code (Option Err)}
    (hcall : Within (cost w) (fun _ => 0) call c) (attempt left : ℕ) :
    Within (cost w) (fun _ => 0) (turns hop call attempt left) (left * c) := by
  have hsucceeded := hw (.succeeded hop) nofun nofun
  induction left generalizing attempt with
  | zero =>
    apply Within.pure
    simp
  | succ left ih =>
    have hleft : 0 ≤ left * c := mul_nonneg (Int.natCast_nonneg left) hc
    -- this turn costs a call, and so does each that is left
    have hall : ((left + 1 : ℕ) : ℤ) * c = c + left * c := by
      rw [Nat.cast_succ, add_mul, one_mul, add_comm]
    rw [hall]
    have hsum : 0 ≤ c + left * c := add_nonneg hc hleft
    apply (hw.mayTry hsum hop attempt).bind
    intro goes
    cases goes with
    | false => exact Within.pure hsum
    | true =>
      apply Within.free_bind (fun _ => le_rfl) hsum
      intro e
      cases e with
      | some e => exact Within.pure hsum
      | none =>
        apply (hcall.frame hleft).bind
        intro err
        simp only [zero_add]
        cases err with
        | none =>
          apply Within.free_bind (fun _ => hsucceeded) hleft
          intro _
          exact Within.pure hleft
        | some err =>
          cases hretry : retryableErr err with
          | true =>
            simp only [hretry, if_true]
            exact ih (attempt + 1)
          | false =>
            simp only [hretry, if_false, Bool.false_eq_true]
            exact Within.pure hleft

/-- The hop next to the database. -/
theorem serviceC_within (hw : Charged w) (hC : 0 ≤ w (.entered .serviceC))
    (hleaf : 0 ≤ w (.metric .leafReceived)) (attempts : ℕ) :
    Within (cost w) (fun _ => 0) (withRetries attempts .serviceC leafCall)
      (w (.entered .serviceC) + attempts * w (.metric .leafReceived)) := by
  have hcall : Within (cost w) (fun _ => 0) leafCall (w (.metric .leafReceived)) := by
    apply Within.query_bind hleaf
    intro _
    have hrest : w (.metric .leafReceived) -
        cost w (.add .leafReceived) () = 0 := sub_self _
    rw [hrest]
    apply Within.free_bind (fun _ => le_rfl) le_rfl
    intro refused
    cases refused with
    | true => exact Within.pure le_rfl
    | false =>
      apply Within.free_bind (fun _ => le_rfl) le_rfl
      intro e
      cases e with
      | some e => exact Within.pure le_rfl
      | none =>
        apply Within.free_bind (fun _ => le_rfl) le_rfl
        intro e
        exact Within.pure le_rfl
  have hloop : Within (cost w) (fun _ => 0) (turns .serviceC leafCall 0 attempts)
      (attempts * w (.metric .leafReceived)) := turns_each hw hleaf hcall 0 attempts
  apply Within.query_bind (add_nonneg hC (mul_nonneg (Int.natCast_nonneg attempts) hleaf))
  intro _
  have hrest : w (.entered .serviceC) + attempts * w (.metric .leafReceived) -
      cost w (.enter .serviceC) () = attempts * w (.metric .leafReceived) := add_sub_cancel_left _ _
  rw [hrest]
  exact hloop

/-- The other hops enter their loops for nothing. -/
theorem withRetries_within (hw : Charged w) (hc : 0 ≤ c) (hop : Hop) (hhop : hop ≠ .serviceC)
    {attempts : ℕ} {call : Code (Option Err)} {post : Option Err → ℤ}
    (hloop : Within (cost w) post (turns hop call 0 attempts) c) :
    Within (cost w) post (withRetries attempts hop call) c := by
  have hentered : w (.entered hop) ≤ 0 := by
    apply hw
    · intro h
      exact hhop (Count.entered.inj h)
    · nofun
  exact Within.free_bind (fun _ => hentered) hc fun _ => hloop

/-- What the result of the outermost loop is counted as costs nothing. -/
theorem gateway_within (hw : Charged w) {attempts : ℕ} {edgeOnly : Bool}
    {post : Option Err → ℤ} (hpost : ∀ err, 0 ≤ post err)
    (hloop : Within (cost w) post
      (withRetries attempts .gateway (serviceB attempts edgeOnly)) c) :
    Within (cost w) (fun _ => 0) (gateway attempts edgeOnly) c := by
  have hok := hw (.metric .ok) nofun nofun
  have hfailed := hw (.metric .failed) nofun nofun
  apply hloop.bind
  intro err
  cases err with
  | none => exact Within.free_bind (fun _ => hok) (hpost _) fun _ => Within.pure (hpost _)
  | some err => exact Within.free_bind (fun _ => hfailed) (hpost _) fun _ => Within.pure (hpost _)

/-- **At the edge only, the last hop is called once.** -/
theorem edge_only_within (hw : Charged w) (hC : 0 ≤ w (.entered .serviceC))
    (hleaf : 0 ≤ w (.metric .leafReceived)) (attempts : ℕ) :
    Within (cost w) (fun _ => 0) (gateway attempts true)
      (w (.entered .serviceC) + attempts * w (.metric .leafReceived)) := by
  set credit := w (.entered .serviceC) + attempts * w (.metric .leafReceived) with hdef
  have hcredit : 0 ≤ credit :=
    add_nonneg hC (mul_nonneg (Int.natCast_nonneg attempts) hleaf)
  -- all it returns ends the loops above
  have hserviceC : Within (cost w) (owed credit) (serviceC attempts true) credit := by
    apply (serviceC_within hw hC hleaf attempts).bind
    intro err
    cases err with
    | none => exact Within.pure le_rfl
    | some err => exact Within.pure le_rfl
  have hserviceB : Within (cost w) (owed credit) (serviceB attempts true) credit :=
    withRetries_within hw hcredit .serviceB nofun (turns_once hw hcredit hserviceC 0 attempts)
  exact gateway_within hw (owed_nonneg hcredit)
    (withRetries_within hw hcredit .gateway nofun (turns_once hw hcredit hserviceB 0 attempts))

/-- Without it, each loop may call as often as it has attempts. -/
theorem each_hop_within (hw : Charged w) (hC : w (.entered .serviceC) = 0)
    (hleaf : 0 ≤ w (.metric .leafReceived)) (attempts : ℕ) (edgeOnly : Bool) :
    Within (cost w) (fun _ => 0) (gateway attempts edgeOnly)
      (attempts * (attempts * (attempts * w (.metric .leafReceived)))) := by
  have hone : 0 ≤ attempts * w (.metric .leafReceived) :=
    mul_nonneg (Int.natCast_nonneg attempts) hleaf
  have htwo := mul_nonneg (Int.natCast_nonneg attempts) hone
  have hthree := mul_nonneg (Int.natCast_nonneg attempts) htwo
  have hloop := serviceC_within hw hC.ge hleaf attempts
  rw [hC, zero_add] at hloop
  have hserviceC : Within (cost w) (fun _ => 0) (serviceC attempts edgeOnly)
      (attempts * w (.metric .leafReceived)) := hloop.bind fun _ => Within.pure le_rfl
  have hserviceB : Within (cost w) (fun _ => 0) (serviceB attempts edgeOnly)
      (attempts * (attempts * w (.metric .leafReceived))) :=
    withRetries_within hw htwo .serviceB nofun (turns_each hw hone hserviceC 0 attempts)
  exact gateway_within hw (fun _ => le_rfl)
    (withRetries_within hw hthree .gateway nofun (turns_each hw htwo hserviceB 0 attempts))

end Credit

theorem charged_one {c : Count} (h : c = .entered .serviceC ∨ c = .metric .leafReceived) :
    Charged (one c) := by
  intro c' hC hleaf
  have hne : c' ≠ c := by
    rcases h with rfl | rfl
    · exact hC
    · exact hleaf
  exact (if_neg hne).le

theorem one_elim (c : Count) (t : Option Count) :
    t.elim 0 (one c) = if t = some c then 1 else 0 := by
  cases t with
  | none => rfl
  | some c' => simp [one]

theorem counted_eq_sum (c : Count) (log : Log) :
    (counted c log : ℤ) = (log.map fun x => cost (one c) x.1 x.2).sum := by
  induction log with
  | nil => rfl
  | cons x log ih =>
    rw [List.map_cons, List.sum_cons, ← ih, counted, counted, List.countP_cons, cost, one_elim]
    by_cases hx : ticks x.1 x.2 = some c
    · simp [hx, add_comm]
    · simp [hx]

/-- A call does no more of what costs one than its credit. -/
theorem counted_le {c : Count} {credit : ℤ} {p q : Code Unit} {log : Log}
    (h : Within (cost (one c)) (fun _ => 0) p credit) (hlog : p.Follows log q) :
    (counted c log : ℤ) ≤ credit := by
  rw [counted_eq_sum]
  exact h.log_le (fun _ => le_rfl) hlog

/-! ### What it returns -/

/-- The calls of the database are finished, `err` is `nil` just if the last one was, and nothing
is counted as `ok` yet. -/
structure Tells (log : Log) (err : Option Err) : Prop where
  ok : counted (.metric .ok) log = 0
  leaves : ∃ rs, Leaves log rs ∧ (err = none ↔ rs.getLast? = some none)

theorem Leaves.append {log log' : Log} {rs rs' : List (Option Err)} (h : Leaves log rs)
    (h' : Leaves log' rs') : Leaves (log ++ log') (rs ++ rs') := by
  induction h with
  | nil => exact h'
  | other hx _ ih => exact .other hx ih
  | leaf hlog _ ih =>
    rw [List.append_assoc]
    exact .leaf hlog ih

/-- What a call of the database asks first. -/
theorem leafCall_head {log : Log} {r : Option Err} (h : leafCall.Returns log r) :
    ∃ rest, log = ⟨.add .leafReceived, ()⟩ :: rest := by
  obtain ⟨_, rest, rfl, _⟩ := Prog.returns_query_bind.mp h
  exact ⟨rest, rfl⟩

/-- **The calls of the database in a log are determined by it.** -/
theorem Leaves.unique {log : Log} {rs rs' : List (Option Err)} (h : Leaves log rs)
    (h' : Leaves log rs') : rs = rs' := by
  induction h generalizing rs' with
  | nil =>
    generalize hlog : ([] : Log) = log at h'
    cases h' with
    | nil => rfl
    | other _ _ => cases hlog
    | leaf hcall _ =>
      obtain ⟨rest, rfl⟩ := leafCall_head hcall
      cases hlog
  | other hx _ ih =>
    rename_i x log rs hrest
    generalize hlog : x :: log = log' at h'
    cases h' with
    | nil => cases hlog
    | other _ h' =>
      cases hlog
      exact ih h'
    | leaf hcall _ =>
      obtain ⟨rest, rfl⟩ := leafCall_head hcall
      cases hlog
      exact absurd rfl hx
  | leaf hcall _ ih =>
    rename_i l rest r rs hrest
    generalize hlog : l ++ rest = log' at h'
    cases h' with
    | nil =>
      obtain ⟨rest, rfl⟩ := leafCall_head hcall
      cases hlog
    | other hx _ =>
      obtain ⟨rest, rfl⟩ := leafCall_head hcall
      cases hlog
      exact absurd rfl hx
    | leaf hcall' h' =>
      obtain ⟨rfl, rfl⟩ := hcall.unique hcall' hlog
      rw [ih (List.append_cancel_left hlog ▸ h')]

namespace Tells

variable {log log' : Log} {err : Option Err}

/-- Before its first call of the database a loop has failed. -/
theorem nil (e : Err) : Tells [] (some e) where
  ok := rfl
  leaves := ⟨[], .nil, iff_of_false nofun nofun⟩

theorem cons {x : (q : Question) × Reply q} (hok : ticks x.1 x.2 ≠ some (.metric .ok))
    (hleaf : ticks x.1 x.2 ≠ some (.metric .leafReceived)) (h : Tells log err) :
    Tells (x :: log) err where
  ok := by
    rw [counted, List.countP_cons_of_neg (by simpa using hok)]
    exact h.ok
  leaves := by
    obtain ⟨rs, hrs, hiff⟩ := h.leaves
    exact ⟨rs, hrs.other hleaf, hiff⟩

/-- After a failure it is what comes then that counts. -/
theorem append {e : Err} (h : Tells log (some e)) (h' : Tells log' err) :
    Tells (log ++ log') err where
  ok := by
    rw [counted, List.countP_append]
    exact Nat.add_eq_zero_iff.mpr ⟨h.ok, h'.ok⟩
  leaves := by
    obtain ⟨rs, hrs, hiff⟩ := h.leaves
    obtain ⟨rs', hrs', hiff'⟩ := h'.leaves
    refine ⟨rs ++ rs', hrs.append hrs', hiff'.trans ?_⟩
    have hfailed : rs.getLast? ≠ some none := fun hlast => nomatch hiff.mpr hlast
    rw [List.getLast?_append]
    cases rs'.getLast? with
    | none => simpa using hfailed
    | some r => rfl

/-- What a loop adds to a success is no call of the database. -/
theorem concat {x : (q : Question) × Reply q} (hok : ticks x.1 x.2 ≠ some (.metric .ok))
    (hleaf : ticks x.1 x.2 ≠ some (.metric .leafReceived)) (h : Tells log err) :
    Tells (log ++ [x]) err where
  ok := by
    rw [counted, List.countP_append, List.countP_cons_of_neg (by simpa using hok)]
    exact h.ok
  leaves := by
    obtain ⟨rs, hrs, hiff⟩ := h.leaves
    refine ⟨rs, ?_, hiff⟩
    have hone : Leaves [x] [] := .other hleaf .nil
    simpa using hrs.append hone

/-- A program that tells of its calls may be asked something before. -/
theorem query_bind {q : Question} {f : Reply q → Code (Option Err)}
    (hok : ∀ a, ticks q a ≠ some (.metric .ok))
    (hleaf : ∀ a, ticks q a ≠ some (.metric .leafReceived)) (hf : ∀ a, (f a).Ensures Tells) :
    Prog.Ensures (Prog.query q >>= f) Tells :=
  .query_bind fun a => (hf a).mono fun _ _ h => h.cons (hok a) (hleaf a)

/-- A program that tells of its calls may come after a failure. -/
theorem after {e : Err} (h : Tells log (some e)) {p : Code (Option Err)} (hp : p.Ensures Tells) :
    p.Ensures fun rest err => Tells (log ++ rest) err :=
  hp.mono fun _ _ h' => h.append h'

end Tells

/-- A call of the database counts nothing as `ok`. -/
theorem leafCall_ok : leafCall.Ensures fun log _ => counted (.metric .ok) log = 0 := by
  refine Prog.Ensures.query_bind fun _ => Prog.Ensures.query_bind fun refused => ?_
  cases refused with
  | true => exact .pure rfl
  | false =>
    refine Prog.Ensures.query_bind fun e => ?_
    cases e with
    | some e => exact .pure rfl
    | none => exact .query_bind fun e => .pure rfl

theorem leafCall_ensures : leafCall.Ensures Tells := by
  intro log err h
  have hleaves : Leaves (log ++ []) [err] := .leaf h .nil
  rw [List.append_nil] at hleaves
  exact ⟨leafCall_ok log err h, [err], hleaves, by simp⟩

theorem mayTry_ensures (hop : Hop) (attempt : ℕ) :
    (mayTry hop attempt).Ensures fun log _ => Tells log (some .unavailable) := by
  cases attempt with
  | zero => exact .pure (.nil _)
  | succ attempt =>
    refine Prog.Ensures.query_bind fun granted => ?_
    cases granted with
    | true =>
      refine Prog.Ensures.query_bind fun _ => ?_
      refine Prog.Ensures.query_bind fun late => ?_
      cases late with
      | true =>
        exact .pure (.cons nofun nofun (.cons nofun nofun (.cons nofun nofun (.nil _))))
      | false =>
        refine Prog.Ensures.query_bind fun e => .pure ?_
        exact .cons nofun nofun (.cons nofun nofun (.cons nofun nofun (.cons nofun nofun (.nil _))))
    | false =>
      refine Prog.Ensures.query_bind fun _ => .pure ?_
      exact .cons nofun nofun (.cons nofun nofun (.nil _))

/-- **A loop over calls that tell tells as well.** -/
theorem turns_ensures {hop : Hop} {call : Code (Option Err)} (hcall : call.Ensures Tells)
    (attempt left : ℕ) : (turns hop call attempt left).Ensures Tells := by
  induction left generalizing attempt with
  | zero => exact .pure (.nil _)
  | succ left ih =>
    refine Prog.Ensures.bind (mayTry_ensures hop attempt) ?_
    intro before goes hbefore
    apply hbefore.after
    cases goes with
    | false => exact .pure (.nil _)
    | true =>
      refine Tells.query_bind (q := .ctxErr) (fun _ => nofun) (fun _ => nofun) ?_
      intro e
      cases e with
      | some e => exact .pure (.nil _)
      | none =>
        refine Prog.Ensures.bind hcall ?_
        intro log err hlog
        cases err with
        | none =>
          refine Prog.Ensures.query_bind ?_
          intro _
          exact .pure (hlog.concat nofun nofun)
        | some err =>
          cases hretry : retryableErr err with
          | true =>
            simp only [hretry, if_true]
            exact hlog.after (ih (attempt + 1))
          | false =>
            simp only [hretry, if_false, Bool.false_eq_true]
            exact .pure (by rwa [List.append_nil])

theorem withRetries_ensures (attempts : ℕ) {hop : Hop} {call : Code (Option Err)}
    (hcall : call.Ensures Tells) : (withRetries attempts hop call).Ensures Tells :=
  Tells.query_bind (fun _ => nofun) (fun _ => nofun) fun _ => turns_ensures hcall 0 attempts

/-- **What is counted as `ok`**: that the last call of the database has returned `nil`. -/
theorem gateway_ensures (attempts : ℕ) (edgeOnly : Bool) :
    (gateway attempts edgeOnly).Ensures fun log _ => ∃ rs, Leaves log rs ∧
      counted (.metric .ok) log = if rs.getLast? = some none then 1 else 0 := by
  have hserviceC : (serviceC attempts edgeOnly).Ensures Tells := by
    refine Prog.Ensures.bind (withRetries_ensures attempts leafCall_ensures) ?_
    intro log err hlog
    apply Prog.Ensures.pure
    rw [List.append_nil]
    cases edgeOnly with
    | true =>
      obtain ⟨rs, hrs, hiff⟩ := hlog.leaves
      exact ⟨hlog.ok, rs, hrs, by simpa using hiff⟩
    | false => exact hlog
  have hserviceB : (serviceB attempts edgeOnly).Ensures Tells :=
    withRetries_ensures attempts hserviceC
  refine Prog.Ensures.bind (withRetries_ensures attempts hserviceB) ?_
  intro log err hlog
  obtain ⟨rs, hrs, hiff⟩ := hlog.leaves
  have hcount : ∀ x : (q : Question) × Reply q,
      counted (.metric .ok) (log ++ [x]) = counted (.metric .ok) [x] := by
    intro x
    have hnone := hlog.ok
    unfold counted at hnone ⊢
    rw [List.countP_append, hnone, zero_add]
  have hleaves : ∀ x : (q : Question) × Reply q, ticks x.1 x.2 ≠ some (.metric .leafReceived) →
      Leaves (log ++ [x]) rs := by
    intro x hx
    have hone : Leaves [x] [] := .other hx .nil
    simpa using hrs.append hone
  cases err with
  | none =>
    refine Prog.Ensures.query_bind fun _ => .pure ⟨rs, hleaves _ nofun, ?_⟩
    rw [hcount, if_pos (hiff.mp rfl)]
    rfl
  | some err =>
    refine Prog.Ensures.query_bind fun _ => .pure ⟨rs, hleaves _ nofun, ?_⟩
    rw [hcount, if_neg fun hlast => nomatch hiff.mpr hlast]
    rfl

/-- **At the edge only, a call of `gateway` gets to the last hop once**, calls the database no more
often than one loop has attempts, and is counted as `ok` just if the last of these calls has
returned `nil`.  Otherwise it calls the database no more often than the three loops may. -/
theorem edge_only {ι : Type} [DecidableEq ι] {attempts : ℕ} {edgeOnly budgeted : Bool}
    {events : List (ι × ((q : Question) → Reply q))} {s : Threads Chain ι Reply Unit}
    (h : exec (Threads.step answer) (start attempts edgeOnly ι budgeted) events = some s) (i : ι) :
    let log := Threads.log answer i (start attempts edgeOnly ι budgeted) events
    (edgeOnly = true →
      counted (.entered .serviceC) log ≤ 1 ∧
      counted (.metric .leafReceived) log ≤ attempts ∧
      (s.threads i = .ret () → (∃ rs, Leaves log rs) ∧ ∀ rs, Leaves log rs →
        counted (.metric .ok) log = if rs.getLast? = some none then 1 else 0)) ∧
    (edgeOnly = false → counted (.metric .leafReceived) log ≤ attempts ^ 3) := by
  intro log
  have hlog : Prog.Follows (gateway attempts edgeOnly) log (s.threads i) :=
    Threads.follows_log i h
  constructor
  · rintro rfl
    have hC : (counted (.entered .serviceC) log : ℤ) ≤ 1 + attempts * 0 :=
      counted_le (edge_only_within (charged_one (.inl rfl)) (by decide) (by decide) attempts) hlog
    have hleaf : (counted (.metric .leafReceived) log : ℤ) ≤ 0 + attempts * 1 :=
      counted_le (edge_only_within (charged_one (.inr rfl)) (by decide) (by decide) attempts) hlog
    refine ⟨by omega, by omega, fun hdone => ?_⟩
    rw [hdone] at hlog
    obtain ⟨rs, hrs, hok⟩ := gateway_ensures attempts true log () hlog
    refine ⟨⟨rs, hrs⟩, fun rs' hrs' => ?_⟩
    rw [hrs'.unique hrs]
    exact hok
  · rintro rfl
    have hleaf : (counted (.metric .leafReceived) log : ℤ) ≤
        attempts * (attempts * (attempts * 1)) :=
      counted_le (each_hop_within (charged_one (.inr rfl)) rfl (by decide) attempts false) hlog
    have hcube : ((attempts ^ 3 : ℕ) : ℤ) = attempts * (attempts * (attempts * 1)) := by
      push_cast
      rw [pow_succ, pow_two, mul_one, mul_assoc]
    exact_mod_cast hcube ▸ hleaf

/-- A database that refuses every connection, and is called three times. -/
theorem edge_only_refused : ∃ s : Threads Chain Unit Reply Unit,
    exec (Threads.step answer) (start 3 true Unit false) (List.replicate 23 ((), refusing)) =
        some s ∧
      counted (.entered .serviceC) (Threads.log answer () (start 3 true Unit false)
        (List.replicate 23 ((), refusing))) ≤ 1 ∧
      counted (.metric .leafReceived) (Threads.log answer () (start 3 true Unit false)
        (List.replicate 23 ((), refusing))) ≤ 3 := by
  have hrun : (exec (Threads.step answer) (start 3 true Unit false)
      (List.replicate 23 ((), refusing))).isSome = true := by decide +kernel
  obtain ⟨s, hs⟩ := Option.isSome_iff_exists.mp hrun
  obtain ⟨hC, hleaf, -⟩ := (edge_only hs ()).1 rfl
  exact ⟨s, hs, hC, hleaf⟩

end Retry
end SepLab
