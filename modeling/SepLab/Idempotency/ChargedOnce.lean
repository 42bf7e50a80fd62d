import SepLab.Idempotency.Sound

/-!
# When `charge_correct` charges once

The work's transaction ends in an `UPDATE` that names the key only.  A holder
that was slow for longer than the time to live, and has lost its claim to
another call, therefore commits its charge as well.

## Main definitions

* `State.Overtaken req s a` — `a` commits the work of a call whose key is finished.
* `State.Steals e ttl req s a` — `a` takes a claim over from a call that is still at work.

## Main results

* `charge_correct_once_iff` — **keys are charged once exactly as long as no call
  commits its work over a finished row.**
* `State.not_overtaken_of_not_steals` — which cannot happen if claims are only
  taken over from calls that are gone.
-/

namespace SepLab
namespace Idempotency

variable {K Body F P ι : Type} [DecidableEq ι] [DecidableEq K] [DecidableEq F]

namespace State

variable (e : Endpoint K Body F P) (ttl : ℕ) (req : ι → Request K Body)

/-- The work of a call is committed although its key is finished. -/
def Overtaken (s : State ι K F P) : Action ι → Prop
  | .commit i => (∃ c, s.phase i = .published c) ∧ s.Done (req i).key
  | _ => False

variable {e ttl req} {s s' : State ι K F P} {a : Action ι}

/-! ### Charging once -/

/-- Charges are only added, by commits. -/
theorem Inv.charges_step (h : s.Inv e req) (hs : s.step e ttl req a = some s') :
    s'.charges = s.charges ∨ ∃ i c, a = .commit i ∧ s.phase i = .published c ∧
      c.idemKey = (req i).key ∧ s'.charges = s.charges ++ [(i, c)] := by
  cases h.effect hs with
  | @commit i c row hphase hrow hpending =>
    have hcall := h.call i
    rw [hphase] at hcall
    exact Or.inr ⟨i, c, rfl, hphase, hcall.1, rfl⟩
  | _ => exact Or.inl rfl

omit [DecidableEq ι] [DecidableEq F] in
theorem Charged.exists_mem {k : K} {id : ℕ} (h : s.Charged k id) :
    ∃ c ∈ s.chargesOf k, c.2.id = id := by
  obtain ⟨j, c, hmem, hkey, hid⟩ := h
  exact ⟨(j, c), List.mem_filter.mpr ⟨hmem, by simpa using hkey⟩, hid⟩

/-- **A key stays charged once**, if the step does not commit over a finished row. -/
theorem Inv.chargesOf_step (h : s.Inv e req) (hs : s.step e ttl req a = some s')
    (hok : ¬ s.Overtaken req a) (hone : ∀ k, (s.chargesOf k).length ≤ 1) (k : K) :
    (s'.chargesOf k).length ≤ 1 := by
  rcases h.charges_step hs with hsame | ⟨i, c, rfl, hphase, hkey, hnew⟩
  · rw [chargesOf, hsame]
    exact hone k
  rw [chargesOf, hnew, List.filter_append, List.length_append]
  by_cases hk : c.idemKey = k
  · -- the key has no charge yet, for it is not finished
    have hnone : s.chargesOf k = [] := by
      rw [chargesOf, List.filter_eq_nil_iff]
      rintro ⟨j, c'⟩ hc' hk'
      have hd := (h.charges hc').2
      rw [of_decide_eq_true hk', ← hk, hkey] at hd
      exact hok ⟨⟨c, hphase⟩, hd⟩
    rw [chargesOf] at hnone
    rw [hnone, List.length_nil, Nat.zero_add]
    exact List.length_filter_le _ _
  · rw [List.filter_cons_of_neg (by simpa using hk)]
    exact hone k

variable (ttl) in
/-- A commit over a finished row charges the key a second time. -/
theorem Inv.two_le_of_overtaken (h : s.Inv e req) (hov : s.Overtaken req a) :
    ∃ s' k, s.step e ttl req a = some s' ∧ 2 ≤ (s'.chargesOf k).length := by
  cases a with
  | commit i =>
    obtain ⟨⟨c, hphase⟩, row, hrow, hd⟩ := hov
    refine ⟨_, (req i).key, by rw [State.step, State.commit, hphase], ?_⟩
    have hcall := h.call i
    rw [hphase] at hcall
    obtain ⟨p, -, hch⟩ := h.done hrow hd
    obtain ⟨c', hmem, -⟩ := hch.exists_mem
    have hpos : 0 < (s.chargesOf (req i).key).length := List.length_pos_of_mem hmem
    show 2 ≤ (List.filter _ (s.charges ++ [(i, c)])).length
    rw [List.filter_append, List.length_append, List.filter_cons_of_pos (by simpa using hcall.1)]
    exact Nat.succ_le_succ hpos
  | _ => exact hov.elim

omit [DecidableEq ι] [DecidableEq F] in
/-- With one charge a key, all answers for a key carry the same one. -/
theorem Inv.chargedOnce (h : s.Inv e req) (hone : ∀ k, (s.chargesOf k).length ≤ 1) :
    s.ChargedOnce e req := by
  refine ⟨hone, ?_⟩
  intro i j st st' p p' hkey hi hj
  have hci := h.call i
  have hcj := h.call j
  rw [hi] at hci
  rw [hj] at hcj
  obtain ⟨q, rfl, hq⟩ := hci
  obtain ⟨q', rfl, hq'⟩ := hcj
  rw [← hkey] at hq'
  obtain ⟨c, hc, hid⟩ := hq.exists_mem
  obtain ⟨c', hc', hid'⟩ := hq'.exists_mem
  -- two rows of one key are one row
  have heq : c = c' := by
    have hlen := hone (req i).key
    match hl : s.chargesOf (req i).key with
    | [] => rw [hl] at hc; cases hc
    | [x] =>
      rw [hl, List.mem_singleton] at hc hc'
      exact hc.trans hc'.symm
    | x :: y :: l => rw [hl] at hlen; simp at hlen
  rw [Option.map_some, Option.map_some, ← hid, ← hid', heq]

/-- **Charging once, exactly.** -/
theorem chargedOnce_iff (as : List (Action ι)) :
    (∀ bs s, bs <+: as → exec (State.step e ttl req) init bs = some s → s.ChargedOnce e req) ↔
      ∀ bs a s, bs ++ [a] <+: as → exec (State.step e ttl req) init bs = some s →
        ¬ s.Overtaken req a := by
  have hinit : (init : State ι K F P).Inv e req := .init
  apply exec_forall_iff (I := Inv e req) hinit (fun _ _ _ h hstep => h.step hstep)
    (hinit.chargedOnce fun k => Nat.zero_le 1)
  intro s a h hone
  constructor
  · intro hok s' hstep
    exact (h.step hstep).chargedOnce (h.chargesOf_step hstep hok hone.1)
  · intro hnext hov
    obtain ⟨s', k, hs', htwo⟩ := h.two_le_of_overtaken ttl hov
    exact absurd (Nat.le_trans htwo ((hnext s' hs').1 k)) (by decide)

/-! ### Claims taken over from the living -/

variable (e ttl req) in
/-- A claim is taken over from a call that is still at work. -/
def Steals (s : State ι K F P) : Action ι → Prop
  | .claim i => ∃ now row j, s.phase i = .claiming now ∧
      (s.keys (req i).key).committed = some row ∧
      e.onConflict (e.excluded ttl (req i).body now) row now ≠ none ∧
      (req j).key = (req i).key ∧ s.AtWork j
  | _ => False

/-- One call is at work for a key, and then the key is not finished. -/
structure Exclusive (req : ι → Request K Body) (s : State ι K F P) : Prop where
  eq : ∀ {i j}, s.AtWork i → s.AtWork j → (req i).key = (req j).key → i = j
  not_done : ∀ {i}, s.AtWork i → ¬ s.Done (req i).key

omit [DecidableEq ι] [DecidableEq K] [DecidableEq F] in
/-- Whoever is at work has a row. -/
theorem Inv.exists_row (h : s.Inv e req) {j : ι} (hj : s.AtWork j) :
    ∃ row, (s.keys (req j).key).committed = some row := by
  have hcall := h.call j
  unfold AtWork at hj
  split at hj
  · next hp =>
    rw [hp] at hcall
    exact Option.ne_none_iff_exists'.mp hcall
  · next c hp =>
    rw [hp] at hcall
    exact Option.ne_none_iff_exists'.mp hcall.2
  · next c hp =>
    rw [hp] at hcall
    obtain ⟨-, row, hrow, -⟩ := hcall
    exact ⟨row, hrow⟩
  · exact hj.elim

omit [DecidableEq K] [DecidableEq F] in
/-- A call that goes to a phase in which it is not at work leaves the others at work. -/
theorem atWork_of_enter {i j : ι} {p : Phase K P} (h : (s.enter i p).AtWork j)
    (hp : p ≠ .holding) (hp' : ∀ c, p ≠ .charged c ∧ p ≠ .published c) :
    j ≠ i ∧ s.AtWork j := by
  have hphase : (s.enter i p).phase = Function.update s.phase i p := rfl
  unfold AtWork at h ⊢
  rw [hphase] at h
  by_cases hj : j = i
  · subst hj
    rw [Function.update_self] at h
    split at h
    · exact absurd rfl hp
    · next c => exact absurd rfl (hp' c).1
    · next c => exact absurd rfl (hp' c).2
    · exact h.elim
  · rw [Function.update_of_ne hj] at h
    exact ⟨hj, h⟩

omit [DecidableEq K] [DecidableEq F] in
/-- Where a call goes does not put the others to work. -/
theorem atWork_of_enter_of_ne {i j : ι} {p : Phase K P} (h : (s.enter i p).AtWork j)
    (hji : j ≠ i) : s.AtWork j := by
  simpa [AtWork, enter, Function.update_of_ne hji] using h

omit [DecidableEq K] [DecidableEq F] in
/-- A call that is at work puts nobody else to work. -/
theorem atWork_of_enter_of_atWork {i j : ι} {p : Phase K P} (h : (s.enter i p).AtWork j)
    (hi : s.AtWork i) : s.AtWork j := by
  by_cases hji : j = i
  · rw [hji]
    exact hi
  · exact atWork_of_enter_of_ne h hji

omit [DecidableEq ι] [DecidableEq K] [DecidableEq F] in
/-- Whoever is at work was so before, for a key that is no more finished than before. -/
theorem Exclusive.of_subset (hx : s.Exclusive req)
    (h : ∀ j, s'.AtWork j → s.AtWork j ∧ (s'.Done (req j).key → s.Done (req j).key)) :
    s'.Exclusive req where
  eq hi hj hkey := hx.eq (h _ hi).1 (h _ hj).1 hkey
  not_done hi hd := hx.not_done (h _ hi).1 ((h _ hi).2 hd)

/-- **One call is at work for a key**, as long as no claim is taken over from a
call at work. -/
theorem Exclusive.step (hx : s.Exclusive req) (h : s.Inv e req)
    (hs : s.step e ttl req a = some s') (hok : ¬ s.Steals e ttl req a) : s'.Exclusive req := by
  cases h.effect hs with
  | tick d => exact hx.of_subset fun j hj => ⟨hj, id⟩
  | wait hphase => exact hx
  | begin hphase =>
    exact hx.of_subset fun j hj => ⟨(atWork_of_enter hj (by simp) (by simp)).2, id⟩
  | lose hphase =>
    exact hx.of_subset fun j hj => ⟨(atWork_of_enter hj (by simp) (by simp)).2, id⟩
  | answer hphase hr =>
    exact hx.of_subset fun j hj => ⟨(atWork_of_enter hj (by simp) (by simp)).2, id⟩
  | respond hphase =>
    exact hx.of_subset fun j hj => ⟨(atWork_of_enter hj (by simp) (by simp)).2, id⟩
  | crash =>
    refine hx.of_subset fun j hj => ⟨(atWork_of_enter hj (by simp) (by simp)).2, ?_⟩
    rintro ⟨row, hrow, hd⟩
    exact ⟨row, Row.committed_rollback.symm.trans hrow, hd⟩
  | @insertCharge i c hphase hid hkey =>
    have hi : s.AtWork i := by
      rw [AtWork, hphase]
      trivial
    exact hx.of_subset fun j hj => ⟨atWork_of_enter_of_atWork hj hi, id⟩
  | @publish i c row hphase hnone hrow =>
    have hi : s.AtWork i := by
      rw [AtWork, hphase]
      trivial
    refine hx.of_subset fun j hj => ⟨atWork_of_enter_of_atWork hj hi, ?_⟩
    rintro ⟨row', hrow', hd⟩
    exact ⟨row', (Table.committed_put _ _).symm.trans hrow', hd⟩
  | @commit i c row hphase hrow hpending =>
    have hi : s.AtWork i := by
      rw [AtWork, hphase]
      trivial
    refine hx.of_subset fun j hj => ?_
    obtain ⟨hji, hj⟩ := atWork_of_enter hj (by simp) (by simp)
    refine ⟨hj, ?_⟩
    rintro ⟨row', hrow', hd⟩
    have hk : (req j).key ≠ (req i).key := fun hk => hji (hx.eq hj hi hk)
    exact ⟨row', (congrArg Row.committed (Function.update_of_ne hk _ _)).symm.trans hrow', hd⟩
  | @win i now row hphase hnone hrow hdone htake =>
    -- whoever is at work for the key would have its claim stolen
    have hfree : ∀ j, s.AtWork j → (req j).key ≠ (req i).key := by
      intro j hj hk
      obtain ⟨row₀, hrow₀⟩ := h.exists_row hj
      rw [hk] at hrow₀
      refine hok ⟨now, row₀, j, hphase, hrow₀, ?_, hk, hj⟩
      rw [htake row₀ hrow₀]
      exact Option.some_ne_none row
    have hwork : ∀ {j}, j ≠ i → ({ s with
        keys := Function.update s.keys (req i).key ⟨some row, none⟩ }.enter i .holding).AtWork j →
        s.AtWork j := fun hji hj => atWork_of_enter_of_ne hj hji
    refine ⟨fun {j j'} hj hj' hkey => ?_, fun {j} hj => ?_⟩
    · by_cases hji : j = i
      · by_cases hji' : j' = i
        · rw [hji, hji']
        · rw [hji] at hkey
          exact absurd hkey.symm (hfree j' (hwork hji' hj'))
      · by_cases hji' : j' = i
        · rw [hji'] at hkey
          exact absurd hkey (hfree j (hwork hji hj))
        · exact hx.eq (hwork hji hj) (hwork hji' hj') hkey
    · rintro ⟨row', hrow', hd⟩
      by_cases hji : j = i
      · subst hji
        replace hrow' : (Function.update s.keys _ _ (req j).key).committed = some row' := hrow'
        rw [Function.update_self, Option.some_inj] at hrow'
        rw [← hrow', hrow] at hd
        cases hd
      · have hj := hwork hji hj
        have hk := hfree j hj
        exact hx.not_done hj
          ⟨row', (congrArg Row.committed (Function.update_of_ne hk _ _)).symm.trans hrow', hd⟩

/-- A call is only overtaken after its claim was taken over while it was at work. -/
theorem not_overtaken_of_not_steals (as : List (Action ι))
    (hok : ∀ bs a s, bs ++ [a] <+: as → exec (State.step e ttl req) init bs = some s →
      ¬ s.Steals e ttl req a) :
    ∀ bs a s, bs ++ [a] <+: as → exec (State.step e ttl req) init bs = some s →
      ¬ s.Overtaken req a := by
  intro bs a s hpre hs hov
  have hP := exec_forall (P := fun s => s.Inv e req ∧ s.Exclusive req)
    ⟨.init, ⟨fun h => h.elim, fun h => h.elim⟩⟩
    (fun s a s' hP hok hstep => ⟨hP.1.step hstep, hP.2.step hP.1 hstep hok⟩) as hok bs s
    ((List.prefix_append bs [a]).trans hpre) hs
  cases a with
  | commit i =>
    obtain ⟨⟨c, hc⟩, hd⟩ := hov
    refine hP.2.not_done (i := i) ?_ hd
    rw [AtWork, hc]
    trivial
  | _ => exact hov.elim

end State

open State

/-- **Charging once.**  In both programs and every state of a run, no key is
charged twice and all answers for a key carry the same charge, if and only if no
step of the run commits the work of a call whose key is finished. -/
theorem charge_correct_once_iff (b : Bodies Body F) (ttl : ℕ) (req : ι → Request K Body)
    (as : List (Action ι)) :
    ((∀ bs s, bs <+: as → exec (State.step (lab b) ttl req) init bs = some s →
        s.ChargedOnce (lab b) req) ↔
      ∀ bs a s, bs ++ [a] <+: as → exec (State.step (lab b) ttl req) init bs = some s →
        ¬ s.Overtaken req a) ∧
    ((∀ bs s, bs <+: as → exec (State.step (server b) ttl req) init bs = some s →
        s.ChargedOnce (server b) req) ↔
      ∀ bs a s, bs ++ [a] <+: as → exec (State.step (server b) ttl req) init bs = some s →
        ¬ s.Overtaken req a) :=
  ⟨chargedOnce_iff as, chargedOnce_iff as⟩

/-- Bodies that are amounts of dollars. -/
def amounts : Bodies ℤ ℤ := ⟨id, some, fun _ => some "usd"⟩

/-- Call `0` claims the key, is slow for longer than the time to live of `60`, and
has its claim taken over by call `1`; then both do their work. -/
def slowHolder : List (Action (Fin 2)) :=
  [.begin 0, .claim 0, .tick 61, .begin 1, .claim 1, .insertCharge 1, .publish 1, .commit 1,
    .insertCharge 0, .publish 0, .commit 0]

/-- Two calls with the same key and the same body are both charged. -/
theorem charge_correct_twice :
    (¬ ∀ s : State (Fin 2) ℕ ℤ LabPayload,
      Reach (State.step (lab amounts) 60 fun _ => ⟨7, 100⟩) init s →
        s.ChargedOnce (lab amounts) fun _ => ⟨7, 100⟩) ∧
    ¬ ∀ s : State (Fin 2) ℕ ℤ ChargePayload,
      Reach (State.step (server amounts) 60 fun _ => ⟨7, 100⟩) init s →
        s.ChargedOnce (server amounts) fun _ => ⟨7, 100⟩ := by
  constructor
  · intro h
    -- the first call outlives its claim, and the second takes it over
    have hrun : ((exec (State.step (lab amounts) 60 fun _ => ⟨7, 100⟩) init slowHolder).map
        fun s => s.charges) = some [(1, ⟨1, 7, 100, "usd"⟩), (0, ⟨2, 7, 100, "usd"⟩)] := by decide
    obtain ⟨s, hs, hc⟩ := Option.map_eq_some_iff.mp hrun
    have hone := (h s (.of_exec _ hs)).1 7
    rw [State.chargesOf, hc] at hone
    exact absurd hone (by decide)
  · intro h
    have hrun : ((exec (State.step (server amounts) 60 fun _ => ⟨7, 100⟩) init slowHolder).map
        fun s => s.charges) = some [(1, ⟨1, 7, 100, "usd"⟩), (0, ⟨2, 7, 100, "usd"⟩)] := by decide
    obtain ⟨s, hs, hc⟩ := Option.map_eq_some_iff.mp hrun
    have hone := (h s (.of_exec _ hs)).1 7
    rw [State.chargesOf, hc] at hone
    exact absurd hone (by decide)

end Idempotency
end SepLab
