import SepLab.IdempotencyRace.Handlers

/-!
# Implementations B and C agree

What both implementations are for, of every state that a run reaches; and the statuses that
the calls of a key get once all of them have ended.  Both are decided by which of the calls
were aborted, and by nothing else of the run.

## Main definitions

* `ChargesOnce` — one charge and one 201 for a key, and no loser without a finished row.
* `Complete`, `statuses` — the end of a key's calls, and what they have been answered.

## Main results

* `Inv.statuses_perm` — one call gets 201 and the others 200, if any call was not aborted.
* `b_and_c_agree` — both charge once, and answer alike.
-/

namespace SepLab
namespace IdempotencyRace

variable {ι K Body F L : Type} [DecidableEq ι] [DecidableEq K] [DecidableEq F] [DecidableEq L]

/-- What the implementations are for. -/
structure ChargesOnce (impl : Impl) (b : Bodies Body F) (req : ι → Request K Body)
    (s : State ι K F L) : Prop where
  once : ∀ k, (s.chargesOf k).length ≤ 1
  answered : ∀ k, s.chargesOf k ≠ [] → ∃! i, (req i).key = k ∧ s.phase i = .returned 201
  charged : ∀ i, s.phase i = .returned 201 ↔ ∃ c, (i, c) ∈ s.chargesOf (req i).key
  /-- The loser's `SELECT` sees a committed and terminal row. -/
  terminal : ∀ i, s.phase i = .lost → ∃ row, (s.keys (req i).key).committed = some row ∧
    (s.keys (req i).key).seen i = some row ∧ row.state = .succeeded
  /-- Nobody unpacks a row that is not there, or violates the unique index. -/
  noCrash : ∀ i, s.phase i ≠ .crashed
  /-- In particular nobody is told to retry. -/
  status : ∀ i st, s.phase i = .answering st ∨ s.phase i = .returned st →
    st = 200 ∨ st = 201 ∨ impl = .b ∧ st = 422 ∧ ∃ row,
      (s.keys (req i).key).committed = some row ∧ row.fingerprint ≠ b.fingerprint (req i).body

/-- The call has come to its end. -/
def Phase.Ended : Phase K → Prop
  | .returned _ | .crashed | .aborted => True
  | _ => False

/-- The status that the call has returned. -/
def Phase.status : Phase K → Option ℕ
  | .returned st => some st
  | _ => none

/-- The calls of the key `k` are those of the list, and all of them have ended. -/
structure Complete (req : ι → Request K Body) (calls : List ι) (k : K) (s : State ι K F L) :
    Prop where
  ended : ∀ i ∈ calls, (req i).key = k → (s.phase i).Ended
  others : ∀ i, i ∉ calls → (req i).key = k → s.phase i = .idle

/-- The statuses that the calls of the key `k` have got. -/
def statuses (req : ι → Request K Body) (calls : List ι) (k : K) (s : State ι K F L) : List ℕ :=
  (calls.filter fun i => (req i).key = k).filterMap fun i => (s.phase i).status

variable {impl : Impl} {b : Bodies Body F} {hash : K → L} {req : ι → Request K Body}
  {s : State ι K F L} {calls : List ι} {k : K}

omit [DecidableEq ι] [DecidableEq F] [DecidableEq L] in
theorem Inv.mem_chargesOf (h : Inv impl b hash req s) {i : ι} {c : Charge K} :
    (i, c) ∈ s.chargesOf k ↔ (i, c) ∈ s.charges ∧ (req i).key = k := by
  rw [State.chargesOf, List.mem_filter, decide_eq_true_eq]
  constructor
  · rintro ⟨hc, hk⟩
    exact ⟨hc, (h.charges hc).1.symm.trans hk⟩
  · rintro ⟨hc, hk⟩
    exact ⟨hc, (h.charges hc).1.trans hk⟩

omit [DecidableEq ι] [DecidableEq F] [DecidableEq L] in
/-- Only one call of a key is charged. -/
theorem Inv.charge_unique (h : Inv impl b hash req s) {i j : ι} {c c' : Charge K}
    (hi : (i, c) ∈ s.charges) (hj : (j, c') ∈ s.charges) (hk : (req i).key = (req j).key) :
    i = j := by
  have hi' := h.mem_chargesOf.mpr ⟨hi, hk⟩
  have hj' := h.mem_chargesOf.mpr ⟨hj, rfl⟩
  obtain ⟨x, hx⟩ := List.length_eq_one_iff.mp
    (Nat.le_antisymm (h.once _) (List.length_pos_of_mem hi'))
  rw [hx, List.mem_singleton] at hi' hj'
  exact congrArg Prod.fst (hi'.trans hj'.symm)

omit [DecidableEq ι] [DecidableEq K] [DecidableEq F] [DecidableEq L] in
/-- A call that found a row gets 200, or 422 from B if the row has another fingerprint. -/
theorem Answers.status {i : ι} {st : ℕ} (h : Answers impl b req s i st) :
    st = 200 ∨ impl = .b ∧ st = 422 ∧ ∃ row,
      (s.keys (req i).key).committed = some row ∧ row.fingerprint ≠ b.fingerprint (req i).body := by
  obtain ⟨row, hr, hsame, hother⟩ := h
  by_cases hfp : row.fingerprint = b.fingerprint (req i).body
  · exact Or.inl (hsame (Or.inr hfp))
  · cases impl with
    | b => exact Or.inr ⟨rfl, hother rfl hfp, row, hr, hfp⟩
    | c => exact Or.inl (hsame (Or.inl rfl))

omit [DecidableEq ι] [DecidableEq F] [DecidableEq L] in
/-- **Who returns 201 has charged.** -/
theorem Inv.returned_iff (h : Inv impl b hash req s) (i : ι) :
    s.phase i = .returned 201 ↔ ∃ c, (i, c) ∈ s.charges := by
  constructor
  · intro hi
    have hcall := h.call i
    rw [hi] at hcall
    rcases hcall with ha | ⟨-, -, hc⟩
    · rcases ha.status with hst | ⟨-, hst, -⟩ <;> simp at hst
    · exact hc
  · rintro ⟨c, hc⟩
    exact (h.charges hc).2.1

omit [DecidableEq F] [DecidableEq L] in
/-- The invariant is as good as what the implementations are for. -/
theorem Inv.chargesOnce (h : Inv impl b hash req s) : ChargesOnce impl b req s where
  once := h.once
  answered k hk := by
    obtain ⟨⟨i, c⟩, hc⟩ := List.exists_mem_of_ne_nil _ hk
    obtain ⟨hc, hkey⟩ := h.mem_chargesOf.mp hc
    refine ⟨i, ⟨hkey, (h.charges hc).2.1⟩, ?_⟩
    -- two calls that answered 201 have each a charge of the key, and there is only one
    rintro j ⟨hj, hret⟩
    obtain ⟨c', hc'⟩ := (h.returned_iff j).mp hret
    exact h.charge_unique hc' hc (hj.trans hkey.symm)
  charged i := by
    rw [h.returned_iff]
    exact exists_congr fun c => by rw [h.mem_chargesOf, and_iff_left rfl]
  terminal i hi := by
    have hcall := h.call i
    rw [hi] at hcall
    obtain ⟨row, hrow⟩ := Option.ne_none_iff_exists'.mp hcall
    exact ⟨row, hrow, h.seen hrow i, (h.rows hrow).1⟩
  noCrash i hi := by
    have hcall := h.call i
    rw [hi] at hcall
    exact hcall
  -- the status follows from the committed row that the call has read
  status i st hi := by
    have hcall := h.call i
    rcases hi with hi | hi
    · rw [hi] at hcall
      exact (Answers.status hcall).imp_right Or.inr
    · rw [hi] at hcall
      rcases hcall with ha | ⟨hst, -⟩
      · exact ha.status.imp_right Or.inr
      · exact Or.inr (Or.inl hst)

/-! ### The answers at the end -/

omit [DecidableEq ι] [DecidableEq F] [DecidableEq L] in
/-- A call of the same body as the charged one returns 200 or 201. -/
theorem Inv.returned_same (h : Inv impl b hash req s) {i : ι} {st : ℕ}
    (hi : s.phase i = .returned st)
    (hsame : ∀ j c, (j, c) ∈ s.charges → (req j).key = (req i).key →
      (req i).body = (req j).body) :
    (∃ j c, (j, c) ∈ s.charges ∧ (req j).key = (req i).key) ∧ (st = 200 ∨ st = 201) := by
  have hcall := h.call i
  rw [hi] at hcall
  rcases hcall with ⟨row, hrow, hst, -⟩ | ⟨rfl, -, c, hc⟩
  · obtain ⟨-, j, c, hc, hk, hfp⟩ := h.rows hrow
    refine ⟨⟨j, c, hc, hk⟩, Or.inl (hst (Or.inr ?_))⟩
    rw [hfp, hsame j c hc hk]
  · exact ⟨⟨i, c, hc, rfl⟩, Or.inr rfl⟩

omit [DecidableEq F] [DecidableEq L] in
/-- **One call gets 201 and the others 200**, if there is one that was not aborted. -/
theorem Inv.statuses_perm (h : Inv impl b hash req s) (hnodup : calls.Nodup)
    (hbody : ∀ i ∈ calls, ∀ j ∈ calls, (req i).key = k → (req j).key = k →
      (req i).body = (req j).body) (hcomplete : Complete req calls k s) :
    statuses req calls k s = [] ∨
      ∃ m, (statuses req calls k s).Perm (201 :: List.replicate m 200) := by
  unfold statuses
  -- A charged call of the key is one of the list, since it is not idle.
  have hlisted : ∀ {j c}, (j, c) ∈ s.charges → (req j).key = k → j ∈ calls := by
    intro j c hc hk
    by_contra hj
    have hidle := hcomplete.others j hj hk
    rw [(h.charges hc).2.1] at hidle
    cases hidle
  have hsame : ∀ {i st}, i ∈ calls → (req i).key = k → s.phase i = .returned st →
      (∃ j c, (j, c) ∈ s.charges ∧ (req j).key = k) ∧ (st = 200 ∨ st = 201) := by
    rintro i st hi rfl hret
    exact h.returned_same hret fun j c hc hk => hbody i hi j (hlisted hc hk) rfl hk
  by_cases hcharged : ∃ i c, (i, c) ∈ s.charges ∧ (req i).key = k
  · obtain ⟨i, c, hc, hk⟩ := hcharged
    have hi : i ∈ calls.filter fun i => (req i).key = k :=
      List.mem_filter.mpr ⟨hlisted hc hk, decide_eq_true hk⟩
    have hret : s.phase i = .returned 201 := (h.charges hc).2.1
    have hperm := (List.perm_cons_erase hi).filterMap fun i => (s.phase i).status
    rw [List.filterMap_cons_some (b := 201) (by simp [hret, Phase.status])] at hperm
    refine Or.inr ⟨_, hperm.trans (.of_eq (congrArg _ (List.eq_replicate_of_mem ?_)))⟩
    intro st hst
    obtain ⟨j, hj, hst⟩ := List.mem_filterMap.mp hst
    obtain ⟨hne, hj⟩ := (List.Nodup.mem_erase_iff (hnodup.filter _)).mp hj
    obtain ⟨hj, hkj⟩ := List.mem_filter.mp hj
    replace hkj : (req j).key = k := of_decide_eq_true hkj
    have hretj : s.phase j = .returned st := by
      unfold Phase.status at hst
      split at hst
      · next st' hst' => rw [hst', Option.some_inj.mp hst]
      · cases hst
    rcases (hsame hj hkj hretj).2 with rfl | rfl
    · rfl
    · obtain ⟨c', hc'⟩ := (h.returned_iff j).mp hretj
      exact absurd (h.charge_unique hc' hc (hkj.trans hk.symm)) hne
  · refine Or.inl (List.filterMap_eq_nil_iff.mpr fun i hi => ?_)
    obtain ⟨hi, hk⟩ := List.mem_filter.mp hi
    replace hk : (req i).key = k := of_decide_eq_true hk
    unfold Phase.status
    split
    · next st hst => exact absurd (hsame hi hk hst).1 hcharged
    · rfl

omit [DecidableEq ι] [DecidableEq F] [DecidableEq L] in
/-- How many calls got a status: those that were not aborted. -/
theorem Inv.length_statuses (h : Inv impl b hash req s) (hcomplete : Complete req calls k s) :
    (statuses req calls k s).length =
      (calls.filter fun i => (req i).key = k).countP fun i => s.phase i ≠ .aborted := by
  unfold statuses
  rw [List.length_filterMap_eq_countP]
  refine List.countP_congr fun i hi => ?_
  obtain ⟨hi, hk⟩ := List.mem_filter.mp hi
  have hend := hcomplete.ended i hi (of_decide_eq_true hk)
  have hcall := h.call i
  revert hend hcall
  cases s.phase i with
  | returned st => simp [Phase.status]
  | aborted => simp [Phase.status]
  | crashed => exact fun _ hcall => hcall.elim
  | _ => exact fun hend => hend.elim

/-- A run of either implementation keeps the invariant. -/
theorem inv_of_reach {runId : String}
    (h : Reach (step impl b hash runId req) (State.init : State ι K F L) s) :
    Inv impl b hash req s :=
  h.invariant .init fun _ _ _ hinv hs => hinv.step hs

/-- **Implementations B and C charge once and agree.**  In every interleaving, whichever calls
are aborted, both are what they are for; and when the calls of a key carry the same body, they
return the same statuses if the same calls of the key are aborted. -/
theorem b_and_c_agree (b : Bodies Body F) (hash : K → L) (req : ι → Request K Body) :
    (∀ impl runId, ∀ s : State ι K F L, Reach (step impl b hash runId req) State.init s →
      ChargesOnce impl b req s) ∧
    ∀ runB runC, ∀ sB sC : State ι K F L, Reach (step .b b hash runB req) State.init sB →
      Reach (step .c b hash runC req) State.init sC →
      ∀ k (calls : List ι), calls.Nodup →
        (∀ i ∈ calls, ∀ j ∈ calls, (req i).key = k → (req j).key = k →
          (req i).body = (req j).body) →
        Complete req calls k sB → Complete req calls k sC →
        (∀ i ∈ calls, (req i).key = k → (sB.phase i = .aborted ↔ sC.phase i = .aborted)) →
        (statuses req calls k sB).Perm (statuses req calls k sC) := by
  refine ⟨fun impl runId s hs => (inv_of_reach hs).chargesOnce, ?_⟩
  intro runB runC sB sC hB hC k calls hnodup hbody hcB hcC hsame
  have hB := inv_of_reach hB
  have hC := inv_of_reach hC
  -- The lengths agree, and at most one of the statuses of each is not 200.
  have hlen : (statuses req calls k sB).length = (statuses req calls k sC).length := by
    rw [hB.length_statuses hcB, hC.length_statuses hcC]
    refine List.countP_congr fun i hi => ?_
    obtain ⟨hi, hk⟩ := List.mem_filter.mp hi
    simpa using not_congr (hsame i hi (of_decide_eq_true hk))
  rcases hB.statuses_perm hnodup hbody hcB with hB | ⟨m, hB⟩
  · rw [hB, List.eq_nil_of_length_eq_zero (hlen.symm.trans (congrArg _ hB))]
  · rcases hC.statuses_perm hnodup hbody hcC with hC | ⟨n, hC⟩
    · rw [hC, List.eq_nil_of_length_eq_zero (hlen.trans (congrArg _ hC))]
    · rw [hB.length_eq, hC.length_eq, List.length_cons, List.length_cons, List.length_replicate,
        List.length_replicate, Nat.add_right_cancel_iff] at hlen
      rw [hlen] at hB
      exact hB.trans hC.symm

/-- Calls `0`, `1` and `2` are of one key; call `3` is of another key with the same hash. -/
def sameKey (i : ℕ) : Request ℕ ℤ := if i < 3 then ⟨7, 4200⟩ else ⟨8, 4201⟩

/-- Call `0` is aborted.  In B call `1` was waiting for it and takes its place; in C call `2` is
the first to get the lock after it. -/
theorem b_and_c_agree_sameKey : ∃ sB sC : State ℕ ℕ ℤ ℕ,
    statuses sameKey [0, 1, 2, 3] 7 sB = [201, 200] ∧
    statuses sameKey [0, 1, 2, 3] 7 sC = [200, 201] ∧
    ChargesOnce .b ⟨id, id⟩ sameKey sB ∧ ChargesOnce .c ⟨id, id⟩ sameKey sC ∧
    (statuses sameKey [0, 1, 2, 3] 7 sB).Perm (statuses sameKey [0, 1, 2, 3] 7 sC) := by
  -- call 0 has charged when it is aborted, and 1 goes on; 3 has another key with the same lock
  have hrunB : ((exec (step .b ⟨id, id⟩ (fun _ => 0) "run" sameKey) State.init
      [.begin 0, .insertKey 0, .begin 1, .insertCharge 0, .begin 3, .insertKey 3, .abort 0,
        .insertKey 1, .insertCharge 1, .update 1, .begin 2, .commit 1, .insertKey 2, .select 2,
        .commit 2]).map fun s : State ℕ ℕ ℤ ℕ => (s.phase 0, s.phase 1, s.phase 2)) =
      some (.aborted, .returned 201, .returned 200) := by decide
  have hrunC : ((exec (step .c ⟨id, id⟩ (fun _ => 0) "run" sameKey) State.init
      [.begin 0, .lock 0, .begin 1, .begin 2, .select 0, .insertKey 0, .abort 0, .lock 2,
        .select 2, .insertKey 2, .insertCharge 2, .commit 2, .unlock 2, .begin 3, .lock 3,
        .select 3, .abort 3, .lock 1, .select 1, .commit 1, .unlock 1]).map
          fun s : State ℕ ℕ ℤ ℕ => (s.phase 0, s.phase 1, s.phase 2)) =
      some (.aborted, .returned 200, .returned 201) := by decide
  obtain ⟨sB, hsB, hB⟩ := Option.map_eq_some_iff.mp hrunB
  obtain ⟨sC, hsC, hC⟩ := Option.map_eq_some_iff.mp hrunC
  simp only [Prod.mk.injEq] at hB hC
  obtain ⟨hB0, hB1, hB2⟩ := hB
  obtain ⟨hC0, hC1, hC2⟩ := hC
  -- the first three calls are those of the key
  have hkey : ∀ i, (sameKey i).key = 7 → i < 3 := by
    intro i hi
    unfold sameKey at hi
    by_contra hlt
    rw [if_neg hlt] at hi
    cases hi
  have hcomplete : ∀ s : State ℕ ℕ ℤ ℕ, (s.phase 0).Ended → (s.phase 1).Ended →
      (s.phase 2).Ended → Complete sameKey [0, 1, 2, 3] 7 s := by
    intro s h0 h1 h2
    refine ⟨fun i _ hi => ?_, fun i hout hi => ?_⟩
    · match i, hkey i hi with
      | 0, _ => exact h0
      | 1, _ => exact h1
      | 2, _ => exact h2
    · have := hkey i hi
      simp at hout
      omega
  obtain ⟨honce, hagree⟩ := b_and_c_agree ⟨id, id⟩ (fun _ => 0) sameKey
  refine ⟨sB, sC, ?_, ?_, honce .b "run" sB (.of_exec _ hsB), honce .c "run" sC (.of_exec _ hsC),
    hagree "run" "run" sB sC (.of_exec _ hsB) (.of_exec _ hsC) 7 [0, 1, 2, 3] (by decide) ?_ ?_ ?_
      ?_⟩
  · simp [statuses, sameKey, hB0, hB1, hB2, Phase.status]
  · simp [statuses, sameKey, hC0, hC1, hC2, Phase.status]
  · decide
  · exact hcomplete sB (hB0 ▸ trivial) (hB1 ▸ trivial) (hB2 ▸ trivial)
  · exact hcomplete sC (hC0 ▸ trivial) (hC1 ▸ trivial) (hC2 ▸ trivial)
  · intro i _ hi
    match i, hkey i hi with
    | 0, _ => simp [hB0, hC0]
    | 1, _ => simp [hB1, hC1]
    | 2, _ => simp [hB2, hC2]

end IdempotencyRace
end SepLab
