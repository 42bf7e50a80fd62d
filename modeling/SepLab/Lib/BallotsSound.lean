import SepLab.Lib.Ballots

/-!
# The invariants of the abstract replicated log

Every step of `Ballots.Step` keeps `Elections` and `Chains`, which are proved in
that order: chains need that a term is led once.

## Main results

* `Chains.lead`, `Chains.accept` — a longer chain with its leader's log, and another log.
* `Elections.step`, `Chains.step` — one step keeps each invariant.
* `Step.chain_isPrefix` — the chain of a term only grows.
-/

namespace SepLab
namespace Ballots

open TermLog

variable {P E : Type*} {q : QuorumSystem P} {term : E → ℕ} {g : List E}

/-! ### Elections -/

theorem Elections.init (g : List E) : Elections (P := P) q term (Ballots.init g) where
  vote_le h := by cases h
  stood_le h := by cases h
  stood_pos h := by cases h
  vote_stood h := by cases h
  leader_stood h := by cases h
  leader_votes h := by cases h

/-- A voter has not voted in a term it has not reached. -/
theorem Elections.vote_eq_none {b : Ballots P E} (h : Elections q term b) {v : P} {t : ℕ}
    (ht : b.current v < t) : b.vote v t = none := by
  cases hv : b.vote v t with
  | none => rfl
  | some x =>
    have := h.vote_le hv
    omega

theorem Elections.stood_eq_none {b : Ballots P E} (h : Elections q term b) {p : P} {t : ℕ}
    (ht : b.current p < t) : b.stood p t = none := by
  cases hv : b.stood p t with
  | none => rfl
  | some x =>
    have := h.stood_le hv
    omega

/-- A quorum's votes for someone who does not lead the term leave the term without a leader. -/
theorem Elections.leader_eq_none {b : Ballots P E} (h : Elections q term b) {t : ℕ} {p : P}
    {s : Finset P} (hs : q.IsQuorum s) (hv : ∀ v ∈ s, ∃ l, b.vote v t = some (p, l))
    (hp : b.leader t ≠ some p) : b.leader t = none := by
  cases hl : b.leader t with
  | none => rfl
  | some p' => exact absurd (h.leader_eq hs hv hl ▸ hl) hp

variable [DecidableEq P]

theorem le_update {f : P → ℕ} {v : P} {t : ℕ} (h : f v < t) (w : P) :
    f w ≤ Function.update f v t w := by
  rw [Function.update_apply]
  split
  · next hw => exact hw ▸ h.le
  · rfl

/-- A vote that a new vote in an unused place leaves standing. -/
theorem set₂_some {β : Type*} {f : P → ℕ → Option β} {v w : P} {t u : ℕ} {x y : β}
    (hnew : f v t = none) (h : f w u = some x) : set₂ f v t (some y) w u = some x := by
  rw [set₂_apply, if_neg]
  · exact h
  · rintro ⟨rfl, rfl⟩
    rw [hnew] at h
    cases h

/-- **A step keeps the election invariant.** -/
theorem Elections.step {p : P} {b b' : Ballots P E} (h : Elections q term b)
    (hs : Step q term p b b') : Elections q term b' := by
  cases hs with
  | advance t ht =>
    exact
      { h with
        vote_le := fun hv => (h.vote_le hv).trans (le_update ht _)
        stood_le := fun hl => (h.stood_le hl).trans (le_update ht _) }
  | stand t ht =>
    have hvote : b.vote p t = none := h.vote_eq_none ht
    have hstood : b.stood p t = none := h.stood_eq_none ht
    refine ⟨?_, ?_, ?_, ?_, ?_, ?_⟩
    · intro w u x hw
      simp only [set₂_apply] at hw
      split at hw
      · next hwu => simp [hwu.1, hwu.2]
      · exact (h.vote_le hw).trans (le_update ht _)
    · intro w u l hw
      simp only [set₂_apply] at hw
      split at hw
      · next hwu => simp [hwu.1, hwu.2]
      · exact (h.stood_le hw).trans (le_update ht _)
    · intro w u l hw
      simp only [set₂_apply] at hw
      split at hw
      · next hwu => omega
      · exact h.stood_pos hw
    · intro w u c l hw
      simp only [set₂_apply] at hw
      split at hw
      · next hwu =>
        -- the candidate's vote for itself
        rw [Option.some_inj, Prod.mk.injEq] at hw
        refine ⟨b.log p, ?_, ?_⟩
        · simp [hw.1, hwu.2]
        · exact Or.inr ⟨by rw [hw.2], by rw [hw.2]⟩
      · obtain ⟨l', hl', hup⟩ := h.vote_stood hw
        exact ⟨l', set₂_some hstood hl', hup⟩
    · intro u p' hp'
      obtain ⟨l, hl⟩ := h.leader_stood hp'
      exact ⟨l, set₂_some hstood hl⟩
    · intro u p' hp'
      obtain ⟨s, hs, hv⟩ := h.leader_votes hp'
      refine ⟨s, hs, fun v hvs => ?_⟩
      obtain ⟨l, hl⟩ := hv v hvs
      exact ⟨l, set₂_some hvote hl⟩
  | grant c l hnew hl hup =>
    refine ⟨?_, h.stood_le, h.stood_pos, ?_, h.leader_stood, ?_⟩
    · intro w u x hw
      simp only [set₂_apply] at hw
      split at hw
      · next hwu => simp [hwu.1, hwu.2]
      · exact h.vote_le hw
    · intro w u c' l' hw
      simp only [set₂_apply] at hw
      split at hw
      · next hwu =>
        rw [Option.some_inj, Prod.mk.injEq] at hw
        refine ⟨l, ?_, ?_⟩
        · rw [← hw.1, hwu.2]; exact hl
        · rw [← hw.2]; exact hup
      · exact h.vote_stood hw
    · intro u p' hp'
      obtain ⟨s, hs, hv⟩ := h.leader_votes hp'
      refine ⟨s, hs, fun w hws => ?_⟩
      obtain ⟨l, hl⟩ := hv w hws
      exact ⟨l, set₂_some hnew hl⟩
  | elect s hl hnew hs hv =>
    refine ⟨h.vote_le, h.stood_le, h.stood_pos, h.vote_stood, ?_, ?_⟩
    · intro u p' hp'
      simp only [Function.update_apply] at hp'
      split at hp'
      · next hu =>
        rw [Option.some_inj] at hp'
        exact ⟨b.log p, by rw [← hp', hu]; exact hl⟩
      · exact h.leader_stood hp'
    · intro u p' hp'
      simp only [Function.update_apply] at hp'
      split at hp'
      · next hu =>
        rw [Option.some_inj] at hp'
        exact ⟨s, hs, by rw [← hp', hu]; exact hv⟩
      · exact h.leader_votes hp'
  | append e hp he =>
    exact { h with }
  | accept m l hp hm hl =>
    exact { h with }

/-! ### Chains -/

omit [DecidableEq P] in
theorem Chains.init (hg : ∀ e ∈ g, term e = 0) (P : Type*) :
    Chains (P := P) term g (Ballots.init g) := by
  -- the genesis is all of term zero, so it is coherent with any chains, and ascending
  have hcoh : Coherent term (Ballots.init (P := P) g).chain g := by
    intro i hi
    rw [hg _ (List.getElem_mem hi)]
    exact List.take_prefix _ _
  have hasc : Ascending term g :=
    List.Pairwise.imp_of_mem (fun ha hb _ => by rw [hg _ ha, hg _ hb])
      (List.pairwise_of_forall (R := fun _ _ => True) fun _ _ => trivial)
  refine
    { chain_zero := rfl
      chain_none := fun _ ht => if_neg (by omega)
      leader_log := fun h => by cases h
      chain_stood := fun h => by cases h
      chain_coherent := fun t => ?_
      chain_ascending := fun t => ?_
      chain_le := fun {t e} he => ?_
      chain_genesis := fun h => absurd rfl h
      log_coherent := fun _ => hcoh
      log_ascending := fun _ => hasc
      log_le := fun {_ e} he => (hg e he).le
      log_genesis := fun _ => List.prefix_rfl
      stood_coherent := fun h => by cases h
      stood_lt := fun h => by cases h
      vote_coherent := fun h => by cases h
      vote_ascending := fun h => by cases h }
  -- term zero has the genesis as its chain, and the other terms have none
  · by_cases ht : t = 0
    · subst ht
      exact hcoh
    · show Coherent term _ (if t = 0 then g else [])
      rw [if_neg ht]
      intro i hi
      simp at hi
  · by_cases ht : t = 0
    · subst ht
      exact hasc
    · show Ascending term (if t = 0 then g else [])
      rw [if_neg ht]
      exact List.Pairwise.nil
  · by_cases ht : t = 0
    · subst ht
      exact (hg e he).le
    · have : e ∈ (if t = 0 then g else []) := he
      rw [if_neg ht] at this
      simp at this

/-- Chains only ever get longer. -/
theorem Step.chain_isPrefix {p : P} {b b' : Ballots P E} (hE : Elections q term b)
    (h : Chains term g b) (hs : Step q term p b b') (t : ℕ) : b.chain t <+: b'.chain t := by
  cases hs with
  | elect s hl hnew hs hv =>
    show b.chain t <+: Function.update b.chain (b.current p) (b.log p) t
    rw [Function.update_apply]
    split
    -- nobody has led this term, so its chain was empty
    · next ht =>
      rw [ht, h.chain_none (hE.leader_eq_none hs hv hnew) (hE.stood_pos hl)]
      exact List.nil_prefix
    · exact List.prefix_rfl
  | append e hp he =>
    show b.chain t <+: Function.update b.chain (b.current p) (b.log p ++ [e]) t
    rw [Function.update_apply]
    split
    -- the chain of a leader is its log, to which the entry is appended
    · next ht =>
      rw [ht, h.leader_log hp rfl]
      exact List.prefix_append _ _
    · exact List.prefix_rfl
  | advance => exact List.prefix_rfl
  | stand => exact List.prefix_rfl
  | grant => exact List.prefix_rfl
  | accept => exact List.prefix_rfl

/-! ### What each kind of step leaves of the chains -/

section Kinds

variable {b : Ballots P E} {p : P}

/-- A leader that moves on to a later term no longer speaks for its chain. -/
theorem Chains.leader_log_of_moved (hE : Elections q term b) (h : Chains term g b) {t u : ℕ}
    {p' : P} (ht : b.current p < t) (hp : b.leader u = some p')
    (hu : Function.update b.current p t p' = u) : b.log p' = b.chain u := by
  by_cases hpp : p' = p
  · subst hpp
    rw [Function.update_self] at hu
    obtain ⟨l, hl⟩ := hE.leader_stood hp
    have hle := hE.stood_le hl
    omega
  · rw [Function.update_of_ne hpp] at hu
    exact h.leader_log hp hu

/-- The log that goes with a new vote is the voter's. -/
theorem Chains.vote_log (h : Chains term g b) {t u : ℕ} {v c c' : P} {l : List E}
    (hv : set₂ b.vote p t (some (c', b.log p)) v u = some (c, l)) :
    Coherent term b.chain l ∧ Ascending term l := by
  rw [set₂_apply] at hv
  split at hv
  · rw [Option.some_inj, Prod.mk.injEq] at hv
    rw [← hv.2]
    exact ⟨h.log_coherent p, h.log_ascending p⟩
  · exact ⟨h.vote_coherent hv, h.vote_ascending hv⟩

theorem Chains.advance (hE : Elections q term b) (h : Chains term g b) {t : ℕ}
    (ht : b.current p < t) :
    Chains term g { b with current := Function.update b.current p t } :=
  { h with
    leader_log := h.leader_log_of_moved hE ht
    log_le := fun he => (h.log_le he).trans (le_update ht _) }

theorem Chains.stand (hE : Elections q term b) (h : Chains term g b) {t : ℕ}
    (ht : b.current p < t) : Chains term g { b with
      current := Function.update b.current p t
      vote := set₂ b.vote p t (some (p, b.log p))
      stood := set₂ b.stood p t (some (b.log p)) } := by
  have hstood : b.stood p t = none := hE.stood_eq_none ht
  refine { h with
    leader_log := h.leader_log_of_moved hE ht
    log_le := fun he => (h.log_le he).trans (le_update ht _)
    vote_coherent := fun hv => (h.vote_log hv).1
    vote_ascending := fun hv => (h.vote_log hv).2
    chain_stood := ?_, stood_coherent := ?_, stood_lt := ?_ }
  · intro u p' l hp hl
    -- the term of a leader has been stood in before
    obtain ⟨l', hl'⟩ := hE.leader_stood hp
    have heq := (set₂_some (y := b.log p) hstood hl').symm.trans hl
    exact h.chain_stood hp (hl'.trans heq)
  · intro p' u l hl
    simp only [set₂_apply] at hl
    split at hl
    · rw [Option.some_inj] at hl
      exact hl ▸ h.log_coherent p
    · exact h.stood_coherent hl
  · intro p' u l hl e he
    simp only [set₂_apply] at hl
    split at hl
    · next hpu =>
      rw [Option.some_inj] at hl
      rw [hpu.2]
      exact (h.log_le (hl ▸ he)).trans_lt ht
    · exact h.stood_lt hl e he

theorem Chains.grant (h : Chains term g b) (t : ℕ) (c : P) :
    Chains term g { b with vote := set₂ b.vote p t (some (c, b.log p)) } :=
  { h with
    vote_coherent := fun hv => (h.vote_log hv).1
    vote_ascending := fun hv => (h.vote_log hv).2 }

/-- A voter gets another log, which is in order and goes with the chains. -/
theorem Chains.accept (h : Chains term g b) {l : List E} (acked : P → ℕ → ℕ)
    (hleader : b.leader (b.current p) = some p → l = b.log p) (hcoh : Coherent term b.chain l)
    (hasc : Ascending term l) (hle : ∀ e ∈ l, term e ≤ b.current p) (hg : g <+: l) :
    Chains term g { b with log := Function.update b.log p l, acked := acked } := by
  refine { h with
    leader_log := ?_
    log_coherent := (Function.forall_update_iff b.log fun _ l => Coherent term b.chain l).mpr
      ⟨hcoh, fun v _ => h.log_coherent v⟩
    log_ascending := (Function.forall_update_iff b.log fun _ l => Ascending term l).mpr
      ⟨hasc, fun v _ => h.log_ascending v⟩
    log_le := fun {v e} => (Function.forall_update_iff b.log fun v l =>
      ∀ e ∈ l, term e ≤ b.current v).mpr ⟨hle, fun v _ e he => h.log_le he⟩ v e
    log_genesis := (Function.forall_update_iff b.log fun _ l => g <+: l).mpr
      ⟨hg, fun v _ => h.log_genesis v⟩ }
  intro u p' hp hu
  -- a leader keeps the chain of its term, anybody else is not concerned
  by_cases hpp : p' = p
  · subst hpp
    show Function.update b.log p' l p' = b.chain u
    rw [Function.update_self, hleader (hu ▸ hp)]
    exact h.leader_log hp hu
  · exact (Function.update_of_ne hpp _ _).trans (h.leader_log hp hu)

/-- A voter that has stood in its term leads it, and its log, perhaps with entries of the term at
its end, is the chain of the term. -/
theorem Chains.lead (hE : Elections q term b) (h : Chains term g b) {l l₀ : List E}
    (acked : P → ℕ → ℕ) (hstood : b.stood p (b.current p) = some l₀)
    (hl : ∃ es, l = b.log p ++ es ∧ ∀ e ∈ es, term e = b.current p)
    (hl₀ : ∃ es, l = l₀ ++ es ∧ ∀ e ∈ es, term e = b.current p)
    (hcoh : ∀ {l'}, Coherent term b.chain l' →
      Coherent term (Function.update b.chain (b.current p) l) l')
    (hnew : Coherent term (Function.update b.chain (b.current p) l) l) (hasc : Ascending term l) :
    Chains term g { b with
      log := Function.update b.log p l
      leader := Function.update b.leader (b.current p) (some p)
      chain := Function.update b.chain (b.current p) l
      acked := acked } := by
  have hpos := hE.stood_pos hstood
  have hle : ∀ e ∈ l, term e ≤ b.current p := by
    -- entries are appended under the current term
    obtain ⟨es, rfl, hes⟩ := hl
    intro e he
    rcases List.mem_append.mp he with he | he
    · exact h.log_le he
    · exact (hes e he).le
  have hg : g <+: l := by
    obtain ⟨es, rfl, -⟩ := hl
    exact (h.log_genesis p).trans (List.prefix_append _ _)
  refine
    { chain_zero := (Function.update_of_ne hpos.ne _ _).trans h.chain_zero
      chain_none := ?_, leader_log := ?_, chain_stood := ?_
      chain_coherent := (Function.forall_update_iff b.chain fun _ l => Coherent term _ l).mpr
        ⟨hnew, fun u _ => hcoh (h.chain_coherent u)⟩
      chain_ascending := (Function.forall_update_iff b.chain fun _ l => Ascending term l).mpr
        ⟨hasc, fun u _ => h.chain_ascending u⟩
      chain_le := fun {u e} => (Function.forall_update_iff b.chain fun u l =>
        ∀ e ∈ l, term e ≤ u).mpr ⟨hle, fun u _ e he => h.chain_le he⟩ u e
      chain_genesis := ?_
      log_coherent := (Function.forall_update_iff b.log fun _ l => Coherent term _ l).mpr
        ⟨hnew, fun v _ => hcoh (h.log_coherent v)⟩
      log_ascending := (Function.forall_update_iff b.log fun _ l => Ascending term l).mpr
        ⟨hasc, fun v _ => h.log_ascending v⟩
      log_le := fun {v e} => (Function.forall_update_iff b.log fun v l =>
        ∀ e ∈ l, term e ≤ b.current v).mpr ⟨hle, fun v _ e he => h.log_le he⟩ v e
      log_genesis := (Function.forall_update_iff b.log fun _ l => g <+: l).mpr
        ⟨hg, fun v _ => h.log_genesis v⟩
      stood_coherent := fun hl => hcoh (h.stood_coherent hl)
      stood_lt := h.stood_lt
      vote_coherent := fun hl => hcoh (h.vote_coherent hl)
      vote_ascending := h.vote_ascending }
  · intro u hu hpos
    by_cases heq : u = b.current p
    · simp [heq] at hu
    · simp only [Function.update_of_ne heq] at hu ⊢
      exact h.chain_none hu hpos
  -- only the chain of this term is new, and its leader's log with it
  · intro u p' hp' hu
    by_cases heq : u = b.current p
    · subst heq
      simp only [Function.update_self, Option.some_inj] at hp'
      subst hp'
      simp
    · have hpp : p' ≠ p := fun hpp => heq (hpp ▸ hu.symm)
      simp only [Function.update_of_ne heq, Function.update_of_ne hpp] at hp' ⊢
      exact h.leader_log hp' hu
  -- the log that was stood with is a prefix of the new chain
  · intro u p' l' hp' hl'
    by_cases heq : u = b.current p
    · subst heq
      simp only [Function.update_self, Option.some_inj] at hp'
      subst hp'
      obtain rfl := Option.some_inj.mp (hstood.symm.trans hl')
      simpa using hl₀
    · simp only [Function.update_of_ne heq] at hp' ⊢
      exact h.chain_stood hp' hl'
  · intro u hu
    by_cases heq : u = b.current p
    · subst heq
      simpa using hg
    · simp only [Function.update_of_ne heq] at hu ⊢
      exact h.chain_genesis hu

end Kinds

/-- **A step keeps the chain invariant.** -/
theorem Chains.step {p : P} {b b' : Ballots P E} (hE : Elections q term b)
    (h : Chains term g b) (hs : Step q term p b b') : Chains term g b' := by
  have hgrow := hs.chain_isPrefix hE h
  have hcoh : ∀ {l}, Coherent term b.chain l → Coherent term b'.chain l :=
    fun hl => hl.mono fun e _ => hgrow _
  cases hs with
  | advance t ht => exact h.advance hE ht
  | stand t ht => exact h.stand hE ht
  | grant c l hnew hl hup => exact h.grant _ c
  | elect s hl hnew hs hv =>
    have hlead := h.lead hE (set₂ b.acked p (b.current p) (b.log p).length) hl
      ⟨[], (List.append_nil _).symm, nofun⟩ ⟨[], (List.append_nil _).symm, nofun⟩ hcoh
      (hcoh (h.log_coherent p)) (h.log_ascending p)
    rwa [Function.update_eq_self] at hlead
  | append e hp he =>
    obtain ⟨l₀, hl₀⟩ := hE.leader_stood hp
    obtain ⟨es, hes, hterm⟩ := h.chain_stood hp hl₀
    have hend : ∀ x ∈ es ++ [e], term x = b.current p := by
      intro x hx
      rcases List.mem_append.mp hx with hx | hx
      · exact hterm x hx
      · exact List.mem_singleton.mp hx ▸ he
    have hstood : b.log p ++ [e] = l₀ ++ (es ++ [e]) := by
      rw [h.leader_log hp rfl, hes, List.append_assoc]
    have hlead := h.lead hE (set₂ b.acked p (b.current p) (b.log p ++ [e]).length) hl₀
      ⟨[e], rfl, fun x hx => hend x (List.mem_append_right _ hx)⟩ ⟨es ++ [e], hstood, hend⟩ hcoh
      ((hcoh (h.log_coherent p)).concat (by simp [he]))
      ((h.log_ascending p).concat fun x hx => he ▸ h.log_le hx)
    rwa [← hp, Function.update_eq_self] at hlead
  | accept m l hp hm hl =>
    -- the leader of the term already has every prefix of its chain
    have hleader : b.leader (b.current p) = some p → l = b.log p := by
      intro hlead
      rcases hl with ⟨-, rfl⟩ | ⟨hnot, -⟩
      · rfl
      · exact absurd (h.leader_log hlead rfl ▸ hm) hnot
    rcases hl with ⟨-, rfl⟩ | ⟨hnot, rfl⟩
    · exact h.accept _ hleader (h.log_coherent p) (h.log_ascending p) (fun e he => h.log_le he)
        (h.log_genesis p)
    · exact h.accept _ hleader ((h.chain_coherent _).of_isPrefix hm)
        ((h.chain_ascending _).of_isPrefix hm) (fun e he => h.chain_le (hm.subset he))
        (prefix_of_overwrite (h.chain_genesis hp) hm (h.log_genesis p) hnot)

end Ballots
end SepLab
