import Mathlib.Logic.Relation
import SepLab.Lib.BallotsSound

/-!
# Leader completeness of the abstract replicated log

The acknowledgement invariant survives every step.  The only step with an
argument in it is an election: a voter of the new leader that acknowledged a
prefix either still held it when it voted, and then the election restriction
carries the prefix into the new leader's log, or had it overwritten by a leader
in between, and then that leader's own election closed the prefix off.

## Main results

* `Acks.elect`, `Acks.append`, `Acks.accept`, … — what each kind of step keeps.
* `Acks.step` — a step keeps the acknowledgement invariant.
* `Step.grows` — knowledge is never taken back.
* `Acks.committed_held` — what is committed is in the logs of a quorum.
* `Sound`, `Sound.steps` — the three invariants hold after every run.
-/

namespace SepLab
namespace Ballots

open TermLog

variable {P E : Type*} {q : QuorumSystem P} {term : E → ℕ} {g : List E}

theorem Held.mono {b : Ballots P E} {l l' : List E} {u u' t n : ℕ} (h : b.Held l u t n)
    (hl : l <+: l') (hu : u ≤ u') : b.Held l' u' t n := by
  rcases h with h | ⟨w, htw, hwu, hw⟩
  · exact Or.inl (h.trans hl)
  · exact Or.inr ⟨w, htw, hwu.trans hu, hw⟩

theorem prefix_take_eq {l m : List E} (h : l <+: m) {n : ℕ} (hn : n ≤ l.length) :
    m.take n = l.take n := by
  obtain ⟨t, rfl⟩ := h
  exact List.take_append_of_le_length hn

theorem Acks.init (g : List E) : Acks (P := P) q term (Ballots.init g) where
  acked_le _ _ := Nat.zero_le _
  acked_term h := absurd h (lt_irrefl 0)
  leader_acked h := by cases h
  held h := by
    rw [Nat.le_zero.mp h]
    exact Or.inl List.nil_prefix
  vote_held h := by cases h
  complete h := absurd rfl h

variable [DecidableEq P]

/-! ### What no step takes back -/

theorem Step.current_le {p : P} {b b' : Ballots P E} (hs : Step q term p b b') (v : P) :
    b.current v ≤ b'.current v := by
  cases hs with
  | advance t ht => exact le_update ht _
  | stand t ht => exact le_update ht _
  | _ => exact le_rfl

/-- A voter acknowledges only entries of the term it is in. -/
theorem Step.acked_eq {p : P} {b b' : Ballots P E} (hs : Step q term p b b') {v : P}
    {t : ℕ} (ht : t < b.current v) : b'.acked v t = b.acked v t := by
  have hne : ∀ x : ℕ, set₂ b.acked p (b.current p) x v t = b.acked v t := by
    intro x
    rw [set₂_apply, if_neg]
    rintro ⟨rfl, rfl⟩
    exact lt_irrefl _ ht
  cases hs with
  | elect s hl hnew hs hv => exact hne _
  | append e hp he => exact hne _
  | accept m l hp hm hl => exact hne _
  | _ => rfl

theorem Step.closed {p : P} {b b' : Ballots P E} (hs : Step q term p b b') {t n : ℕ}
    (h : b.Closed q t n) : b'.Closed q t n := by
  obtain ⟨s, hq, hv⟩ := h
  refine ⟨s, hq, fun v hvs => ?_⟩
  obtain ⟨ht, hn⟩ := hv v hvs
  exact ⟨ht.trans_le (hs.current_le v), by rwa [hs.acked_eq ht]⟩

theorem Step.leader_some {p v : P} {b b' : Ballots P E} (hE : Elections q term b)
    (hs : Step q term p b b') {t : ℕ} (hp : b.leader t = some v) : b'.leader t = some v := by
  cases hs with
  | elect s hl hnew hs hv =>
    simp only [Function.update_apply]
    split
    · next ht =>
      rw [ht, hE.leader_eq_none hs hv hnew] at hp
      cases hp
    · exact hp
  | _ => exact hp

/-- A led term's chain grows by entries of that term. -/
theorem Step.chain_append {p : P} {b b' : Ballots P E} (hE : Elections q term b)
    (hC : Chains term g b) (hs : Step q term p b b') {t : ℕ} (ht : b.leader t ≠ none) :
    ∃ es, b'.chain t = b.chain t ++ es ∧ ∀ e ∈ es, term e = t := by
  cases hs with
  | elect s hl hnew hs hv =>
    have hne : t ≠ b.current p := by
      rintro rfl
      exact ht (hE.leader_eq_none hs hv hnew)
    exact ⟨[], by simp [Function.update_of_ne hne], by simp⟩
  | append e hp he =>
    by_cases htp : t = b.current p
    · subst htp
      exact ⟨[e], by simp [hC.leader_log hp rfl], by simpa using he⟩
    · exact ⟨[], by simp [Function.update_of_ne htp], by simp⟩
  | _ => exact ⟨[], by simp, by simp⟩

/-- What a log holds it still holds after a step that leaves the log alone. -/
theorem Step.held {p : P} {b b' : Ballots P E} (hE : Elections q term b)
    (hC : Chains term g b) (hs : Step q term p b b') {l : List E} {u t n : ℕ}
    (hn : n ≤ (b.chain t).length) (h : b.Held l u t n) : b'.Held l u t n := by
  unfold Held
  rw [prefix_take_eq (hs.chain_isPrefix hE hC t) hn]
  rcases h with h | ⟨w, htw, hwu, hw, hnot⟩
  · exact Or.inl h
  · obtain ⟨p, hp⟩ := Option.ne_none_iff_exists'.mp hw
    obtain ⟨es, hes, hterm⟩ := hs.chain_append hE hC hw
    refine Or.inr ⟨w, htw, hwu, by simp [hs.leader_some hE hp], fun hpre => hnot ?_⟩
    rw [hes] at hpre
    -- what was added later is of term `w`, too late for an entry of term at most `t`
    exact prefix_of_prefix_append term hpre
      (fun e he => (hC.chain_le (List.mem_of_mem_take he)).trans_lt htw)
      fun e he => (hterm e he).ge

/-! ### Acknowledgements -/

omit [DecidableEq P] in
/-- A term later than `0` from which a candidate has its last entry was led. -/
theorem Chains.leader_lastTerm {b : Ballots P E} (hC : Chains term g b) {l : List E} {p : P}
    {u : ℕ} (hl : b.stood p u = some l) (ht : 0 < lastTerm term l) :
    b.leader (lastTerm term l) ≠ none := by
  have hne : l ≠ [] := by
    rintro rfl
    simp [lastTerm] at ht
  intro hnone
  have hpre := (hC.stood_coherent hl).prefix_lastTerm hne
  rw [hC.chain_none hnone ht, List.prefix_nil] at hpre
  exact hne hpre

omit [DecidableEq P] in
/-- **The election step of leader completeness.**  What a term before `u` may
still commit is in the log of a candidate with a quorum of the votes of `u`. -/
theorem Acks.complete_elect {b : Ballots P E} (hE : Elections q term b) (hC : Chains term g b)
    (h : Acks q term b) {p : P} {s : Finset P} {l : List E} {u t n : ℕ}
    (hl : b.stood p u = some l) (hq : q.IsQuorum s)
    (hv : ∀ v ∈ s, ∃ l', b.vote v u = some (p, l')) (htu : t < u) (hn : 0 < n)
    (hlen : n ≤ (b.chain t).length) (hlast : lastTerm term ((b.chain t).take n) = t) :
    (b.chain t).take n <+: l ∨ b.Closed q t n := by
  by_cases hclosed : b.Closed q t n
  · exact Or.inr hclosed
  -- the leaders in between hold the prefix
  have hbetween : ∀ w, t < w → b.leader w ≠ none → (b.chain t).take n <+: b.chain w := by
    intro w htw hw
    exact (h.complete hw htw hn hlen hlast).resolve_right hclosed
  have hack : ∃ v ∈ s, n ≤ b.acked v t := by
    by_contra hnot
    push Not at hnot
    refine hclosed ⟨s, hq, fun v hvs => ⟨?_, hnot v hvs⟩⟩
    obtain ⟨l', hl'⟩ := hv v hvs
    exact htu.trans_le (hE.vote_le hl')
  obtain ⟨v, hvs, hnv⟩ := hack
  obtain ⟨l', hl'⟩ := hv v hvs
  obtain ⟨l₀, hl₀, hup⟩ := hE.vote_stood hl'
  rw [hl, Option.some_inj] at hl₀
  rcases h.vote_held hl' htu hnv with hpre | ⟨w, htw, hwu, hw, hnot⟩
  · refine Or.inl ?_
    have hne : (b.chain t).take n ≠ [] := by
      intro hnil
      have := congrArg List.length hnil
      rw [List.length_take, List.length_nil] at this
      omega
    refine (hC.stood_coherent hl).prefix_of_upToDate (hC.vote_coherent hl')
      (hC.vote_ascending hl') hpre hne hlast
      (fun e he => hC.chain_le (List.mem_of_mem_take he)) (hl₀ ▸ hup) ?_
    intro htl
    exact hbetween _ htl (hC.leader_lastTerm hl (by omega))
  · exact absurd (hbetween w htw hw) hnot

/-! ### What each kind of step leaves of the acknowledgements -/

section Kinds

variable {p : P} {b b' : Ballots P E}

theorem Acks.held_step (hE : Elections q term b) (hC : Chains term g b) (h : Acks q term b)
    (hs : Step q term p b b') {l : List E} {u t n : ℕ} {v : P} (hn : n ≤ b.acked v t)
    (hl : b.Held l u t n) : b'.Held l u t n :=
  hs.held hE hC (hn.trans (h.acked_le _ _)) hl

/-- The votes that were there already. -/
theorem Acks.vote_held_step (hE : Elections q term b) (hC : Chains term g b) (h : Acks q term b)
    (hs : Step q term p b b') {v c : P} {l : List E} {u t n : ℕ} (hv : b.vote v u = some (c, l))
    (htu : t < u) (hn : n ≤ b'.acked v t) : b'.Held l u t n := by
  rw [hs.acked_eq (htu.trans_le (hE.vote_le hv))] at hn
  exact h.held_step hE hC hs hn (h.vote_held hv htu hn)

/-- The leaders that were there already, over the entries that were there already. -/
theorem Acks.complete_step (hE : Elections q term b) (hC : Chains term g b) (h : Acks q term b)
    (hs : Step q term p b b') {u t n : ℕ} (hu : b.leader u ≠ none) (htu : t < u) (hn : 0 < n)
    (hlen : n ≤ (b.chain t).length) (hlast : lastTerm term ((b'.chain t).take n) = t) :
    (b'.chain t).take n <+: b'.chain u ∨ b'.Closed q t n := by
  have hchain := hs.chain_isPrefix hE hC
  rw [prefix_take_eq (hchain t) hlen] at hlast ⊢
  rcases h.complete hu htu hn hlen hlast with hpre | hcl
  · exact Or.inl (hpre.trans (hchain u))
  · exact Or.inr (hs.closed hcl)

/-- A voter acknowledges entries of its own term, up to the end of the chain. -/
theorem Acks.acked_set (h : Acks q term b) {chain : ℕ → List E} {x : ℕ}
    (hchain : ∀ t, b.chain t <+: chain t) (hx : x ≤ (chain (b.current p)).length) (v : P) (t : ℕ) :
    set₂ b.acked p (b.current p) x v t ≤ (chain t).length ∧
      (0 < set₂ b.acked p (b.current p) x v t → t ≤ b.current v) := by
  rw [set₂_apply]
  split
  · next hvt =>
    rw [hvt.1, hvt.2]
    exact ⟨hx, fun _ => le_rfl⟩
  · exact ⟨(h.acked_le v t).trans (hchain t).length_le, h.acked_term⟩

/-- A leader has acknowledged its whole chain. -/
theorem Acks.leader_acked_set (h : Acks q term b) {l : List E} {t : ℕ} {v : P}
    (hv : Function.update b.leader (b.current p) (some p) t = some v) :
    set₂ b.acked p (b.current p) l.length v t =
      (Function.update b.chain (b.current p) l t).length := by
  rw [set₂_apply]
  by_cases ht : t = b.current p
  · subst ht
    rw [Function.update_self, Option.some_inj] at hv
    rw [if_pos ⟨hv.symm, rfl⟩, Function.update_self]
  · rw [Function.update_of_ne ht] at hv ⊢
    rw [if_neg fun hc => ht hc.2]
    exact h.leader_acked hv

theorem Acks.stand (hE : Elections q term b) (hC : Chains term g b) (h : Acks q term b) {t : ℕ}
    (ht : b.current p < t) : Acks q term { b with
      current := Function.update b.current p t
      vote := set₂ b.vote p t (some (p, b.log p))
      stood := set₂ b.stood p t (some (b.log p)) } := by
  have hs : Step q term p b _ := .stand t ht
  refine { h with
    acked_term := ?_, held := ?_, vote_held := ?_, complete := h.complete_step hE hC hs }
  · exact fun hpos => (h.acked_term hpos).trans (le_update ht _)
  · intro w t' n hn
    exact (h.held_step hE hC hs hn (h.held hn)).mono List.prefix_rfl (le_update ht _)
  · intro v u c l t' n hv htu hn
    -- a candidate votes for itself with its own log, which holds what it has acknowledged
    simp only [set₂_apply] at hv
    split at hv
    · next hvu =>
      rw [Option.some_inj, Prod.mk.injEq] at hv
      rw [← hv.2, hvu.2]
      rw [hvu.1] at hn
      exact (h.held_step hE hC hs hn (h.held hn)).mono List.prefix_rfl ht.le
    · exact h.vote_held_step hE hC hs hv htu hn

theorem Acks.grant (hE : Elections q term b) (hC : Chains term g b) (h : Acks q term b)
    {c : P} {l : List E} (hnew : b.vote p (b.current p) = none)
    (hl : b.stood c (b.current p) = some l) (hup : UpToDate term l (b.log p)) :
    Acks q term { b with vote := set₂ b.vote p (b.current p) (some (c, b.log p)) } := by
  have hs : Step q term p b _ := .grant c l hnew hl hup
  refine { h with
    held := fun hn => h.held_step hE hC hs hn (h.held hn)
    vote_held := ?_
    complete := h.complete_step hE hC hs }
  intro w u c' l' t' n hw htu hn
  simp only [set₂_apply] at hw
  split at hw
  · next hwu =>
    rw [Option.some_inj, Prod.mk.injEq] at hw
    rw [← hw.2, hwu.2]
    rw [hwu.1] at hn
    exact h.held_step hE hC hs hn (h.held hn)
  · exact h.vote_held_step hE hC hs hw htu hn

theorem Acks.elect (hE : Elections q term b) (hC : Chains term g b) (h : Acks q term b)
    {s : Finset P} (hl : b.stood p (b.current p) = some (b.log p))
    (hnew : b.leader (b.current p) ≠ some p) (hq : q.IsQuorum s)
    (hv : ∀ v ∈ s, ∃ l, b.vote v (b.current p) = some (p, l)) : Acks q term { b with
      leader := Function.update b.leader (b.current p) (some p)
      chain := Function.update b.chain (b.current p) (b.log p)
      acked := set₂ b.acked p (b.current p) (b.log p).length } := by
  have hs : Step q term p b _ := .elect s hl hnew hq hv
  have hacked := h.acked_set (p := p) (x := (b.log p).length) (hs.chain_isPrefix hE hC) (by simp)
  refine
    { acked_le := fun v t => (hacked v t).1, acked_term := fun {v t} => (hacked v t).2
      leader_acked := h.leader_acked_set, held := ?_
      vote_held := h.vote_held_step hE hC hs, complete := ?_ }
  · intro v t n hn
    simp only [set₂_apply] at hn
    split at hn
    · next hvt =>
      refine Or.inl ?_
      rw [hvt.1, hvt.2]
      simpa using List.take_prefix n (b.log p)
    · exact h.held_step hE hC hs hn (h.held hn)
  · intro u t n hu htu hn hlen hlast
    by_cases ht : t = b.current p
    · -- the new chain has no entry of its own term yet
      exfalso
      simp only [ht, Function.update_self] at hlast hlen
      have hne : (b.log p).take n ≠ [] := by
        intro hnil
        have := congrArg List.length hnil
        rw [List.length_take, List.length_nil] at this
        omega
      rw [lastTerm_eq_getLast hne] at hlast
      have := hC.stood_lt hl _ (List.mem_of_mem_take (List.getLast_mem hne))
      omega
    · simp only [Function.update_of_ne ht] at hlen
      by_cases hup : u = b.current p
      · -- the new leader
        subst hup
        have hlast' : lastTerm term ((b.chain t).take n) = t := by
          simpa [Function.update_of_ne ht] using hlast
        rcases h.complete_elect hE hC hl hq hv htu hn hlen hlast' with hpre | hcl
        · exact Or.inl (by simpa [Function.update_of_ne ht] using hpre)
        · exact Or.inr (hs.closed hcl)
      · refine h.complete_step hE hC hs ?_ htu hn hlen hlast
        simpa [Function.update_of_ne hup] using hu

theorem Acks.append (hE : Elections q term b) (hC : Chains term g b) (h : Acks q term b) {e : E}
    (hp : b.leader (b.current p) = some p) (he : term e = b.current p) : Acks q term { b with
      log := Function.update b.log p (b.log p ++ [e])
      chain := Function.update b.chain (b.current p) (b.log p ++ [e])
      acked := set₂ b.acked p (b.current p) (b.log p ++ [e]).length } := by
  have hs : Step q term p b _ := .append e hp he
  have hacked := h.acked_set (p := p) (x := (b.log p ++ [e]).length)
    (hs.chain_isPrefix hE hC) (by simp)
  refine
    { acked_le := fun v t => (hacked v t).1, acked_term := fun {v t} => (hacked v t).2
      leader_acked := fun {t p'} hp' => h.leader_acked_set (l := b.log p ++ [e]) ?_, held := ?_
      vote_held := h.vote_held_step hE hC hs, complete := ?_ }
  · rwa [← hp, Function.update_eq_self]
  · intro v t n hn
    simp only [set₂_apply] at hn
    split at hn
    · next hvt =>
      refine Or.inl ?_
      rw [hvt.1, hvt.2]
      simpa using List.take_prefix n (b.log p ++ [e])
    · refine (h.held_step hE hC hs hn (h.held hn)).mono ?_ le_rfl
      by_cases hvp : v = p
      · simp [hvp]
      · simp [Function.update_of_ne hvp]
  · intro u t n hu htu hn hlen hlast
    by_cases hlen' : n ≤ (b.chain t).length
    · exact h.complete_step hE hC hs hu htu hn hlen' hlast
    · -- the new entry: the voters of the later leader have left the term
      have ht : t = b.current p := by
        by_contra hne
        simp only [Function.update_of_ne hne] at hlen
        exact hlen' hlen
      obtain ⟨p', hp'⟩ := Option.ne_none_iff_exists'.mp hu
      obtain ⟨s, hq, hv⟩ := hE.leader_votes hp'
      refine Or.inr ⟨s, hq, fun v hvs => ?_⟩
      obtain ⟨l, hl⟩ := hv v hvs
      have htv : t < b.current v := htu.trans_le (hE.vote_le hl)
      refine ⟨htv, ?_⟩
      rw [hs.acked_eq htv]
      have := h.acked_le v t
      omega

omit [DecidableEq P] in
/-- The log of a voter that takes over a prefix of the chain keeps what it holds, unless the
present leader lacks it. -/
theorem Acks.held_accept (h : Acks q term b) {m l : List E} (hp : b.leader (b.current p) ≠ none)
    (hm : m <+: b.chain (b.current p)) (hl : m <+: b.log p ∧ l = b.log p ∨ ¬ m <+: b.log p ∧ l = m)
    {t n : ℕ} (hn : n ≤ b.acked p t) : b.Held l (b.current p) t n := by
  rcases h.held hn with hpre | hlost
  · rcases hl with ⟨-, rfl⟩ | ⟨hnot, rfl⟩
    · exact Or.inl hpre
    · by_cases hch : (b.chain t).take n <+: b.chain (b.current p)
      · exact Or.inl (prefix_of_overwrite hch hm hpre hnot)
      · have htv : t ≤ b.current p := by
          rcases Nat.eq_zero_or_pos n with rfl | hpos
          · exact absurd (by simp) hch
          · exact h.acked_term (hpos.trans_le hn)
        refine Or.inr ⟨b.current p, htv.lt_of_ne ?_, le_rfl, hp, hch⟩
        rintro rfl
        exact hch (List.take_prefix _ _)
  · exact Or.inr hlost

theorem Acks.accept (hE : Elections q term b) (hC : Chains term g b) (h : Acks q term b)
    {m l : List E} (hp : b.leader (b.current p) ≠ none) (hm : m <+: b.chain (b.current p))
    (hl : m <+: b.log p ∧ l = b.log p ∨ ¬ m <+: b.log p ∧ l = m) : Acks q term { b with
      log := Function.update b.log p l
      acked := set₂ b.acked p (b.current p) (max (b.acked p (b.current p)) m.length) } := by
  have hs : Step q term p b _ := .accept m l hp hm hl
  have hml : m <+: l := by
    rcases hl with ⟨hpre, rfl⟩ | ⟨-, rfl⟩
    · exact hpre
    · exact List.prefix_rfl
  have hacked := h.acked_set (p := p) (fun t => List.prefix_refl (b.chain t))
    (max_le (h.acked_le p _) hm.length_le)
  refine
    { acked_le := fun v t => (hacked v t).1, acked_term := fun {v t} => (hacked v t).2
      leader_acked := ?_, held := ?_
      vote_held := h.vote_held_step hE hC hs, complete := h.complete_step hE hC hs }
  · intro t p' hp'
    simp only [set₂_apply]
    split
    · next hpt =>
      have hfull := h.leader_acked hp'
      rw [hpt.1, hpt.2] at hfull
      rw [hpt.2, hfull]
      exact max_eq_left hm.length_le
    · exact h.leader_acked hp'
  · intro w t n hn
    by_cases hw : w = p
    · subst hw
      simp only [Function.update_self]
      simp only [set₂_apply] at hn
      split at hn
      · next hwt =>
        rw [hwt.2] at *
        rcases le_max_iff.mp hn with hn | hn
        · exact h.held_accept hp hm hl hn
        · -- what it just acknowledged
          have htake : (b.chain (b.current w)).take n = m.take n := prefix_take_eq hm hn
          refine Or.inl ?_
          show (b.chain (b.current w)).take n <+: l
          rw [htake]
          exact (List.take_prefix n m).trans hml
      · exact h.held_accept hp hm hl hn
    · simp only [set₂_apply, hw, false_and, if_false] at hn
      simp only [Function.update_of_ne hw]
      exact h.held hn

end Kinds

/-- **A step keeps the acknowledgement invariant.** -/
theorem Acks.step {p : P} {b b' : Ballots P E} (hE : Elections q term b)
    (hC : Chains term g b) (h : Acks q term b) (hs : Step q term p b b') : Acks q term b' := by
  have hs' := hs
  cases hs with
  | advance t ht =>
    refine { h with acked_term := ?_, held := ?_, complete := h.complete_step hE hC hs' }
    · exact fun hpos => (h.acked_term hpos).trans (le_update ht _)
    · intro w t' n hn
      exact (h.held_step hE hC hs' hn (h.held hn)).mono List.prefix_rfl (le_update ht _)
  | stand t ht => exact h.stand hE hC ht
  | grant c l hnew hl hup => exact h.grant hE hC hnew hl hup
  | elect s hl hnew hq hv => exact h.elect hE hC hl hnew hq hv
  | append e hp he => exact h.append hE hC hp he
  | accept m l hp hm hl => exact h.accept hE hC hp hm hl

/-! ### Runs -/

/-- The three invariants together. -/
structure Sound (q : QuorumSystem P) (term : E → ℕ) (g : List E) (b : Ballots P E) : Prop where
  elections : Elections q term b
  chains : Chains term g b
  acks : Acks q term b

omit [DecidableEq P] in
theorem Sound.init (hg : ∀ e ∈ g, term e = 0) : Sound (P := P) q term g (Ballots.init g) :=
  ⟨.init g, .init hg P, .init g⟩

theorem Sound.step {p : P} {b b' : Ballots P E} (h : Sound q term g b) (hs : Step q term p b b') :
    Sound q term g b' :=
  ⟨h.elections.step hs, h.chains.step h.elections hs, h.acks.step h.elections h.chains hs⟩

/-- **The invariants hold after every run of the protocol.** -/
theorem Sound.steps {b b' : Ballots P E} (h : Sound q term g b) (hs : Steps q term b b') :
    Sound q term g b' := by
  induction hs with
  | refl => exact h
  | tail _ hs ih => exact ih.step hs.choose_spec

/-- What is known in a state and stays known. -/
structure Grows (b b' : Ballots P E) : Prop where
  current_le : ∀ v, b.current v ≤ b'.current v
  vote : ∀ {v t x}, b.vote v t = some x → b'.vote v t = some x
  stood : ∀ {p t l}, b.stood p t = some l → b'.stood p t = some l
  leader : ∀ {t p}, b.leader t = some p → b'.leader t = some p
  chain : ∀ t, b.chain t <+: b'.chain t
  acked : ∀ v t, b.acked v t ≤ b'.acked v t

/-- **Knowledge is never taken back.** -/
theorem Step.grows {p : P} {b b' : Ballots P E} (h : Sound q term g b) (hs : Step q term p b b') :
    Grows b b' where
  current_le := hs.current_le
  vote := by
    intro w u x hw
    cases hs with
    | stand t ht => exact set₂_some (h.elections.vote_eq_none ht) hw
    | grant c l hnew hl hup => exact set₂_some hnew hw
    | _ => exact hw
  stood := by
    intro p u l hl
    cases hs with
    | stand t ht => exact set₂_some (h.elections.stood_eq_none ht) hl
    | _ => exact hl
  leader hp := hs.leader_some h.elections hp
  chain := hs.chain_isPrefix h.elections h.chains
  acked := by
    intro v t
    cases hs with
    -- nobody has led this term before, so its chain was empty and nothing was acknowledged
    | elect s hl hnew hq hv =>
      simp only [set₂_apply]
      split
      · next hvt =>
        have hnone := h.elections.leader_eq_none hq hv hnew
        have := h.acks.acked_le v t
        rw [hvt.2, h.chains.chain_none hnone (h.elections.stood_pos hl), List.length_nil] at this
        rw [hvt.2]
        omega
      · exact le_rfl
    -- the leader acknowledges its own log, which has grown
    | append e hp he =>
      simp only [set₂_apply]
      split
      · next hvt =>
        have := h.acks.acked_le v t
        rw [hvt.2, ← h.chains.leader_log hp rfl] at this
        rw [hvt.2, List.length_append]
        omega
      · exact le_rfl
    -- an acknowledgement never goes back
    | accept m l hp hm hl =>
      simp only [set₂_apply]
      split
      · next hvt => rw [hvt.1, hvt.2]; exact le_max_left _ _
      · exact le_rfl
    | _ => exact le_rfl

omit [DecidableEq P] in
theorem Grows.refl (b : Ballots P E) : Grows b b :=
  ⟨fun _ => le_rfl, id, id, id, fun _ => List.prefix_rfl, fun _ _ => le_rfl⟩

omit [DecidableEq P] in
theorem Grows.trans {b b' b'' : Ballots P E} (h : Grows b b') (h' : Grows b' b'') :
    Grows b b'' where
  current_le v := (h.current_le v).trans (h'.current_le v)
  vote hv := h'.vote (h.vote hv)
  stood hs := h'.stood (h.stood hs)
  leader hl := h'.leader (h.leader hl)
  chain t := (h.chain t).trans (h'.chain t)
  acked v t := (h.acked v t).trans (h'.acked v t)

/-- **A run takes no knowledge back.** -/
theorem Steps.grows {b b' : Ballots P E} (h : Sound q term g b) (hs : Steps q term b b') :
    Grows b b' := by
  induction hs with
  | refl => exact .refl b
  | tail hs hstep ih =>
    obtain ⟨p, hstep⟩ := hstep
    exact ih.trans (hstep.grows (h.steps hs))

omit [DecidableEq P] in
/-- What is committed stays committed. -/
theorem Committed.grows {b b' : Ballots P E} {t n : ℕ} (hc : Committed q term b t n)
    (h : Grows b b') : Committed q term b' t n := by
  obtain ⟨hn, hlen, hlast, s, hs, hack⟩ := hc
  refine ⟨hn, hlen.trans (h.chain t).length_le, ?_, s, hs,
    fun v hv => (hack v hv).trans (h.acked v t)⟩
  rw [prefix_take_eq (h.chain t) hlen]
  exact hlast

omit [DecidableEq P] in
/-- **What is committed is in the logs of a quorum.**  A voter that acknowledged it has lost
it to no later leader. -/
theorem Acks.committed_held {b : Ballots P E} (h : Acks q term b) {t n : ℕ}
    (hc : Committed q term b t n) :
    ∃ s, q.IsQuorum s ∧ ∀ v ∈ s, (b.chain t).take n <+: b.log v := by
  have ⟨_, _, _, s, hs, hack⟩ := hc
  refine ⟨s, hs, fun v hv => ?_⟩
  rcases h.held (hack v hv) with hpre | ⟨w, htw, -, hw, hnot⟩
  · exact hpre
  · exact absurd (h.committed_isPrefix hc hw htw) hnot

/-! ### Steps on behalf of one voter -/

/-- A run in which only voter `p` acts: the others keep their terms, logs and
votes and win no election. -/
structure Moves (q : QuorumSystem P) (term : E → ℕ) (p : P) (b b' : Ballots P E) : Prop where
  steps : Steps q term b b'
  grows : Grows b b'
  current_eq : ∀ {v}, v ≠ p → b'.current v = b.current v
  log_eq : ∀ {v}, v ≠ p → b'.log v = b.log v
  vote_eq : ∀ {v}, v ≠ p → b'.vote v = b.vote v
  leader_eq : ∀ {v t}, v ≠ p → b'.leader t = some v → b.leader t = some v

theorem Moves.refl (p : P) (b : Ballots P E) : Moves q term p b b :=
  ⟨.refl, .refl b, fun _ => rfl, fun _ => rfl, fun _ => rfl, fun _ => id⟩

theorem Moves.trans {p : P} {b b' b'' : Ballots P E} (h : Moves q term p b b')
    (h' : Moves q term p b' b'') : Moves q term p b b'' where
  steps := Relation.ReflTransGen.trans h.steps h'.steps
  grows := h.grows.trans h'.grows
  current_eq hv := (h'.current_eq hv).trans (h.current_eq hv)
  log_eq hv := (h'.log_eq hv).trans (h.log_eq hv)
  vote_eq hv := (h'.vote_eq hv).trans (h.vote_eq hv)
  leader_eq hv hl := h.leader_eq hv (h'.leader_eq hv hl)

/-- A step changes the state of the voter that takes it only. -/
theorem Step.moves {p : P} {b b' : Ballots P E} (h : Sound q term g b) (hs : Step q term p b b') :
    Moves q term p b b' := by
  have hsteps : Steps q term b b' := Relation.ReflTransGen.single ⟨p, hs⟩
  have hgrows := hs.grows h
  -- votes are cast by the peer that takes the step
  have hvote : ∀ {v : P} {t : ℕ} {x : Option (P × List E)}, v ≠ p →
      set₂ b.vote p t x v = b.vote v := by
    intro v t x hv
    funext u
    rw [set₂_apply, if_neg fun hc => hv hc.1]
  cases hs with
  | advance t ht =>
    exact ⟨hsteps, hgrows, fun hv => Function.update_of_ne hv _ _, fun _ => rfl, fun _ => rfl,
      fun _ => id⟩
  | stand t ht =>
    exact ⟨hsteps, hgrows, fun hv => Function.update_of_ne hv _ _, fun _ => rfl, hvote,
      fun _ => id⟩
  | grant c l hnew hl hup =>
    exact ⟨hsteps, hgrows, fun _ => rfl, fun _ => rfl, hvote, fun _ => id⟩
  -- another leader of the term would have been elected before
  | elect s hl hnew hq hv =>
    refine ⟨hsteps, hgrows, fun _ => rfl, fun _ => rfl, fun _ => rfl, ?_⟩
    intro v t hv hl
    simp only [Function.update_apply] at hl
    split at hl
    · rw [Option.some_inj] at hl
      exact absurd hl.symm hv
    · exact hl
  | append e hp he =>
    exact ⟨hsteps, hgrows, fun _ => rfl, fun hv => Function.update_of_ne hv _ _, fun _ => rfl,
      fun _ => id⟩
  | accept m l hp hm hl =>
    exact ⟨hsteps, hgrows, fun _ => rfl, fun hv => Function.update_of_ne hv _ _, fun _ => rfl,
      fun _ => id⟩

theorem Moves.sound {p : P} {b b' : Ballots P E} (h : Moves q term p b b')
    (hb : Sound q term g b) : Sound q term g b' := hb.steps h.steps

end Ballots
end SepLab
