import Mathlib.Data.Fintype.Card

/-!
# Quorum systems

The sets of voters whose agreement decides a question, any two of which share a
member.  Strict majorities of a finite set of voters are the usual instance.
-/

namespace SepLab

/-- The deciding sets of voters; any two meet. -/
structure QuorumSystem (P : Type*) where
  /-- The set is large enough to decide. -/
  IsQuorum : Finset P → Prop
  /-- Two deciding sets share a member. -/
  inter : ∀ {a b : Finset P}, IsQuorum a → IsQuorum b → ∃ v, v ∈ a ∧ v ∈ b

namespace QuorumSystem

variable {P : Type*} (q : QuorumSystem P)

/-- No quorum has `p` throughout if another quorum lacks it throughout. -/
theorem not_forall_of_forall_not {p : P → Prop} {a b : Finset P} (ha : q.IsQuorum a)
    (hb : q.IsQuorum b) (hp : ∀ v ∈ a, p v) (hn : ∀ v ∈ b, ¬ p v) : False := by
  obtain ⟨v, hva, hvb⟩ := q.inter ha hb
  exact hn v hvb (hp v hva)

/-- The strict majorities of a finite set of voters. -/
def majority (P : Type*) [Fintype P] : QuorumSystem P where
  IsQuorum s := Fintype.card P / 2 + 1 ≤ s.card
  inter := by
    classical
    intro a b ha hb
    have hlt : (Finset.univ : Finset P).card < a.card + b.card := by
      rw [Finset.card_univ]
      omega
    obtain ⟨v, hv⟩ := Finset.inter_nonempty_of_card_lt_card_add_card
      (Finset.subset_univ a) (Finset.subset_univ b) hlt
    exact ⟨v, Finset.mem_inter.mp hv⟩

end QuorumSystem
end SepLab
