import SepLab.Lib.Listed

/-!
# Items in a store and with their holders

A store of items, each of which can be taken by one holder at a time: what is in the store is
there once, and with nobody, and what is with a holder is with nobody else.

## Main definitions

* `Custody store held` — every item is in the store once, or with one holder.

## Main results

* `Custody.take`, `Custody.put` — an item taken from the end of the store, or put there.
* `Custody.receive`, `Custody.lose` — an item that is new to the store, and one that is gone.
-/

namespace SepLab

variable {ι C : Type*} {store rest : List C} {held : ι → Option C} {i : ι} {c : C}

/-- Every item is in the store once, or with one holder. -/
structure Custody (store : List C) (held : ι → Option C) : Prop where
  nodup : store.Nodup
  apart : ∀ i c, held i = some c → c ∉ store
  single : ∀ i j c, held i = some c → held j = some c → i = j

namespace Custody

theorem init (hnodup : store.Nodup) (hnone : ∀ i, held i = none) : Custody store held where
  nodup := hnodup
  apart i c hi := by
    rw [hnone] at hi
    cases hi
  single i j c hi := by
    rw [hnone] at hi
    cases hi

variable [DecidableEq ι]

/-- What is held after one holder has changed its item. -/
theorem of_update {x : Option C} {j : ι} (h : Function.update held i x j = some c) :
    j = i ∧ x = some c ∨ j ≠ i ∧ held j = some c := by
  by_cases hj : j = i
  · subst hj
    rw [Function.update_self] at h
    exact Or.inl ⟨rfl, h⟩
  · rw [Function.update_of_ne hj] at h
    exact Or.inr ⟨hj, h⟩

/-- An item that nobody has comes to a holder. -/
theorem receive (h : Custody store held) (hstore : c ∉ store) (hheld : ∀ j, held j ≠ some c) :
    Custody store (Function.update held i (some c)) where
  nodup := h.nodup
  apart j d hj := by
    rcases of_update hj with ⟨-, heq⟩ | ⟨-, hold⟩
    · exact Option.some_inj.mp heq ▸ hstore
    · exact h.apart j d hold
  single j k d hj hk := by
    rcases of_update hj with ⟨rfl, heq⟩ | ⟨-, hold⟩
    · rcases of_update hk with ⟨rfl, -⟩ | ⟨-, hold'⟩
      · rfl
      · exact absurd (hold'.trans heq.symm) (hheld k)
    · rcases of_update hk with ⟨rfl, heq'⟩ | ⟨-, hold'⟩
      · exact absurd (hold.trans heq'.symm) (hheld j)
      · exact h.single j k d hold hold'

/-- A holder has its item no more. -/
theorem lose (h : Custody store held) : Custody store (Function.update held i none) where
  nodup := h.nodup
  apart j d hj := by
    rcases of_update hj with ⟨-, heq⟩ | ⟨-, hold⟩
    · cases heq
    · exact h.apart j d hold
  single j k d hj hk := by
    rcases of_update hj with ⟨-, heq⟩ | ⟨-, hold⟩
    · cases heq
    · rcases of_update hk with ⟨-, heq'⟩ | ⟨-, hold'⟩
      · cases heq'
      · exact h.single j k d hold hold'

omit [DecidableEq ι] in
/-- Only the items of the rest are left in the store. -/
theorem dropLast (h : Custody (rest ++ [c]) held) : Custody rest held where
  nodup := h.nodup.sublist (List.sublist_append_left rest [c])
  apart i d hi hmem := h.apart i d hi (List.mem_append_left _ hmem)
  single := h.single

/-- **The last item of the store is taken.** -/
theorem take (h : Custody (rest ++ [c]) held) : Custody rest (Function.update held i (some c)) := by
  refine h.dropLast.receive (fun hmem => ?_) fun j hj => ?_
  · exact List.disjoint_of_nodup_append h.nodup hmem List.mem_cons_self
  · exact h.apart j c hj (List.mem_append_right _ List.mem_cons_self)

/-- **An item is put back**, by the one who has it. -/
theorem put (h : Custody store held) (hi : held i = some c) :
    Custody (store ++ [c]) (Function.update held i none) where
  nodup := nodup_append_singleton h.nodup (h.apart i c hi)
  apart j d hj hmem := by
    rcases of_update hj with ⟨-, heq⟩ | ⟨hne, hold⟩
    · cases heq
    · rcases List.mem_append.mp hmem with hmem | hmem
      · exact h.apart j d hold hmem
      · rw [List.mem_singleton.mp hmem] at hold
        exact hne (h.single j i c hold hi)
  single := (h.lose (i := i)).single

end Custody
end SepLab
