import Mathlib.Data.Fintype.Card
import Mathlib.Data.List.Chain
import Mathlib.Data.List.Nodup
import Mathlib.Data.Set.Finite.Basic
import Mathlib.Logic.Relation
import Mathlib.Order.WellFounded

/-!
# Waiting for locks

Parties that hold locks and want more.  Each lock has one holder at most, and a party waits
for the holder of a lock that it wants.  A deadlock is a cycle of waiting parties; behind it
there is a cycle of locks, each wanted by the holder of the one before, so that parties that
want only locks above those they hold never deadlock.

## Main definitions

* `Waits holder wants` — who waits for whom.
* `Ahead holder wants` — a lock is wanted by the holder of another.
* `SimpleCycle r` — a cycle without repetitions.

## Main results

* `ahead_cycle_of_waits_cycle` — a cycle of parties gives a cycle of locks.
* `not_waits_cycle_of_lt` — parties that want what is above do not deadlock.
* `exists_not_waits` — without a deadlock somebody waits for nobody.
* `simpleCycle_of_transGen`, `transGen_of_cycle` — cycles and simple cycles.
-/

namespace SepLab

open Relation

variable {ι L : Type*}

/-- Party `i` wants a lock that the other party `j` holds. -/
def Waits (holder : L → Option ι) (wants : ι → L → Prop) (i j : ι) : Prop :=
  ∃ x, wants i x ∧ holder x = some j ∧ i ≠ j

/-- The holder of lock `x` wants the other lock `y`. -/
def Ahead (holder : L → Option ι) (wants : ι → L → Prop) (x y : L) : Prop :=
  ∃ i, holder x = some i ∧ wants i y ∧ x ≠ y

variable {holder : L → Option ι} {wants : ι → L → Prop} {i j : ι}

/-- Where a party waits for another, over others or not, the locks that it holds are behind the
one that is waited for last. -/
theorem exists_ahead_of_waits (h : TransGen (Waits holder wants) i j) :
    ∃ y, holder y = some j ∧ ∀ x, holder x = some i → TransGen (Ahead holder wants) x y := by
  induction h with
  | single hw =>
    obtain ⟨y, hwant, hhold, hne⟩ := hw
    refine ⟨y, hhold, fun x hx => .single ⟨i, hx, hwant, ?_⟩⟩
    rintro rfl
    exact hne (Option.some_inj.mp (hx.symm.trans hhold))
  | tail _ hw ih =>
    obtain ⟨y, hy, hahead⟩ := ih
    obtain ⟨z, hwant, hhold, hne⟩ := hw
    refine ⟨z, hhold, fun x hx => (hahead x hx).tail ⟨_, hy, hwant, ?_⟩⟩
    rintro rfl
    exact hne (Option.some_inj.mp (hy.symm.trans hhold))

/-- **A cycle of parties gives a cycle of locks.** -/
theorem ahead_cycle_of_waits_cycle (h : TransGen (Waits holder wants) i i) :
    ∃ x, TransGen (Ahead holder wants) x x := by
  obtain ⟨y, hy, hahead⟩ := exists_ahead_of_waits h
  exact ⟨y, hahead y hy⟩

/-- **Parties that want only what is above do not deadlock.** -/
theorem not_waits_cycle_of_lt [Preorder L]
    (hlt : ∀ i x y, holder x = some i → wants i y → x ≠ y → x < y) (i : ι) :
    ¬ TransGen (Waits holder wants) i i := by
  intro h
  obtain ⟨x, hx⟩ := ahead_cycle_of_waits_cycle h
  have habove : ∀ y, TransGen (Ahead holder wants) x y → x < y := by
    intro y hy
    induction hy with
    | single hs =>
      obtain ⟨k, hk, hw, hne⟩ := hs
      exact hlt k x _ hk hw hne
    | tail _ hs ih =>
      obtain ⟨k, hk, hw, hne⟩ := hs
      exact ih.trans (hlt k _ _ hk hw hne)
  exact lt_irrefl x (habove x hx)

/-- **Without a deadlock somebody waits for nobody**: among finitely many parties there is one
that waits for none of them. -/
theorem exists_not_waits {r : ι → ι → Prop} (hcycle : ∀ i, ¬ TransGen r i i) {S : Set ι}
    (hfin : S.Finite) (hne : S.Nonempty) : ∃ i ∈ S, ∀ j ∈ S, ¬ r i j := by
  have : Finite S := hfin
  let q : S → S → Prop := fun a b => TransGen r b.1 a.1
  have : IsTrans S q := ⟨fun a b c hab hbc => hbc.trans hab⟩
  have : Std.Irrefl q := ⟨fun a => hcycle a.1⟩
  obtain ⟨i, -, hi⟩ := (Finite.wellFounded_of_trans_of_irrefl q).has_min Set.univ
    ⟨⟨hne.some, hne.some_mem⟩, trivial⟩
  exact ⟨i.1, i.2, fun j hj hr => hi ⟨j, hj⟩ trivial (.single hr)⟩

/-! ### Cycles without repetitions -/

/-- A cycle that passes each of its members once. -/
def SimpleCycle (r : L → L → Prop) : Prop :=
  ∃ l : List L, l.Nodup ∧ ∃ h : 0 < l.length, ∀ k : Fin l.length,
    r l[k] (l.get ⟨(k.1 + 1) % l.length, Nat.mod_lt _ h⟩)

variable {r : L → L → Prop}

theorem transGen_of_cycle {f : ℕ → ι} {q : ι → ι → Prop} (h : ∀ k, q (f k) (f (k + 1))) (n : ℕ) :
    TransGen q (f 0) (f (n + 1)) := by
  induction n with
  | zero => exact .single (h 0)
  | succ n ih => exact ih.tail (h (n + 1))

/-- A path without repetitions that leads back to one of its members closes a cycle. -/
theorem simpleCycle_of_mem {l : List L} {b y : L} (hnodup : (l ++ [b]).Nodup)
    (hchain : (l ++ [b]).IsChain r) (hb : r b y) (hy : y ∈ l ++ [b]) : SimpleCycle r := by
  obtain ⟨p, q, hpq⟩ := List.append_of_mem hy
  rw [hpq] at hnodup hchain
  have hlast : (y :: q).getLast? = some b := by
    have hall : (p ++ y :: q).getLast? = some b := by rw [← hpq]; simp
    rwa [List.getLast?_append_of_ne_nil _ (List.cons_ne_nil _ _)] at hall
  refine ⟨y :: q, hnodup.of_append_right, Nat.succ_pos _, fun k => ?_⟩
  have hchain' := List.isChain_iff_getElem.mp hchain.right_of_append
  rcases Nat.lt_or_ge (k.1 + 1) (y :: q).length with hk | hk
  · simp only [Nat.mod_eq_of_lt hk]
    exact hchain' k.1 hk
  · -- the last member goes back to the first
    have hk' : k.1 + 1 = (y :: q).length := le_antisymm k.2 hk
    have hget : (y :: q)[k.1] = b := by
      rw [List.getLast?_eq_getElem?, ← hk', Nat.add_sub_cancel,
        List.getElem?_eq_getElem k.2] at hlast
      exact Option.some_inj.mp hlast
    simp only [hk', Nat.mod_self]
    show r (y :: q)[k.1] y
    rw [hget]
    exact hb

/-- **A cycle contains a simple cycle.** -/
theorem simpleCycle_of_transGen {x : L} (h : TransGen r x x) : SimpleCycle r := by
  -- the path is walked without meeting a point twice, or else it closes a simple cycle
  have hpath : ∀ y, TransGen r x y → SimpleCycle r ∨ ∃ l b, (l ++ [b]).Nodup ∧
      (l ++ [b]).IsChain r ∧ r b y ∧ x ∈ l ++ [b] := by
    intro y hy
    induction hy with
    | @single y hs => exact Or.inr ⟨[], x, by simp, by simp, hs, by simp⟩
    | @tail y z _ hs ih =>
      rcases ih with hcycle | ⟨l, b, hnodup, hchain, hb, hx⟩
      · exact Or.inl hcycle
      · by_cases hmem : y ∈ l ++ [b]
        · exact Or.inl (simpleCycle_of_mem hnodup hchain hb hmem)
        · refine Or.inr ⟨l ++ [b], y, ?_, ?_, hs, List.mem_append_left _ hx⟩
          · rw [← List.concat_eq_append]
            exact hnodup.concat hmem
          · refine hchain.append (List.isChain_singleton y) ?_
            simpa using hb
  rcases hpath x h with hcycle | ⟨l, b, hnodup, hchain, hb, hx⟩
  · exact hcycle
  -- the cycle comes back to `x`, which is on the path
  · exact simpleCycle_of_mem hnodup hchain hb hx

end SepLab
