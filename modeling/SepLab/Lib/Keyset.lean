import Mathlib.Data.List.Basic
import Mathlib.Order.Lattice

/-!
# Bounds on the key of a sorted list

A list whose elements have keys in descending order is read in pieces: a piece
ends at some element, and the bound "key below that of the element" is meant to
select what comes after it.  It does so if no two elements have the same key, and
otherwise loses the rest of the run of equal keys.

## Main definitions

* `Descending key xs`, `StrictlyDescending key xs` — the order of the keys.
* `Cut key n xs pages` — the pages of `n` elements into which the bound cuts the list.

## Main results

* `Descending.filter_lt` — the bound skips everything up to the element.
* `StrictlyDescending.filter_lt` — with distinct keys it selects just what follows.
* `Descending.exists_cut`, `Cut.flatten_sublist` — there are such pages, in the list's order.
* `Cut.not_mem_flatten_iff` — what is on no page.
-/

namespace SepLab
namespace Keyset

variable {ρ κ : Type*} [LinearOrder κ] {key : ρ → κ} {xs ys : List ρ} {a : ρ}

/-- Keys never grow along the list. -/
def Descending (key : ρ → κ) (xs : List ρ) : Prop := xs.Pairwise fun x y => key y ≤ key x

instance (xs : List ρ) : Decidable (Descending key xs) :=
  inferInstanceAs (Decidable (xs.Pairwise fun x y => key y ≤ key x))

/-- The order is that of the keys, whatever else the elements carry. -/
theorem descending_map {σ : Type*} {f : σ → ρ} {xs : List σ} :
    Descending key (xs.map f) ↔ Descending (key ∘ f) xs :=
  List.pairwise_map

/-- Keys shrink along the list, so that they are distinct. -/
def StrictlyDescending (key : ρ → κ) (xs : List ρ) : Prop := xs.Pairwise fun x y => key y < key x

theorem StrictlyDescending.descending (h : StrictlyDescending key xs) : Descending key xs :=
  h.imp fun hlt => hlt.le

/-- A descending list without two elements of one key is strictly descending. -/
theorem Descending.strictly (h : Descending key xs) (hnodup : (xs.map key).Nodup) :
    StrictlyDescending key xs := by
  have hne : xs.Pairwise fun x y => key x ≠ key y := List.pairwise_map.mp hnodup
  exact h.imp₂ (fun x y hle hne => lt_of_le_of_ne hle hne.symm) hne

/-- **The bound skips everything up to the element.** -/
theorem Descending.filter_lt (h : Descending key (xs ++ a :: ys)) :
    (xs ++ a :: ys).filter (fun r => decide (key r < key a)) =
      ys.filter fun r => decide (key r < key a) := by
  obtain ⟨-, -, hxs⟩ := List.pairwise_append.mp h
  have hnone : xs.filter (fun r => decide (key r < key a)) = [] := by
    rw [List.filter_eq_nil_iff]
    intro r hr hlt
    exact absurd (hxs r hr a List.mem_cons_self) (not_le_of_gt (of_decide_eq_true hlt))
  rw [List.filter_append, hnone, List.nil_append, List.filter_cons_of_neg]
  simp

/-- **With distinct keys the bound selects just what follows the element.** -/
theorem StrictlyDescending.filter_lt (h : StrictlyDescending key (xs ++ a :: ys)) :
    (xs ++ a :: ys).filter (fun r => decide (key r < key a)) = ys := by
  rw [h.descending.filter_lt, List.filter_eq_self]
  intro r hr
  obtain ⟨-, hays, -⟩ := List.pairwise_append.mp h
  exact decide_eq_true ((List.pairwise_cons.mp hays).1 r hr)

/-! ### Cutting into pages -/

/-- The pages of `n` elements into which the bound cuts the list: after a full page the rest
of the run that its last element belongs to is skipped. -/
inductive Cut (key : ρ → κ) (n : ℕ) : List ρ → List (List ρ) → Prop
  | last {xs : List ρ} (hlen : xs.length < n) : Cut key n xs [xs]
  | full {xs ties rest : List ρ} {a : ρ} {pages : List (List ρ)} (hlen : xs.length + 1 = n)
      (hties : ∀ r ∈ ties, key r = key a) (hrest : ∀ r ∈ rest, key r < key a)
      (hcut : Cut key n rest pages) :
      Cut key n (xs ++ a :: (ties ++ rest)) ((xs ++ [a]) :: pages)

variable {n : ℕ} {pages : List (List ρ)}

/-- What follows an element of a descending list is the rest of its run and then smaller. -/
theorem Descending.exists_ties (h : Descending key (a :: ys)) :
    ∃ ties rest, ys = ties ++ rest ∧ (∀ r ∈ ties, key r = key a) ∧
      ∀ r ∈ rest, key r < key a := by
  induction ys with
  | nil => exact ⟨[], [], rfl, by simp, by simp⟩
  | cons y ys ih =>
    obtain ⟨hay, hys⟩ := List.pairwise_cons.mp h
    have hya : key y ≤ key a := hay y List.mem_cons_self
    -- the ties end where the key first goes down, since it does not come up again
    rcases hya.lt_or_eq with hlt | heq
    · refine ⟨[], y :: ys, rfl, by simp, fun r hr => ?_⟩
      rcases List.mem_cons.mp hr with rfl | hr
      · exact hlt
      · exact ((List.pairwise_cons.mp hys).1 r hr).trans_lt hlt
    · have htail : Descending key (a :: ys) :=
        List.pairwise_cons.mpr
          ⟨fun r hr => hay r (List.mem_cons_of_mem _ hr), (List.pairwise_cons.mp hys).2⟩
      obtain ⟨ties, rest, rfl, hties, hrest⟩ := ih htail
      refine ⟨y :: ties, rest, rfl, fun r hr => ?_, hrest⟩
      rcases List.mem_cons.mp hr with rfl | hr
      · exact heq
      · exact hties r hr

/-- **Every descending list can be cut.** -/
theorem Descending.exists_cut (hn : 0 < n) (h : Descending key xs) :
    ∃ pages, Cut key n xs pages := by
  induction hm : xs.length using Nat.strong_induction_on generalizing xs with
  | _ m ih =>
    by_cases hlen : xs.length < n
    · exact ⟨[xs], .last hlen⟩
    · -- the element at which the first page ends
      obtain ⟨front, a, tail, rfl, hfront⟩ :
          ∃ front a tail, xs = front ++ a :: tail ∧ front.length + 1 = n := by
        obtain ⟨a, tail, htail⟩ : ∃ a tail, xs.drop (n - 1) = a :: tail := by
          apply List.exists_cons_of_ne_nil
          rw [Ne, List.drop_eq_nil_iff]
          omega
        refine ⟨xs.take (n - 1), a, tail, ?_, ?_⟩
        · rw [← htail, List.take_append_drop]
        · rw [List.length_take]
          omega
      have hdesc : Descending key (a :: tail) := h.sublist (List.sublist_append_right _ _)
      obtain ⟨ties, rest, rfl, hties, hrest⟩ := hdesc.exists_ties
      have hrestDesc : Descending key rest :=
        hdesc.sublist ((List.sublist_append_right _ _).cons a)
      have hshort : rest.length < m := by
        simp only [List.length_append, List.length_cons] at hm
        omega
      obtain ⟨pages, hpages⟩ := ih rest.length hshort hrestDesc rfl
      exact ⟨(front ++ [a]) :: pages, .full hfront hties hrest hpages⟩

/-- The pages together keep the list's order and repeat nothing. -/
theorem Cut.flatten_sublist (h : Cut key n xs pages) : pages.flatten.Sublist xs := by
  induction h with
  | last => rw [List.flatten_singleton]
  | @full xs ties rest a pages _ _ _ _ ih =>
    rw [List.flatten_cons, List.append_assoc, List.singleton_append]
    apply List.Sublist.append_left
    exact (ih.trans (List.sublist_append_right _ _)).cons_cons a

/-- All pages but the last one are full. -/
theorem Cut.length_mul_le (h : Cut key n xs pages) : pages.length * n ≤ xs.length + n := by
  induction h with
  | last => simp
  | full hlen _ _ _ ih =>
    rw [List.length_cons, Nat.succ_mul]
    simp only [List.length_append, List.length_cons]
    omega

/-- Elements may carry more than what the key looks at. -/
theorem Cut.map {σ : Type*} {f : σ → ρ} {xs : List σ} {pages : List (List σ)}
    (h : Cut (key ∘ f) n xs pages) : Cut key n (xs.map f) (pages.map (List.map f)) := by
  induction h with
  | last hlen => exact .last (by rwa [List.length_map])
  | full hlen hties hrest _ ih =>
    simp only [List.map_cons, List.map_append, List.map_nil]
    apply Cut.full _ _ _ ih
    · rwa [List.length_map]
    · intro r hr
      obtain ⟨s, hs, rfl⟩ := List.mem_map.mp hr
      exact hties s hs
    · intro r hr
      obtain ⟨s, hs, rfl⟩ := List.mem_map.mp hr
      exact hrest s hs

/-- **On no page are just the elements that the bound skipped**: those of the key of the last
element of a full page, after it.  `pos` tells the elements apart by their places. -/
theorem Cut.not_mem_flatten_iff (h : Cut key n xs pages) {pos : ρ → ℕ}
    (hpos : xs.Pairwise fun x y => pos x < pos y) {r : ρ} (hr : r ∈ xs) :
    r ∉ pages.flatten ↔ ∃ page ∈ pages, page.length = n ∧
      ∃ b, page.getLast? = some b ∧ pos b < pos r ∧ key r = key b := by
  induction h with
  | @last xs hlen =>
    constructor
    · intro hnot
      exact absurd (by simpa using hr) hnot
    · rintro ⟨page, hpage, hfull, -⟩
      rw [List.mem_singleton] at hpage
      subst hpage
      omega
  | @full xs ties rest a pages hlen hties hrest hcut ih =>
    obtain ⟨-, htail, hxs⟩ := List.pairwise_append.mp hpos
    obtain ⟨ha, htr⟩ := List.pairwise_cons.mp htail
    obtain ⟨-, hrestPos, htiesRest⟩ := List.pairwise_append.mp htr
    have hlater : ∀ p ∈ pages.flatten, p ∈ rest := fun p hp => hcut.flatten_sublist.subset hp
    have hlast : ∀ page ∈ pages, ∀ b, page.getLast? = some b → b ∈ rest :=
      fun page hpage b hb => hlater b (List.mem_flatten_of_mem hpage (List.mem_of_getLast? hb))
    have hpage : ∀ p ∈ xs ++ [a], pos p ≤ pos a := by
      intro p hp
      rcases List.mem_append.mp hp with hp | hp
      · exact (hxs p hp a List.mem_cons_self).le
      · rw [List.mem_singleton.mp hp]
    have hsplit : r ∈ xs ++ [a] ∨ r ∈ ties ∨ r ∈ rest := by
      rw [← List.singleton_append, ← List.append_assoc] at hr
      exact (List.mem_append.mp hr).imp_right List.mem_append.mp
    rw [List.flatten_cons, List.mem_append, not_or]
    rcases hsplit with hfirst | hties' | hrest'
    · -- on the first page, and no page ends before it
      have hra : pos r ≤ pos a := hpage r hfirst
      constructor
      · rintro ⟨hnot, -⟩
        exact absurd hfirst hnot
      · rintro ⟨page, hpage, -, b, hb, hbr, -⟩
        rcases List.mem_cons.mp hpage with rfl | hpage
        · rw [List.getLast?_concat, Option.some.injEq] at hb
          subst hb
          omega
        · have hab := ha b (List.mem_append_right _ (hlast page hpage b hb))
          omega
    · -- skipped after the first page
      have har : pos a < pos r := ha r (List.mem_append_left _ hties')
      constructor
      · rintro -
        exact ⟨xs ++ [a], List.mem_cons_self, by rw [List.length_append, ← hlen]; rfl, a,
          List.getLast?_concat, har, hties r hties'⟩
      · rintro -
        constructor
        · intro hmem
          have hra := hpage r hmem
          omega
        · intro hmem
          have hrr := htiesRest r hties' r (hlater r hmem)
          omega
    · -- left for the later pages
      have hra : key r < key a := hrest r hrest'
      have hposa : pos a < pos r := ha r (List.mem_append_right _ hrest')
      have hnot : r ∉ xs ++ [a] := by
        intro hmem
        have hra' := hpage r hmem
        omega
      rw [and_iff_right hnot, ih hrestPos hrest']
      constructor
      · rintro ⟨page, hpage, hfound⟩
        exact ⟨page, List.mem_cons_of_mem _ hpage, hfound⟩
      · rintro ⟨page, hpage, hfull, b, hb, hbr, hkey⟩
        rcases List.mem_cons.mp hpage with rfl | hpage
        · rw [List.getLast?_concat, Option.some.injEq] at hb
          subst hb
          exact absurd hkey hra.ne
        · exact ⟨page, hpage, hfull, b, hb, hbr, hkey⟩

end Keyset
end SepLab
