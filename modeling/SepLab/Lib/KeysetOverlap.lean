import SepLab.Lib.Keyset

/-!
# Bounds that keep the run of the last element

The bound "key at most that of the element" reads a sorted list in pieces that
overlap: a piece begins with the run of equal keys in which the one before has ended.
It gets to the end of the list exactly if no run fills a piece.

## Main definitions

* `Overlap key n xs pages` — the pages of `n` elements that the bound reads.

## Main results

* `Descending.exists_overlap` — there are such pages, if no run fills one.
* `Descending.stuck` — a run that fills a page is never left.
* `Overlap.sublist`, `Overlap.not_nodup` — the pages hold the whole list, and some of it twice.
-/

namespace SepLab
namespace Keyset

variable {ρ κ : Type*} [LinearOrder κ] {key : ρ → κ} {xs ys : List ρ} {a : ρ}

/-- **The bound keeps the run of the element.** -/
theorem filter_le {front ties rest : List ρ} (hfront : ∀ r ∈ front, key a < key r)
    (hties : ∀ r ∈ ties, key r = key a) (h : Descending key (ties ++ a :: rest)) :
    (front ++ (ties ++ a :: rest)).filter (fun r => decide (key r ≤ key a)) =
      ties ++ a :: rest := by
  have hnone : front.filter (fun r => decide (key r ≤ key a)) = [] := by
    rw [List.filter_eq_nil_iff]
    intro r hr hle
    exact absurd (hfront r hr) (not_lt_of_ge (of_decide_eq_true hle))
  rw [List.filter_append, hnone, List.nil_append, List.filter_eq_self]
  intro r hr
  refine decide_eq_true ?_
  rcases List.mem_append.mp hr with hr | hr
  · exact (hties r hr).le
  · rcases List.mem_cons.mp hr with rfl | hr
    · exact le_rfl
    · exact (List.pairwise_cons.mp (List.pairwise_append.mp h).2.1).1 r hr

/-- The pages of `n` elements that the bound reads: a full page begins with larger keys than that
of its last element, and the next one with the run of that element. -/
inductive Overlap (key : ρ → κ) (n : ℕ) : List ρ → List (List ρ) → Prop
  | last {xs : List ρ} (hlen : xs.length < n) : Overlap key n xs [xs]
  | full {front ties rest : List ρ} {a : ρ} {pages : List (List ρ)} (hne : front ≠ [])
      (hfront : ∀ r ∈ front, key a < key r) (hties : ∀ r ∈ ties, key r = key a)
      (hlen : front.length + ties.length + 1 = n)
      (hpages : Overlap key n (ties ++ a :: rest) pages) :
      Overlap key n (front ++ (ties ++ a :: rest)) ((front ++ ties ++ [a]) :: pages)

variable {n : ℕ} {pages : List (List ρ)}

/-- What precedes an element of a descending list is larger and then the start of its run. -/
theorem Descending.exists_front (h : Descending key (xs ++ [a])) :
    ∃ front ties, xs = front ++ ties ∧ (∀ r ∈ front, key a < key r) ∧
      ∀ r ∈ ties, key r = key a := by
  induction xs with
  | nil => exact ⟨[], [], rfl, nofun, nofun⟩
  | cons x xs ih =>
    obtain ⟨hx, hxs⟩ := List.pairwise_cons.mp h
    have hax : key a ≤ key x := hx a (List.mem_append_right _ (List.mem_singleton_self a))
    rcases hax.lt_or_eq with hlt | heq
    · obtain ⟨front, ties, rfl, hfront, hties⟩ := ih hxs
      refine ⟨x :: front, ties, rfl, fun r hr => ?_, hties⟩
      rcases List.mem_cons.mp hr with rfl | hr
      · exact hlt
      · exact hfront r hr
    -- from the first tie on the key can only be that of `a`
    · refine ⟨[], x :: xs, rfl, nofun, fun r hr => ?_⟩
      rcases List.mem_cons.mp hr with rfl | hr
      · exact heq.symm
      · refine le_antisymm ?_ ?_
        · exact (hx r (List.mem_append_left _ hr)).trans heq.ge
        · exact (List.pairwise_append.mp hxs).2.2 r hr a (List.mem_singleton_self a)

/-- A list of `n` elements or more, at the last one of its first page. -/
theorem exists_split (hn : 0 < n) (hlen : n ≤ xs.length) :
    ∃ front a rest, xs = front ++ a :: rest ∧ front.length + 1 = n := by
  have hlt : n - 1 < xs.length := by omega
  refine ⟨xs.take (n - 1), xs[n - 1], xs.drop n, ?_, ?_⟩
  · have hdrop := List.drop_eq_getElem_cons hlt
    rw [Nat.sub_add_cancel hn] at hdrop
    rw [← hdrop, List.take_append_drop]
  · rw [List.length_take]
    omega

/-- The elements of the key of `r`. -/
def runLength (key : ρ → κ) (xs : List ρ) (r : ρ) : ℕ := xs.countP fun x => decide (key x = key r)

/-- **Where no run fills a page, the bound gets to the end.** -/
theorem Descending.exists_overlap (hn : 0 < n) (h : Descending key xs)
    (hrun : ∀ r ∈ xs, runLength key xs r < n) : ∃ pages, Overlap key n xs pages := by
  induction hm : xs.length using Nat.strong_induction_on generalizing xs with
  | _ m ih =>
    by_cases hlen : xs.length < n
    · exact ⟨[xs], .last hlen⟩
    · obtain ⟨pre, a, rest, rfl, hpre⟩ := exists_split hn (not_lt.mp hlen)
      have hsplit : pre ++ a :: rest = (pre ++ [a]) ++ rest := by simp
      have hdesc : Descending key (pre ++ [a]) := by
        rw [hsplit] at h
        exact (List.pairwise_append.mp h).1
      obtain ⟨front, ties, rfl, hfront, hties⟩ := hdesc.exists_front
      have hne : front ≠ [] := by
        rintro rfl
        -- the whole page would be one run
        have hcount := hrun a (by simp)
        rw [runLength, List.nil_append, List.countP_append, List.countP_cons_of_pos (by simp),
          List.countP_eq_length.mpr fun r hr => decide_eq_true (hties r hr)] at hcount
        rw [List.nil_append] at hpre
        omega
      rw [List.append_assoc] at h hrun hm
      have hsub : (ties ++ a :: rest).Sublist (front ++ (ties ++ a :: rest)) :=
        List.sublist_append_right _ _
      have hshort : (ties ++ a :: rest).length < m := by
        rw [List.length_append] at hm
        have := List.length_pos_of_ne_nil hne
        omega
      obtain ⟨pages, hpages⟩ := ih _ hshort (h.sublist hsub)
        (fun r hr => (hsub.countP_le).trans_lt (hrun r (hsub.subset hr))) rfl
      refine ⟨(front ++ ties ++ [a]) :: pages, ?_⟩
      rw [List.append_assoc]
      refine .full hne hfront hties ?_ hpages
      rw [List.length_append] at hpre
      exact hpre

/-- **A run that fills a page is never left**: the first page is full, and the bound of its last
element keeps the run. -/
theorem Descending.stuck (hn : 0 < n) (h : Descending key xs) {r : ρ}
    (hrun : n ≤ runLength key xs r) : ∃ front a rest, xs = front ++ a :: rest ∧
      front.length + 1 = n ∧
      n ≤ runLength key (xs.filter fun x => decide (key x ≤ key a)) r := by
  obtain ⟨front, a, rest, rfl, hlen⟩ := exists_split hn (hrun.trans List.countP_le_length)
  refine ⟨front, a, rest, rfl, hlen, ?_⟩
  have hle : key r ≤ key a := by
    by_contra hgt
    rw [not_le] at hgt
    -- the run would lie before the last element of the page
    have htail : (a :: rest).countP (fun x => decide (key x = key r)) = 0 := by
      rw [List.countP_eq_zero]
      intro x hx heq
      have hxa : key x ≤ key a := by
        rcases List.mem_cons.mp hx with rfl | hx
        · exact le_rfl
        · exact (List.pairwise_cons.mp (List.pairwise_append.mp h).2.1).1 x hx
      rw [of_decide_eq_true heq] at hxa
      exact absurd hgt (not_lt_of_ge hxa)
    rw [runLength, List.countP_append, htail] at hrun
    have := List.countP_le_length (p := fun x => decide (key x = key r)) (l := front)
    omega
  refine hrun.trans_eq ?_
  rw [runLength, runLength, List.countP_filter]
  refine List.countP_congr fun x _ => ?_
  simp only [decide_eq_true_eq, Bool.and_eq_true]
  exact ⟨fun heq => ⟨heq, heq ▸ hle⟩, And.left⟩

/-- The pages hold the whole list, in its order. -/
theorem Overlap.sublist (h : Overlap key n xs pages) : xs.Sublist pages.flatten := by
  induction h with
  | last => rw [List.flatten_singleton]
  | full _ _ _ _ _ ih =>
    rw [List.flatten_cons, List.append_assoc, List.append_assoc]
    exact (ih.trans ((List.sublist_append_right _ _).trans
      (List.sublist_append_right _ _))).append_left _

/-- There are no more pages than elements, but for the last one. -/
theorem Overlap.length_le (h : Overlap key n xs pages) : pages.length ≤ xs.length + 1 := by
  induction h with
  | last => exact Nat.le_add_left _ _
  | full hne _ _ _ _ ih =>
    have := List.length_pos_of_ne_nil hne
    rw [List.length_cons]
    rw [List.length_append]
    omega

/-- A list of less than a page is the only page. -/
theorem Overlap.flatten_of_lt (h : Overlap key n xs pages) (hlen : xs.length < n) :
    pages.flatten = xs := by
  cases h with
  | last => exact List.flatten_singleton
  | full _ _ _ hfull _ =>
    simp only [List.length_append, List.length_cons] at hlen
    omega

/-- **A full page is followed by some of it.** -/
theorem Overlap.not_nodup (h : Overlap key n xs pages) (hlen : n ≤ xs.length) :
    ¬ pages.flatten.Nodup := by
  cases h with
  | last hlast => omega
  | @full front ties rest a pages _ _ _ _ hpages =>
    intro hnodup
    rw [List.flatten_cons, List.append_assoc] at hnodup
    have hdisjoint := (List.nodup_append.mp (List.nodup_append.mp hnodup).2.1).2.2
    have ha : a ∈ pages.flatten :=
      hpages.sublist.subset (List.mem_append_right _ List.mem_cons_self)
    exact hdisjoint a (List.mem_singleton_self a) a ha rfl

end Keyset
end SepLab
