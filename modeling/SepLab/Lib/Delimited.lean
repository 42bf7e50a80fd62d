import Mathlib.Data.List.DropRight

/-!
# Cutting a text at its delimiters

The part of a list before the first separator, after the last one, or after the
first occurrence of a pattern; and the same cuts by position, the way strings with
`find`, `rfind` and `substr` make them.  No position stands for the end of the list.

## Main definitions

* `before c s`, `afterLast c s`, `afterFirst pat s` — the parts.
* `find`, `findText`, `rfind`, `substr` — positions and what lies between them.

## Main results

* `before_append`, `afterLast_append`, `afterLast_append_cons` — the cuts of a list put together.
* `substr_find`, `drop_rfind`, `drop_findText` — **both ways make the same cuts.**
* `splitOn_eq_singleton_iff`, `splitOn_eq_cons_iff` — a split, part by part.
-/

namespace SepLab
namespace Delimited

variable {α : Type*} [DecidableEq α]

/-! ### Parts -/

/-- What stands before the first `c`; everything when there is none. -/
def before (c : α) (s : List α) : List α := s.takeWhile (· ≠ c)

/-- What stands after the last `c`; everything when there is none. -/
def afterLast (c : α) (s : List α) : List α := s.rtakeWhile (· ≠ c)

/-- What stands after the first occurrence of `pat`. -/
def afterFirst (pat : List α) : List α → Option (List α)
  | [] => if pat = [] then some [] else none
  | x :: s =>
    if pat.isPrefixOf (x :: s) then some ((x :: s).drop pat.length) else afterFirst pat s

@[simp] theorem before_nil (c : α) : before c [] = [] := rfl

@[simp] theorem before_cons_self (c : α) (s : List α) : before c (c :: s) = [] := by
  simp [before]

theorem before_cons_of_ne {c x : α} (h : x ≠ c) (s : List α) :
    before c (x :: s) = x :: before c s := by simp [before, h]

/-- Before a separator, what has none is kept. -/
theorem before_append {c : α} {p : List α} (h : c ∉ p) (s : List α) :
    before c (p ++ s) = p ++ before c s := by
  induction p with
  | nil => rfl
  | cons x p ih =>
    have hx : x ≠ c := ne_of_mem_of_not_mem List.mem_cons_self h
    rw [List.cons_append, before_cons_of_ne hx, ih fun hp => h (List.mem_cons_of_mem x hp),
      List.cons_append]

theorem notMem_before (c : α) (s : List α) : c ∉ before c s := by
  intro hc
  simpa using List.mem_takeWhile_imp hc

theorem afterLast_of_notMem {c : α} {s : List α} (h : c ∉ s) : afterLast c s = s :=
  List.rtakeWhile_eq_self_iff.mpr fun _ hx => decide_eq_true (ne_of_mem_of_not_mem hx h)

/-- After the last separator, what has none is all. -/
theorem afterLast_append_cons {c : α} {s : List α} (h : c ∉ s) (p : List α) :
    afterLast c (p ++ c :: s) = s := by
  have hs : before c (s.reverse ++ c :: p.reverse) = s.reverse := by
    rw [before_append (by simpa using h), before_cons_self, List.append_nil]
  unfold before at hs
  unfold afterLast List.rtakeWhile
  rw [List.reverse_append, List.reverse_cons, List.append_assoc, List.singleton_append, hs,
    List.reverse_reverse]

/-- Only the part with the last separator counts. -/
theorem afterLast_append {c : α} {s : List α} (h : c ∈ s) (p : List α) :
    afterLast c (p ++ s) = afterLast c s := by
  obtain ⟨v, u, hs, hv⟩ := List.eq_append_cons_of_mem (List.mem_reverse.mpr h)
  obtain rfl : s = u.reverse ++ c :: v.reverse := by
    rw [← List.reverse_reverse s, hs]
    simp
  rw [← List.mem_reverse] at hv
  rw [← List.append_assoc, afterLast_append_cons hv, afterLast_append_cons hv]

/-- The first occurrence of a pattern is found where its first element is. -/
theorem afterFirst_append {x : α} {p : List α} (h : x ∉ p) (pat s : List α) :
    afterFirst (x :: pat) (p ++ (x :: pat ++ s)) = some s := by
  induction p with
  | nil =>
    rw [List.nil_append, List.cons_append, afterFirst, if_pos]
    · simp
    · simp [List.isPrefixOf_iff_prefix]
  | cons y p ih =>
    have hy : x ≠ y := (ne_of_mem_of_not_mem List.mem_cons_self h).symm
    rw [List.cons_append, afterFirst, if_neg (by simp [List.isPrefixOf, hy])]
    exact ih fun hp => h (List.mem_cons_of_mem y hp)

/-! ### Positions -/

/-- The position of the first `c`. -/
def find (c : α) (s : List α) : Option ℕ := s.idxOf? c

/-- The position of the first occurrence of `pat`. -/
def findText (pat : List α) : List α → Option ℕ
  | [] => if pat = [] then some 0 else none
  | x :: s => if pat.isPrefixOf (x :: s) then some 0 else (findText pat s).map (· + 1)

/-- The position of the last `c`. -/
def rfind (c : α) : List α → Option ℕ
  | [] => none
  | x :: s =>
    match rfind c s with
    | some i => some (i + 1)
    | none => if x = c then some 0 else none

/-- The `count` elements from `pos` on, or all of them. -/
def substr (s : List α) (pos : ℕ) : Option ℕ → List α
  | some count => (s.drop pos).take count
  | none => s.drop pos

theorem find_cons_of_ne {c x : α} (h : x ≠ c) (s : List α) :
    find c (x :: s) = (find c s).map (· + 1) := by
  unfold find
  rw [List.idxOf?_cons, if_neg (by simpa using h)]

omit [DecidableEq α] in
theorem substr_cons (x : α) (s : List α) (pos : ℕ) (count : Option ℕ) :
    substr (x :: s) (pos + 1) count = substr s pos count := by
  cases count with
  | none => rfl
  | some n => rfl

theorem substr_find (c : α) (s : List α) : substr s 0 (find c s) = before c s := by
  induction s with
  | nil => rfl
  | cons x s ih =>
    by_cases h : x = c
    · subst h
      simp [find, List.idxOf?_cons, substr]
    · rw [find_cons_of_ne h, before_cons_of_ne h, ← ih]
      cases find c s with
      | none => rfl
      | some i => rfl

theorem drop_findText (pat s : List α) :
    (findText pat s).map (fun i => substr s (i + pat.length) none) = afterFirst pat s := by
  induction s with
  | nil =>
    unfold findText afterFirst
    split
    · simp [substr]
    · rfl
  | cons x s ih =>
    unfold findText afterFirst
    split
    · simp [substr]
    · rw [← ih, Option.map_map]
      congr 1
      funext i
      simp [substr, Nat.add_right_comm]

theorem rfind_eq_none {c : α} {s : List α} : rfind c s = none ↔ c ∉ s := by
  induction s with
  | nil => simp [rfind]
  | cons x s ih =>
    unfold rfind
    cases hs : rfind c s with
    | some i =>
      have hmem : c ∈ s := by
        by_contra hno
        rw [ih.mpr hno] at hs
        cases hs
      simp [hmem]
    | none =>
      have hno := ih.mp hs
      by_cases h : x = c
      · simp [h]
      · simp [h, hno, Ne.symm h]

theorem drop_rfind (c : α) (s : List α) :
    (match rfind c s with
      | some i => substr s (i + 1) none
      | none => s) = afterLast c s := by
  induction s with
  | nil => rfl
  | cons x s ih =>
    unfold rfind
    cases hs : rfind c s with
    -- the last one is further right
    | some i =>
      have hmem : c ∈ s := by
        by_contra hno
        rw [rfind_eq_none.mpr hno] at hs
        cases hs
      rw [← List.singleton_append, afterLast_append hmem, ← ih, hs]
      rfl
    | none =>
      have hno := rfind_eq_none.mp hs
      -- it is this one, or there is none
      by_cases h : x = c
      · subst h
        have hlast := afterLast_append_cons hno []
        rw [List.nil_append] at hlast
        rw [hlast, if_pos rfl]
        rfl
      · rw [if_neg h, afterLast_of_notMem (by simp [hno, Ne.symm h])]

omit [DecidableEq α] in
/-- What stands between two other parts. -/
theorem substr_append {s t u : List α} {pos count : ℕ} (hs : s.length = pos)
    (ht : t.length = count) : substr (s ++ t ++ u) pos (some count) = t := by
  subst hs ht
  rw [substr, List.append_assoc, List.drop_left, List.take_left]

/-! ### Splitting at every separator -/

/-- A split is the list itself, or cuts it at its first separator. -/
theorem splitOn_cases (c : α) (s : List α) :
    (c ∉ s ∧ s.splitOn c = [s]) ∨
      ∃ p s', s = p ++ c :: s' ∧ c ∉ p ∧ s.splitOn c = p :: s'.splitOn c := by
  by_cases h : c ∈ s
  · obtain ⟨p, s', rfl, hp⟩ := List.eq_append_cons_of_mem h
    exact Or.inr ⟨p, s', rfl, hp, List.splitOn_append_cons_self_of_not_mem hp s'⟩
  · exact Or.inl ⟨h, List.splitOn_eq_singleton h⟩

theorem splitOn_eq_singleton_iff {c : α} {s p : List α} :
    s.splitOn c = [p] ↔ s = p ∧ c ∉ p := by
  constructor
  · intro h
    rcases splitOn_cases c s with ⟨hs, heq⟩ | ⟨p', s', -, -, heq⟩
    · rw [heq] at h
      obtain rfl := (List.cons.inj h).1
      exact ⟨rfl, hs⟩
    · rw [heq] at h
      exact absurd (List.cons.inj h).2 (List.splitOn_ne_nil c s')
  · rintro ⟨rfl, hs⟩
    exact List.splitOn_eq_singleton hs

/-- **The first of several parts** ends at a separator. -/
theorem splitOn_eq_cons_iff {c : α} {s p : List α} {ps : List (List α)} (hps : ps ≠ []) :
    s.splitOn c = p :: ps ↔ ∃ s', s = p ++ c :: s' ∧ c ∉ p ∧ s'.splitOn c = ps := by
  constructor
  · intro h
    rcases splitOn_cases c s with ⟨-, heq⟩ | ⟨p', s', hs, hp', heq⟩
    · rw [heq] at h
      exact absurd (List.cons.inj h).2.symm hps
    · rw [heq] at h
      obtain ⟨rfl, hrest⟩ := List.cons.inj h
      exact ⟨s', hs, hp', hrest⟩
  · rintro ⟨s', rfl, hp, rfl⟩
    exact List.splitOn_append_cons_self_of_not_mem hp s'

/-- Only separators follow the first part. -/
theorem splitOn_eq_cons_replicate_iff {c : α} {s p : List α} {k : ℕ} :
    s.splitOn c = p :: List.replicate k [] ↔ s = p ++ List.replicate k c ∧ c ∉ p := by
  induction k generalizing s p with
  | zero => rw [List.replicate_zero, splitOn_eq_singleton_iff, List.replicate_zero, List.append_nil]
  | succ k ih =>
    rw [splitOn_eq_cons_iff (by simp [List.replicate_succ])]
    constructor
    · rintro ⟨s', rfl, hp, h⟩
      rw [List.replicate_succ, ih] at h
      refine ⟨?_, hp⟩
      rw [h.1, List.nil_append, List.replicate_succ]
    · rintro ⟨rfl, hp⟩
      refine ⟨List.replicate k c, by rw [List.replicate_succ], hp, ?_⟩
      rw [List.replicate_succ, ih]
      exact ⟨rfl, List.not_mem_nil⟩

end Delimited
end SepLab
