import Mathlib.Data.List.Basic

/-!
# A backtracking matcher

Regular expressions with greedy repetition, named groups and conditions on the two characters
around a position, matched the way a backtracking engine does: of all ways to match, the first one
counts. What is repeated or replaced is never empty.

## Main definitions

* `Regex` — the expressions; `Regex.exactly`, `Regex.text` and others are made of them.
* `Cursor` — a position in a text, and the groups matched on the way to it.
* `Regex.run` — where the matches from a position end, in the order in which they are tried.
* `Regex.search`, `Regex.sub` — the first match in a text; every match replaced.

## Main results

* `Regex.Extends.run` — **a match moves over a part of the text** and leaves the text alone.
* `Regex.eq_of_search` — a text is what stands before the match, the match, and what follows it.
-/

namespace SepLab

/-- The regular expressions of the source. -/
inductive Regex
  /-- One character of a class. -/
  | char (p : Char → Bool)
  | seq (r s : Regex)
  /-- The first, or else the second. -/
  | alt (r s : Regex)
  /-- As many as possible, from `lo` on and up to `hi`, if there is a bound. -/
  | rep (lo : ℕ) (hi : Option ℕ) (r : Regex)
  | group (name : String) (r : Regex)
  /-- A condition on the characters before and after the position. -/
  | edge (p : Option Char → Option Char → Bool)

/-- A position in a text: what is before it, nearest first, and what is after it. -/
structure Cursor where
  before : List Char
  after : List Char
  groups : List (String × List Char)

/-- What stands between two positions. -/
def Cursor.between (c d : Cursor) : List Char :=
  (d.before.take (d.before.length - c.before.length)).reverse

/-- A match in a text. -/
structure Match where
  before : List Char
  text : List Char
  after : List Char
  groups : List (String × List Char)

/-- The text of a group. -/
def Match.group (m : Match) (name : String) : List Char := (m.groups.lookup name).getD []

namespace Regex

/-- Exactly `n` times. -/
def exactly (n : ℕ) (r : Regex) : Regex := rep n (some n) r

/-- Once or not at all. -/
def opt (r : Regex) : Regex := rep 0 (some 1) r

/-- Any number of times. -/
def many (r : Regex) : Regex := rep 0 none r

/-- At least once. -/
def some₁ (r : Regex) : Regex := rep 1 none r

/-- One character. -/
def lit (c : Char) : Regex := char (· == c)

/-- One of the characters. -/
def oneOf (cs : List Char) : Regex := char cs.contains

/-- Several expressions, one after the other. -/
def all (r : Regex) (rs : List Regex) : Regex := rs.foldl seq r

/-- Greedy repetition: another one first, as long as more are allowed. -/
def iterate (step : Cursor → List Cursor) : ℕ → ℕ → Cursor → List Cursor
  | lo, 0, c => if lo = 0 then [c] else []
  | lo, k + 1, c =>
    (step c).flatMap (iterate step (lo - 1) k) ++ if lo = 0 then [c] else []

/-- Where the matches from a position end, in the order in which they are tried. -/
def run : Regex → Cursor → List Cursor
  | char p, c =>
    match c.after with
    | x :: xs => if p x then [⟨x :: c.before, xs, c.groups⟩] else []
    | [] => []
  | seq r s, c => (run r c).flatMap (run s)
  | alt r s, c => run r c ++ run s c
  | rep lo hi r, c => iterate (run r) lo (hi.getD (lo + c.after.length)) c
  | group name r, c =>
    (run r c).map fun d => ⟨d.before, d.after, (name, c.between d) :: d.groups⟩
  | edge p, c => if p c.before.head? c.after.head? then [c] else []

/-- The first match from a position on. -/
def searchFrom (r : Regex) (before : List Char) (after : List Char) : Option Match :=
  match (run r ⟨before, after, []⟩).head? with
  | some d => some ⟨before.reverse, Cursor.between ⟨before, after, []⟩ d, d.after, d.groups⟩
  | none =>
    match after with
    | [] => none
    | x :: xs => searchFrom r (x :: before) xs

/-- The first match in a text. -/
def search (r : Regex) (s : List Char) : Option Match := searchFrom r [] s

/-- Every match from a position on replaced; `fuel` bounds the number of characters. -/
def subFrom (r : Regex) (repl : List Char) : ℕ → List Char → List Char → List Char
  | 0, _, after => after
  | fuel + 1, before, after =>
    match (run r ⟨before, after, []⟩).head?, after with
    | some d, _ => repl ++ subFrom r repl fuel d.before d.after
    | none, [] => []
    | none, x :: xs => x :: subFrom r repl fuel (x :: before) xs

/-- Every match in a text replaced, from the left to the right. -/
def sub (r : Regex) (repl s : List Char) : List Char := subFrom r repl s.length [] s

/-! ### What a match moves over -/

/-- The second position is further on in the same text. -/
def Extends (c d : Cursor) : Prop := ∃ t, d.before = t.reverse ++ c.before ∧ c.after = t ++ d.after

theorem Extends.refl (c : Cursor) : Extends c c := ⟨[], rfl, rfl⟩

theorem Extends.trans {c d e : Cursor} (h : Extends c d) (h' : Extends d e) : Extends c e := by
  obtain ⟨t, hbefore, hafter⟩ := h
  obtain ⟨t', hbefore', hafter'⟩ := h'
  refine ⟨t ++ t', ?_, ?_⟩
  · rw [hbefore', hbefore, List.reverse_append, List.append_assoc]
  · rw [hafter, hafter', List.append_assoc]

theorem Extends.iterate {step : Cursor → List Cursor} (hstep : ∀ c, ∀ d ∈ step c, Extends c d)
    {lo k : ℕ} {c d : Cursor} (h : d ∈ Regex.iterate step lo k c) : Extends c d := by
  induction k generalizing lo c with
  | zero =>
    unfold Regex.iterate at h
    split at h
    · obtain rfl := List.mem_singleton.mp h
      exact .refl _
    · cases h
  | succ k ih =>
    unfold Regex.iterate at h
    rcases List.mem_append.mp h with h | h
    · obtain ⟨e, he, hd⟩ := List.mem_flatMap.mp h
      exact (hstep c e he).trans (ih hd)
    · split at h
      · obtain rfl := List.mem_singleton.mp h
        exact .refl _
      · cases h

/-- **A match moves over a part of the text.** -/
theorem Extends.run {r : Regex} {c d : Cursor} (h : d ∈ r.run c) : Extends c d := by
  induction r generalizing c d with
  | char p =>
    unfold Regex.run at h
    split at h
    · next x xs hafter =>
      split at h
      · obtain rfl := List.mem_singleton.mp h
        exact ⟨[x], rfl, hafter⟩
      · cases h
    · cases h
  | seq r s ihr ihs =>
    obtain ⟨e, he, hd⟩ := List.mem_flatMap.mp h
    exact (ihr he).trans (ihs hd)
  | alt r s ihr ihs =>
    rcases List.mem_append.mp h with h | h
    · exact ihr h
    · exact ihs h
  -- the iteration is of the loop's own body
  | rep lo hi r ih => exact Extends.iterate (fun c d hd => ih hd) h
  | group name r ih =>
    obtain ⟨e, he, rfl⟩ := List.mem_map.mp h
    -- a group only notes where it begins and ends
    obtain ⟨t, hbefore, hafter⟩ := ih he
    exact ⟨t, hbefore, hafter⟩
  | edge p =>
    unfold Regex.run at h
    split at h
    · obtain rfl := List.mem_singleton.mp h
      exact .refl _
    · cases h

theorem Extends.between {c d : Cursor} (h : Extends c d) : c.after = c.between d ++ d.after := by
  obtain ⟨t, hbefore, hafter⟩ := h
  have htext : c.between d = t := by
    unfold Cursor.between
    rw [hbefore, List.length_append, Nat.add_sub_cancel, List.take_left, List.reverse_reverse]
  rw [htext, hafter]

/-- **A text is cut in three by its first match.** -/
theorem eq_of_search {r : Regex} {s : List Char} {m : Match} (h : r.search s = some m) :
    s = m.before ++ m.text ++ m.after := by
  -- from every place at which the search tries, with what has been skipped before it
  have hfrom : ∀ {after before : List Char}, r.searchFrom before after = some m →
      before.reverse ++ after = m.before ++ m.text ++ m.after := by
    intro after
    induction after with
    | nil =>
      intro before h
      unfold searchFrom at h
      split at h
      · next d hd =>
        obtain rfl := Option.some_inj.mp h
        have hbetween := (Extends.run (List.mem_of_head? hd)).between
        dsimp only at hbetween ⊢
        rw [List.append_assoc, ← hbetween]
      · cases h
    | cons x xs ih =>
      intro before h
      unfold searchFrom at h
      split at h
      · next d hd =>
        obtain rfl := Option.some_inj.mp h
        have hbetween := (Extends.run (List.mem_of_head? hd)).between
        dsimp only at hbetween ⊢
        rw [List.append_assoc, ← hbetween]
      -- no match begins here, so it goes on one character later
      · rw [← ih h, List.reverse_cons, List.append_assoc, List.singleton_append]
  exact hfrom h

end Regex
end SepLab
