import Mathlib.Algebra.Order.Field.Rat
import Mathlib.Data.List.TakeWhile
import Mathlib.Tactic.Linarith

/-!
# Times in a sliding window

A queue of times that is trimmed at the front keeps the recent part of a history.
A limit on the events of one window in terms of the marks in it, checked at each
event, limits the events of the whole history: what is before the window is
charged to earlier marks, by the same limit at an earlier time.

## Main definitions

* `trim cut q` — the queue without the times before `cut` at its front.
* `Keeps cut history q` — the queue lacks only times before `cut`.
* `UpTo now history` — the history is in order, up to `now`.
* `Bounded c events marks` — before any time there are at most `c` events for each mark.

## Main results

* `Keeps.trim`, `Keeps.length_trim` — a trimmed queue is the recent part of the history.
* `Bounded.event` — an event that fits its window keeps the bound.
-/

namespace SepLab
namespace SlidingWindow

variable {τ : Type*} [LinearOrder τ]

/-- The queue without the times before `cut` at its front. -/
def trim (cut : τ) (q : List τ) : List τ := q.dropWhile fun t => decide (t < cut)

/-- The queue is the end of the history, and what it lacks is before `cut`. -/
def Keeps (cut : τ) (history q : List τ) : Prop :=
  ∃ expired, history = expired ++ q ∧ ∀ t ∈ expired, t < cut

/-- The history is in order, and none of it is after `now`. -/
structure UpTo (now : τ) (history : List τ) : Prop where
  sorted : history.Pairwise (· ≤ ·)
  le : ∀ t ∈ history, t ≤ now

theorem UpTo.nil (now : τ) : UpTo now [] := ⟨List.Pairwise.nil, by simp⟩

theorem UpTo.mono {now now' : τ} {history : List τ} (h : UpTo now history) (hle : now ≤ now') :
    UpTo now' history := ⟨h.sorted, fun t ht => (h.le t ht).trans hle⟩

/-- Something happens now. -/
theorem UpTo.concat {now : τ} {history : List τ} (h : UpTo now history) :
    UpTo now (history ++ [now]) := by
  constructor
  · rw [List.pairwise_append]
    refine ⟨h.sorted, List.pairwise_singleton _ _, ?_⟩
    intro t ht u hu
    rw [List.mem_singleton.mp hu]
    exact h.le t ht
  · intro t ht
    rcases List.mem_append.mp ht with ht | ht
    · exact h.le t ht
    · exact le_of_eq (List.mem_singleton.mp ht)

/-- In a history in order the times before `cut` are at the front. -/
theorem trim_eq_filter {cut : τ} {q : List τ} (h : q.Pairwise (· ≤ ·)) :
    trim cut q = q.filter fun t => decide (cut ≤ t) := by
  induction q with
  | nil => rfl
  | cons t q ih =>
    obtain ⟨hle, hq⟩ := List.pairwise_cons.mp h
    by_cases ht : t < cut
    · rw [List.filter_cons_of_neg (by simpa using ht), ← ih hq]
      exact List.dropWhile_cons_of_pos (decide_eq_true ht)
    · have hall : ∀ u ∈ t :: q, decide (cut ≤ u) = true := by
        intro u hu
        rcases List.mem_cons.mp hu with rfl | hu
        · exact decide_eq_true (not_lt.mp ht)
        · exact decide_eq_true ((not_lt.mp ht).trans (hle u hu))
      rw [List.filter_eq_self.mpr hall]
      exact List.dropWhile_cons_of_neg (by simpa using ht)

theorem Keeps.nil (cut : τ) : Keeps cut [] [] := ⟨[], rfl, by simp⟩

theorem Keeps.mono {cut cut' : τ} {history q : List τ} (h : Keeps cut history q)
    (hle : cut ≤ cut') : Keeps cut' history q := by
  obtain ⟨expired, rfl, hlt⟩ := h
  exact ⟨expired, rfl, fun t ht => (hlt t ht).trans_le hle⟩

theorem Keeps.append {cut : τ} {history q : List τ} (h : Keeps cut history q) (t : τ) :
    Keeps cut (history ++ [t]) (q ++ [t]) := by
  obtain ⟨expired, rfl, hlt⟩ := h
  exact ⟨expired, List.append_assoc .., hlt⟩

/-- The queue is in order when the history is. -/
theorem Keeps.sorted {cut : τ} {history q : List τ} (h : Keeps cut history q)
    (hs : history.Pairwise (· ≤ ·)) : q.Pairwise (· ≤ ·) := by
  obtain ⟨expired, rfl, -⟩ := h
  exact (List.pairwise_append.mp hs).2.1

/-- **Trimming goes on from where the queue is.** -/
theorem Keeps.trim {cut cut' : τ} {history q : List τ} (h : Keeps cut history q)
    (hle : cut ≤ cut') : Keeps cut' history (trim cut' q) := by
  obtain ⟨expired, rfl, hlt⟩ := h
  refine ⟨expired ++ q.takeWhile fun t => decide (t < cut'), ?_, ?_⟩
  · rw [List.append_assoc, SlidingWindow.trim, List.takeWhile_append_dropWhile]
  · intro t ht
    rcases List.mem_append.mp ht with ht | ht
    · exact (hlt t ht).trans_le hle
    · have hp := List.mem_takeWhile_imp ht
      exact of_decide_eq_true hp

/-- **A trimmed queue is as long as the history has times from `cut` on.** -/
theorem Keeps.length_trim {cut cut' : τ} {history q : List τ} (h : Keeps cut history q)
    (hle : cut ≤ cut') (hs : history.Pairwise (· ≤ ·)) :
    (SlidingWindow.trim cut' q).length = history.countP fun t => decide (cut' ≤ t) := by
  have hq : SlidingWindow.trim cut' q = q.filter fun t => decide (cut' ≤ t) :=
    trim_eq_filter (h.sorted hs)
  obtain ⟨expired, rfl, hlt⟩ := h
  have hnone : expired.countP (fun t => decide (cut' ≤ t)) = 0 := by
    rw [List.countP_eq_zero]
    intro t ht hle'
    exact absurd (of_decide_eq_true hle') (not_le_of_gt ((hlt t ht).trans_le hle))
  rw [hq, List.countP_append, hnone, Nat.zero_add, List.countP_eq_length_filter]

/-! ### Events for each mark -/

/-- The number of times before `t`. -/
def before (t : τ) (history : List τ) : ℕ := history.countP fun u => decide (u < t)

@[simp] theorem before_nil (t : τ) : before t [] = 0 := rfl

theorem before_concat (t u : τ) (history : List τ) :
    before t (history ++ [u]) = before t history + if u < t then 1 else 0 := by
  unfold before
  rw [List.countP_append, List.countP_singleton]
  simp

/-- What is not before `t` is from `t` on. -/
theorem before_add_countP (t : τ) (history : List τ) :
    before t history + history.countP (fun u => decide (t ≤ u)) = history.length := by
  rw [List.length_eq_countP_add_countP (fun u => decide (u < t))]
  unfold before
  congr 2
  funext u
  simp

theorem before_eq_length {t : τ} {history : List τ} (h : ∀ u ∈ history, u < t) :
    before t history = history.length := by
  rw [before, List.countP_eq_length]
  exact fun u hu => decide_eq_true (h u hu)

/-- Before any time there are at most `c` events for each mark. -/
def Bounded (c : ℚ) (events marks : List τ) : Prop :=
  ∀ t, (before t events : ℚ) ≤ c * before t marks

theorem Bounded.nil (c : ℚ) : Bounded c ([] : List τ) [] := by
  intro t
  simp

/-- Marks leave room for events. -/
theorem Bounded.mark {c : ℚ} {events marks : List τ} (hc : 0 ≤ c) (h : Bounded c events marks)
    (u : τ) : Bounded c events (marks ++ [u]) := by
  intro t
  have ht := h t
  rw [before_concat]
  push_cast
  split
  · linarith
  · simpa using ht

/-- **An event that fits its window keeps the bound.**  The events before the window are
charged to the marks before it. -/
theorem Bounded.event {c : ℚ} {events marks : List τ} {now cut : τ}
    (h : Bounded c events marks) (hevents : UpTo now events) (hmarks : UpTo now marks)
    (hfits : (events.countP (fun t => decide (cut ≤ t)) : ℚ) + 1 ≤
      c * marks.countP fun t => decide (cut ≤ t)) : Bounded c (events ++ [now]) marks := by
  intro t
  by_cases ht : now < t
  · have hsplit : (before cut events : ℚ) + events.countP (fun u => decide (cut ≤ u)) =
        events.length := by exact_mod_cast before_add_countP cut events
    have hsplit' : (before cut marks : ℚ) + marks.countP (fun u => decide (cut ≤ u)) =
        marks.length := by exact_mod_cast before_add_countP cut marks
    have hcut := h cut
    rw [before_concat, if_pos ht, before_eq_length fun u hu => (hevents.le u hu).trans_lt ht,
      before_eq_length fun u hu => (hmarks.le u hu).trans_lt ht]
    push_cast
    rw [← hsplit, ← hsplit', mul_add]
    linarith
  · rw [before_concat, if_neg ht]
    exact h t

/-- The bound over the whole history. -/
theorem Bounded.length_le [NoMaxOrder τ] {c : ℚ} {events marks : List τ} {now : τ}
    (h : Bounded c events marks) (hevents : UpTo now events) (hmarks : UpTo now marks) :
    (events.length : ℚ) ≤ c * marks.length := by
  obtain ⟨t, ht⟩ := exists_gt now
  have hle := h t
  rwa [before_eq_length fun u hu => (hevents.le u hu).trans_lt ht,
    before_eq_length fun u hu => (hmarks.le u hu).trans_lt ht] at hle

end SlidingWindow
end SepLab
