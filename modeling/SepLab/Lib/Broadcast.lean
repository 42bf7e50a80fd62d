import Mathlib.Data.List.Count
import Mathlib.Data.List.Nodup
import Mathlib.Data.Option.Basic
import Mathlib.Logic.Function.Basic
import Mathlib.Order.Nat

/-!
# Total-order broadcast

What a replicated log is for, without replicas: callers hand in commands, each
call is put into one journal at most once, and every reader reads the journal
from its beginning, one entry after the other.

## Main definitions

* `Broadcast` — the calls, the journal and how far each reader is.
* `Broadcast.Label` — what an observer sees: a call, or an entry that a reader gets.
* `Broadcast.Run b tr b'` — the labels `tr` are what is seen on the way from `b` to `b'`.

## Main results

* `Broadcast.Run.got_eq` — a reader got the first entries of the journal.
* `Broadcast.Run.got_comparable` — of two readers, one got a prefix of what the other got.
* `Broadcast.Run.count_got_le` — no reader gets a command more often than it was called.
-/

namespace SepLab

/-- The calls made, the calls in the journal (by number, in its order), and how
many entries each reader has read. -/
structure Broadcast (ι α : Type*) where
  calls : List α
  journal : List ℕ
  read : ι → ℕ
  journal_lt : ∀ m ∈ journal, m < calls.length
  nodup : journal.Nodup
  read_le : ∀ r, read r ≤ journal.length

namespace Broadcast

variable {ι α : Type*}

/-- What an observer sees. -/
inductive Label (ι α : Type*)
  /-- A caller hands in `a`. -/
  | call (a : α)
  /-- Reader `r` gets `a`, the entry with the number `idx`; the first one is `1`. -/
  | get (r : ι) (idx : ℕ) (a : α)

variable (ι α) in
/-- Nothing has happened yet. -/
def empty : Broadcast ι α where
  calls := []
  journal := []
  read _ := 0
  journal_lt _ hm := nomatch hm
  nodup := List.nodup_nil
  read_le _ := le_rfl

/-- One more call is accepted. -/
def addCall (b : Broadcast ι α) (a : α) : Broadcast ι α :=
  { b with
    calls := b.calls ++ [a]
    journal_lt := fun m hm => by
      rw [List.length_append]
      exact Nat.lt_add_right _ (b.journal_lt m hm) }

/-- Call `m` becomes the next entry of the journal. -/
def enter (b : Broadcast ι α) (m : ℕ) (hm : m < b.calls.length) (hnew : m ∉ b.journal) :
    Broadcast ι α :=
  { b with
    journal := b.journal ++ [m]
    journal_lt := fun k hk => by
      rcases List.mem_append.mp hk with hk | hk
      · exact b.journal_lt k hk
      · exact List.mem_singleton.mp hk ▸ hm
    nodup := by
      rw [List.nodup_append]
      refine ⟨b.nodup, List.nodup_singleton m, ?_⟩
      intro k hk k' hk' heq
      rw [List.mem_singleton.mp hk'] at heq
      exact hnew (heq ▸ hk)
    read_le := fun r => (b.read_le r).trans (by simp) }

variable [DecidableEq ι]

/-- Reader `r` reads its next entry. -/
def readNext (b : Broadcast ι α) (r : ι) (h : b.read r < b.journal.length) : Broadcast ι α :=
  { b with
    read := Function.update b.read r (b.read r + 1)
    read_le := fun r' => by
      rw [Function.update_apply]
      split
      · exact h
      · exact b.read_le r' }

/-- One step, with what an observer sees of it. -/
inductive Step : Broadcast ι α → List (Label ι α) → Broadcast ι α → Prop
  | call (b : Broadcast ι α) (a : α) : Step b [.call a] (b.addCall a)
  | enter (b : Broadcast ι α) (m : ℕ) (hm : m < b.calls.length) (hnew : m ∉ b.journal) :
      Step b [] (b.enter m hm hnew)
  | get (b : Broadcast ι α) (r : ι) (h : b.read r < b.journal.length) (a : α)
      (ha : b.calls[b.journal[b.read r]]? = some a) :
      Step b [.get r (b.read r + 1) a] (b.readNext r h)

/-- A run, with what an observer sees of it. -/
inductive Run (b : Broadcast ι α) : List (Label ι α) → Broadcast ι α → Prop
  | refl : Run b [] b
  | tail {tr ls : List (Label ι α)} {b' b'' : Broadcast ι α} :
      Run b tr b' → Step b' ls b'' → Run b (tr ++ ls) b''

theorem Run.trans {b b' b'' : Broadcast ι α} {tr tr' : List (Label ι α)} (h : Run b tr b')
    (h' : Run b' tr' b'') : Run b (tr ++ tr') b'' := by
  induction h' with
  | refl =>
    rw [List.append_nil]
    exact h
  | tail _ hs ih =>
    rw [← List.append_assoc]
    exact ih.tail hs

/-! ### What a reader gets -/

/-- The commands that reader `r` gets. -/
def got (r : ι) : List (Label ι α) → List α
  | [] => []
  | .get r' _ a :: tr => if r' = r then a :: got r tr else got r tr
  | .call _ :: tr => got r tr

/-- The commands that are called. -/
def called : List (Label ι α) → List α
  | [] => []
  | .call a :: tr => a :: called tr
  | .get _ _ _ :: tr => called tr

theorem got_append (r : ι) (tr tr' : List (Label ι α)) :
    got r (tr ++ tr') = got r tr ++ got r tr' := by
  induction tr with
  | nil => rfl
  | cons l tr ih =>
    cases l with
    | call a => exact ih
    | get r' idx a =>
      simp only [List.cons_append, got, ih]
      split
      · rfl
      · rfl

omit [DecidableEq ι] in
theorem called_append (tr tr' : List (Label ι α)) :
    called (tr ++ tr') = called tr ++ called tr' := by
  induction tr with
  | nil => rfl
  | cons l tr ih =>
    cases l with
    | call a => exact congrArg (a :: ·) ih
    | get r idx a => exact ih

/-- The calls are those an observer has seen. -/
theorem Run.calls_eq {tr : List (Label ι α)} {b : Broadcast ι α} (h : Run (empty ι α) tr b) :
    b.calls = called tr := by
  induction h with
  | refl => rfl
  | tail _ hs ih =>
    rw [called_append, ← ih]
    cases hs with
    | call a => rfl
    | enter m hm hnew => exact (List.append_nil _).symm
    | get r h a ha => exact (List.append_nil _).symm

/-- The entries of the journal, as commands. -/
def entries (b : Broadcast ι α) : List (Option α) := b.journal.map fun m => b.calls[m]?

omit [DecidableEq ι] in
theorem entries_addCall (b : Broadcast ι α) (a : α) : (b.addCall a).entries = b.entries := by
  unfold entries addCall
  refine List.map_congr_left fun m hm => ?_
  exact List.getElem?_append_left (b.journal_lt m hm)

/-- **What a reader got.**  It is the beginning of the journal, as far as the
reader is. -/
theorem Run.got_eq {tr : List (Label ι α)} {b : Broadcast ι α} (h : Run (empty ι α) tr b) (r : ι) :
    (got r tr).map some = b.entries.take (b.read r) := by
  induction h with
  | refl => rfl
  | @tail tr ls b b' _ hs ih =>
    rw [got_append, List.map_append, ih]
    cases hs with
    | call a =>
      rw [entries_addCall]
      -- a call that is not in the journal yet is read by nobody
      exact List.append_nil _
    | enter m hm hnew =>
      have hlen : b.entries.length = b.journal.length := List.length_map _
      -- readers are behind the end of the journal, so what they have read stays
      show b.entries.take (b.read r) ++ [] = ((b.journal ++ [m]).map fun m => b.calls[m]?).take _
      rw [List.map_append, List.append_nil]
      exact (List.take_append_of_le_length (hlen ▸ b.read_le r)).symm
    | get r' h a ha =>
      by_cases hr : r' = r
      · subst hr
        have hread : (b.readNext r' h).read r' = b.read r' + 1 := Function.update_self _ _ _
        -- the reader takes the next entry
        have hget : b.entries[b.read r']? = some (some a) := by
          unfold entries
          rw [List.getElem?_map, List.getElem?_eq_getElem h, Option.map_some, ha]
        show b.entries.take (b.read r') ++ (got r' [.get r' _ a]).map some = b.entries.take _
        rw [hread, List.take_add_one, hget]
        simp [got]
      · have hread : (b.readNext r' h).read r = b.read r :=
          Function.update_of_ne (fun heq => hr heq.symm) _ _
        show b.entries.take (b.read r) ++ (got r [.get r' _ a]).map some = b.entries.take _
        rw [hread]
        simp [got, hr]

/-- **Total order.**  Of two readers, one got a prefix of what the other got. -/
theorem Run.got_comparable {tr : List (Label ι α)} {b : Broadcast ι α}
    (h : Run (empty ι α) tr b) (r r' : ι) : got r tr <+: got r' tr ∨ got r' tr <+: got r tr := by
  have hle : ∀ {r r' : ι}, b.read r ≤ b.read r' → got r tr <+: got r' tr := by
    intro r r' hle
    have hpre : (got r tr).map some <+: (got r' tr).map some := by
      rw [h.got_eq r, h.got_eq r']
      exact List.take_prefix_take_left hle
    exact (List.prefix_map_iff_of_injective (Option.some_injective α)).mp hpre
  rcases le_total (b.read r) (b.read r') with h | h
  · exact Or.inl (hle h)
  · exact Or.inr (hle h)

/-- **No reader gets a command more often than it was called.** -/
theorem Run.count_got_le [DecidableEq α] {tr : List (Label ι α)} {b : Broadcast ι α}
    (h : Run (empty ι α) tr b) (r : ι) (a : α) : (got r tr).count a ≤ (called tr).count a := by
  -- the entries of the journal are calls with different numbers
  have hperm : b.entries.Subperm (b.calls.map some) := by
    have hall : (List.range b.calls.length).map (fun m => b.calls[m]?) = b.calls.map some := by
      apply List.ext_getElem
      · simp
      · intro m hm hm'
        simp at hm
        simp [hm]
    rw [← hall]
    obtain ⟨l, hperm, hsub⟩ := List.subperm_of_subset b.nodup fun m hm =>
      List.mem_range.mpr (b.journal_lt m hm)
    exact ⟨l.map fun m => b.calls[m]?, hperm.map _, hsub.map _⟩
  calc (got r tr).count a = ((got r tr).map some).count (some a) :=
        (List.count_map_of_injective _ some (Option.some_injective α) a).symm
    _ ≤ b.entries.count (some a) := by
        rw [h.got_eq r]
        exact (List.take_sublist _ _).count_le _
    _ ≤ (b.calls.map some).count (some a) := hperm.count_le _
    _ = (called tr).count a := by
        rw [h.calls_eq]
        exact List.count_map_of_injective _ some (Option.some_injective α) a

end Broadcast
end SepLab
