import Mathlib.Data.List.Basic
import Mathlib.Data.List.Infix
import Mathlib.Data.List.TakeDrop

/-!
# Logs of entries that carry terms

A replicated log is a list of entries each stamped with the term of the leader
that created it.  `chain t` is the log of the leader of term `t`.  A log is
*coherent* with the chains when, up to each of its entries, it is a prefix of
the chain of that entry's term; two coherent logs that agree on the term of one
position agree on everything before it.

## Main definitions

* `Coherent term chain l` — every entry of `l` sits where its term's chain has it.
* `Ascending term l` — the terms of `l` never go down.
* `lastTerm term l`, `UpToDate term l l'` — the order in which votes compare logs.
* `Adopts l m l'` — a log that takes over another one, unless it has it already.

## Main results

* `Coherent.take_eq` — **log matching**.
* `Coherent.prefix_of_upToDate` — a log at least as up to date as another holds
  every prefix that the chains above that prefix's term hold.
* `Adopts.comm` — two prefixes of one list are taken over in either order.
-/

namespace SepLab
namespace TermLog

variable {E : Type*} (term : E → ℕ) (chain : ℕ → List E)

/-- Up to each of its entries, `l` is a prefix of the chain of the entry's term. -/
def Coherent (l : List E) : Prop :=
  ∀ (i : ℕ) (h : i < l.length), l.take (i + 1) <+: chain (term l[i])

/-- The terms never go down along the log. -/
def Ascending (l : List E) : Prop := l.Pairwise fun a b => term a ≤ term b

/-- The term of the last entry, `0` on the empty log. -/
def lastTerm (l : List E) : ℕ := (l.getLast?.map term).getD 0

/-- `l` is at least as up to date as `l'`: a later last term, or the same one
and no fewer entries. -/
def UpToDate (l l' : List E) : Prop :=
  lastTerm term l' < lastTerm term l ∨
    (lastTerm term l' = lastTerm term l ∧ l'.length ≤ l.length)

/-! ### Prefixes -/

theorem prefix_take_succ {l m : List E} (h : l <+: m) {i : ℕ} (hi : i < l.length) :
    m.take (i + 1) = l.take (i + 1) := by
  obtain ⟨t, rfl⟩ := h
  rw [List.take_append_of_le_length (by omega)]

theorem prefix_getElem {l m : List E} (h : l <+: m) {i : ℕ} (hi : i < l.length)
    (hi' : i < m.length) : m[i] = l[i] := (h.getElem hi).symm

/-- Two prefixes of one list, compared by length. -/
theorem prefix_of_length_le {l l' m : List E} (h : l <+: m) (h' : l' <+: m)
    (hlen : l.length ≤ l'.length) : l <+: l' :=
  List.prefix_of_prefix_length_le h h' hlen

/-- If `c` and `m` are prefixes of one chain, `c` is a prefix of `l` and `m` is not, then `c`
is a prefix of `m`. -/
theorem prefix_of_overwrite {c m l x : List E} (hc : c <+: x) (hm : m <+: x) (hcl : c <+: l)
    (hml : ¬ m <+: l) : c <+: m := by
  rcases List.prefix_or_prefix_of_prefix hc hm with h | h
  · exact h
  · exact absurd (h.trans hcl) hml

/-- A prefix that ends before the entries added to a log is a prefix of the log itself. -/
theorem prefix_of_prefix_append {c l es : List E} {t : ℕ} (h : c <+: l ++ es)
    (hc : ∀ e ∈ c, term e < t) (hes : ∀ e ∈ es, t ≤ term e) : c <+: l := by
  rcases List.prefix_or_prefix_of_prefix h (List.prefix_append l es) with h' | h'
  · exact h'
  · obtain ⟨d, rfl⟩ := h'
    cases d with
    | nil => simp
    | cons e d =>
      have he : e ∈ es := by
        have hd : e :: d <+: es := by rwa [List.prefix_append_right_inj] at h
        exact hd.subset List.mem_cons_self
      have h₁ := hc e (by simp)
      have h₂ := hes e he
      omega

/-! ### Ascending logs -/

variable {term chain}

theorem Ascending.of_isPrefix {l m : List E} (h : Ascending term m) (hl : l <+: m) :
    Ascending term l := List.Pairwise.sublist hl.sublist h

theorem Ascending.concat {l : List E} {e : E} (h : Ascending term l)
    (he : ∀ x ∈ l, term x ≤ term e) : Ascending term (l ++ [e]) := by
  unfold Ascending
  rw [List.pairwise_append]
  refine ⟨h, List.pairwise_singleton _ _, ?_⟩
  intro a ha b hb
  rw [List.mem_singleton] at hb
  exact hb ▸ he a ha

theorem lastTerm_eq_getLast {l : List E} (h : l ≠ []) : lastTerm term l = term (l.getLast h) := by
  unfold lastTerm
  rw [List.getLast?_eq_some_getLast h]
  rfl

theorem lastTerm_eq_getElem {l : List E} {n : ℕ} (h : l.length = n + 1) :
    lastTerm term l = term l[n] := by
  have hne : l ≠ [] := by
    intro he
    rw [he] at h
    simp at h
  rw [lastTerm_eq_getLast hne, List.getLast_eq_getElem]
  simp [h]

theorem Ascending.le_lastTerm {l : List E} (h : Ascending term l) {e : E} (he : e ∈ l) :
    term e ≤ lastTerm term l := by
  have hne : l ≠ [] := List.ne_nil_of_mem he
  rw [lastTerm_eq_getLast hne]
  have hsplit : l.dropLast ++ [l.getLast hne] = l := List.dropLast_append_getLast hne
  unfold Ascending at h
  rw [← hsplit, List.pairwise_append] at h
  rw [← hsplit, List.mem_append, List.mem_singleton] at he
  rcases he with he | he
  · exact h.2.2 e he _ (by simp)
  · rw [← he]

/-! ### Coherent logs -/

theorem Coherent.of_isPrefix {l m : List E} (h : Coherent term chain m) (hl : l <+: m) :
    Coherent term chain l := by
  intro i hi
  have hm := h i (hi.trans_le hl.length_le)
  rwa [prefix_getElem hl hi, prefix_take_succ hl hi] at hm

theorem Coherent.mono {chain' : ℕ → List E} {l : List E} (h : Coherent term chain l)
    (hc : ∀ e ∈ l, chain (term e) <+: chain' (term e)) : Coherent term chain' l :=
  fun i hi => (h i hi).trans (hc _ (List.getElem_mem hi))

/-- A coherent log is a prefix of the chain of its last term. -/
theorem Coherent.prefix_lastTerm {l : List E} (h : Coherent term chain l) (hne : l ≠ []) :
    l <+: chain (lastTerm term l) := by
  have hpos : 0 < l.length := List.length_pos_of_ne_nil hne
  have hlen : l.length = (l.length - 1) + 1 := by omega
  have hl := h (l.length - 1) (by omega)
  rwa [← (lastTerm_eq_getElem hlen : lastTerm term l = _), List.take_of_length_le (by omega)] at hl

/-- **Log matching**: two coherent logs with the same term at one position are the same up to it. -/
theorem Coherent.take_eq {l m : List E} (hl : Coherent term chain l) (hm : Coherent term chain m)
    {i : ℕ} (hi : i < l.length) (hi' : i < m.length) (ht : term l[i] = term m[i]) :
    l.take (i + 1) = m.take (i + 1) := by
  have h₁ := hl i hi
  have h₂ := hm i hi'
  rw [← ht] at h₂
  have hlen : (l.take (i + 1)).length = (m.take (i + 1)).length := by
    rw [List.length_take, List.length_take]
    omega
  exact (prefix_of_length_le h₁ h₂ hlen.le).eq_of_length hlen

/-- An entry of the same term further on in another coherent log: the entries of one term come
from one chain, so the two logs have the same entry here. -/
theorem Coherent.getElem_eq {l m : List E} (hl : Coherent term chain l) (hm : Coherent term chain m)
    {i k : ℕ} (hi : i < l.length) (hk : k < m.length) (hik : i ≤ k) (ht : term l[i] = term m[k]) :
    l[i] = m[i] := by
  have h₁ := hl i hi
  have h₂ := hm k hk
  rw [← ht] at h₂
  have hlen : (l.take (i + 1)).length ≤ (m.take (k + 1)).length := by
    rw [List.length_take, List.length_take]
    omega
  have hpre := prefix_of_length_le h₁ h₂ hlen
  have := hpre.getElem (i := i) (by rw [List.length_take]; omega)
  rwa [List.getElem_take, List.getElem_take] at this

theorem Coherent.concat {l : List E} {e : E} (h : Coherent term chain l)
    (he : l ++ [e] <+: chain (term e)) : Coherent term chain (l ++ [e]) := by
  intro i hi
  rw [List.length_append, List.length_singleton] at hi
  rcases Nat.lt_or_ge i l.length with hlt | hge
  · rw [List.getElem_append_left hlt, List.take_append_of_le_length (by omega)]
    exact h i hlt
  · have hil : i = l.length := by omega
    subst hil
    rw [List.getElem_append_right le_rfl, List.take_of_length_le (by simp)]
    simpa using he

/-- **A log at least as up to date keeps what it must.**  Let `l'` hold the
prefix `c`, whose last entry has term `t`, and let `l` be at least as up to date
as `l'`.  If the chains of the terms between `t` and the last term of `l` hold
`c`, then so does `l`. -/
theorem Coherent.prefix_of_upToDate {l l' c : List E} {t : ℕ} (hl : Coherent term chain l)
    (hl' : Coherent term chain l') (hasc : Ascending term l') (hc : c <+: l') (hne : c ≠ [])
    (ht : lastTerm term c = t) (hasc' : ∀ e ∈ c, term e ≤ t) (hup : UpToDate term l l')
    (hchain : t < lastTerm term l → c <+: chain (lastTerm term l)) : c <+: l := by
  have hne' : l' ≠ [] := by
    intro he
    rw [he, List.prefix_nil] at hc
    exact hne hc
  have htl' : t ≤ lastTerm term l' := by
    rw [← ht, lastTerm_eq_getLast hne]
    exact hasc.le_lastTerm (hc.subset (List.getLast_mem hne))
  rcases hup with hlt | ⟨heq, hlen⟩
  · -- a later last term: `l` is a prefix of a chain that holds `c`, and too late to end inside it
    have hlne : l ≠ [] := by
      rintro rfl
      simp [lastTerm] at hlt
    have h₁ := hchain (by omega)
    rcases List.prefix_or_prefix_of_prefix h₁ (hl.prefix_lastTerm hlne) with h | h
    · exact h
    · have := hasc' _ (h.subset (List.getLast_mem hlne))
      rw [← (lastTerm_eq_getLast hlne : lastTerm term l = _)] at this
      omega
  · -- the same last term: both are prefixes of one chain, and `l` is the longer
    have hlne : l ≠ [] := by
      rintro rfl
      exact hne' (List.length_eq_zero_iff.mp (by simpa using hlen))
    have h₁ := hl.prefix_lastTerm hlne
    have h₂ := hl'.prefix_lastTerm hne'
    rw [heq] at h₂
    exact hc.trans (prefix_of_length_le h₂ h₁ hlen)

/-! ### Taking over a log -/

/-- `l'` is `l` after it has taken over `m`: `l` itself if that holds `m`, and `m` otherwise. -/
def Adopts (l m l' : List E) : Prop := m <+: l ∧ l' = l ∨ ¬ m <+: l ∧ l' = m

theorem Adopts.holds {l m l' : List E} (h : Adopts l m l') : m <+: l' := by
  rcases h with ⟨hm, rfl⟩ | ⟨-, rfl⟩
  · exact hm
  · exact List.prefix_rfl

/-- A log that holds `m` already stays as it is. -/
theorem Adopts.eq_of_holds {l m l' : List E} (h : Adopts l m l') (hm : m <+: l) : l' = l := by
  rcases h with ⟨-, h⟩ | ⟨hnot, -⟩
  · exact h
  · exact absurd hm hnot

theorem Adopts.coherent {l m l' : List E} (h : Adopts l m l') (hl : Coherent term chain l)
    (hm : Coherent term chain m) : Coherent term chain l' := by
  rcases h with ⟨-, rfl⟩ | ⟨-, rfl⟩
  · exact hl
  · exact hm

/-- Taking over a log and then a longer one is taking over the longer one. -/
theorem Adopts.of_isPrefix {l m₁ m₂ a c : List E} (hm : m₁ <+: m₂) (ha : Adopts l m₁ a)
    (hc : Adopts a m₂ c) : Adopts l m₂ c := by
  rcases ha with ⟨-, rfl⟩ | ⟨hnot, rfl⟩
  · exact hc
  · refine Or.inr ⟨fun h => hnot (hm.trans h), ?_⟩
    rcases hc with ⟨h, rfl⟩ | ⟨-, rfl⟩
    · exact hm.eq_of_length (le_antisymm hm.length_le h.length_le)
    · rfl

theorem Adopts.unique {l m a b : List E} (ha : Adopts l m a) (hb : Adopts l m b) : a = b := by
  rcases ha with ⟨hm, rfl⟩ | ⟨hnot, rfl⟩
  · exact (hb.eq_of_holds hm).symm
  · rcases hb with ⟨hm, -⟩ | ⟨-, rfl⟩
    · exact absurd hm hnot
    · rfl

/-- **Two prefixes of one list are taken over in either order**, and both are there afterwards. -/
theorem Adopts.comm {l m₁ m₂ x a b c d : List E} (h₁ : m₁ <+: x) (h₂ : m₂ <+: x)
    (ha : Adopts l m₁ a) (hc : Adopts a m₂ c) (hb : Adopts l m₂ b) (hd : Adopts b m₁ d) :
    c = d ∧ m₁ <+: c ∧ m₂ <+: c := by
  rcases List.prefix_or_prefix_of_prefix h₁ h₂ with h | h
  · -- the second covers the first, which then changes nothing after it
    obtain rfl := hd.eq_of_holds (h.trans hb.holds)
    obtain rfl := (ha.of_isPrefix h hc).unique hb
    exact ⟨rfl, hd.holds, hc.holds⟩
  · obtain rfl := hc.eq_of_holds (h.trans ha.holds)
    obtain rfl := (hb.of_isPrefix h hd).unique ha
    exact ⟨rfl, hd.holds, hc.holds⟩

end TermLog
end SepLab
