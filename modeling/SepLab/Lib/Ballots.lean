import Mathlib.Logic.Function.Basic
import Mathlib.Logic.Relation
import Mathlib.Tactic.Common
import SepLab.Lib.Quorum
import SepLab.Lib.TermLog

/-!
# An abstract leader-based replicated log

What a leader-based consensus protocol knows, with the messages taken out.  Each
voter has a current term and a log; candidates stand in a term with a log; a
voter votes at most once a term and only for a log at least as up to date as its
own; a quorum of votes makes the leader of a term, whose log becomes the term's
*chain*; leaders extend their chains, and voters of the same term accept
prefixes of them, which the protocol records as acknowledged.  Votes, stands,
leaders and acknowledgements are never taken back, so a message that carries one
of them stays true however late it arrives.

## Main definitions

* `Ballots` — the state, `Ballots.init g` the initial one with genesis log `g`.
* `Step q term` — one protocol step.
* `Committed q term b t n` — a quorum acknowledged the first `n` entries of the
  chain of term `t`, the last of which `t`'s own leader created.
* `Elections`, `Chains`, `Acks` — the invariants.

## Main results

* `Elections.leader_eq` — **election safety**: a term has one leader.
* `Acks.committed_isPrefix` — **leader completeness**: what is committed in one
  term is in the chain of every later leader.
* `Acks.committed_comparable` — two committed logs are prefixes one of the other.
-/

namespace SepLab

/-- `f` with the value at `(a, b)` replaced by `c`. -/
def set₂ {α β γ : Type*} [DecidableEq α] [DecidableEq β] (f : α → β → γ) (a : α) (b : β) (c : γ) :
    α → β → γ :=
  fun x y => if x = a ∧ y = b then c else f x y

theorem set₂_apply {α β γ : Type*} [DecidableEq α] [DecidableEq β] (f : α → β → γ) (a : α) (b : β)
    (c : γ) (x : α) (y : β) : set₂ f a b c x y = if x = a ∧ y = b then c else f x y := rfl

@[simp] theorem set₂_self {α β γ : Type*} [DecidableEq α] [DecidableEq β] (f : α → β → γ) (a : α)
    (b : β) (c : γ) : set₂ f a b c a b = c := if_pos ⟨rfl, rfl⟩

@[simp] theorem set₂_set₂ {α β γ : Type*} [DecidableEq α] [DecidableEq β] (f : α → β → γ) (a : α)
    (b : β) (c d : γ) : set₂ (set₂ f a b c) a b d = set₂ f a b d := by
  funext x y
  simp only [set₂_apply]
  split <;> rfl

/-- The knowledge of a leader-based replicated log over voters `P` and entries `E`. -/
structure Ballots (P E : Type*) where
  /-- The term each voter is in. -/
  current : P → ℕ
  /-- The log each voter has. -/
  log : P → List E
  /-- Whom a voter voted for in a term, and its own log at that moment. -/
  vote : P → ℕ → Option (P × List E)
  /-- The log with which a candidate stood in a term. -/
  stood : P → ℕ → Option (List E)
  /-- The leader of a term. -/
  leader : ℕ → Option P
  /-- The log of the leader of a term, as far as it has got. -/
  chain : ℕ → List E
  /-- How many entries of a term's chain a voter has acknowledged. -/
  acked : P → ℕ → ℕ

namespace Ballots

open TermLog

variable {P E : Type*} (q : QuorumSystem P) (term : E → ℕ)

/-- Nobody has voted; all logs are the genesis log, which is the chain of term `0`. -/
def init (g : List E) : Ballots P E where
  current _ := 0
  log _ := g
  vote _ _ := none
  stood _ _ := none
  leader _ := none
  chain t := if t = 0 then g else []
  acked _ _ := 0

/-- One step of the protocol, taken by voter `p`. -/
inductive Step [DecidableEq P] (p : P) (b : Ballots P E) : Ballots P E → Prop
  /-- A voter learns of a later term. -/
  | advance (t : ℕ) (ht : b.current p < t) :
      Step p b { b with current := Function.update b.current p t }
  /-- A voter stands in a later term, and votes for itself. -/
  | stand (t : ℕ) (ht : b.current p < t) :
      Step p b { b with
        current := Function.update b.current p t
        vote := set₂ b.vote p t (some (p, b.log p))
        stood := set₂ b.stood p t (some (b.log p)) }
  /-- A voter gives its one vote of the term to a candidate at least as up to date. -/
  | grant (c : P) (l : List E) (hnew : b.vote p (b.current p) = none)
      (hl : b.stood c (b.current p) = some l) (hup : UpToDate term l (b.log p)) :
      Step p b { b with vote := set₂ b.vote p (b.current p) (some (c, b.log p)) }
  /-- A candidate that a quorum voted for becomes the leader. -/
  | elect (s : Finset P) (hl : b.stood p (b.current p) = some (b.log p))
      (hnew : b.leader (b.current p) ≠ some p) (hs : q.IsQuorum s)
      (hv : ∀ v ∈ s, ∃ l, b.vote v (b.current p) = some (p, l)) :
      Step p b { b with
        leader := Function.update b.leader (b.current p) (some p)
        chain := Function.update b.chain (b.current p) (b.log p)
        acked := set₂ b.acked p (b.current p) (b.log p).length }
  /-- The leader of a term adds an entry. -/
  | append (e : E) (hp : b.leader (b.current p) = some p) (he : term e = b.current p) :
      Step p b { b with
        log := Function.update b.log p (b.log p ++ [e])
        chain := Function.update b.chain (b.current p) (b.log p ++ [e])
        acked := set₂ b.acked p (b.current p) (b.log p ++ [e]).length }
  /-- A voter takes over a prefix of its term's chain, unless it has it already. -/
  | accept (m l : List E) (hp : b.leader (b.current p) ≠ none)
      (hm : m <+: b.chain (b.current p))
      (hl : m <+: b.log p ∧ l = b.log p ∨ ¬ m <+: b.log p ∧ l = m) :
      Step p b { b with
        log := Function.update b.log p l
        acked := set₂ b.acked p (b.current p) (max (b.acked p (b.current p)) m.length) }

/-- A run of the protocol. -/
def Steps [DecidableEq P] : Ballots P E → Ballots P E → Prop :=
  Relation.ReflTransGen fun b b' => ∃ p, Step q term p b b'

/-- The first `n` entries of the chain of term `t` are committed: its leader
created the last of them, and a quorum acknowledged them all. -/
def Committed (b : Ballots P E) (t n : ℕ) : Prop :=
  0 < n ∧ n ≤ (b.chain t).length ∧ lastTerm term ((b.chain t).take n) = t ∧
    ∃ s, q.IsQuorum s ∧ ∀ v ∈ s, n ≤ b.acked v t

/-! ### Invariants -/

/-- Votes and elections: a term's leader has a quorum of the term's votes. -/
structure Elections (b : Ballots P E) : Prop where
  vote_le : ∀ {v t x}, b.vote v t = some x → t ≤ b.current v
  stood_le : ∀ {p t l}, b.stood p t = some l → t ≤ b.current p
  stood_pos : ∀ {p t l}, b.stood p t = some l → 0 < t
  vote_stood : ∀ {v t c l}, b.vote v t = some (c, l) →
    ∃ l', b.stood c t = some l' ∧ UpToDate term l' l
  leader_stood : ∀ {t p}, b.leader t = some p → ∃ l, b.stood p t = some l
  leader_votes : ∀ {t p}, b.leader t = some p →
    ∃ s, q.IsQuorum s ∧ ∀ v ∈ s, ∃ l, b.vote v t = some (p, l)

/-- Logs and chains: every log is coherent with the chains and ascending. -/
structure Chains (g : List E) (b : Ballots P E) : Prop where
  chain_zero : b.chain 0 = g
  chain_none : ∀ {t}, b.leader t = none → 0 < t → b.chain t = []
  leader_log : ∀ {t p}, b.leader t = some p → b.current p = t → b.log p = b.chain t
  chain_stood : ∀ {t p l}, b.leader t = some p → b.stood p t = some l →
    ∃ es, b.chain t = l ++ es ∧ ∀ e ∈ es, term e = t
  chain_coherent : ∀ t, Coherent term b.chain (b.chain t)
  chain_ascending : ∀ t, Ascending term (b.chain t)
  chain_le : ∀ {t e}, e ∈ b.chain t → term e ≤ t
  chain_genesis : ∀ {t}, b.leader t ≠ none → g <+: b.chain t
  log_coherent : ∀ v, Coherent term b.chain (b.log v)
  log_ascending : ∀ v, Ascending term (b.log v)
  log_le : ∀ {v e}, e ∈ b.log v → term e ≤ b.current v
  log_genesis : ∀ v, g <+: b.log v
  stood_coherent : ∀ {p t l}, b.stood p t = some l → Coherent term b.chain l
  stood_lt : ∀ {p t l}, b.stood p t = some l → ∀ e ∈ l, term e < t
  vote_coherent : ∀ {v t c l}, b.vote v t = some (c, l) → Coherent term b.chain l
  vote_ascending : ∀ {v t c l}, b.vote v t = some (c, l) → Ascending term l

/-- The log `l` of a voter in term `u` still has what it acknowledged in term `t`, unless the
chain of a leader after `t`, up to `u`, lacks it. -/
def Held (b : Ballots P E) (l : List E) (u t n : ℕ) : Prop :=
  (b.chain t).take n <+: l ∨
    ∃ u', t < u' ∧ u' ≤ u ∧ b.leader u' ≠ none ∧ ¬ (b.chain t).take n <+: b.chain u'

/-- A quorum has left term `t` without acknowledging `n` entries of its chain: it never will. -/
def Closed (b : Ballots P E) (t n : ℕ) : Prop :=
  ∃ s, q.IsQuorum s ∧ ∀ v ∈ s, t < b.current v ∧ b.acked v t < n

/-- Acknowledgements: what was acknowledged is held, what a later chain lacks is closed. -/
structure Acks (b : Ballots P E) : Prop where
  acked_le : ∀ v t, b.acked v t ≤ (b.chain t).length
  acked_term : ∀ {v t}, 0 < b.acked v t → t ≤ b.current v
  leader_acked : ∀ {t p}, b.leader t = some p → b.acked p t = (b.chain t).length
  held : ∀ {v t n}, n ≤ b.acked v t → b.Held (b.log v) (b.current v) t n
  vote_held : ∀ {v u c l t n}, b.vote v u = some (c, l) → t < u → n ≤ b.acked v t → b.Held l u t n
  complete : ∀ {u t n}, b.leader u ≠ none → t < u → 0 < n → n ≤ (b.chain t).length →
    lastTerm term ((b.chain t).take n) = t →
    (b.chain t).take n <+: b.chain u ∨ b.Closed q t n

variable {q term}

/-- **Election safety**: two leaders of one term are one. -/
theorem Elections.leader_eq {b : Ballots P E} (h : Elections q term b) {t : ℕ} {p p' : P}
    {s : Finset P} (hs : q.IsQuorum s) (hv : ∀ v ∈ s, ∃ l, b.vote v t = some (p', l))
    (hp : b.leader t = some p) : p = p' := by
  obtain ⟨s', hs', hv'⟩ := h.leader_votes hp
  obtain ⟨v, hvs', hvs⟩ := q.inter hs' hs
  obtain ⟨l', h₁⟩ := hv' v hvs'
  obtain ⟨l, h₂⟩ := hv v hvs
  rw [h₁, Option.some_inj, Prod.mk.injEq] at h₂
  exact h₂.1

/-- **Leader completeness**: a committed log is a prefix of every later leader's chain. -/
theorem Acks.committed_isPrefix {b : Ballots P E} (h : Acks q term b) {t u n : ℕ}
    (hc : Committed q term b t n) (hu : b.leader u ≠ none) (htu : t < u) :
    (b.chain t).take n <+: b.chain u := by
  obtain ⟨hn, hlen, hlast, s, hs, hack⟩ := hc
  rcases h.complete hu htu hn hlen hlast with hpre | ⟨s', hs', hcl⟩
  · exact hpre
  · refine absurd (q.not_forall_of_forall_not hs hs' hack ?_) id
    intro v hv
    have := (hcl v hv).2
    omega

/-- A voter that is still in the term has what it acknowledged in it. -/
theorem Acks.acked_isPrefix {b : Ballots P E} (h : Acks q term b) {v : P} {t n : ℕ}
    (ht : b.current v = t) (hn : n ≤ b.acked v t) : (b.chain t).take n <+: b.log v := by
  rcases h.held hn with hpre | ⟨u, hlt, hle, -, -⟩
  · exact hpre
  · -- no later leader can have had an effect yet
    omega

/-- Of two committed logs, one is a prefix of the other. -/
theorem Acks.committed_comparable {b : Ballots P E} {g : List E} (h : Acks q term b)
    (hch : Chains term g b) {t u n m : ℕ} (ht : Committed q term b t n)
    (hu : Committed q term b u m) :
    (b.chain t).take n <+: (b.chain u).take m ∨ (b.chain u).take m <+: (b.chain t).take n := by
  have hlead : ∀ {t u n m}, Committed q term b t n → Committed q term b u m → t < u →
      b.leader u ≠ none := by
    intro t u n m _ hu htu hnone
    have hnil := hch.chain_none hnone (by omega)
    obtain ⟨hm, hlen, -⟩ := hu
    rw [hnil, List.length_nil] at hlen
    omega
  rcases Nat.lt_trichotomy t u with htu | rfl | htu
  · exact List.prefix_or_prefix_of_prefix (h.committed_isPrefix ht (hlead ht hu htu) htu)
      (List.take_prefix m _)
  · exact List.prefix_or_prefix_of_prefix (List.take_prefix n _) (List.take_prefix m _)
  · exact ( List.prefix_or_prefix_of_prefix (h.committed_isPrefix hu (hlead hu ht htu) htu)
      (List.take_prefix n _)).symm

end Ballots
end SepLab
