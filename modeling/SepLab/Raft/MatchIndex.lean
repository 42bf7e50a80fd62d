import SepLab.Raft.Safety

/-!
# What a leader knows of its followers' logs

`matchIndex` is set from a request when its reply arrives, by which time the leader's log and the
follower's may both have moved on. What the follower acknowledged it has acknowledged for its
term, though: as long as it stays in the term it keeps these entries, and the leader's log only
grows.

## Main results

* `Cluster.Refines.agree` — a leader's log and a follower's agree up to what was acknowledged.
* `match_index_truthful` — **`matchIndex` is truthful**, in every reachable state and from there
  on as long as the leader leads its term and the follower is in it.
-/

namespace SepLab
namespace Raft

variable {n : ℕ} {Cmd : Type} [Inhabited Cmd] {G : Gob n Cmd}

/-- The leader's log is the chain of its term. -/
theorem Refines.log_eq_chain {b : Knowledge n Cmd} (hb : b.Sound) {i : Fin n} {p : Peer G}
    (h : Refines b i p) (hr : p.rf.role = .leader) : p.rf.log = b.chain p.rf.currentTerm := by
  rw [← h.log]
  exact hb.chains.leader_log (h.leader hr) h.current

namespace Cluster

variable {b b' : Knowledge n Cmd} {s s' : Cluster G}

/-- A leader's log and that of a server in its term agree up to what was acknowledged. -/
theorem Refines.agree (hb : b.Sound) (h : s.Refines b) {i p : Fin n}
    (hr : (s.node i).rf.role = .leader)
    (ht : (s.node p).rf.currentTerm = (s.node i).rf.currentTerm) {k : ℕ}
    (hk : k < b.acked p (s.node i).rf.currentTerm) :
    ∃ e, (b.chain (s.node i).rf.currentTerm)[k]? = some e ∧
      (s.node i).rf.log[k]? = some e ∧ (s.node p).rf.log[k]? = some e := by
  have hlog : (s.node i).rf.log = b.chain (s.node i).rf.currentTerm :=
    (h.peers i).log_eq_chain hb hr
  have hterm : b.current p = (s.node i).rf.currentTerm := (h.peers p).current.trans ht
  -- the follower holds what it has acknowledged, of the leader's own log
  have hheld : (b.chain (s.node i).rf.currentTerm).take (k + 1) <+: (s.node p).rf.log :=
    (h.peers p).log ▸ hb.acks.acked_isPrefix hterm hk
  have hlen : k < (b.chain (s.node i).rf.currentTerm).length := hk.trans_le (hb.acks.acked_le p _)
  have hin : k < ((b.chain (s.node i).rf.currentTerm).take (k + 1)).length := by
    rw [List.length_take]
    omega
  refine ⟨(b.chain (s.node i).rf.currentTerm)[k], List.getElem?_eq_getElem hlen, ?_, ?_⟩
  · rw [hlog, List.getElem?_eq_getElem hlen]
  · rw [List.getElem?_eq_getElem (hin.trans_le hheld.length_le), ← hheld.getElem hin,
      List.getElem_take]

end Cluster

/-- **`matchIndex` is truthful.**  In every reachable state the log of a leader and the log of a
server in its term have the same entries at the indices from `1` to the leader's `matchIndex` for
it; and in every later state in which the leader still leads the term and the server is still in
it, both have these same entries there. -/
theorem match_index_truthful {s : Cluster G} (h : Reach Cluster.failStop (Cluster.init G) s)
    {i p : Fin n} (hp : p ≠ i) (hr : (s.node i).rf.role = .leader)
    (ht : (s.node p).rf.currentTerm = (s.node i).rf.currentTerm) {k : ℕ} (hk₁ : 1 ≤ k)
    (hk : k ≤ (s.node i).rf.matchIndex p) :
    ∃ e, (s.node i).rf.log[k]? = some e ∧ (s.node p).rf.log[k]? = some e ∧
      ∀ s', Reach Cluster.failStop s s' → (s'.node i).rf.role = .leader →
        (s'.node i).rf.currentTerm = (s.node i).rf.currentTerm →
        (s'.node p).rf.currentTerm = (s.node i).rf.currentTerm →
        (s'.node i).rf.log[k]? = some e ∧ (s'.node p).rf.log[k]? = some e := by
  obtain ⟨b, -, hb, href⟩ := Cluster.refines_of_reach h
  have hacked : k < b.acked p (s.node i).rf.currentTerm := by
    rcases (href.peers i).matched hr p hp with hzero | hlt
    · have hzero : (s.node i).rf.matchIndex p = 0 := hzero
      omega
    · exact hk.trans_lt hlt
  obtain ⟨e, hchain, hi, hpe⟩ := href.agree hb hr ht hacked
  refine ⟨e, hi, hpe, fun s' h' hr' ht' htp' => ?_⟩
  -- what is known has only grown since
  obtain ⟨b', hsteps, hb', href'⟩ := href.run hb h'
  have hgrows := hsteps.grows hb
  obtain ⟨e', hchain', hi', hpe'⟩ := href'.agree hb' hr' (htp'.trans ht'.symm)
    (ht' ▸ hacked.trans_le (hgrows.acked p _))
  have hsame : e = e' := by
    have hlen : k < (b.chain (s.node i).rf.currentTerm).length :=
      (List.getElem?_eq_some_iff.mp hchain).1
    obtain ⟨es, hes⟩ := hgrows.chain (s.node i).rf.currentTerm
    rw [ht', ← hes, List.getElem?_append_left hlen, hchain, Option.some_inj] at hchain'
    exact hchain'
  exact ⟨hsame ▸ hi', hsame ▸ hpe'⟩

theorem match_index_truthful_one : ∃ s : Cluster (Gob.letter 3 ℕ),
    (s.node 0).rf.matchIndex 1 = 1 ∧
      ∃ e, (s.node 0).rf.log[1]? = some e ∧ (s.node 1).rf.log[1]? = some e := by
  have hrun : ((exec Cluster.failStop (Cluster.init (Gob.letter 3 ℕ))
      [.startElection 0 0, .requestVote 0, .voteReply 0, .start 0 0 7, .replicateTo 0 0 1 1,
        .appendEntries 0, .appendReply 0]).map fun s =>
      ((s.node 0).rf.role, (s.node 0).rf.currentTerm, (s.node 1).rf.currentTerm,
        (s.node 0).rf.matchIndex 1)) = some (.leader, 1, 1, 1) := by decide
  obtain ⟨s, hs, hobs⟩ := Option.map_eq_some_iff.mp hrun
  simp only [Prod.mk.injEq] at hobs
  obtain ⟨hr, ht, ht', hm⟩ := hobs
  obtain ⟨e, he, he', -⟩ := match_index_truthful (.of_exec _ hs) (i := 0) (p := 1) (by decide) hr
    (ht'.trans ht.symm) le_rfl hm.ge
  exact ⟨s, hm, e, he, he'⟩

end Raft
end SepLab
