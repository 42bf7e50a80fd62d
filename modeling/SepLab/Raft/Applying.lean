import SepLab.Raft.Safety
import SepLab.Raft.Steps

/-!
# Commit and apply indices

What the indices of a server say about its log and about what its applier has
delivered.  The commit index of an `AppendEntries` request is bounded by the end
of its batch, so the handler never lowers the follower's; what the follower has
committed is settled, so the handler never truncates it; and the batches that an
applier takes follow each other without a gap.

## Main definitions

* `Cluster.InOrder s` — what an instance has delivered and what its applier holds
  are the indices from `1` to `lastApplied`.

## Main results

* `Cluster.Section.commitIndex_le` — no section lowers the commit index.
* `Cluster.committed_kept` — no step changes an entry up to the commit index.
* `Cluster.InOrder.step`
* `commit_and_apply` — all of it, for every reachable cluster.
-/

namespace SepLab
namespace Raft

variable {n : ℕ} {Cmd : Type} [Inhabited Cmd] {G : Gob n Cmd}

/-! ### The commit index -/

omit [Inhabited Cmd] in
theorem AppendEntriesArgs.Known.leaderCommit_le {b : Knowledge n Cmd} {src : Fin n}
    {args : AppendEntriesArgs n Cmd} (h : args.Known b src) :
    args.leaderCommit ≤ args.prevLogIndex + args.entries.length := by
  obtain ⟨m, hm⟩ := h.cut
  exact hm.leaderCommit_le

omit [Inhabited Cmd] in
/-- The handler of `AppendEntries` does not lower the commit index, if the
request does not promise more than the end of its batch. -/
theorem Peer.appendEntries_commitIndex (p : Peer G) {args : AppendEntriesArgs n Cmd}
    (h : args.leaderCommit ≤ args.prevLogIndex + args.entries.length) :
    p.rf.commitIndex ≤ (p.appendEntries args).1.rf.commitIndex := by
  obtain ⟨-, hcommit, -⟩ := p.observe_kept args.term
  unfold Peer.appendEntries
  split
  · exact le_rfl
  dsimp only
  split
  · exact hcommit.ge
  split
  · exact hcommit.ge
  · show p.rf.commitIndex ≤ if args.leaderCommit > (p.observe args.term).rf.commitIndex then
      min args.leaderCommit (args.prevLogIndex + args.entries.length)
      else (p.observe args.term).rf.commitIndex
    rw [hcommit, Nat.min_eq_left h]
    split <;> omega

omit [Inhabited Cmd] in
/-- Nor does the callback of an append reply. -/
theorem Peer.appendReply_commitIndex (p : Peer G) (me peer : Fin n)
    (args : AppendEntriesArgs n Cmd) (reply : AppendEntriesReply) :
    p.rf.commitIndex ≤ (p.appendReply me peer args reply).rf.commitIndex := by
  have hloop : ∀ (rf : Server n Cmd), rf.commitIndex ≤ (rf.advanceCommitIndex me).commitIndex := by
    intro rf
    unfold Server.advanceCommitIndex
    rcases advanceLoop_spec rf me (lastLogIndex rf.log) with heq | ⟨c, hlt, -, -, -, heq⟩
    · rw [heq]
    · rw [heq]
      exact hlt.le
  unfold Peer.appendReply
  split
  · exact le_rfl
  split
  · exact le_rfl
  split
  · dsimp only
    split
    · exact hloop { p.rf with
        matchIndex := Function.update p.rf.matchIndex peer _
        nextIndex := Function.update p.rf.nextIndex peer _ }
    · exact hloop p.rf
  · exact le_rfl

namespace Cluster

variable {b b' : Knowledge n Cmd} {s s' : Cluster G} {a : Action n Cmd}

/-- **No section lowers the commit index.** -/
theorem Section.commitIndex_le (href : s.Refines b) {i : Fin n} {k : ℕ} {p : Peer G}
    (h : s.Section a i k p) : (s.inst i k).rf.commitIndex ≤ p.rf.commitIndex := by
  cases h with
  | startElection hk h =>
    unfold Peer.startElection at h
    split at h
    · cases h
    · rw [Option.some_inj, Prod.mk.injEq] at h
      rw [← h.1]
      exact le_rfl
  | @requestVote c call hc hlive =>
    obtain ⟨-, hcommit, -⟩ := (s.peer call.dst (s.nodes call.dst)).observe_kept call.args.term
    unfold Peer.requestVote
    split
    · exact le_rfl
    dsimp only
    split
    · exact hcommit.ge
    · exact hcommit.ge
  | voteReply hc hr =>
    unfold Peer.voteReply
    split
    · exact le_rfl
    split
    · exact le_rfl
    split
    · split
      · unfold Server.becomeLeaderLocked
        split
        · exact le_rfl
        · exact le_rfl
      · exact le_rfl
    · exact le_rfl
  | start hk command =>
    unfold Peer.start
    split
    · exact le_rfl
    · exact le_rfl
  | @appendEntries c call hc hlive =>
    have hknown := (href.appendCalls call (List.mem_of_getElem? hc)).1
    exact Peer.appendEntries_commitIndex (s.peer call.dst (s.nodes call.dst))
      hknown.args.leaderCommit_le
  | @appendReply c call reply hc hr =>
    exact Peer.appendReply_commitIndex (s.peer call.src call.inc) _ _ _ _

/-- **No step lowers the commit index of an instance.** -/
theorem step_commitIndex_le (href : s.Refines b) (h : step s a = some s') {i : Fin n} {k : ℕ}
    (hk : k ≤ s.nodes i) : (s.inst i k).rf.commitIndex ≤ (s'.inst i k).rf.commitIndex := by
  cases step_effect h with
  | @acted j l p hsec votes inst =>
    rw [inst, set₂_apply]
    split
    · next hjl =>
      obtain ⟨rfl, rfl⟩ := hjl
      exact hsec.commitIndex_le href
    · exact le_rfl
  | quiet inst => rw [inst]
  | @applier j l rf batch ha hl hnil happ inst =>
    rw [inst, set₂_apply]
    split
    · next hjl =>
      obtain ⟨rfl, rfl⟩ := hjl
      unfold Server.applier at happ
      split at happ
      · cases happ
      · rw [Option.some_inj, Prod.mk.injEq] at happ
        rw [← happ.1]
    · exact le_rfl
  | @send j l msg rest ha hl hbatch inst =>
    rw [inst, set₂_apply]
    split
    · next hjl =>
      obtain ⟨rfl, rfl⟩ := hjl
      exact le_rfl
    · exact le_rfl
  | @crash j ha hlive inst =>
    rw [inst, set₂_apply]
    split
    · next hjl =>
      obtain ⟨rfl, rfl⟩ := hjl
      exact le_rfl
    · exact le_rfl
  | @restart j ha hdead inst =>
    -- the new instance is not one of those that were there
    rw [inst, set₂_apply, if_neg]
    rintro ⟨rfl, rfl⟩
    omega

/-- **What a server has committed stays.**  A step that leaves the attached
instance attached keeps every entry up to its commit index. -/
theorem committed_kept (hb : b.Sound) (href : s.Refines b) (h : failStop s a = some s')
    {i : Fin n} (hi : s'.nodes i = s.nodes i) :
    (s'.node i).rf.log.take ((s.node i).rf.commitIndex + 1) =
      (s.node i).rf.log.take ((s.node i).rf.commitIndex + 1) := by
  have hle : (s.node i).rf.commitIndex ≤ (s'.node i).rf.commitIndex := by
    have := step_commitIndex_le href (step_of_guarded h).2 (le_refl (s.nodes i))
    unfold node
    rwa [hi]
  obtain ⟨b', hsteps, hb', href'⟩ := href.step hb h
  have hgrows : Ballots.Grows b b' := hsteps.grows hb
  have hset := (href.peers i).settled.grows hgrows le_rfl List.prefix_rfl
  have hset' := (href'.peers i).settled.of_le hle
  have hgen : [sentinel] <+: (s.node i).rf.log :=
    (href.peers i).log ▸ hb.chains.log_genesis i
  have hgen' : [sentinel] <+: (s'.node i).rf.log :=
    (href'.peers i).log ▸ hb'.chains.log_genesis i
  exact hset'.take_eq hb' hgen' hgen hset

/-! ### Delivery -/

/-- What an instance has delivered and what its applier still holds are the
indices from `1` to `lastApplied`, in order. -/
structure InOrder (s : Cluster G) : Prop where
  made : ∀ {i k}, k ≤ s.nodes i →
    s.delivered i k ++ (s.inst i k).batch.map ApplyMsg.commandIndex =
      List.range' 1 (s.inst i k).rf.lastApplied
  unmade : ∀ {i k}, s.nodes i < k → s.delivered i k = []

end Cluster

omit [Inhabited Cmd] in
theorem map_commandIndex_applyMsgs (start : ℕ) (entries : List (LogEntry Cmd)) :
    (applyMsgs start entries).map ApplyMsg.commandIndex = List.range' start entries.length := by
  apply List.ext_getElem
  · simp [applyMsgs]
  · intro i h h'
    simp [applyMsgs]

omit [Inhabited Cmd] in
/-- An applier takes the messages that follow those it has taken. -/
theorem Server.applier_indices {rf rf' : Server n Cmd} {batch : List (ApplyMsg Cmd)}
    (h : rf.applier = some (rf', batch)) (hlen : rf.commitIndex < rf.log.length) :
    List.range' 1 rf.lastApplied ++ batch.map ApplyMsg.commandIndex =
      List.range' 1 rf'.lastApplied := by
  unfold Server.applier at h
  split at h
  · cases h
  next hcond =>
  push Not at hcond
  rw [Option.some_inj, Prod.mk.injEq] at h
  obtain ⟨rfl, rfl⟩ := h
  have hbatch : ((rf.log.take (rf.commitIndex + 1)).drop (rf.lastApplied + 1)).length =
      rf.commitIndex - rf.lastApplied := by
    rw [List.length_drop, List.length_take]
    omega
  rw [map_commandIndex_applyMsgs, hbatch, Nat.add_comm rf.lastApplied 1, List.range'_append_1]
  rw [Nat.add_sub_cancel' hcond.2.le]

namespace Cluster

variable {b b' : Knowledge n Cmd} {s s' : Cluster G} {a : Action n Cmd}

theorem InOrder.init : (init G : Cluster G).InOrder where
  made _ := by simp [Cluster.init, fresh, make_eq, delivered]
  unmade _ := rfl

/-- **Deliveries stay in order.** -/
theorem InOrder.step (hs : s.InOrder) (hb : b.Sound) (href : s.Refines b)
    (h : failStop s a = some s') : s'.InOrder := by
  cases step_effect (step_of_guarded h).2 with
  | @acted j l p hsec votes inst nodes persisters del =>
    refine ⟨fun {i k} hk => ?_, fun hk => ?_⟩
    · rw [nodes] at hk
      rw [del, inst, set₂_apply]
      split
      · next hjl =>
        obtain ⟨rfl, rfl⟩ := hjl
        dsimp only
        rw [hsec.kept.1]
        exact hs.made hk
      · exact hs.made hk
    · rw [nodes] at hk
      rw [del]
      exact hs.unmade hk
  | quiet inst nodes persisters del =>
    refine ⟨fun hk => ?_, fun hk => ?_⟩
    · rw [nodes] at hk
      rw [del, inst]
      exact hs.made hk
    · rw [nodes] at hk
      rw [del]
      exact hs.unmade hk
  | @applier j l rf batch ha hl hnil happ inst nodes persisters del =>
    refine ⟨fun {i k} hk => ?_, fun hk => ?_⟩
    · rw [nodes] at hk
      rw [del, inst, set₂_apply]
      split
      · next hjl =>
        obtain ⟨rfl, rfl⟩ := hjl
        -- only the attached instance is alive, and its commit index is within its log
        have hd : (s.inst i k).rf.dead = false := by
          by_contra hdead
          rw [Server.applier, if_pos (Or.inl (by simpa using hdead))] at happ
          cases happ
        obtain rfl := href.eq_node hk hd
        have hgen : [sentinel] <+: (s.node i).rf.log :=
          (href.peers i).log ▸ hb.chains.log_genesis i
        have hlen := (href.peers i).settled.lt_length (length_pos_of_sentinel hgen)
        have hmade := hs.made hk
        rw [hnil, List.map_nil, List.append_nil] at hmade
        dsimp only
        rw [hmade]
        exact Server.applier_indices happ hlen
      · exact hs.made hk
    · rw [nodes] at hk
      rw [del]
      exact hs.unmade hk
  | @send j l msg rest ha hl hbatch inst nodes persisters del =>
    refine ⟨fun {i k} hk => ?_, fun {i k} hk => ?_⟩
    · rw [nodes] at hk
      rw [del, inst, set₂_apply, set₂_apply]
      split
      · next hjl =>
        obtain ⟨rfl, rfl⟩ := hjl
        have hmade := hs.made hk
        rw [hbatch] at hmade
        simpa using hmade
      · exact hs.made hk
    · rw [nodes] at hk
      rw [del, set₂_apply, if_neg]
      · exact hs.unmade hk
      · rintro ⟨rfl, rfl⟩
        omega
  | @crash j ha hlive inst nodes persisters del =>
    refine ⟨fun {i k} hk => ?_, fun hk => ?_⟩
    · rw [nodes] at hk
      rw [del, inst, set₂_apply]
      split
      · next hjl =>
        obtain ⟨rfl, rfl⟩ := hjl
        exact hs.made hk
      · exact hs.made hk
    · rw [nodes] at hk
      rw [del]
      exact hs.unmade hk
  | @restart j ha hdead inst nodes persisters del =>
    refine ⟨fun {i k} hk => ?_, fun {i k} hk => ?_⟩
    · rw [del, inst, set₂_apply]
      split
      · next hjl =>
        obtain ⟨rfl, rfl⟩ := hjl
        rw [hs.unmade (Nat.lt_succ_self _)]
        simp [fresh, make_eq]
      · next hjl =>
        refine hs.made ?_
        rw [nodes, Function.update_apply] at hk
        split at hk
        · next hi =>
          subst hi
          have : k ≠ s.nodes i + 1 := fun hc => hjl ⟨rfl, hc⟩
          omega
        · exact hk
    · rw [del]
      refine hs.unmade (lt_of_le_of_lt ?_ hk)
      rw [nodes, Function.update_apply]
      split
      · next hi => rw [hi]; exact Nat.le_succ _
      · exact le_rfl

theorem inOrder_of_reach (h : Reach failStop (Cluster.init G) s) : s.InOrder := by
  refine (h.invariant (P := fun s => (∃ b : Knowledge n Cmd, b.Sound ∧ s.Refines b) ∧ s.InOrder)
    ?_ ?_).2
  · obtain ⟨b, -, hb, href⟩ := refines_of_reach (G := G) .refl
    exact ⟨⟨b, hb, href⟩, .init⟩
  · rintro s a s' ⟨⟨b, hb, href⟩, hs⟩ hstep
    obtain ⟨b', -, hb', href'⟩ := href.step hb hstep
    exact ⟨⟨b', hb', href'⟩, hs.step hb href hstep⟩

end Cluster

/-! ### Reachable clusters -/

/-- **Commit and apply indices.**  In every reachable cluster the indices of a
server are in order and within its log, so that the slice which its applier takes
is in range; no step lowers the commit index of an instance; `AppendEntries`
leaves every entry up to the commit index as it is; and every instance delivers
the indices `1, 2, 3, …` in order. -/
theorem commit_and_apply {s : Cluster G} (h : Reach Cluster.failStop (Cluster.init G) s) :
    (∀ i, (s.node i).rf.lastApplied ≤ (s.node i).rf.commitIndex ∧
      (s.node i).rf.commitIndex ≤ lastLogIndex (s.node i).rf.log) ∧
    (∀ i, (s.node i).rf.lastApplied + 1 ≤ (s.node i).rf.commitIndex + 1 ∧
      (s.node i).rf.commitIndex + 1 ≤ (s.node i).rf.log.length) ∧
    (∀ a s', Cluster.failStop s a = some s' → ∀ i k, k ≤ s.nodes i →
      (s.inst i k).rf.commitIndex ≤ (s'.inst i k).rf.commitIndex) ∧
    (∀ c s', Cluster.failStop s (.appendEntries c) = some s' → ∀ i idx,
      idx ≤ (s.node i).rf.commitIndex → (s'.node i).rf.log[idx]? = (s.node i).rf.log[idx]?) ∧
    ∀ i k, s.delivered i k = List.range' 1 (s.delivered i k).length := by
  obtain ⟨b, -, hb, href⟩ := Cluster.refines_of_reach h
  have hin : ∀ i, (s.node i).rf.commitIndex < (s.node i).rf.log.length := by
    intro i
    have hgen : [sentinel] <+: (s.node i).rf.log := (href.peers i).log ▸ hb.chains.log_genesis i
    exact (href.peers i).settled.lt_length (length_pos_of_sentinel hgen)
  have happ : ∀ i, (s.node i).rf.lastApplied ≤ (s.node i).rf.commitIndex :=
    fun i => (href.peers i).applied
  refine ⟨fun i => ⟨happ i, Nat.le_sub_one_of_lt (hin i)⟩,
    fun i => ⟨Nat.succ_le_succ (happ i), hin i⟩, ?_, ?_, ?_⟩
  · intro a s' hs i k hk
    exact Cluster.step_commitIndex_le href (step_of_guarded hs).2 hk
  · intro c s' hs i idx hidx
    have hnodes : s'.nodes = s.nodes := by
      cases Cluster.step_effect (step_of_guarded hs).2 with
      | acted hsec votes inst nodes => exact nodes
      | quiet inst nodes => exact nodes
      | applier ha hk hnil happ inst nodes => exact nodes
      | send ha hk hbatch inst nodes => exact nodes
      | crash ha hlive inst nodes => exact nodes
      | restart ha => cases ha
    have hkept := Cluster.committed_kept hb href hs (congrFun hnodes i)
    have hget := congrArg (fun l => l[idx]?) hkept
    simpa [List.getElem?_take_of_lt (Nat.lt_succ_of_le hidx)] using hget
  · intro i k
    rcases Nat.lt_or_ge (s.nodes i) k with hk | hk
    · rw [(Cluster.inOrder_of_reach h).unmade hk]
      rfl
    · have hmade := (Cluster.inOrder_of_reach h).made hk
      have hpre : s.delivered i k <+: List.range' 1 (s.inst i k).rf.lastApplied :=
        ⟨_, hmade⟩
      have htake := List.prefix_iff_eq_take.mp hpre
      have hlen := hpre.length_le
      rw [List.length_range'] at hlen
      rwa [List.take_range'_of_length_ge hlen] at htake

theorem commit_and_apply_twoTerms : ∃ s : Cluster (Gob.letter 3 ℕ), s.delivered 1 0 = [1] ∧
    (s.node 0).rf.commitIndex ≤ lastLogIndex (s.node 0).rf.log ∧
    s.delivered 1 0 = List.range' 1 (s.delivered 1 0).length := by
  obtain ⟨s, hs, htrace, -⟩ := reach_twoTerms
  obtain ⟨hindices, -, -, -, hdel⟩ := commit_and_apply hs
  have hone : s.delivered 1 0 = [1] := by
    rw [Cluster.delivered, htrace]
    decide
  exact ⟨s, hone, (hindices 0).2, hdel 1 0⟩

end Raft
end SepLab
