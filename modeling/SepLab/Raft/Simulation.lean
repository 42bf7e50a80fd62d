import SepLab.Raft.Sections

/-!
# A cluster of servers refines the abstract replicated log

As long as a killed instance takes no further step, the state of the whole
cluster is explained by the knowledge of the abstract protocol: the attached
instances refine it, requests and replies in flight carry only what is known, and
the trace shows exactly the votes that were given.

## Main definitions

* `VoteCall.Known`, `AppendCall.Known` — a call in flight is part of the knowledge.
* `Cluster.Refines b s` — the cluster `s` is as the knowledge `b` has it.

## Main results

* `Cluster.Refines.act` — what a server does with its own instance, its calls and
  its events keeps the refinement.
* `Cluster.Refines.step` — **every step of the cluster simulates abstract steps.**
* `refines_of_reach` — every reachable cluster refines a reachable knowledge.
-/

namespace SepLab
namespace Raft

variable {n : ℕ} {Cmd : Type} [Inhabited Cmd] {G : Gob n Cmd}

/-- A vote call carries the log with which its sender stood, and a granted vote
is the callee's vote. -/
structure VoteCall.Known (b : Knowledge n Cmd) (call : VoteCall n) : Prop where
  candidate : call.args.candidateId = call.src
  stood : ∃ l, b.stood call.src call.args.term = some l ∧ [sentinel] <+: l ∧
    call.args.lastLogIndex = lastLogIndex l ∧ call.args.lastLogTerm = lastLogTerm l
  granted : ∀ reply, call.reply = some reply → reply.voteGranted = true →
    ∃ l, b.vote call.dst call.args.term = some (call.src, l)

/-- An append call carries a prefix of its term's chain, and success means the
callee has acknowledged it. -/
structure AppendCall.Known (b : Knowledge n Cmd) (call : AppendCall n Cmd) : Prop where
  args : call.args.Known b call.src
  acked : ∀ reply, call.reply = some reply → reply.success = true →
    call.args.prevLogIndex + 1 + call.args.entries.length ≤ b.acked call.dst call.args.term

theorem VoteCall.Known.grows {b b' : Knowledge n Cmd} {call : VoteCall n} (h : call.Known b)
    (hb : Ballots.Grows b b') : call.Known b' where
  candidate := h.candidate
  stood := by
    obtain ⟨l, hl, hrest⟩ := h.stood
    exact ⟨l, hb.stood hl, hrest⟩
  granted reply hr hg := by
    obtain ⟨l, hl⟩ := h.granted reply hr hg
    exact ⟨l, hb.vote hl⟩

omit [Inhabited Cmd] in
theorem AppendCall.Known.grows {b b' : Knowledge n Cmd} {call : AppendCall n Cmd}
    (h : call.Known b) (hb : Ballots.Grows b b') : call.Known b' where
  args := h.args.grows hb
  acked reply hr hs := (h.acked reply hr hs).trans (hb.acked _ _)

/-- Who asks whom for a vote in which term: no two calls in flight share it. -/
def VoteCall.key (call : VoteCall n) : Fin n × ℕ × Fin n := (call.src, call.args.term, call.dst)

/-- The counter of the election that server `i` stands in counts votes of that
election, none of them from a server whose reply is still to come. -/
def Tally (b : Knowledge n Cmd) (i : Fin n) (t votes : ℕ) (calls : List (VoteCall n)) : Prop :=
  ∃ S : Finset (Fin n), votes = S.card ∧ (∀ v ∈ S, ∃ l, b.vote v t = some (i, l)) ∧
    ∀ call ∈ calls, call.src = i → call.args.term = t → call.dst ∉ S

omit [Inhabited Cmd] in
/-- The tally only depends on who is still to answer. -/
theorem Tally.of_keys {b b' : Knowledge n Cmd} {i : Fin n} {t votes : ℕ}
    {calls calls' : List (VoteCall n)} (h : Tally b i t votes calls) (hb : Ballots.Grows b b')
    (hkeys : ∀ call ∈ calls', call.src = i → ∃ call₀ ∈ calls, call₀.key = call.key) :
    Tally b' i t votes calls' := by
  obtain ⟨S, hcard, hS, hout⟩ := h
  refine ⟨S, hcard, ?_, ?_⟩
  · intro v hv
    obtain ⟨l, hl⟩ := hS v hv
    exact ⟨l, hb.vote hl⟩
  · intro call hc hsrc ht
    obtain ⟨call₀, hc₀, hkey⟩ := hkeys call hc hsrc
    simp only [VoteCall.key, Prod.mk.injEq] at hkey
    rw [← hkey.2.2]
    exact hout call₀ hc₀ (hkey.1.trans hsrc) (hkey.2.1.trans ht)

namespace Cluster

/-- The cluster `s` is as the knowledge `b` has it. -/
structure Refines (b : Knowledge n Cmd) (s : Cluster G) : Prop where
  peers : ∀ i, Raft.Refines b i (s.peer i (s.nodes i))
  old : ∀ i k, k < s.nodes i → (s.inst i k).rf.dead = true
  voteCalls : ∀ call ∈ s.voteCalls, call.Known b ∧ call.inc ≤ s.nodes call.src
  nodup : (s.voteCalls.map VoteCall.key).Nodup
  tally : ∀ i, (s.node i).rf.role = .candidate →
    Tally b i (s.node i).rf.currentTerm ((s.node i).votes (s.node i).rf.currentTerm) s.voteCalls
  appendCalls : ∀ call ∈ s.appendCalls, call.Known b ∧ call.inc ≤ s.nodes call.src
  trace : ∀ e ∈ s.trace, e.Known b
  traced : ∀ {v t c l}, b.vote v t = some (c, l) → .voteGranted v t c ∈ s.trace
  batches : ∀ i, ∀ msg ∈ (s.node i).batch, msg.Known b

variable {b b' : Knowledge n Cmd} {s s' : Cluster G}

/-- Only the attached instance of a server is alive. -/
theorem Refines.eq_node (h : s.Refines b) {i : Fin n} {k : ℕ} (hk : k ≤ s.nodes i)
    (hd : (s.inst i k).rf.dead = false) : k = s.nodes i := by
  rcases hk.eq_or_lt with heq | hlt
  · exact heq
  · rw [h.old i k hlt] at hd
    cases hd

/-- **A server acts.**  The attached instance of server `i` simulates abstract
steps, its goroutines set their variables, and calls come and go; for the other
servers nothing changes. -/
theorem Refines.act (h : s.Refines b) {i : Fin n} {p' : Peer G} {es : List (Event n Cmd)}
    (hsim : Simulates b b' i p' es) (votes : ℕ → ℕ) (batch : List (ApplyMsg Cmd))
    (vs : List (VoteCall n)) (as : List (AppendCall n Cmd))
    (hvs : ∀ call ∈ vs, call.Known b' ∧ call.inc ≤ s.nodes call.src)
    (hnodup : (vs.map VoteCall.key).Nodup)
    (hkeys : ∀ call ∈ vs, call.src ≠ i → ∃ call₀ ∈ s.voteCalls, call₀.key = call.key)
    (htally : p'.rf.role = .candidate →
      Tally b' i p'.rf.currentTerm (votes p'.rf.currentTerm) vs)
    (has : ∀ call ∈ as, call.Known b' ∧ call.inc ≤ s.nodes call.src)
    (hbatch : ∀ msg ∈ batch, msg.Known b') :
    Refines b'
      { s with
        inst := set₂ s.inst i (s.nodes i) ⟨p'.rf, votes, batch⟩
        persisters := Function.update s.persisters i p'.disk
        voteCalls := vs
        appendCalls := as
        trace := s.trace ++ es } := by
  have hgrows := hsim.moves.grows
  have hother : ∀ {j : Fin n} {k : ℕ} {x : Instance n Cmd}, j ≠ i →
      set₂ s.inst i (s.nodes i) x j k = s.inst j k := by
    intro j k x hj
    rw [set₂_apply, if_neg fun hc => hj hc.1]
  refine ⟨?_, ?_, hvs, hnodup, ?_, has, ?_, ?_, ?_⟩
  · intro j
    -- the server that acts, or another one, of which the others learn nothing
    by_cases hj : j = i
    · subst hj
      simpa [peer] using hsim.refines
    · have := (h.peers j).of_moves hsim.moves hj
      simpa [peer, hother hj, Function.update_of_ne hj] using this
  · intro j k hk
    -- an older incarnation of it, or of another server
    by_cases hj : j = i
    · subst hj
      show (set₂ s.inst j (s.nodes j) _ j k).rf.dead = true
      rw [set₂_apply, if_neg fun hc => hk.ne hc.2]
      exact h.old j k hk
    · simpa [hother hj] using h.old j k hk
  · intro j hr
    by_cases hj : j = i
    · subst hj
      simp only [node, set₂_self] at hr ⊢
      exact htally hr
    · simp only [node, hother hj] at hr ⊢
      refine (h.tally j hr).of_keys hgrows fun call hc hsrc => hkeys call hc ?_
      rw [hsrc]
      exact hj
  · intro e he
    rcases List.mem_append.mp he with he | he
    · exact (h.trace e he).grows hgrows
    · exact hsim.events e he
  · intro v t c l hv
    by_cases hvi : v = i
    · subst hvi
      -- the vote is an older one, or this step's
      rcases hsim.votes hv with hv | he
      · exact List.mem_append_left _ (h.traced hv)
      · exact List.mem_append_right _ he
    · rw [hsim.moves.vote_eq hvi] at hv
      exact List.mem_append_left _ (h.traced hv)
  · intro j msg hmsg
    by_cases hj : j = i
    · subst hj
      simp only [node, set₂_self] at hmsg
      exact hbatch msg hmsg
    · simp only [node, hother hj] at hmsg
      exact (h.batches j msg hmsg).grows hgrows

theorem Refines.voteCalls_grows (h : s.Refines b) (hb : Ballots.Grows b b') :
    ∀ call ∈ s.voteCalls, call.Known b' ∧ call.inc ≤ s.nodes call.src :=
  fun call hc => (h.voteCalls call hc).imp_left fun hk => hk.grows hb

theorem Refines.appendCalls_grows (h : s.Refines b) (hb : Ballots.Grows b b') :
    ∀ call ∈ s.appendCalls, call.Known b' ∧ call.inc ≤ s.nodes call.src :=
  fun call hc => (h.appendCalls call hc).imp_left fun hk => hk.grows hb

theorem Refines.batch_grows (h : s.Refines b) (hb : Ballots.Grows b b') (i : Fin n) :
    ∀ msg ∈ (s.node i).batch, msg.Known b' :=
  fun msg hm => (h.batches i msg hm).grows hb

/-! ### Elections -/

/-- A section that leaves a candidate leaves the same candidacy. -/
def SameCandidacy (p p' : Peer G) : Prop :=
  p'.rf.role = .candidate → p.rf.role = .candidate ∧ p'.rf.currentTerm = p.rf.currentTerm

omit [Inhabited Cmd] in
theorem sameCandidacy_observe (p : Peer G) (t : ℕ) : SameCandidacy p (p.observe t) := by
  unfold Peer.observe
  split
  · exact fun hr => by cases hr
  · exact fun hr => ⟨hr, rfl⟩

omit [Inhabited Cmd] in
theorem sameCandidacy_requestVote (p : Peer G) (args : RequestVoteArgs n) :
    SameCandidacy p (p.requestVote args).1 := by
  unfold Peer.requestVote
  split
  · exact fun hr => ⟨hr, rfl⟩
  dsimp only
  split
  · exact sameCandidacy_observe p args.term
  · exact sameCandidacy_observe p args.term

omit [Inhabited Cmd] in
theorem sameCandidacy_appendEntries (p : Peer G) (args : AppendEntriesArgs n Cmd) :
    SameCandidacy p (p.appendEntries args).1 := by
  unfold Peer.appendEntries
  split
  · exact fun hr => ⟨hr, rfl⟩
  dsimp only
  split
  · exact fun hr => by cases hr
  split
  · exact fun hr => by cases hr
  · exact fun hr => by cases hr

omit [Inhabited Cmd] in
theorem sameCandidacy_start (p : Peer G) (command : Cmd) :
    SameCandidacy p (p.start command).1 := by
  unfold Peer.start
  split
  · exact fun hr => ⟨hr, rfl⟩
  · exact fun hr => ⟨hr, rfl⟩

omit [Inhabited Cmd] in
theorem sameCandidacy_appendReply (p : Peer G) (me peer : Fin n) (args : AppendEntriesArgs n Cmd)
    (reply : AppendEntriesReply) : SameCandidacy p (p.appendReply me peer args reply) := by
  rcases p.appendReply_eq me peer args reply with heq | ⟨next, matched, c, heq⟩
  · rw [heq]
    exact fun hr => by cases hr
  · rw [heq]
    exact fun hr => ⟨hr, rfl⟩

/-- The tally of a server that acts without touching its candidacy. -/
theorem Refines.tally_of_same (h : s.Refines b) (hb : Ballots.Grows b b') {i : Fin n}
    {p' : Peer G} (hsame : SameCandidacy (s.peer i (s.nodes i)) p') {vs : List (VoteCall n)}
    (hkeys : ∀ call ∈ vs, ∃ call₀ ∈ s.voteCalls, call₀.key = call.key) :
    p'.rf.role = .candidate →
      Tally b' i p'.rf.currentTerm ((s.node i).votes p'.rf.currentTerm) vs := by
  intro hr
  obtain ⟨hr₀, ht⟩ := hsame hr
  have htally := h.tally i hr₀
  rw [ht]
  exact htally.of_keys hb fun call hc _ => hkeys call hc

theorem Refines.startElection (hb : b.Sound) (h : s.Refines b) {i : Fin n} {k : ℕ}
    (hk : k ≤ s.nodes i) (hd : (s.inst i k).rf.dead = false)
    (hs : s.startElection i k = some s') :
    ∃ b', Knowledge.Moves i b b' ∧ s'.Refines b' := by
  obtain rfl := h.eq_node hk hd
  unfold Cluster.startElection at hs
  rw [if_pos hk, Option.map_eq_some_iff] at hs
  obtain ⟨⟨p', args⟩, hstart, rfl⟩ := hs
  obtain ⟨b', hsim, hlt, hcur, hcand, hstood, hlast, hlastTerm⟩ :=
    (h.peers i).startElection hb hstart
  refine ⟨b', hsim.moves, ?_⟩
  have hgen : [sentinel] <+: p'.rf.log := by
    rw [← hsim.refines.log]
    exact (hsim.moves.sound hb).chains.log_genesis i
  -- the calls in flight belong to earlier terms
  have hold : ∀ call ∈ s.voteCalls, call.src = i → call.args.term < args.term := by
    intro call hc hsrc
    obtain ⟨l, hl, -⟩ := (h.voteCalls call hc).1.stood
    have := hb.elections.stood_le hl
    rw [hsrc] at this
    exact this.trans_lt hlt
  have hact := h.act hsim (Function.update (s.node i).votes args.term 1) (s.node i).batch
    (s.voteCalls ++ (others i).map fun j => (⟨i, s.nodes i, j, args, none⟩ : VoteCall n))
    s.appendCalls ?_ ?_ ?_ ?_ (h.appendCalls_grows hsim.moves.grows)
    (h.batch_grows hsim.moves.grows i)
  · simpa [put, setVotes, emit, node] using hact
  · intro call hc
    rcases List.mem_append.mp hc with hc | hc
    · exact h.voteCalls_grows hsim.moves.grows call hc
    · obtain ⟨j, hj, rfl⟩ := List.mem_map.mp hc
      exact ⟨⟨hcand, ⟨_, hstood, hgen, hlast, hlastTerm⟩, fun _ hr => by cases hr⟩, le_rfl⟩
  · rw [List.map_append, List.nodup_append]
    refine ⟨h.nodup, ?_, ?_⟩
    · rw [List.map_map]
      refine ((List.nodup_finRange n).filter _).map fun j j' hj => ?_
      simpa [VoteCall.key] using hj
    · intro key hkey key' hkey' heq
      obtain ⟨call, hc, rfl⟩ := List.mem_map.mp hkey
      rw [List.map_map] at hkey'
      obtain ⟨j, hj, rfl⟩ := List.mem_map.mp hkey'
      simp only [VoteCall.key, Function.comp_apply, Prod.mk.injEq] at heq
      have := hold call hc heq.1
      omega
  · intro call hc hsrc
    rcases List.mem_append.mp hc with hc | hc
    · exact ⟨call, hc, rfl⟩
    · obtain ⟨j, hj, rfl⟩ := List.mem_map.mp hc
      exact absurd rfl hsrc
  · intro _
    rw [hcur, Function.update_self]
    refine ⟨{i}, by simp, ?_, ?_⟩
    · intro v hv
      rw [Finset.mem_singleton.mp hv]
      exact hsim.events _ (List.mem_singleton_self _)
    · intro call hc hsrc ht
      rcases List.mem_append.mp hc with hc | hc
      · have := hold call hc hsrc
        omega
      · obtain ⟨j, hj, rfl⟩ := List.mem_map.mp hc
        simpa [others] using hj

omit [Inhabited Cmd] in
theorem keys_set {calls : List (VoteCall n)} {c : ℕ} {call : VoteCall n}
    (hc : calls[c]? = some call) (reply : Option RequestVoteReply) :
    (calls.set c { call with reply := reply }).map VoteCall.key = calls.map VoteCall.key := by
  obtain ⟨hlt, rfl⟩ := List.getElem?_eq_some_iff.mp hc
  have hkey : VoteCall.key { calls[c] with reply := reply } =
      (calls.map VoteCall.key).get ⟨c, by simpa using hlt⟩ := by simp [VoteCall.key]
  rw [List.map_set, hkey]
  exact List.set_getElem_self _

theorem Refines.requestVote (hb : b.Sound) (h : s.Refines b) {c : ℕ}
    (hs : s.requestVote c = some s') : ∃ i b', Knowledge.Moves i b b' ∧ s'.Refines b' := by
  unfold Cluster.requestVote at hs
  rw [Option.bind_eq_some_iff] at hs
  obtain ⟨call, hc, hs⟩ := hs
  split at hs
  case isFalse => cases hs
  next hcond =>
  have hmem := List.mem_of_getElem? hc
  obtain ⟨hknown, hinc⟩ := h.voteCalls call hmem
  obtain ⟨l, hl, hgen, hlast, hlastTerm⟩ := hknown.stood
  obtain ⟨b', hsim, hterm⟩ := (h.peers call.dst).requestVote hb
    (by rw [hknown.candidate]; exact hl) hlast hlastTerm hgen
  rw [Option.some_inj] at hs
  subst hs
  refine ⟨call.dst, b', hsim.moves, ?_⟩
  have hkeys := keys_set hc (some ((s.peer call.dst (s.nodes call.dst)).requestVote call.args).2)
  have hsame : ∀ call' ∈ s.voteCalls.set c
      { call with reply := some ((s.peer call.dst (s.nodes call.dst)).requestVote call.args).2 },
      ∃ call₀ ∈ s.voteCalls, call₀.key = call'.key := by
    intro call' hc'
    have hk := List.mem_map_of_mem (f := VoteCall.key) hc'
    rw [hkeys] at hk
    exact List.mem_map.mp hk
  have hact := h.act hsim (s.node call.dst).votes (s.node call.dst).batch
    (s.voteCalls.set c
      { call with reply := some ((s.peer call.dst (s.nodes call.dst)).requestVote call.args).2 })
    s.appendCalls ?_ (by rw [hkeys]; exact h.nodup) (fun call' hc' _ => hsame call' hc')
    (h.tally_of_same hsim.moves.grows (sameCandidacy_requestVote _ _) hsame)
    (h.appendCalls_grows hsim.moves.grows) (h.batch_grows hsim.moves.grows _)
  · simpa [put, emit, node] using hact
  · intro call' hc'
    rcases List.mem_or_eq_of_mem_set hc' with hc' | rfl
    · exact h.voteCalls_grows hsim.moves.grows call' hc'
    · refine ⟨⟨hknown.candidate, (hknown.grows hsim.moves.grows).stood, ?_⟩, hinc⟩
      intro reply hr hg
      rw [Option.some_inj] at hr
      subst hr
      -- the granted vote is the one the handler has just given
      have hev := hsim.events (.voteGranted call.dst
        ((s.peer call.dst (s.nodes call.dst)).requestVote call.args).2.term call.args.candidateId)
        (by rw [if_pos hg]; exact List.mem_singleton_self _)
      rw [hterm hg, hknown.candidate] at hev
      exact hev

/-- What is left of the calls once one of them is over. -/
theorem Refines.voteCalls_erase (h : s.Refines b) (hb : Ballots.Grows b b') (c : ℕ) :
    (∀ call ∈ s.voteCalls.eraseIdx c, call.Known b' ∧ call.inc ≤ s.nodes call.src) ∧
      ((s.voteCalls.eraseIdx c).map VoteCall.key).Nodup ∧
      ∀ call ∈ s.voteCalls.eraseIdx c, ∃ call₀ ∈ s.voteCalls, call₀.key = call.key :=
  ⟨fun call hc => h.voteCalls_grows hb call (List.mem_of_mem_eraseIdx hc),
    h.nodup.sublist ((List.eraseIdx_sublist _ c).map _),
    fun call hc => ⟨call, List.mem_of_mem_eraseIdx hc, rfl⟩⟩

/-- The other calls in flight differ from the one that is over. -/
theorem Refines.key_ne_of_erase (h : s.Refines b) {c : ℕ} {call call' : VoteCall n}
    (hc : s.voteCalls[c]? = some call) (hc' : call' ∈ s.voteCalls.eraseIdx c) :
    call'.key ≠ call.key := by
  obtain ⟨j, hj, hne, rfl⟩ := List.mem_eraseIdx_iff_getElem.mp hc'
  obtain ⟨hlt, rfl⟩ := List.getElem?_eq_some_iff.mp hc
  intro heq
  have hinj := List.nodup_iff_injective_get.mp h.nodup
  have hfin : (⟨j, by simpa using hj⟩ : Fin (s.voteCalls.map VoteCall.key).length) =
      ⟨c, by simpa using hlt⟩ := hinj (by simpa using heq)
  exact hne (congrArg Fin.val hfin)

theorem Refines.voteReply (hb : b.Sound) (h : s.Refines b) {c : ℕ} {call : VoteCall n}
    (hc : s.voteCalls[c]? = some call) (hd : (s.inst call.src call.inc).rf.dead = false)
    (hs : s.voteReply c = some s') : ∃ i b', Knowledge.Moves i b b' ∧ s'.Refines b' := by
  have hmem := List.mem_of_getElem? hc
  obtain ⟨hknown, hinc⟩ := h.voteCalls call hmem
  have hk := h.eq_node hinc hd
  unfold Cluster.voteReply at hs
  rw [hc, Option.bind_some, Option.map_eq_some_iff] at hs
  obtain ⟨reply, hreply, rfl⟩ := hs
  rw [hk]
  have hpeer := h.peers call.src
  -- the votes counted so far, if this reply still counts
  have hS : ∃ S : Finset (Fin n), (s.node call.src).rf.role = .candidate →
      (s.node call.src).rf.currentTerm = call.args.term →
      (s.node call.src).votes call.args.term = S.card ∧ call.dst ∉ S ∧
      (∀ v ∈ S, ∃ l, b.vote v call.args.term = some (call.src, l)) ∧
      ∀ call' ∈ s.voteCalls, call'.src = call.src → call'.args.term = call.args.term →
        call'.dst ∉ S := by
    by_cases hcand : (s.node call.src).rf.role = .candidate ∧
        (s.node call.src).rf.currentTerm = call.args.term
    · obtain ⟨S, hcard, hv, hout⟩ := h.tally call.src hcand.1
      rw [hcand.2] at hcard hv hout
      exact ⟨S, fun _ _ => ⟨hcard, hout call hmem rfl rfl, hv, hout⟩⟩
    · exact ⟨∅, fun h₁ h₂ => absurd ⟨h₁, h₂⟩ hcand⟩
  obtain ⟨S, hS⟩ := hS
  obtain ⟨⟨b', hsim⟩, hcounted⟩ := hpeer.voteReply hb
    (fun h₁ h₂ => ⟨(hS h₁ h₂).1, (hS h₁ h₂).2.1, (hS h₁ h₂).2.2.1⟩)
    (fun hg => hknown.granted reply hreply hg)
  refine ⟨call.src, b', hsim.moves, ?_⟩
  obtain ⟨hvs, hnodup, hkeys⟩ := h.voteCalls_erase hsim.moves.grows c
  have hact := h.act hsim (Function.update (s.node call.src).votes call.args.term
      ((s.peer call.src (s.nodes call.src)).voteReply call.src call.args.term
        ((s.node call.src).votes call.args.term) reply).2)
    (s.node call.src).batch (s.voteCalls.eraseIdx c) s.appendCalls hvs hnodup
    (fun call' hc' _ => hkeys call' hc') ?_ (h.appendCalls_grows hsim.moves.grows)
    (h.batch_grows hsim.moves.grows _)
  · simpa [put, setVotes, emit, node] using hact
  intro hr
  obtain ⟨hr₀, hcur⟩ := hcounted.candidate hr
  rw [hcur]
  by_cases ht : (s.peer call.src (s.nodes call.src)).rf.currentTerm = call.args.term
  · -- the election goes on, with one vote more if this reply grants it
    obtain ⟨hcard, hdst, hv, hout⟩ := hS hr₀ ht
    have hv' : ∀ v ∈ S, ∃ l, b'.vote v call.args.term = some (call.src, l) := by
      intro v hvS
      obtain ⟨l, hl⟩ := hv v hvS
      exact ⟨l, hsim.moves.grows.vote hl⟩
    rw [ht, Function.update_self]
    rcases hcounted.votes with hsame | ⟨hmore, hg, -, -⟩
    · rw [hsame]
      exact ⟨S, hcard, hv', fun call' hc' => hout call' (List.mem_of_mem_eraseIdx hc')⟩
    · rw [hmore, hcard]
      refine ⟨insert call.dst S, (Finset.card_insert_of_notMem hdst).symm, ?_, ?_⟩
      · intro v hvS
        rcases Finset.mem_insert.mp hvS with rfl | hvS
        · obtain ⟨l, hl⟩ := hknown.granted reply hreply hg
          exact ⟨l, hsim.moves.grows.vote hl⟩
        · exact hv' v hvS
      · intro call' hc' hsrc hterm' hin
        rcases Finset.mem_insert.mp hin with heq | hin
        · refine h.key_ne_of_erase hc hc' ?_
          simp [VoteCall.key, hsrc, hterm', heq]
        · exact hout call' (List.mem_of_mem_eraseIdx hc') hsrc hterm' hin
  · -- the reply belongs to an election that is over
    rw [Function.update_of_ne ht]
    exact (h.tally call.src hr₀).of_keys hsim.moves.grows fun call' hc' _ => hkeys call' hc'

/-! ### Replication and the state machine -/

/-- A server that acts without sending a vote request or counting a vote. -/
theorem Refines.act_same (h : s.Refines b) {i : Fin n} {p' : Peer G} {es : List (Event n Cmd)}
    (hsim : Simulates b b' i p' es) (hsame : SameCandidacy (s.peer i (s.nodes i)) p')
    (batch : List (ApplyMsg Cmd)) (as : List (AppendCall n Cmd))
    (has : ∀ call ∈ as, call.Known b' ∧ call.inc ≤ s.nodes call.src)
    (hbatch : ∀ msg ∈ batch, msg.Known b') :
    Refines b'
      { s with
        inst := set₂ s.inst i (s.nodes i) ⟨p'.rf, (s.node i).votes, batch⟩
        persisters := Function.update s.persisters i p'.disk
        appendCalls := as
        trace := s.trace ++ es } :=
  h.act hsim (s.node i).votes batch s.voteCalls as (h.voteCalls_grows hsim.moves.grows) h.nodup
    (fun call hc _ => ⟨call, hc, rfl⟩)
    (h.tally_of_same hsim.moves.grows hsame fun call hc => ⟨call, hc, rfl⟩) has hbatch

theorem Refines.start (hb : b.Sound) (h : s.Refines b) {i : Fin n} {k : ℕ} {command : Cmd}
    (hk : k ≤ s.nodes i) (hd : (s.inst i k).rf.dead = false)
    (hs : s.start i k command = some s') : ∃ b', Knowledge.Moves i b b' ∧ s'.Refines b' := by
  obtain rfl := h.eq_node hk hd
  unfold Cluster.start at hs
  rw [if_pos hk, Option.some_inj] at hs
  subst hs
  obtain ⟨b', hsim⟩ := (h.peers i).start hb command
  refine ⟨b', hsim.moves, ?_⟩
  have hact := h.act_same hsim (sameCandidacy_start _ command) (s.node i).batch s.appendCalls
    (h.appendCalls_grows hsim.moves.grows) (h.batch_grows hsim.moves.grows i)
  simpa [put, node] using hact

theorem Refines.replicateTo (hb : b.Sound) (h : s.Refines b) {i peer : Fin n} {k term : ℕ}
    (hd : (s.inst i k).rf.dead = false) (hs : s.replicateTo i k peer term = some s') :
    s'.Refines b := by
  unfold Cluster.replicateTo at hs
  split at hs
  case isFalse => cases hs
  next hcond =>
  obtain rfl := h.eq_node hcond.1 hd
  obtain ⟨args, hargs, rfl⟩ := Option.map_eq_some_iff.mp hs
  have hknown := (h.peers i).replicateTo hb hargs
  refine { h with appendCalls := fun call hc => ?_ }
  rcases List.mem_append.mp hc with hc | hc
  · exact h.appendCalls call hc
  · rw [List.mem_singleton.mp hc]
    exact ⟨⟨hknown, fun _ hr => by cases hr⟩, le_rfl⟩

theorem Refines.appendEntries (hb : b.Sound) (h : s.Refines b) {c : ℕ}
    (hs : s.appendEntries c = some s') : ∃ i b', Knowledge.Moves i b b' ∧ s'.Refines b' := by
  unfold Cluster.appendEntries at hs
  rw [Option.bind_eq_some_iff] at hs
  -- the call is one that was sent, and the follower handles it
  obtain ⟨call, hc, hs⟩ := hs
  split at hs
  case isFalse => cases hs
  obtain ⟨hknown, hinc⟩ := h.appendCalls call (List.mem_of_getElem? hc)
  obtain ⟨b', hsim, hack⟩ := (h.peers call.dst).appendEntries hb hknown.args
  rw [Option.some_inj] at hs
  subst hs
  refine ⟨call.dst, b', hsim.moves, ?_⟩
  have hact := h.act_same hsim (sameCandidacy_appendEntries _ _) (s.node call.dst).batch
    (s.appendCalls.set c
      { call with reply := some ((s.peer call.dst (s.nodes call.dst)).appendEntries call.args).2 })
    ?_ (h.batch_grows hsim.moves.grows _)
  · simpa [put, node] using hact
  -- a call of before the step, or the one that now has its reply
  · intro call' hc'
    rcases List.mem_or_eq_of_mem_set hc' with hc' | rfl
    · exact h.appendCalls_grows hsim.moves.grows call' hc'
    · refine ⟨⟨hknown.args.grows hsim.moves.grows, ?_⟩, hinc⟩
      intro reply hr hsucc
      rw [Option.some_inj] at hr
      subst hr
      exact hack hsucc

theorem Refines.appendReply (hb : b.Sound) (h : s.Refines b) {c : ℕ} {call : AppendCall n Cmd}
    (hc : s.appendCalls[c]? = some call) (hd : (s.inst call.src call.inc).rf.dead = false)
    (hs : s.appendReply c = some s') : ∃ i b', Knowledge.Moves i b b' ∧ s'.Refines b' := by
  obtain ⟨hknown, hinc⟩ := h.appendCalls call (List.mem_of_getElem? hc)
  have hk := h.eq_node hinc hd
  unfold Cluster.appendReply at hs
  rw [hc, Option.bind_some, Option.map_eq_some_iff] at hs
  obtain ⟨reply, hreply, rfl⟩ := hs
  rw [hk]
  obtain ⟨b', hsim⟩ := (h.peers call.src).appendReply hb (hknown.acked reply hreply)
  refine ⟨call.src, b', hsim.moves, ?_⟩
  have hact := h.act_same hsim (sameCandidacy_appendReply _ _ _ _ _) (s.node call.src).batch
    (s.appendCalls.eraseIdx c)
    (fun call' hc' => h.appendCalls_grows hsim.moves.grows call' (List.mem_of_mem_eraseIdx hc'))
    (h.batch_grows hsim.moves.grows _)
  simpa [put, emit, node] using hact

/-- The batch an applier takes is committed. -/
theorem applier_known {i : Fin n} {p : Peer G} (h : Raft.Refines b i p)
    {rf : Server n Cmd} {batch : List (ApplyMsg Cmd)} (hs : p.rf.applier = some (rf, batch)) :
    Raft.Refines b i { p with rf := rf } ∧ SameCandidacy p { p with rf := rf } ∧
      ∀ msg ∈ batch, msg.Known b := by
  unfold Server.applier at hs
  split at hs
  · cases hs
  next hcond =>
  push Not at hcond
  rw [Option.some_inj, Prod.mk.injEq] at hs
  obtain ⟨rfl, rfl⟩ := hs
  refine ⟨{ h with saved := h.saved.of_eq rfl, applied := le_rfl }, fun hr => ⟨hr, rfl⟩, ?_⟩
  intro msg hmsg
  unfold applyMsgs at hmsg
  obtain ⟨j, hj, rfl⟩ := List.mem_mapIdx.mp hmsg
  rw [List.length_drop, List.length_take] at hj
  rcases h.settled with hzero | ⟨t, m, -, hc, hlt, hpre⟩
  · omega
  refine ⟨t, m, hc, by dsimp only; omega, ?_⟩
  -- the entry is at the same place in the committed chain
  have hlen := hc.2.1
  have hin : p.rf.lastApplied + 1 + j < ((b.chain t).take (p.rf.commitIndex + 1)).length := by
    rw [List.length_take]
    omega
  have hget := hpre.getElem hin
  rw [List.getElem_take] at hget
  dsimp only
  rw [List.getElem?_eq_getElem (by omega), Option.map_some, hget, List.getElem_drop,
    List.getElem_take]

theorem Refines.applier (h : s.Refines b) {i : Fin n} {k : ℕ}
    (hd : (s.inst i k).rf.dead = false) (hs : s.applier i k = some s') : s'.Refines b := by
  unfold Cluster.applier at hs
  split at hs
  case isFalse => cases hs
  next hcond =>
  obtain rfl := h.eq_node hcond.1 hd
  obtain ⟨⟨rf, batch⟩, happ, rfl⟩ := Option.map_eq_some_iff.mp hs
  obtain ⟨href, hsame, hbatch⟩ := applier_known (h.peers i) happ
  have hact := h.act_same href.simulates hsame batch s.appendCalls h.appendCalls hbatch
  simpa [put, setBatch, node, peer] using hact

theorem Refines.send (h : s.Refines b) {i : Fin n} {k : ℕ}
    (hd : (s.inst i k).rf.dead = false) (hs : s.send i k = some s') : s'.Refines b := by
  unfold Cluster.send at hs
  split at hs
  · cases hs
  next msg rest hbatch =>
  split at hs
  case isFalse => cases hs
  next hk =>
  obtain rfl := h.eq_node hk hd
  rw [Option.some_inj] at hs
  subst hs
  have hmsgs := h.batches i
  rw [node, hbatch] at hmsgs
  -- what is delivered was applied before, so it is known
  have hsim : Simulates b b i (s.peer i (s.nodes i)) [.applied i (s.nodes i) msg] :=
    ⟨.refl i b, h.peers i, fun e he => by
      rw [List.mem_singleton.mp he]
      exact hmsgs msg List.mem_cons_self, Or.inl⟩
  have hact := h.act_same hsim (fun hr => ⟨hr, rfl⟩) rest s.appendCalls h.appendCalls
    fun m hm => hmsgs m (List.mem_cons_of_mem msg hm)
  simpa [setBatch, emit, node, peer] using hact

/-! ### The harness -/

theorem Refines.crash (h : s.Refines b) {i : Fin n} (hs : s.crash i = some s') : s'.Refines b := by
  unfold Cluster.crash at hs
  split at hs
  · cases hs
  rw [Option.some_inj] at hs
  subst hs
  have hp := h.peers i
  have hsim : Simulates b b i ⟨{ (s.node i).rf with dead := true }, s.persisters i⟩ [] :=
    Raft.Refines.simulates { hp with saved := hp.saved.of_eq rfl }
  have hact := h.act_same hsim (fun hr => ⟨hr, rfl⟩) (s.node i).batch s.appendCalls
    h.appendCalls (h.batches i)
  simpa [node] using hact

/-- A restarted server knows what its persister holds, and nothing more. -/
theorem Refines.restart (h : s.Refines b) {i : Fin n} (hs : s.restart i = some s') :
    s'.Refines b := by
  unfold Cluster.restart at hs
  split at hs
  case isFalse => cases hs
  next hdead =>
  rw [Option.some_inj] at hs
  subst hs
  have hp := h.peers i
  -- the state on disk is the state at the crash
  have hstate : stateOf G (s.persisters i) = (s.node i).rf.persistentState := hp.saved
  have hmake : make G (s.persisters i) =
      { currentTerm := (s.node i).rf.currentTerm, votedFor := (s.node i).rf.votedFor
        log := (s.node i).rf.log, commitIndex := 0, lastApplied := 0
        nextIndex := fun _ => 0, matchIndex := fun _ => 0, role := .follower, dead := false } := by
    rw [make_eq, hstate]
    rfl
  have hother : ∀ {j : Fin n} {k : ℕ} {x : Instance n Cmd}, j ≠ i →
      set₂ s.inst i (s.nodes i + 1) x j k = s.inst j k := by
    intro j k x hj
    rw [set₂_apply, if_neg fun hc => hj hc.1]
  have hle : ∀ j, s.nodes j ≤ Function.update s.nodes i (s.nodes i + 1) j := by
    intro j
    rw [Function.update_apply]
    split
    · next hj => rw [hj]; exact Nat.le_succ _
    · exact le_rfl
  refine ⟨?_, ?_, ?_, h.nodup, ?_, ?_, h.trace, h.traced, ?_⟩
  · intro j
    -- the new incarnation is a follower with nothing committed
    by_cases hj : j = i
    · subst hj
      simp only [peer, Function.update_self, set₂_self, fresh]
      exact
        { saved := Peer.make_saved _
          current := by rw [hmake]; exact hp.current
          log := by rw [hmake]; exact hp.log
          vote := by rw [hmake]; exact hp.vote
          leader := fun hr => by rw [hmake] at hr; cases hr
          candidate := fun hr => by rw [hmake] at hr; cases hr
          matched := fun hr => by rw [hmake] at hr; cases hr
          settled := Or.inl (by rw [hmake])
          applied := by rw [hmake] }
    · simpa [peer, hother hj, Function.update_of_ne hj] using h.peers j
  · intro j k hk
    by_cases hj : j = i
    · subst hj
      simp only [Function.update_self] at hk
      show (set₂ s.inst j (s.nodes j + 1) _ j k).rf.dead = true
      rw [set₂_apply, if_neg fun hc => hk.ne hc.2]
      -- the one that crashed stays dead
      rcases (Nat.lt_succ_iff.mp hk).eq_or_lt with rfl | hlt
      · exact hdead
      · exact h.old j k hlt
    · simp only [Function.update_of_ne hj] at hk
      simpa [hother hj] using h.old j k hk
  · exact fun call hc => (h.voteCalls call hc).imp_right fun hinc => hinc.trans (hle _)
  · intro j hr
    by_cases hj : j = i
    · subst hj
      simp only [node, Function.update_self, set₂_self, fresh, hmake] at hr
      cases hr
    · simp only [node, hother hj, Function.update_of_ne hj] at hr ⊢
      exact h.tally j hr
  · exact fun call hc => (h.appendCalls call hc).imp_right fun hinc => hinc.trans (hle _)
  · intro j msg hmsg
    by_cases hj : j = i
    · subst hj
      simp only [node, Function.update_self, set₂_self, fresh] at hmsg
      cases hmsg
    · simp only [node, hother hj, Function.update_of_ne hj] at hmsg
      exact h.batches j msg hmsg

theorem Refines.loseVote (h : s.Refines b) {c : ℕ} (hs : s.loseVote c = some s') :
    s'.Refines b := by
  unfold Cluster.loseVote at hs
  split at hs
  case isFalse => cases hs
  rw [Option.some_inj] at hs
  subst hs
  obtain ⟨hvs, hnodup, hkeys⟩ := h.voteCalls_erase (.refl b) c
  exact
    { h with
      voteCalls := hvs
      nodup := hnodup
      tally := fun i hr => (h.tally i hr).of_keys (.refl b) fun call hc _ => hkeys call hc }

theorem Refines.loseAppend (h : s.Refines b) {c : ℕ} (hs : s.loseAppend c = some s') :
    s'.Refines b := by
  unfold Cluster.loseAppend at hs
  split at hs
  case isFalse => cases hs
  rw [Option.some_inj] at hs
  subst hs
  exact { h with appendCalls := fun call hc => h.appendCalls call (List.mem_of_mem_eraseIdx hc) }

/-! ### Runs -/

theorem Refines.init : (Cluster.init G).Refines (Ballots.init [sentinel]) where
  peers i :=
    { saved := Peer.make_saved []
      current := by simp [Cluster.init, fresh, make_eq, stateOf, decodeState, Ballots.init]
      log := by simp [Cluster.init, fresh, make_eq, stateOf, decodeState, Ballots.init]
      vote := by simp [Cluster.init, fresh, make_eq, stateOf, decodeState, Ballots.init]
      leader := fun hr => by simp [Cluster.init, fresh, make_eq] at hr
      candidate := fun hr => by simp [Cluster.init, fresh, make_eq] at hr
      matched := fun hr => by simp [Cluster.init, fresh, make_eq] at hr
      settled := Or.inl (by simp [Cluster.init, fresh, make_eq])
      applied := by simp [Cluster.init, fresh, make_eq] }
  old i k hk := by cases hk
  voteCalls call hc := by cases hc
  nodup := List.nodup_nil
  tally i hr := by simp [Cluster.init, node, fresh, make_eq] at hr
  appendCalls call hc := by cases hc
  trace e he := by cases he
  traced hv := by cases hv
  batches i msg hm := by cases hm

/-- **Every step of the cluster simulates abstract steps**, as long as a killed
instance takes none. -/
theorem Refines.step {a : Action n Cmd} (hb : b.Sound) (h : s.Refines b)
    (hs : failStop s a = some s') :
    ∃ b' : Knowledge n Cmd, Knowledge.Steps b b' ∧ b'.Sound ∧ s'.Refines b' := by
  obtain ⟨halive, hs⟩ := step_of_guarded hs
  -- most steps are those of one server
  have hmoves : (∃ i b', Knowledge.Moves i b b' ∧ s'.Refines b') →
      ∃ b' : Knowledge n Cmd, Knowledge.Steps b b' ∧ b'.Sound ∧ s'.Refines b' := by
    rintro ⟨i, b', hm, href⟩
    exact ⟨b', hm.steps, hm.sound hb, href⟩
  have hsame : s'.Refines b →
      ∃ b' : Knowledge n Cmd, Knowledge.Steps b b' ∧ b'.Sound ∧ s'.Refines b' :=
    fun href => ⟨b, .refl, hb, href⟩
  unfold alive at halive
  cases a with
  | startElection i k =>
    have hd : (s.inst i k).rf.dead = false := by simpa [actor] using halive
    by_cases hk : k ≤ s.nodes i
    · exact hmoves ⟨i, h.startElection hb hk hd hs⟩
    · simp [Cluster.step, Cluster.startElection, hk] at hs
  | requestVote c => exact hmoves (h.requestVote hb hs)
  | voteReply c =>
    cases hc : s.voteCalls[c]? with
    | none => simp [Cluster.step, Cluster.voteReply, hc] at hs
    | some call =>
      have hd : (s.inst call.src call.inc).rf.dead = false := by simpa [actor, hc] using halive
      exact hmoves (h.voteReply hb hc hd hs)
  | loseVote c => exact hsame (h.loseVote hs)
  | start i k command =>
    have hd : (s.inst i k).rf.dead = false := by simpa [actor] using halive
    by_cases hk : k ≤ s.nodes i
    · exact hmoves ⟨i, h.start hb hk hd hs⟩
    · simp [Cluster.step, Cluster.start, hk] at hs
  | replicateTo i k peer term =>
    have hd : (s.inst i k).rf.dead = false := by simpa [actor] using halive
    exact hsame (h.replicateTo hb hd hs)
  | appendEntries c => exact hmoves (h.appendEntries hb hs)
  | appendReply c =>
    cases hc : s.appendCalls[c]? with
    | none => simp [Cluster.step, Cluster.appendReply, hc] at hs
    | some call =>
      have hd : (s.inst call.src call.inc).rf.dead = false := by simpa [actor, hc] using halive
      exact hmoves (h.appendReply hb hc hd hs)
  | loseAppend c => exact hsame (h.loseAppend hs)
  | applier i k =>
    have hd : (s.inst i k).rf.dead = false := by simpa [actor] using halive
    exact hsame (h.applier hd hs)
  | send i k =>
    have hd : (s.inst i k).rf.dead = false := by simpa [actor] using halive
    exact hsame (h.send hd hs)
  | crash i => exact hsame (h.crash hs)
  | restart i => exact hsame (h.restart hs)

/-- What is known of a cluster grows along its runs. -/
theorem Refines.run (hb : b.Sound) (h : s.Refines b) (hr : Reach failStop s s') :
    ∃ b' : Knowledge n Cmd, Knowledge.Steps b b' ∧ b'.Sound ∧ s'.Refines b' := by
  refine hr.invariant (P := fun s => ∃ b' : Knowledge n Cmd,
    Knowledge.Steps b b' ∧ b'.Sound ∧ s.Refines b') ⟨b, .refl, hb, h⟩ ?_
  rintro s a s' ⟨b', hsteps, hb', href⟩ hs
  obtain ⟨b'', hsteps', hb'', href'⟩ := href.step hb' hs
  exact ⟨b'', hsteps.trans hsteps', hb'', href'⟩

/-- **Every reachable cluster refines a reachable knowledge.** -/
theorem refines_of_reach (h : Reach failStop (Cluster.init G) s) :
    ∃ b : Knowledge n Cmd, Knowledge.Steps (Ballots.init [sentinel]) b ∧ b.Sound ∧
      s.Refines b := by
  refine Refines.run (Ballots.Sound.init ?_) .init h
  intro e he
  rw [List.mem_singleton.mp he]
  rfl

end Cluster
end Raft
end SepLab
