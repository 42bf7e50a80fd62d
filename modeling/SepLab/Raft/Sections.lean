import SepLab.Raft.Refinement

/-!
# The sections of a server simulate the abstract protocol

One theorem for each section of `raft.go` that can change a server: run on a
peer that refines the knowledge `b`, it leaves a peer that refines what a few
abstract steps make of `b`.

## Main definitions

* `AppendEntriesArgs.Known b src args` — the request is a prefix of the chain of
  the term that `src` leads, with a settled commit index.
* `AppendEntriesArgs.Cut b args m` — that prefix is `m`.

## Main results

* `Refines.requestVote`, `Refines.startElection`, `Refines.voteReply` — elections.
* `Refines.start`, `Refines.appendEntries`, `Refines.appendReply` — replication.
* `Refines.replicateTo` — what a leader sends is `Known`.
* `AppendEntriesArgs.Cut.adopts` — a request that passes the consistency check is taken over.
-/

namespace SepLab
namespace Raft

open TermLog

variable {n : ℕ} {Cmd : Type} [Inhabited Cmd] {G : Gob n Cmd}
variable {b : Knowledge n Cmd} {i : Fin n} {p : Peer G}

/-! ### Terms and votes -/

theorem Refines.becomeFollower (hb : b.Sound) (h : Refines b i p) {t : ℕ}
    (ht : p.rf.currentTerm < t) : ∃ b', Simulates b b' i (p.becomeFollower t) [] := by
  have hlt : b.current i < t := by rw [h.current]; exact ht
  have hstep : Knowledge.Step i b _ := .advance t hlt
  have hm := hstep.moves hb
  refine ⟨_, hm, ?_, by simp, Or.inl⟩
  exact
    { saved := p.becomeFollower_saved t
      current := Function.update_self _ _ _
      log := h.log
      vote := by
        show (b.vote i t).map Prod.fst = none
        rw [hb.elections.vote_eq_none hlt]
        rfl
      leader := fun hr => by cases hr
      candidate := fun hr => by cases hr
      matched := fun hr => by cases hr
      settled := h.settled.grows hm.grows ht.le List.prefix_rfl
      applied := h.applied }

omit [Inhabited Cmd] in
theorem observe_currentTerm (p : Peer G) (t : ℕ) :
    (p.observe t).rf.currentTerm = max p.rf.currentTerm t := by
  unfold Peer.observe
  split
  · next ht => exact (max_eq_right ht.le).symm
  · next ht => exact (max_eq_left (not_lt.mp ht)).symm

theorem Refines.observe (hb : b.Sound) (h : Refines b i p) (t : ℕ) :
    ∃ b', Simulates b b' i (p.observe t) [] := by
  unfold Peer.observe
  split
  · next ht => exact h.becomeFollower hb ht
  · exact ⟨b, h.simulates⟩

/-- A server whose role is not that of a leader or candidate any more. -/
theorem Refines.demote (h : Refines b i p) :
    Refines b i { p with rf := { p.rf with role := .follower } } :=
  { h with
    saved := h.saved.of_eq rfl
    leader := fun hr => by cases hr
    candidate := fun hr => by cases hr
    matched := fun hr => by cases hr }

theorem Simulates.trans {b' b'' : Knowledge n Cmd} {p' p'' : Peer G} {es : List (Event n Cmd)}
    (h : Simulates b b' i p' []) (h' : Simulates b' b'' i p'' es) : Simulates b b'' i p'' es where
  moves := h.moves.trans h'.moves
  refines := h'.refines
  events := h'.events
  votes hv := (h'.votes hv).imp_left fun hv' => (h.votes hv').resolve_right (by simp)

/-- The handler of `RequestVote`: a granted vote is the voter's vote of the term. -/
theorem Refines.requestVote (hb : b.Sound) (h : Refines b i p) {args : RequestVoteArgs n}
    {l : List (LogEntry Cmd)} (hl : b.stood args.candidateId args.term = some l)
    (hi : args.lastLogIndex = lastLogIndex l) (ht : args.lastLogTerm = lastLogTerm l)
    (hgen : [sentinel] <+: l) :
    ∃ b', Simulates b b' i (p.requestVote args).1
        (if (p.requestVote args).2.voteGranted then
          [.voteGranted i (p.requestVote args).2.term args.candidateId] else []) ∧
      ((p.requestVote args).2.voteGranted = true → (p.requestVote args).2.term = args.term) := by
  unfold Peer.requestVote
  split
  · exact ⟨b, h.simulates, by simp⟩
  next hge =>
  obtain ⟨b₁, h₁⟩ := h.observe hb args.term
  have hb₁ : b₁.Sound := h₁.moves.sound hb
  have hterm : (p.observe args.term).rf.currentTerm = args.term := by
    rw [observe_currentTerm]
    exact max_eq_right (not_lt.mp hge)
  have hcur : b₁.current i = args.term := h₁.refines.current.trans hterm
  dsimp only
  split
  · next hgrant =>
    obtain ⟨hvote, hup⟩ := hgrant
    have hfst := h₁.refines.vote
    rw [hterm] at hfst
    rcases hvote with hnone | hsame
    · -- the first vote of the term
      rw [hnone, Option.map_eq_none_iff] at hfst
      have hlog := h₁.refines.log
      have hstep : Knowledge.Step i b₁ _ := .grant args.candidateId l (by rw [hcur]; exact hfst)
        (by rw [hcur]; exact h₁.moves.grows.stood hl)
        (upToDate_eq_true hgen (hb₁.chains.log_genesis i) hi ht (by rw [hlog]; exact hup))
      refine ⟨_, h₁.trans ⟨hstep.moves hb₁, ?_, ?_, ?_⟩, fun _ => hterm⟩
      · exact
          { h₁.refines with
            saved := Peer.persist_saved _
            vote := by
              show ((set₂ b₁.vote i (b₁.current i) _) i
                (p.observe args.term).rf.currentTerm).map Prod.fst = _
              rw [set₂_apply, if_pos ⟨rfl, h₁.refines.current.symm⟩]
              rfl
            leader := fun hr => h₁.refines.leader hr
            candidate := fun hr => h₁.refines.candidate hr
            matched := fun hr => h₁.refines.matched hr
            settled := h₁.refines.settled.grows (hstep.grows hb₁) le_rfl List.prefix_rfl }
      · intro e he
        rw [if_pos rfl, List.mem_singleton] at he
        rw [he]
        exact ⟨b₁.log i, by simp [hterm, hcur]⟩
      · intro t c l' hv
        simp only [set₂_apply, true_and] at hv
        split at hv
        · next ht' =>
          rw [Option.some_inj, Prod.mk.injEq] at hv
          exact Or.inr (by simp [← hv.1, ht', hcur, hterm])
        · exact Or.inl hv
    · -- the vote was for this candidate already
      rw [hsame] at hfst
      refine ⟨b₁, h₁.trans ⟨.refl i b₁, ?_, ?_, Or.inl⟩, fun _ => hterm⟩
      · exact
          { h₁.refines with
            saved := Peer.persist_saved _
            vote := by
              show (b₁.vote i (p.observe args.term).rf.currentTerm).map Prod.fst = _
              rw [hterm, hfst]
              rfl
            leader := fun hr => h₁.refines.leader hr
            candidate := fun hr => h₁.refines.candidate hr
            matched := fun hr => h₁.refines.matched hr }
      · intro e he
        rw [if_pos rfl, List.mem_singleton] at he
        rw [he, hterm]
        obtain ⟨⟨c, l'⟩, hv, rfl⟩ := Option.map_eq_some_iff.mp hfst
        exact ⟨l', hv⟩
  · exact ⟨b₁, h₁, by simp⟩

/-- `startElection`: the candidate stands with its log and votes for itself. -/
theorem Refines.startElection (hb : b.Sound) (h : Refines b i p) {p' : Peer G}
    {args : RequestVoteArgs n} (hs : p.startElection i = some (p', args)) :
    ∃ b', Simulates b b' i p' [.voteGranted i args.term i] ∧ b.current i < args.term ∧
      p'.rf.currentTerm = args.term ∧ args.candidateId = i ∧
      b'.stood i args.term = some p'.rf.log ∧
      args.lastLogIndex = lastLogIndex p'.rf.log ∧ args.lastLogTerm = lastLogTerm p'.rf.log := by
  have hsaved := Peer.startElection_saved hs
  unfold Peer.startElection at hs
  split at hs
  · cases hs
  rw [Option.some_inj, Prod.mk.injEq] at hs
  obtain ⟨rfl, rfl⟩ := hs
  have hlt : b.current i < p.rf.currentTerm + 1 := by rw [h.current]; exact Nat.lt_succ_self _
  have hstep : Knowledge.Step i b _ := .stand (p.rf.currentTerm + 1) hlt
  have hlog := h.log
  refine ⟨_, ⟨hstep.moves hb, ?_, ?_, ?_⟩, hlt, rfl, rfl, ?_, rfl, rfl⟩
  · exact
      { saved := hsaved
        current := Function.update_self _ _ _
        log := hlog
        vote := by
          show ((set₂ b.vote i (p.rf.currentTerm + 1) _) i (p.rf.currentTerm + 1)).map Prod.fst = _
          rw [set₂_apply, if_pos ⟨rfl, rfl⟩]
          rfl
        leader := fun hr => by cases hr
        candidate := fun _ => by
          constructor
          · show set₂ b.stood i (p.rf.currentTerm + 1) _ i (p.rf.currentTerm + 1) = _
            rw [set₂_apply, if_pos ⟨rfl, rfl⟩, hlog]
            rfl
          · intro hlead
            -- a server has not led a term it has not reached
            obtain ⟨l, hl⟩ := hb.elections.leader_stood hlead
            have hle := hb.elections.stood_le hl
            exact absurd hle (not_le.mpr hlt)
        matched := fun hr => by cases hr
        settled := h.settled.grows (hstep.grows hb) (Nat.le_succ _) List.prefix_rfl
        applied := h.applied }
  · intro e he
    rw [List.mem_singleton] at he
    rw [he]
    exact ⟨b.log i, by simp [Peer.persist]⟩
  · intro t c l hv
    simp only [set₂_apply, true_and] at hv
    split at hv
    · next ht =>
      rw [Option.some_inj, Prod.mk.injEq] at hv
      exact Or.inr (by simp [← hv.1, ht, Peer.persist])
    · exact Or.inl hv
  · show set₂ b.stood i (p.rf.currentTerm + 1) _ i (p.rf.currentTerm + 1) = _
    rw [set₂_apply, if_pos ⟨rfl, rfl⟩, hlog]
    rfl

/-- A candidate with a majority of votes becomes the leader. -/
theorem Refines.becomeLeaderLocked (hb : b.Sound) (h : Refines b i p)
    (hr : p.rf.role = .candidate) {S : Finset (Fin n)} (hS : majority n ≤ S.card)
    (hv : ∀ v ∈ S, ∃ l, b.vote v p.rf.currentTerm = some (i, l)) :
    ∃ b', Simulates b b' i { p with rf := p.rf.becomeLeaderLocked i }
      [.becameLeader i p.rf.currentTerm p.rf.log] := by
  obtain ⟨hstood, hnew⟩ := h.candidate hr
  rw [← h.current] at hstood hnew hv
  rw [← h.log] at hstood
  have hstep : Knowledge.Step i b _ := .elect S hstood hnew (by
    show Fintype.card (Fin n) / 2 + 1 ≤ S.card
    rw [Fintype.card_fin]
    exact hS) hv
  -- only the role and the leader's counters change
  have hrf : p.rf.becomeLeaderLocked i =
      { p.rf with
        role := .leader
        nextIndex := fun _ => lastLogIndex p.rf.log + 1
        matchIndex := Function.update (fun _ => 0) i (lastLogIndex p.rf.log) } := by
    unfold Server.becomeLeaderLocked
    rw [if_neg (by simp [hr])]
  rw [hrf]
  refine ⟨_, hstep.moves hb, ?_, ?_, Or.inl⟩
  · exact
      { saved := h.saved.of_eq rfl
        current := h.current
        log := h.log
        vote := h.vote
        leader := fun _ => by
          show Function.update b.leader (b.current i) (some i) p.rf.currentTerm = some i
          rw [h.current, Function.update_self]
        candidate := fun hr => by cases hr
        matched := fun _ j hj => Or.inl (by simp [Function.update_of_ne hj])
        settled := h.settled.grows (hstep.grows hb) le_rfl List.prefix_rfl
        applied := h.applied }
  · intro e he
    rw [List.mem_singleton] at he
    rw [he]
    refine ⟨?_, ?_⟩
    -- the winner leads the term from here on, with the log it stood with
    · show Function.update b.leader (b.current i) (some i) p.rf.currentTerm = some i
      rw [h.current, Function.update_self]
    · show b.stood i p.rf.currentTerm = some p.rf.log
      rw [← h.current, ← h.log]
      exact hstood

/-- What the callback of a vote reply leaves of a candidacy: nothing, or the same
candidacy with one more vote at most. -/
structure VoteCounted (p : Peer G) (term votes : ℕ) (reply : RequestVoteReply) (p' : Peer G)
    (votes' : ℕ) : Prop where
  candidate : p'.rf.role = .candidate → p.rf.role = .candidate ∧
    p'.rf.currentTerm = p.rf.currentTerm
  votes : votes' = votes ∨
    votes' = votes + 1 ∧ reply.voteGranted = true ∧ p.rf.role = .candidate ∧
      p.rf.currentTerm = term

/-- The callback of a vote reply: the counter counts votes of the election of
`term`, so a leader has a majority of them. -/
theorem Refines.voteReply (hb : b.Sound) (h : Refines b i p) {term votes : ℕ}
    {reply : RequestVoteReply} {S : Finset (Fin n)} {dst : Fin n}
    (hS : p.rf.role = .candidate → p.rf.currentTerm = term →
      votes = S.card ∧ dst ∉ S ∧ ∀ v ∈ S, ∃ l, b.vote v term = some (i, l))
    (hgrant : reply.voteGranted = true → ∃ l, b.vote dst term = some (i, l)) :
    (∃ b', Simulates b b' i (p.voteReply i term votes reply).1
      (leaderEvents i term p.rf (p.voteReply i term votes reply).1.rf)) ∧
      VoteCounted p term votes reply (p.voteReply i term votes reply).1
        (p.voteReply i term votes reply).2 := by
  unfold Peer.voteReply leaderEvents
  split
  · next hlt =>
    -- a later term: no candidate any more
    refine ⟨?_, ⟨fun hr => (by cases hr), Or.inl rfl⟩⟩
    rw [if_neg (by rintro ⟨-, hr⟩; cases hr)]
    exact h.becomeFollower hb hlt
  split
  · refine ⟨⟨b, ?_⟩, ⟨fun hr => ⟨hr, rfl⟩, Or.inl rfl⟩⟩
    rw [if_neg fun hc => hc.1 hc.2]
    exact h.simulates
  next hcand =>
  push Not at hcand
  obtain ⟨hr, hterm⟩ := hcand
  split
  · next hg =>
    obtain ⟨hcard, hdst, hvotes⟩ := hS hr hterm
    split
    · next hmaj =>
      refine ⟨?_, ⟨fun hr' => ?_, Or.inr ⟨rfl, hg, hr, hterm⟩⟩⟩
      · have hrole : (p.rf.becomeLeaderLocked i).role = .leader := by
          simp [Server.becomeLeaderLocked, hr]
        have hlog : (p.rf.becomeLeaderLocked i).log = p.rf.log := by
          simp [Server.becomeLeaderLocked, hr]
        rw [if_pos ⟨by simp [hr], hrole⟩, hlog, ← hterm]
        refine h.becomeLeaderLocked hb hr (S := insert dst S) ?_ ?_
        · rw [Finset.card_insert_of_notMem hdst, ← hcard]
          exact hmaj
        · intro v hv
          rw [hterm]
          rcases Finset.mem_insert.mp hv with rfl | hv
          · exact hgrant hg
          · exact hvotes v hv
      · have hrole : (p.rf.becomeLeaderLocked i).role = .leader := by
          simp [Server.becomeLeaderLocked, hr]
        rw [hrole] at hr'
        cases hr'
    · refine ⟨⟨b, ?_⟩, ⟨fun hr => ⟨hr, rfl⟩, Or.inr ⟨rfl, hg, hr, hterm⟩⟩⟩
      rw [if_neg fun hc => hc.1 hc.2]
      exact h.simulates
  · refine ⟨⟨b, ?_⟩, ⟨fun hr => ⟨hr, rfl⟩, Or.inl rfl⟩⟩
    rw [if_neg fun hc => hc.1 hc.2]
    exact h.simulates

/-! ### Replication -/

/-- `Start`: the leader's chain gets one entry longer. -/
theorem Refines.start (hb : b.Sound) (h : Refines b i p) (command : Cmd) :
    ∃ b', Simulates b b' i (p.start command).1 [] := by
  have hsaved := h.saved.start command
  unfold Peer.start at hsaved ⊢
  split
  · exact ⟨b, h.simulates⟩
  next hlead =>
  rw [if_neg hlead] at hsaved
  push Not at hlead
  have hleader : b.leader (b.current i) = some i := by rw [h.current]; exact h.leader hlead.1
  have hstep : Knowledge.Step i b _ := .append ⟨p.rf.currentTerm, command⟩ hleader h.current.symm
  refine ⟨_, hstep.moves hb, ?_, by simp, Or.inl⟩
  exact
    { saved := hsaved
      current := h.current
      log := by
        show Function.update b.log i _ i = _
        rw [Function.update_self, h.log]
        rfl
      vote := h.vote
      leader := h.leader
      candidate := fun hr => by
        have hr' : p.rf.role = .candidate := hr
        rw [hlead.1] at hr'
        cases hr'
      matched := fun hr j hj => (h.matched hr j hj).imp_right fun hlt =>
        hlt.trans_le ((hstep.grows hb).acked j _)
      settled := h.settled.grows (hstep.grows hb) le_rfl (List.prefix_append _ _)
      applied := h.applied }

/-- An append request in flight: its sender leads the term, its entries are the
end of a prefix of the term's chain, and that prefix is settled as far as the
request's commit index says. -/
def AppendEntriesArgs.Known (b : Knowledge n Cmd) (src : Fin n) (args : AppendEntriesArgs n Cmd) :
    Prop :=
  b.leader args.term = some src ∧ ∃ m, m <+: b.chain args.term ∧
    m.length = args.prevLogIndex + 1 + args.entries.length ∧
    args.entries = m.drop (args.prevLogIndex + 1) ∧ termAt m args.prevLogIndex = args.prevLogTerm ∧
    Settled b args.term m args.leaderCommit

/-- The request is cut out of `m`, a prefix of the chain of its term. -/
structure AppendEntriesArgs.Cut (b : Knowledge n Cmd) (args : AppendEntriesArgs n Cmd)
    (m : List (LogEntry Cmd)) : Prop where
  chain : m <+: b.chain args.term
  length : m.length = args.prevLogIndex + 1 + args.entries.length
  entries : args.entries = m.drop (args.prevLogIndex + 1)
  prevTerm : termAt m args.prevLogIndex = args.prevLogTerm
  settled : Settled b args.term m args.leaderCommit

omit [Inhabited Cmd] in
theorem AppendEntriesArgs.Known.cut {src : Fin n} {args : AppendEntriesArgs n Cmd}
    (h : args.Known b src) : ∃ m, args.Cut b m := by
  obtain ⟨-, m, hm, hlen, hent, hterm, hset⟩ := h
  exact ⟨m, hm, hlen, hent, hterm, hset⟩

omit [Inhabited Cmd] in
theorem AppendEntriesArgs.Known.grows {b b' : Knowledge n Cmd} {src : Fin n}
    {args : AppendEntriesArgs n Cmd} (h : args.Known b src) (hb : Ballots.Grows b b') :
    args.Known b' src := by
  obtain ⟨hl, m, hm, hlen, hent, hterm, hset⟩ := h
  exact ⟨hb.leader hl, m, hm.trans (hb.chain _), hlen, hent, hterm,
    hset.grows hb le_rfl List.prefix_rfl⟩

omit [Inhabited Cmd] in
theorem AppendEntriesArgs.Cut.grows {b b' : Knowledge n Cmd} {args : AppendEntriesArgs n Cmd}
    {m : List (LogEntry Cmd)} (h : args.Cut b m) (hb : Ballots.Grows b b') : args.Cut b' m :=
  { h with
    chain := h.chain.trans (hb.chain _)
    settled := h.settled.grows hb le_rfl List.prefix_rfl }

omit [Inhabited Cmd] in
/-- The leader's commit index is not past the end of its batch. -/
theorem AppendEntriesArgs.Cut.leaderCommit_le {args : AppendEntriesArgs n Cmd}
    {m : List (LogEntry Cmd)} (h : args.Cut b m) :
    args.leaderCommit ≤ args.prevLogIndex + args.entries.length := by
  have hlen := h.length
  have := h.settled.lt_length (by omega)
  omega

/-- **A request that passes the consistency check is taken over.** -/
theorem AppendEntriesArgs.Cut.adopts (hb : b.Sound) {args : AppendEntriesArgs n Cmd}
    {m log : List (LogEntry Cmd)} (h : args.Cut b m) (hlog : Coherent LogEntry.term b.chain log)
    (hin : args.prevLogIndex < log.length)
    (hterm : termAt log args.prevLogIndex = args.prevLogTerm) :
    Adopts log m (appendLoop log (args.prevLogIndex + 1) args.entries) := by
  have hm : Coherent LogEntry.term b.chain m := (hb.chains.chain_coherent _).of_isPrefix h.chain
  have hlen := h.length
  have hin' : args.prevLogIndex < m.length := by omega
  -- the logs agree up to the entry before the batch
  have htake : log.take (args.prevLogIndex + 1) = m.take (args.prevLogIndex + 1) := by
    refine hlog.take_eq hm hin hin' ?_
    have hmterm := h.prevTerm
    rw [termAt_of_lt hin] at hterm
    rw [termAt_of_lt hin'] at hmterm
    rw [hterm, hmterm]
  exact appendLoop_eq hlog hm args.entries (args.prevLogIndex + 1) (by omega) (by omega) (by omega)
    htake h.entries

/-- **What a leader sends.**  It sends its whole log from some index on, so the
end of the batch is never before the commit index. -/
theorem Refines.replicateTo_cut (hb : b.Sound) (h : Refines b i p) {peer : Fin n} {term : ℕ}
    {args : AppendEntriesArgs n Cmd} (hs : p.rf.replicateTo i peer term = some args) :
    p.rf.role = .leader ∧ args.term = p.rf.currentTerm ∧ args.Cut b p.rf.log := by
  unfold Server.replicateTo at hs
  split at hs
  · cases hs
  next hlead =>
  push Not at hlead
  obtain ⟨hr, rfl⟩ := hlead
  have hpos : 0 < p.rf.log.length := by
    rw [← h.log]
    exact length_pos_of_sentinel (hb.chains.log_genesis i)
  have hchain : b.chain p.rf.currentTerm = p.rf.log := by
    rw [← hb.chains.leader_log (h.leader hr) h.current, h.log]
  dsimp only at hs
  -- the index is between the sentinel and the end of the log, whatever `nextIndex` says
  generalize hnext : (if (if p.rf.nextIndex peer < 1 then 1 else p.rf.nextIndex peer) >
      lastLogIndex p.rf.log + 1 then lastLogIndex p.rf.log + 1
      else if p.rf.nextIndex peer < 1 then 1 else p.rf.nextIndex peer) = next at hs
  have hbound : 1 ≤ next ∧ next ≤ p.rf.log.length := by
    unfold lastLogIndex at hnext
    split at hnext <;> split at hnext <;> omega
  rw [Option.some_inj] at hs
  subst hs
  refine ⟨hr, rfl, by rw [hchain], ?_, ?_, rfl, h.settled⟩
  · dsimp only
    rw [List.length_drop]
    omega
  · dsimp only
    rw [Nat.sub_add_cancel hbound.1]

theorem Refines.replicateTo (hb : b.Sound) (h : Refines b i p) {peer : Fin n} {term : ℕ}
    {args : AppendEntriesArgs n Cmd} (hs : p.rf.replicateTo i peer term = some args) :
    args.Known b i := by
  obtain ⟨hr, hterm, hcut⟩ := h.replicateTo_cut hb hs
  refine ⟨?_, p.rf.log, hcut.chain, hcut.length, hcut.entries, hcut.prevTerm, hcut.settled⟩
  rw [hterm]
  exact h.leader hr

/-- **The handler of `AppendEntries`**: the follower adopts the leader's log
unless it has it, and commits what the leader has committed. -/
theorem Refines.appendEntries (hb : b.Sound) (h : Refines b i p) {src : Fin n}
    {args : AppendEntriesArgs n Cmd} (hargs : args.Known b src) :
    ∃ b', Simulates b b' i (p.appendEntries args).1 [] ∧
      ((p.appendEntries args).2.success = true →
        args.prevLogIndex + 1 + args.entries.length ≤ b'.acked i args.term) := by
  unfold Peer.appendEntries
  split
  · exact ⟨b, h.simulates, by simp⟩
  next hge =>
  obtain ⟨b₁, h₁⟩ := h.observe hb args.term
  have hb₁ : b₁.Sound := h₁.moves.sound hb
  have hterm : (p.observe args.term).rf.currentTerm = args.term := by
    rw [observe_currentTerm]
    exact max_eq_right (not_lt.mp hge)
  have hdem := h₁.refines.demote
  have h₂ : Simulates b b₁ i { p.observe args.term with
      rf := { (p.observe args.term).rf with role := .follower } } [] :=
    h₁.trans hdem.simulates
  dsimp only
  split
  · exact ⟨b₁, h₂, by simp⟩
  next hprev =>
  split
  · exact ⟨b₁, h₂, by simp⟩
  next hprevTerm =>
  rw [not_not] at hprevTerm
  have hleader := (hargs.grows h₁.moves.grows).1
  obtain ⟨m, hcut⟩ := (hargs.grows h₁.moves.grows).cut
  generalize hq : p.observe args.term = p₁ at *
  have hlog : b₁.log i = p₁.rf.log := h₁.refines.log
  have hpos : 0 < p₁.rf.log.length := by
    rw [← hlog]
    exact length_pos_of_sentinel (hb₁.chains.log_genesis i)
  have hin : args.prevLogIndex < p₁.rf.log.length := by
    unfold lastLogIndex at hprev
    omega
  have hloop := hcut.adopts hb₁ (hlog ▸ hb₁.chains.log_coherent i) hin hprevTerm
  generalize appendLoop p₁.rf.log (args.prevLogIndex + 1) args.entries = log at hloop ⊢
  have hcur : b₁.current i = args.term := h₁.refines.current.trans hterm
  have hne : b₁.leader (b₁.current i) ≠ none := by
    rw [hcur, hleader]
    exact Option.some_ne_none _
  have hstep : Knowledge.Step i b₁ _ := .accept m log hne (by rw [hcur]; exact hcut.chain)
    (by rw [hlog]; exact hloop)
  -- what was committed here stays, and what the leader has committed is there
  have hkeep : Settled b₁ args.term log p₁.rf.commitIndex := by
    refine (hterm ▸ h₁.refines.settled).overwrite hb₁ ?_ hcut.chain hloop
    rw [hleader]
    exact Option.some_ne_none _
  have hcommit : Settled b₁ args.term log args.leaderCommit :=
    hcut.settled.grows (.refl b₁) le_rfl hloop.holds
  rw [min_eq_left hcut.leaderCommit_le]
  refine ⟨_, h₁.trans ⟨hstep.moves hb₁, ?_, by simp, Or.inl⟩, fun _ => ?_⟩
  · exact
      { saved := (Peer.persist_saved _).of_eq rfl
        current := h₁.refines.current
        log := Function.update_self _ _ _
        vote := h₁.refines.vote
        leader := fun hr => by cases hr
        candidate := fun hr => by cases hr
        matched := fun hr => by cases hr
        settled := by
          have hgrows := hstep.grows hb₁
          show Settled _ p₁.rf.currentTerm log (if args.leaderCommit > p₁.rf.commitIndex then
            args.leaderCommit else p₁.rf.commitIndex)
          rw [hterm]
          split
          · exact hcommit.grows hgrows le_rfl List.prefix_rfl
          · exact hkeep.grows hgrows le_rfl List.prefix_rfl
        applied := by
          have := h₁.refines.applied
          show p₁.rf.lastApplied ≤ if args.leaderCommit > p₁.rf.commitIndex then args.leaderCommit
            else p₁.rf.commitIndex
          split <;> omega }
  · show _ ≤ set₂ b₁.acked i (b₁.current i) _ i args.term
    rw [set₂_apply, if_pos ⟨rfl, hcur.symm⟩, ← hcut.length]
    exact le_max_right _ _

/-! ### Commitment -/

omit [Inhabited Cmd] in
/-- `advanceCommitIndex` moves the commit index only onto an entry of the
leader's own term that a majority holds. -/
theorem advanceLoop_spec (rf : Server n Cmd) (me : Fin n) (k : ℕ) :
    rf.advanceLoop me k = rf ∨ ∃ c, rf.commitIndex < c ∧ c ≤ k ∧ termAt rf.log c = rf.currentTerm ∧
      majority n ≤ rf.replicas me c ∧ rf.advanceLoop me k = { rf with commitIndex := c } := by
  induction k with
  | zero => exact Or.inl rfl
  | succ k ih =>
    have hrec : rf.advanceLoop me k = rf ∨ ∃ c, rf.commitIndex < c ∧ c ≤ k + 1 ∧
        termAt rf.log c = rf.currentTerm ∧ majority n ≤ rf.replicas me c ∧
        rf.advanceLoop me k = { rf with commitIndex := c } := by
      rcases ih with h | ⟨c, hlt, hle, h⟩
      · exact Or.inl h
      · exact Or.inr ⟨c, hlt, by omega, h⟩
    unfold Server.advanceLoop
    split
    · exact Or.inl rfl
    next hgt =>
    split
    · exact hrec
    next hterm =>
    split
    · next hmaj => exact Or.inr ⟨k + 1, by omega, le_rfl, not_not.mp hterm, hmaj, rfl⟩
    · exact hrec

omit [Inhabited Cmd] in
/-- The replicas that `advanceCommitIndex` counts, as a set. -/
theorem replicas_eq_card (rf : Server n Cmd) (me : Fin n) (k : ℕ) :
    rf.replicas me k = (insert me ((List.finRange n).filter
      fun j => decide (j ≠ me ∧ rf.matchIndex j ≥ k)).toFinset).card := by
  rw [Finset.card_insert_of_notMem (by simp), List.toFinset_card_of_nodup
    ((List.nodup_finRange n).filter _), ← List.countP_eq_length_filter, Nat.add_comm]
  rfl

/-- A leader that advances its commit index commits the entry it advances to. -/
theorem Refines.advanceCommitIndex (hb : b.Sound) (h : Refines b i p) (hr : p.rf.role = .leader) :
    Refines b i { p with rf := p.rf.advanceCommitIndex i } ∧
      ((p.rf.advanceCommitIndex i).commitIndex ≠ p.rf.commitIndex →
        (Event.committed i p.rf.currentTerm (p.rf.advanceCommitIndex i).commitIndex
          p.rf.log).Known b) := by
  have hpos : 0 < p.rf.log.length := by
    rw [← h.log]
    exact length_pos_of_sentinel (hb.chains.log_genesis i)
  have hchain : b.chain p.rf.currentTerm = p.rf.log := by
    rw [← hb.chains.leader_log (h.leader hr) h.current, h.log]
  unfold Server.advanceCommitIndex
  -- the loop finds no index, or one that a majority holds
  rcases advanceLoop_spec p.rf i (lastLogIndex p.rf.log) with heq | ⟨c, hlt, hle, hterm, hmaj, heq⟩
  · rw [heq]
    exact ⟨h, fun hne => absurd rfl hne⟩
  rw [heq]
  have hc : c < p.rf.log.length := by
    unfold lastLogIndex at hle
    omega
  -- the entry at the index is of the current term, and a majority has acknowledged it
  have hcommitted : b.Committed p.rf.currentTerm (c + 1) := by
    refine ⟨Nat.succ_pos c, by rw [hchain]; exact hc, ?_, insert i ((List.finRange n).filter
      fun j => decide (j ≠ i ∧ p.rf.matchIndex j ≥ c)).toFinset, ?_, ?_⟩
    · rw [hchain, lastTerm_eq_getElem (n := c) (by rw [List.length_take]; omega),
        List.getElem_take, ← termAt_of_lt hc, hterm]
    · show Fintype.card (Fin n) / 2 + 1 ≤ Finset.card _
      rw [Fintype.card_fin, ← replicas_eq_card]
      exact hmaj
    · intro v hv
      rw [Finset.mem_insert, List.mem_toFinset, List.mem_filter, decide_eq_true_eq] at hv
      -- the leader counts itself, and the others by their match index
      rcases hv with rfl | ⟨-, hne, hmatch⟩
      · rw [hb.acks.leader_acked (h.leader hr), hchain]
        exact hc
      · rcases h.matched hr v hne with hzero | hacked <;> omega
  refine ⟨?_, fun _ => ⟨h.leader hr, hcommitted, by rw [hchain], hc⟩⟩
  exact
    { h with
      saved := h.saved.of_eq rfl
      settled := Or.inr ⟨_, c + 1, le_rfl, hcommitted, Nat.lt_succ_self c, by
        rw [hchain]
        exact List.take_prefix _ _⟩
      applied := h.applied.trans hlt.le }

/-- Counting the replicas with other counters than before. -/
theorem Refines.advance_counters (hb : b.Sound) (h : Refines b i p) (hr : p.rf.role = .leader)
    {rf : Server n Cmd} {next matched : Fin n → ℕ}
    (hmatched : ∀ j, j ≠ i → matched j = 0 ∨ matched j < b.acked j p.rf.currentTerm)
    (hrf : rf = { p.rf with nextIndex := next, matchIndex := matched }) :
    Simulates b b i { p with rf := rf.advanceCommitIndex i }
      (commitEvents i p.rf (rf.advanceCommitIndex i)) := by
  subst hrf
  have h' : Refines b i { p with rf := { p.rf with nextIndex := next, matchIndex := matched } } :=
    { h with saved := h.saved.of_eq rfl, matched := fun _ => hmatched }
  obtain ⟨href, hev⟩ := h'.advanceCommitIndex hb hr
  refine ⟨.refl i b, href, ?_, Or.inl⟩
  intro e he
  unfold commitEvents at he
  split at he
  · next hne =>
    rw [List.mem_singleton] at he
    have hev := hev fun heq => hne heq.symm
    obtain ⟨c, hc⟩ := Peer.advanceLoop_eq
      { p.rf with nextIndex := next, matchIndex := matched } i (lastLogIndex p.rf.log)
    unfold Server.advanceCommitIndex at he hev
    rw [he]
    rw [hc] at hev ⊢
    exact hev
  · simp at he

/-- The callback of an append reply: `matchIndex` takes over what was acknowledged. -/
theorem Refines.appendReply (hb : b.Sound) (h : Refines b i p) {dst : Fin n}
    {args : AppendEntriesArgs n Cmd} {reply : AppendEntriesReply}
    (hack : reply.success = true →
      args.prevLogIndex + 1 + args.entries.length ≤ b.acked dst args.term) :
    ∃ b', Simulates b b' i (p.appendReply i dst args reply)
      (commitEvents i p.rf (p.appendReply i dst args reply).rf) := by
  have hquiet : ∀ {b' : Knowledge n Cmd} {p' : Peer G}, p'.rf.commitIndex = p.rf.commitIndex →
      Simulates b b' i p' [] → Simulates b b' i p' (commitEvents i p.rf p'.rf) := by
    intro b' p' hc hs
    rwa [commitEvents, if_neg fun hne => hne hc.symm]
  unfold Peer.appendReply
  split
  · next hlt =>
    obtain ⟨b', hs⟩ := h.becomeFollower hb hlt
    exact ⟨b', hquiet rfl hs⟩
  split
  · exact ⟨b, hquiet rfl h.simulates⟩
  next hlead =>
  push Not at hlead
  obtain ⟨hr, hterm⟩ := hlead
  split
  · next hsucc =>
    have hack := hack hsucc
    -- the counters, raised to the end of the acknowledged batch
    have hcount : ∃ next matched, (∀ j, j ≠ i → matched j = 0 ∨
        matched j < b.acked j p.rf.currentTerm) ∧
        (if args.prevLogIndex + args.entries.length > p.rf.matchIndex dst then
          { p.rf with
            matchIndex := Function.update p.rf.matchIndex dst
              (args.prevLogIndex + args.entries.length)
            nextIndex := Function.update p.rf.nextIndex dst
              (args.prevLogIndex + args.entries.length + 1) }
        else p.rf) = { p.rf with nextIndex := next, matchIndex := matched } := by
      split
      · refine ⟨_, _, ?_, rfl⟩
        intro j hj
        rw [Function.update_apply]
        split
        · next hd =>
          rw [hd, hterm]
          omega
        · exact h.matched hr j hj
      · exact ⟨_, _, h.matched hr, rfl⟩
    obtain ⟨next, matched, hmatched, hrf⟩ := hcount
    exact ⟨b, h.advance_counters hb hr hmatched hrf⟩
  · refine ⟨b, hquiet rfl (Refines.simulates ?_)⟩
    exact { h with saved := h.saved.of_eq rfl }

end Raft
end SepLab
