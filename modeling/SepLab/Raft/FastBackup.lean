import SepLab.Raft.Delivery

/-!
# Fast backup finds where the logs part

A leader and a follower that exchange `replicateTo` and `AppendEntries` with each
other alone.  A rejection moves `nextIndex` back, over a whole term at a time.
It never moves forward: an entry of the conflicting term further on in the
leader's log would mean that the two logs agree where they were found to differ,
since all entries of one term come from one leader's log.

## Main definitions

* `backup log reply` — where a leader with this log resumes after a rejection.
* `Cluster.request`, `Cluster.reply`, `Cluster.exchange` — one exchange, as three steps.
* `Cluster.exchanges`, `Cluster.outcome` — several exchanges, and what each of them reports.
* `Cluster.Paired` — a living leader and a living server that is not in a later term.

## Main results

* `backup_lt` — a rejection moves the next index back, and not before the first entry.
* `Cluster.Paired.exchange` — what one exchange does.
* `fast_backup` — **every rejection moves `nextIndex` back, an exchange succeeds after
  finitely many, and then the follower has the leader's entries.**
-/

namespace SepLab
namespace Raft

open TermLog

variable {n : ℕ} {Cmd : Type} {G : Gob n Cmd}

/-! ### The two searches -/

theorem conflictStart_bounds (log : List (LogEntry Cmd)) (t : ℕ) {i : ℕ} (hi : 1 ≤ i) :
    1 ≤ conflictStart log t i ∧ conflictStart log t i ≤ i := by
  induction i with
  | zero => omega
  | succ i ih =>
    unfold conflictStart
    split
    · next hback =>
      obtain ⟨h₁, h₂⟩ := ih (by omega)
      omega
    · omega

theorem lastIndexOfTerm_eq_some {log : List (LogEntry Cmd)} {t : ℤ} {i k : ℕ}
    (h : lastIndexOfTerm log t i = some k) : 1 ≤ k ∧ k ≤ i ∧ (termAt log k : ℤ) = t := by
  induction i with
  | zero => cases h
  | succ i ih =>
    unfold lastIndexOfTerm at h
    split at h
    · next hterm =>
      obtain rfl := Option.some_inj.mp h
      exact ⟨by omega, le_rfl, hterm⟩
    · obtain ⟨h₁, h₂, h₃⟩ := ih h
      exact ⟨h₁, by omega, h₃⟩

/-! ### The leader's side -/

/-- Where a leader with this log resumes after a rejection. -/
def backup (log : List (LogEntry Cmd)) (reply : AppendEntriesReply) : ℕ :=
  if reply.conflictTerm = -1 then (max 1 reply.conflictIndex).toNat
  else
    match lastIndexOfTerm log reply.conflictTerm (lastLogIndex log) with
    | some last => last + 1
    | none => (max 1 reply.conflictIndex).toNat

/-- **A rejection moves back.**  If the follower's log and the leader's are
coherent and start with the same entry, the index at which the leader resumes
after a rejection is before the one it tried, and not before the first entry. -/
theorem backup_lt [Inhabited Cmd] {chain : ℕ → List (LogEntry Cmd)}
    {log lead log' : List (LogEntry Cmd)} {c c' : ℕ} {args : AppendEntriesArgs n Cmd}
    {reply : AppendEntriesReply} (hlog : Coherent LogEntry.term chain log)
    (hlead : Coherent LogEntry.term chain lead) (hgen : [sentinel] <+: log)
    (hgen' : [sentinel] <+: lead) (hprev : args.prevLogIndex < lead.length)
    (hterm : termAt lead args.prevLogIndex = args.prevLogTerm)
    (h : Peer.Handled log c args log' c' reply) (hs : reply.success = false) :
    1 ≤ backup lead reply ∧ backup lead reply < args.prevLogIndex + 1 := by
  have hpos := length_pos_of_sentinel hgen
  cases h with
  | appended _ _ => cases hs
  | short hshort =>
    unfold backup
    rw [if_pos rfl]
    unfold lastLogIndex at hshort ⊢
    dsimp only
    omega
  | conflict hin hne =>
    have hin' : args.prevLogIndex < log.length := by
      unfold lastLogIndex at hin
      omega
    -- both logs start with the sentinel, so they differ after it
    have hprev₁ : 1 ≤ args.prevLogIndex := by
      rcases Nat.eq_zero_or_pos args.prevLogIndex with hzero | h
      · rw [← hterm, hzero, termAt_of_lt hpos, termAt_of_lt (length_pos_of_sentinel hgen'),
          prefix_getElem hgen (by simp) hpos, prefix_getElem hgen' (by simp)] at hne
        exact absurd rfl hne
      · exact h
    obtain ⟨hstart₁, hstart⟩ :=
      conflictStart_bounds log (termAt log args.prevLogIndex) hprev₁
    unfold backup
    rw [if_neg (by dsimp only; omega)]
    dsimp only
    split
    · next last hlast =>
      obtain ⟨hlast₁, hle, hlastTerm⟩ := lastIndexOfTerm_eq_some hlast
      have hlt : last < lead.length := by
        unfold lastLogIndex at hle
        omega
      refine ⟨by omega, ?_⟩
      by_contra hge
      -- an entry of the conflicting term at or after the rejected index
      have hsame : termAt log args.prevLogIndex = termAt lead last := by omega
      rw [termAt_of_lt hlt, termAt_of_lt hin'] at hsame
      have heq := hlog.getElem_eq hlead hin' hlt (by omega) hsame
      rw [← hterm, termAt_of_lt hin', termAt_of_lt hprev, heq] at hne
      exact hne rfl
    · omega

/-- The request starts where `nextIndex` says, if that is an index of the log or the next one. -/
theorem Server.replicateTo_prevLogIndex {rf : Server n Cmd} {me peer : Fin n} {term : ℕ}
    {args : AppendEntriesArgs n Cmd} (h : rf.replicateTo me peer term = some args)
    (hle : 1 ≤ rf.nextIndex peer) (hge : rf.nextIndex peer ≤ lastLogIndex rf.log + 1) :
    args.prevLogIndex + 1 = rf.nextIndex peer := by
  unfold Server.replicateTo at h
  split at h
  · cases h
  dsimp only at h
  rw [if_neg (not_lt.mpr hle), if_neg (not_lt.mpr hge), Option.some_inj] at h
  subst h
  exact Nat.sub_add_cancel hle

namespace Peer

variable {p : Peer G} {me peer : Fin n} {args : AppendEntriesArgs n Cmd}
  {reply : AppendEntriesReply}

/-- The callback of a reply of no later term keeps the role, the term and the log. -/
theorem appendReply_same (me peer : Fin n) (args : AppendEntriesArgs n Cmd)
    (h : reply.term ≤ p.rf.currentTerm) :
    (p.appendReply me peer args reply).rf.role = p.rf.role ∧
      (p.appendReply me peer args reply).rf.currentTerm = p.rf.currentTerm ∧
      (p.appendReply me peer args reply).rf.log = p.rf.log := by
  obtain ⟨next, matched, c, heq⟩ := p.appendReply_counters me peer args (not_lt.mpr h)
  rw [heq]
  exact ⟨rfl, rfl, rfl⟩

/-- The callback of a rejection moves the leader's next index. -/
theorem appendReply_rejected (h : reply.term ≤ p.rf.currentTerm) (hr : p.rf.role = .leader)
    (ht : args.term = p.rf.currentTerm) (hs : reply.success = false) :
    (p.appendReply me peer args reply).rf.nextIndex peer = backup p.rf.log reply := by
  have hlead : ¬ (p.rf.role ≠ .leader ∨ p.rf.currentTerm ≠ args.term) := by
    rw [hr, ht]
    simp
  unfold appendReply
  rw [if_neg (not_lt.mpr h), if_neg hlead, if_neg (by simp [hs])]
  exact Function.update_self _ _ _

end Peer

/-! ### One exchange -/

namespace Cluster

/-- What the leader `i` sends to `j`. -/
def request (s : Cluster G) (i j : Fin n) : Option (AppendEntriesArgs n Cmd) :=
  (s.node i).rf.replicateTo i j (s.node i).rf.currentTerm

/-- What `j` answers. -/
def reply (s : Cluster G) (i j : Fin n) : Option AppendEntriesReply :=
  (s.request i j).map fun args => ((s.peer j (s.nodes j)).appendEntries args).2

variable [Inhabited Cmd]

/-- `i` sends its log to `j`, which handles the request, and its reply gets back to `i`. -/
def exchange (i j : Fin n) (s : Cluster G) : Option (Cluster G) :=
  exec failStop s
    [.replicateTo i (s.nodes i) j (s.node i).rf.currentTerm,
      .appendEntries s.appendCalls.length, .appendReply s.appendCalls.length]

/-- `m` exchanges one after the other. -/
def exchanges (i j : Fin n) : ℕ → Cluster G → Option (Cluster G)
  | 0, s => some s
  | m + 1, s => (s.exchange i j).bind (exchanges i j m)

/-- Whether the exchange after the first `m` succeeds. -/
def outcome (i j : Fin n) (m : ℕ) (s : Cluster G) : Option Bool :=
  ((exchanges i j m s).bind fun s => s.reply i j).map AppendEntriesReply.success

/-- A living leader `i` and a living server `j` that is not in a later term. -/
structure Paired (s : Cluster G) (i j : Fin n) : Prop where
  ne : j ≠ i
  leader : (s.node i).rf.role = .leader
  alive : (s.node i).rf.dead = false
  alive' : (s.node j).rf.dead = false
  term : (s.node j).rf.currentTerm ≤ (s.node i).rf.currentTerm

variable {s : Cluster G} {i j : Fin n}

omit [Inhabited Cmd] in
theorem Paired.request (h : s.Paired i j) : ∃ args, s.request i j = some args := by
  unfold Cluster.request Server.replicateTo
  rw [if_neg (by simp [h.leader])]
  exact ⟨_, rfl⟩

/-- A step of a living instance. -/
theorem failStop_alive {a : Action n Cmd} {k : ℕ} (ha : s.actor a = some (i, k))
    (hd : (s.inst i k).rf.dead = false) : failStop s a = step s a := by
  unfold failStop guarded alive
  rw [ha, if_pos (by simp [hd])]

/-- The three steps of an exchange, as the sections of the two servers. -/
theorem Paired.exchange_eq (h : s.Paired i j) {args : AppendEntriesArgs n Cmd}
    (hargs : s.request i j = some args) :
    ∃ s', s.exchange i j = some s' ∧
      (s'.node i).rf = ((s.peer i (s.nodes i)).appendReply i j args
        ((s.peer j (s.nodes j)).appendEntries args).2).rf ∧
      (s'.node j).rf = ((s.peer j (s.nodes j)).after args).rf := by
  have hij : i ≠ j := fun heq => h.ne heq.symm
  -- the request
  let call : AppendCall n Cmd := ⟨i, s.nodes i, j, args, none⟩
  let s₁ : Cluster G := { s with appendCalls := s.appendCalls ++ [call] }
  have h₁ : failStop s (.replicateTo i (s.nodes i) j (s.node i).rf.currentTerm) = some s₁ := by
    rw [failStop_alive rfl h.alive]
    show s.replicateTo i (s.nodes i) j (s.node i).rf.currentTerm = some s₁
    unfold Cluster.replicateTo
    rw [if_pos ⟨le_rfl, h.ne⟩]
    exact congrArg (Option.map _) hargs
  -- the follower's turn
  have hcall : s₁.appendCalls[s.appendCalls.length]? = some call := by simp [s₁]
  let p := (s.peer j (s.nodes j)).appendEntries args
  let call' : AppendCall n Cmd := { call with reply := some p.2 }
  let s₂ : Cluster G :=
    { s.put j (s.nodes j) p.1 with
      appendCalls := s₁.appendCalls.set s.appendCalls.length call' }
  have h₂ : failStop s₁ (.appendEntries s.appendCalls.length) = some s₂ := by
    have hactor : s₁.actor (.appendEntries s.appendCalls.length) = some (j, s.nodes j) := by
      simp only [actor, hcall]
      rfl
    rw [failStop_alive hactor h.alive']
    show s₁.appendEntries s.appendCalls.length = some s₂
    unfold Cluster.appendEntries
    rw [hcall, Option.bind_some, if_pos ⟨rfl, h.alive'⟩]
    rfl
  -- the leader's turn
  have hcall' : s₂.appendCalls[s.appendCalls.length]? = some call' := by
    simp [s₂, s₁]
  have hpeer : s₂.peer i (s.nodes i) = s.peer i (s.nodes i) := by
    simp [s₂, put, peer, set₂_apply, hij]
  have hrf : (s₂.inst i (s.nodes i)).rf = (s.inst i (s.nodes i)).rf := congrArg Peer.rf hpeer
  have h₃ : ∃ s₃, failStop s₂ (.appendReply s.appendCalls.length) = some s₃ ∧
      (s₃.node i).rf = ((s.peer i (s.nodes i)).appendReply i j args p.2).rf ∧
      (s₃.node j).rf = p.1.rf := by
    have hactor : s₂.actor (.appendReply s.appendCalls.length) = some (i, s.nodes i) := by
      simp only [actor, hcall']
      rfl
    rw [failStop_alive hactor (hrf ▸ h.alive)]
    show ∃ s₃, s₂.appendReply s.appendCalls.length = some s₃ ∧ _
    unfold Cluster.appendReply
    rw [hcall', Option.bind_some]
    refine ⟨_, rfl, ?_, ?_⟩
    · show (set₂ s₂.inst i (s.nodes i) _ i (s.nodes i)).rf = _
      rw [set₂_self, ← hpeer]
    · show (set₂ s₂.inst i (s.nodes i) _ j (s.nodes j)).rf = _
      rw [set₂_apply, if_neg fun hc => h.ne hc.1]
      show (set₂ s.inst j (s.nodes j) _ j (s.nodes j)).rf = _
      rw [set₂_self]
  obtain ⟨s₃, h₃, hi, hj⟩ := h₃
  refine ⟨s₃, ?_, hi, hj⟩
  unfold Cluster.exchange
  rw [exec_cons, h₁, Option.bind_some, exec_cons, h₂, Option.bind_some, exec_cons, h₃]
  rfl

/-- One exchange from `s` to `s'`: the leader keeps its log, a rejection moves its
next index back, and a success leaves its log with the follower. -/
structure Exchanged (s : Cluster G) (i j : Fin n) (args : AppendEntriesArgs n Cmd)
    (reply : AppendEntriesReply) (s' : Cluster G) : Prop where
  requested : s.request i j = some args
  replied : s.reply i j = some reply
  exchanged : s.exchange i j = some s'
  log : (s'.node i).rf.log = (s.node i).rf.log
  prev : args.prevLogIndex ≤ lastLogIndex (s.node i).rf.log
  rejected : reply.success = false →
    1 ≤ (s'.node i).rf.nextIndex j ∧ (s'.node i).rf.nextIndex j < args.prevLogIndex + 1
  accepted : reply.success = true → (s.node i).rf.log <+: (s'.node j).rf.log

/-- **One exchange** of a pair in a reachable cluster, after which it is still such a pair. -/
theorem Paired.exchange (h : s.Paired i j) (hs : Reach failStop (init G) s) :
    ∃ args reply s', Exchanged s i j args reply s' ∧ s'.Paired i j ∧
      Reach failStop (init G) s' := by
  obtain ⟨b, -, hb, href⟩ := refines_of_reach hs
  obtain ⟨args, hargs⟩ := h.request
  obtain ⟨s', hs', hi, hj⟩ := h.exchange_eq hargs
  have hlead := href.peers i
  obtain ⟨-, hterm, hcut⟩ := hlead.replicateTo_cut hb hargs
  have hf : (s.peer j (s.nodes j)).rf.currentTerm ≤ args.term := by
    rw [hterm]
    exact h.term
  obtain ⟨hcur, hhandled⟩ := Peer.appendEntries_handled hf
  obtain ⟨-, hdead⟩ := Peer.kept_appendEntries (s.peer j (s.nodes j)) args
  have hle : ((s.peer j (s.nodes j)).appendEntries args).2.term ≤
      (s.peer i (s.nodes i)).rf.currentTerm := (hhandled.reply_term.trans hterm).le
  obtain ⟨hrole, hcur', hlog⟩ := Peer.appendReply_same i j args hle
  obtain ⟨-, hdead'⟩ := Peer.kept_appendReply (s.peer i (s.nodes i)) i j args
    ((s.peer j (s.nodes j)).appendEntries args).2
  have hcohF : Coherent LogEntry.term b.chain (s.peer j (s.nodes j)).rf.log :=
    (href.peers j).log ▸ hb.chains.log_coherent j
  -- both logs are parts of the journal's chain
  have hcohL : Coherent LogEntry.term b.chain (s.peer i (s.nodes i)).rf.log :=
    hlead.log ▸ hb.chains.log_coherent i
  have hgenF : [sentinel] <+: (s.peer j (s.nodes j)).rf.log :=
    (href.peers j).log ▸ hb.chains.log_genesis j
  have hgenL : [sentinel] <+: (s.peer i (s.nodes i)).rf.log :=
    hlead.log ▸ hb.chains.log_genesis i
  have hlen := hcut.length
  -- the entry before the request's is one of the leader's own
  have hin : args.prevLogIndex < (s.peer i (s.nodes i)).rf.log.length := by omega
  refine ⟨args, ((s.peer j (s.nodes j)).appendEntries args).2, s', ?_, ?_, ?_⟩
  · refine
      { requested := hargs
        replied := congrArg (Option.map _) hargs
        exchanged := hs'
        log := (congrArg Server.log hi).trans hlog
        prev := Nat.le_sub_one_of_lt hin
        rejected := fun hrej => ?_
        accepted := fun hacc => ?_ }
    · rw [hi, Peer.appendReply_rejected hle h.leader hterm hrej]
      exact backup_lt hcohF hcohL hgenF hgenL hin hcut.prevTerm hhandled hrej
    · rw [hj]
      exact (hcut.accepted hb (.of_refines hb (href.peers j) hf) hacc).2.1.holds
  · exact
      { ne := h.ne
        leader := by rw [hi, hrole]; exact h.leader
        alive := by rw [hi, hdead']; exact h.alive
        alive' := by rw [hj]; exact hdead.trans h.alive'
        term := by
          rw [hi, hj, hcur']
          exact (hcur.trans hterm).le }
  · exact hs.trans (.of_exec _ hs')

/-! ### Several exchanges -/

theorem exchanges_succ {m : ℕ} {s' : Cluster G} (h : s.exchange i j = some s') :
    exchanges i j (m + 1) s = exchanges i j m s' := by
  show (s.exchange i j).bind (exchanges i j m) = _
  rw [h]
  rfl

theorem outcome_succ {m : ℕ} {s' : Cluster G} (h : s.exchange i j = some s') :
    outcome i j (m + 1) s = outcome i j m s' := by
  unfold outcome
  rw [exchanges_succ h]

theorem outcome_zero {reply : AppendEntriesReply} (h : s.reply i j = some reply) :
    outcome i j 0 s = some reply.success := by
  show (s.reply i j).map AppendEntriesReply.success = _
  rw [h]
  rfl

/-- A pair can go on for ever, and the leader keeps its log. -/
theorem Paired.exchanges (h : s.Paired i j) (hs : Reach failStop (init G) s) (m : ℕ) :
    ∃ s', exchanges i j m s = some s' ∧ s'.Paired i j ∧ Reach failStop (init G) s' ∧
      (s'.node i).rf.log = (s.node i).rf.log := by
  induction m generalizing s with
  | zero => exact ⟨s, rfl, h, hs, rfl⟩
  | succ m ih =>
    obtain ⟨args, reply, s₁, hex, h₁, hs₁⟩ := h.exchange hs
    obtain ⟨s', hs', hpair, hreach, hlog⟩ := ih h₁ hs₁
    exact ⟨s', (exchanges_succ hex.exchanged).trans hs', hpair, hreach, hlog.trans hex.log⟩

/-- The number of rejections is bounded by the index before the first batch: each
of them moves the batch back, and a batch right after the sentinel is accepted. -/
theorem Paired.succeeds (h : s.Paired i j) (hs : Reach failStop (init G) s)
    {args : AppendEntriesArgs n Cmd} (hargs : s.request i j = some args) :
    ∃ m, m ≤ args.prevLogIndex ∧ (∀ k < m, outcome i j k s = some false) ∧
      outcome i j m s = some true := by
  generalize hu : args.prevLogIndex = u
  induction u using Nat.strong_induction_on generalizing s args with
  | _ u ih =>
    obtain ⟨args', reply, s', hex, h', hs'⟩ := h.exchange hs
    obtain rfl := Option.some_inj.mp (hargs.symm.trans hex.requested)
    have hzero := outcome_zero hex.replied
    cases hsucc : reply.success with
    | true => exact ⟨0, Nat.zero_le _, fun k hk => by omega, hsucc ▸ hzero⟩
    | false =>
      obtain ⟨hone, hlt⟩ := hex.rejected hsucc
      obtain ⟨args', hargs'⟩ := h'.request
      -- the next batch starts where the rejection has moved `nextIndex`
      have hnext : args'.prevLogIndex + 1 = (s'.node i).rf.nextIndex j := by
        refine Server.replicateTo_prevLogIndex hargs' hone ?_
        have := hex.prev
        rw [hex.log]
        omega
      obtain ⟨m, hm, hrej, hacc⟩ := ih args'.prevLogIndex (by omega) h' hs' hargs' rfl
      refine ⟨m + 1, by omega, ?_, (outcome_succ hex.exchanged).trans hacc⟩
      intro k hk
      cases k with
      | zero => exact hsucc ▸ hzero
      | succ k => exact (outcome_succ hex.exchanged).trans (hrej k (by omega))

end Cluster

/-- **Fast backup converges.**  In a reachable cluster, let the leader `i` and a
server `j` in no later term repeat their exchange with each other alone.  Every
exchange is possible and the leader keeps its log; a rejection leaves `nextIndex`
below the index the request started at, and at least at `1`; a success leaves the
follower with the leader's entries; and after at most as many rejections as the
leader has entries there is a success. -/
theorem fast_backup [Inhabited Cmd] {s : Cluster G}
    (hs : Reach Cluster.failStop (Cluster.init G) s) {i j : Fin n} (h : s.Paired i j) :
    (∀ m, ∃ s₁ args reply s₂, Cluster.exchanges i j m s = some s₁ ∧
      s₁.request i j = some args ∧ s₁.reply i j = some reply ∧ s₁.exchange i j = some s₂ ∧
      (s₂.node i).rf.log = (s.node i).rf.log ∧
      (reply.success = false →
        1 ≤ (s₂.node i).rf.nextIndex j ∧ (s₂.node i).rf.nextIndex j < args.prevLogIndex + 1) ∧
      (reply.success = true → ∀ idx, 1 ≤ idx → idx ≤ lastLogIndex (s.node i).rf.log →
        (s₂.node j).rf.log[idx]? = (s.node i).rf.log[idx]?)) ∧
    ∃ m, m ≤ lastLogIndex (s.node i).rf.log ∧
      (∀ k < m, Cluster.outcome i j k s = some false) ∧
      Cluster.outcome i j m s = some true := by
  constructor
  · intro m
    -- the exchange of the next round, from the state in which the earlier ones end
    obtain ⟨s₁, hs₁, hpair, hreach, hlog⟩ := h.exchanges hs m
    obtain ⟨args, reply, s₂, hex, -, -⟩ := hpair.exchange hreach
    refine ⟨s₁, args, reply, s₂, hs₁, hex.requested, hex.replied, hex.exchanged,
      hex.log.trans hlog, hex.rejected, ?_⟩
    intro hsucc idx hone hle
    have hpre := hex.accepted hsucc
    rw [hlog] at hpre
    have hlt : idx < (s.node i).rf.log.length := by
      unfold lastLogIndex at hle
      omega
    rw [List.getElem?_eq_getElem hlt, List.getElem?_eq_getElem (hlt.trans_le hpre.length_le),
      hpre.getElem hlt]
  -- the first request names the place it starts from, which bounds the rounds
  · obtain ⟨args, reply, s', hex, -, -⟩ := h.exchange hs
    obtain ⟨m, hm, hrej, hacc⟩ := h.succeeds hs hex.requested
    exact ⟨m, hm.trans hex.prev, hrej, hacc⟩

/-- Server `i` leads term `1`, appends a command, restarts and leads term `2`. -/
def twiceLeader (i : Fin n) : List (Action n ℕ) :=
  [.startElection i 0, .requestVote 0, .voteReply 0, .start i 0 7, .crash i, .restart i,
    .startElection i 1, .requestVote 1, .voteReply 1]

/-- It starts after its last entry, which server `1` has never got. -/
theorem fast_backup_twiceLeader : ∃ s : Cluster (Gob.letter 3 ℕ),
    exec Cluster.failStop (Cluster.init _) (twiceLeader 0) = some s ∧
    Cluster.outcome 0 1 0 s = some false ∧
    ∃ m, m ≤ 1 ∧ Cluster.outcome 0 1 m s = some true := by
  have hrun : ((exec Cluster.failStop (Cluster.init (Gob.letter 3 ℕ)) (twiceLeader 0)).map fun s =>
      ((s.node 0).rf.role, (s.node 0).rf.dead, (s.node 1).rf.dead, (s.node 0).rf.currentTerm,
        (s.node 1).rf.currentTerm)) = some (.leader, false, false, 2, 2) := by decide
  have hout : ((exec Cluster.failStop (Cluster.init (Gob.letter 3 ℕ)) (twiceLeader 0)).map fun s =>
      (Cluster.outcome 0 1 0 s, (s.node 0).rf.log)) =
      some (some false, [⟨0, 0⟩, ⟨1, 7⟩]) := by decide
  obtain ⟨s, hs, hobs⟩ := Option.map_eq_some_iff.mp hrun
  rw [hs, Option.map_some, Option.some_inj] at hout
  simp only [Prod.mk.injEq] at hobs hout
  obtain ⟨hrole, hdead, hdead', hterm, hterm'⟩ := hobs
  have hpair : s.Paired 0 1 := ⟨by decide, hrole, hdead, hdead', by rw [hterm, hterm']⟩
  obtain ⟨m, hm, -, hacc⟩ := (fast_backup (.of_exec _ hs) hpair).2
  rw [hout.2] at hm
  exact ⟨s, hs, hout.1, m, hm, hacc⟩

end Raft
end SepLab
