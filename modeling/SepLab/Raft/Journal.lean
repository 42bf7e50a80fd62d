import SepLab.Lib.Broadcast
import SepLab.Raft.Tickets

/-!
# A cluster is a broadcast

From outside a cluster of Raft servers is one journal: clients call `Start`, and
every instance of every server delivers the journal from its beginning.  Elections,
crashes and lost messages are not to be seen.

## Main definitions

* `Cluster.observe s a`, `Cluster.observed s as` — the calls of `Start` that are accepted and
  the messages that are delivered, in a step and in a run.
* `Cluster.Journaled s ts b` — the cluster is as the broadcast `b` has it.

## Main results

* `Cluster.Journaled.step` — every step of the cluster is at most two steps of the broadcast.
* `refines_broadcast` — **every run of the cluster is a run of the broadcast.**
* `delivered_commands` — deliveries are comparable, and no command is delivered more often than
  it was accepted.
-/

namespace SepLab
namespace Raft

variable {n : ℕ} {Cmd : Type} [Inhabited Cmd] {G : Gob n Cmd}

namespace Cluster

omit [Inhabited Cmd] in
/-- What a client sees of a step. -/
def observe (s : Cluster G) (a : Action n Cmd) : List (Broadcast.Label (Fin n × ℕ) Cmd) :=
  match a with
  | .start _ _ _ => ((s.ticket a).map fun x => .call x.2.command).toList
  | .send i k =>
    ((s.inst i k).batch.head?.map fun msg => .get (i, k) msg.commandIndex msg.command).toList
  | _ => []

/-- What a client sees of the run `as` from `s`. -/
def observed : Cluster G → List (Action n Cmd) → List (Broadcast.Label (Fin n × ℕ) Cmd)
  | _, [] => []
  | s, a :: as => s.observe a ++ (failStop s a).elim [] fun s' => s'.observed as

theorem observed_concat {s s' : Cluster G} {as : List (Action n Cmd)} {a : Action n Cmd}
    (h : exec failStop s as = some s') :
    s.observed (as ++ [a]) = s.observed as ++ s'.observe a := by
  induction as generalizing s with
  | nil =>
    obtain rfl := Option.some_inj.mp h
    show _ ++ (failStop s a).elim [] (fun s' => s'.observed []) = [] ++ _
    cases failStop s a with
    | none => exact List.append_nil _
    | some s' => exact List.append_nil _
  | cons a' as ih =>
    obtain ⟨s₁, hs₁, h⟩ := Option.bind_eq_some_iff.mp h
    show _ ++ (failStop s a').elim [] (fun s' => s'.observed (as ++ [a])) =
      (_ ++ (failStop s a').elim [] fun s' => s'.observed as) ++ _
    rw [hs₁, List.append_assoc]
    exact congrArg _ (ih h)

/-- The cluster is as the broadcast `c` has it: the calls are those with tickets, an
entry of the journal is committed at the index of its ticket, and an instance has
read what it has delivered. -/
structure Journaled (b : Knowledge n Cmd) (ts : List (ℕ × LogEntry Cmd)) (s : Cluster G)
    (c : Broadcast (Fin n × ℕ) Cmd) : Prop where
  calls : c.calls = ts.map fun x => x.2.command
  journal : ∀ p m, c.journal[p]? = some m → ∃ e t k, ts[m]? = some (p + 1, e) ∧
    b.Committed t k ∧ p + 1 < k ∧ (b.chain t)[p + 1]? = some e
  read : ∀ r, c.read r = (s.delivered r.1 r.2).length

theorem Journaled.init : (Cluster.init G).Journaled (Ballots.init [sentinel]) [] (.empty _ _) where
  calls := rfl
  journal p m hm := by cases hm
  read r := rfl

variable {b b' : Knowledge n Cmd} {ts : List (ℕ × LogEntry Cmd)} {s s' : Cluster G}
  {c : Broadcast (Fin n × ℕ) Cmd}

omit [Inhabited Cmd] in
/-- What the journal has stays as more is known. -/
theorem Journaled.journal_grows (h : s.Journaled b ts c) (hb : Ballots.Grows b b')
    (us : List (ℕ × LogEntry Cmd)) : ∀ p m, c.journal[p]? = some m →
      ∃ e t k, (ts ++ us)[m]? = some (p + 1, e) ∧ b'.Committed t k ∧ p + 1 < k ∧
        (b'.chain t)[p + 1]? = some e := by
  intro p m hm
  obtain ⟨e, t, k, hts, hc, hlt, hget⟩ := h.journal p m hm
  obtain ⟨es, hes⟩ := hb.chain t
  have hin : p + 1 < (b.chain t).length := hlt.trans_le hc.2.1
  refine ⟨e, t, k, ?_, hc.grows hb, hlt, ?_⟩
  · rw [List.getElem?_append_left (List.getElem?_eq_some_iff.mp hts).1]
    exact hts
  · rw [← hes, List.getElem?_append_left hin]
    exact hget

omit [Inhabited Cmd] in
/-- An entry that the journal does not have is put at its end. -/
theorem Journaled.enter (h : s.Journaled b ts c) {e : LogEntry Cmd} {t k : ℕ}
    (hmem : (c.journal.length + 1, e) ∈ ts) (hc : b.Committed t k)
    (hlt : c.journal.length + 1 < k) (hget : (b.chain t)[c.journal.length + 1]? = some e) :
    ∃ c', Broadcast.Step c [] c' ∧ s.Journaled b ts c' ∧
      c'.journal.length = c.journal.length + 1 := by
  obtain ⟨m, hm⟩ := List.mem_iff_getElem?.mp hmem
  have hlen : m < c.calls.length := by
    rw [h.calls, List.length_map]
    exact (List.getElem?_eq_some_iff.mp hm).1
  -- the call is new to the journal, whose calls all came before
  have hnew : m ∉ c.journal := by
    intro hin
    obtain ⟨p, hp⟩ := List.mem_iff_getElem?.mp hin
    obtain ⟨e', t', k', hts, -⟩ := h.journal p m hp
    rw [hm, Option.some_inj, Prod.mk.injEq] at hts
    have := (List.getElem?_eq_some_iff.mp hp).1
    omega
  refine ⟨_, .enter c m hlen hnew, ⟨h.calls, ?_, h.read⟩, List.length_append⟩
  intro p m' hp
  have hp' : (c.journal ++ [m])[p]? = some m' := hp
  -- an older place of the journal, or the new one
  rcases Nat.lt_or_ge p c.journal.length with hlt' | hge
  · rw [List.getElem?_append_left hlt'] at hp'
    exact h.journal p m' hp'
  · obtain rfl : p = c.journal.length := by
      have := (List.getElem?_eq_some_iff.mp hp').1
      rw [List.length_append, List.length_singleton] at this
      omega
    rw [List.getElem?_concat_length, Option.some_inj] at hp'
    exact ⟨e, t, k, hp' ▸ hm, hc, hlt, hget⟩

/-- The instance that delivers the next entry of the journal reads it. -/
theorem Journaled.get (h : s.Journaled b ts c) (hb : b.Sound) {r : Fin n × ℕ}
    {msg : ApplyMsg Cmd} (hmsg : msg.Entered b ts) (hidx : msg.commandIndex = c.read r + 1)
    (hlen : c.read r < c.journal.length)
    (hdel : s'.delivered = set₂ s.delivered r.1 r.2 (s.delivered r.1 r.2 ++ [msg.commandIndex])) :
    ∃ c', Broadcast.Step c [.get r msg.commandIndex msg.command] c' ∧ s'.Journaled b ts c' := by
  obtain ⟨t, m, e, hc, hlt, hget, hcmd, -⟩ := hmsg
  obtain ⟨e', t', k', hts, hc', hlt', hget'⟩ :=
    h.journal (c.read r) c.journal[c.read r] (List.getElem?_eq_getElem hlen)
  rw [← hidx] at hts hlt' hget'
  -- the entry delivered is the one that the journal names
  have hsame : msg.command = e'.command :=
    ApplyMsg.Known.command_eq hb ⟨t, m, hc, hlt, by rw [hget, Option.map_some, hcmd]⟩ hc' hlt' hget'
  have hcall : c.calls[c.journal[c.read r]]? = some msg.command := by
    rw [h.calls, List.getElem?_map, hts, hsame]
    rfl
  rw [hidx]
  refine ⟨_, .get c r hlen msg.command hcall, ⟨h.calls, h.journal, fun r' => ?_⟩⟩
  show Function.update c.read r (c.read r + 1) r' = _
  rw [hdel, set₂_apply, Function.update_apply]
  by_cases hr : r' = r
  · subst hr
    simp [h.read]
  · rw [if_neg hr, if_neg fun hc => hr (Prod.ext hc.1 hc.2)]
    exact h.read r'

omit [Inhabited Cmd] in
/-- A step that delivers nothing: the broadcast gets the call with a ticket, if there is one. -/
theorem Journaled.call (h : s.Journaled b ts c) (hb : Ballots.Grows b b')
    (hdel : s'.delivered = s.delivered) (x : Option (ℕ × LogEntry Cmd)) :
    ∃ c', Broadcast.Run c (x.map fun x => Broadcast.Label.call x.2.command).toList c' ∧
      s'.Journaled b' (ts ++ x.toList) c' := by
  have hread : ∀ r : Fin n × ℕ, c.read r = (s'.delivered r.1 r.2).length := by
    rw [hdel]
    exact h.read
  cases x with
  | none => exact ⟨c, .refl, by simpa using h.calls, h.journal_grows hb [], hread⟩
  | some x =>
    refine ⟨_, .tail .refl (.call c x.2.command), ?_, h.journal_grows hb [x], hread⟩
    show c.calls ++ [x.2.command] = _
    rw [h.calls]
    simp

omit [Inhabited Cmd] in
theorem observe_eq {a : Action n Cmd} (ha : ∀ i k, a ≠ .send i k) :
    s.observe a = ((s.ticket a).map fun x => Broadcast.Label.call x.2.command).toList := by
  cases a with
  | send i k => exact absurd rfl (ha i k)
  | _ => rfl

/-- **Every step of the cluster is a step of the broadcast**, or two when the journal gets the
entry that is delivered. -/
theorem Journaled.step {a : Action n Cmd} (h : s.Journaled b ts c) (hE : s.Entered b ts)
    (hin : s.InOrder) (hb : b.Sound) (href : s.Refines b) (hgrows : Ballots.Grows b b')
    (hstep : failStop s a = some s') : ∃ c', Broadcast.Run c (s.observe a) c' ∧
      s'.Journaled b' (ts ++ (s.ticket a).toList) c' := by
  obtain ⟨halive, hs⟩ := step_of_guarded hstep
  have hquiet : (∀ i k, a ≠ .send i k) → s'.delivered = s.delivered →
      ∃ c', Broadcast.Run c (s.observe a) c' ∧
        s'.Journaled b' (ts ++ (s.ticket a).toList) c' := by
    intro ha hdel
    rw [observe_eq ha]
    exact h.call hgrows hdel _
  cases step_effect hs with
  | @acted i k p hsec votes inst nodes persisters del =>
    refine hquiet (fun i k ha => ?_) del
    subst ha
    cases hsec
  | quiet inst nodes persisters del =>
    refine hquiet (fun i k ha => ?_) del
    subst ha
    -- a delivery empties a batch
    simp only [Cluster.step, send] at hs
    split at hs
    · cases hs
    next msg rest hbatch =>
    split at hs
    case isFalse => cases hs
    rw [Option.some_inj] at hs
    subst hs
    have hrest := congrArg Instance.batch (congrFun (congrFun inst i) k)
    simp [setBatch, emit, hbatch] at hrest
  | applier ha hk hnil happ inst nodes persisters del =>
    exact hquiet (fun i k hc => by rw [ha] at hc; cases hc) del
  | crash ha hlive inst nodes persisters del =>
    exact hquiet (fun i k hc => by rw [ha] at hc; cases hc) del
  | restart ha hdead inst nodes persisters del =>
    exact hquiet (fun i k hc => by rw [ha] at hc; cases hc) del
  | @send i k msg rest ha hk hbatch inst nodes persisters del =>
    subst ha
    have hd : (s.inst i k).rf.dead = false := by simpa [alive, actor] using halive
    obtain rfl := href.eq_node hk hd
    have hmsg : msg.Entered b ts := by
      apply hE.batches i
      rw [node, hbatch]
      exact List.mem_cons_self
    -- deliveries are in order, so this is the next one
    have hidx : msg.commandIndex = c.read (i, s.nodes i) + 1 := by
      have hmade := hin.made hk
      rw [hbatch, List.map_cons] at hmade
      have hget := congrArg (fun l => l[(s.delivered i (s.nodes i)).length]?) hmade
      simp only [List.getElem?_append_right (le_refl _), Nat.sub_self,
        List.getElem?_cons_zero] at hget
      obtain ⟨hlt, hget⟩ := List.getElem?_eq_some_iff.mp hget.symm
      rw [List.getElem_range'] at hget
      rw [h.read]
      show _ = (s.delivered i (s.nodes i)).length + 1
      omega
    have hobs : s.observe (.send i (s.nodes i)) =
        [.get (i, s.nodes i) msg.commandIndex msg.command] := by
      simp [observe, hbatch]
    rw [hobs]
    -- the journal gets the entry, unless somebody has read it before
    have hjournal : ∃ c₁, Broadcast.Run c [] c₁ ∧ s.Journaled b ts c₁ ∧
        msg.commandIndex = c₁.read (i, s.nodes i) + 1 ∧
        c₁.read (i, s.nodes i) < c₁.journal.length := by
      rcases (c.read_le (i, s.nodes i)).lt_or_eq with hlt | heq
      · exact ⟨c, .refl, h, hidx, hlt⟩
      · obtain ⟨t, m, e, hc, hlt, hget, -, hmem⟩ := hmsg
        rw [hidx, heq] at hlt hget hmem
        obtain ⟨c₁, hs₁, hj₁, hlen⟩ := h.enter hmem hc hlt hget
        have hread : c₁.read (i, s.nodes i) = c.read (i, s.nodes i) := by
          rw [h.read, hj₁.read]
        exact ⟨c₁, .tail .refl hs₁, hj₁, by rw [hread, hidx], by omega⟩
    obtain ⟨c₁, hrun, hj₁, hidx₁, hlen₁⟩ := hjournal
    obtain ⟨c', hget, hj'⟩ := hj₁.get hb hmsg hidx₁ hlen₁ del
    refine ⟨c', .tail hrun hget, ⟨?_, hj'.journal_grows hgrows [], hj'.read⟩⟩
    simpa [ticket] using hj'.calls

/-- Every run leaves the cluster as a run of the broadcast has it. -/
theorem journaled_of_exec {as : List (Action n Cmd)} (h : exec failStop (init G) as = some s) :
    ∃ (b : Knowledge n Cmd) (c : Broadcast (Fin n × ℕ) Cmd), b.Sound ∧ s.Refines b ∧
      s.Entered b ((init G).tickets as) ∧
      Broadcast.Run (.empty _ _) ((init G).observed as) c ∧
      s.Journaled b ((init G).tickets as) c := by
  induction as using List.reverseRecOn generalizing s with
  | nil =>
    obtain rfl := Option.some_inj.mp h
    refine ⟨_, .empty _ _, .init ?_, .init, .init _ _, .refl, .init⟩
    intro e he
    rw [List.mem_singleton.mp he]
    rfl
  | append_singleton as a ih =>
    rw [exec_concat, Option.bind_eq_some_iff] at h
    -- the induction is on the run: the last action moves the journal by at most one call
    obtain ⟨s₀, hs₀, hstep⟩ := h
    obtain ⟨b₀, c₀, hb₀, href₀, hE, hrun, hj⟩ := ih hs₀
    obtain ⟨b, hsteps, hb, href⟩ := href₀.step hb₀ hstep
    have hgrows := Ballots.Steps.grows hb₀ hsteps
    obtain ⟨c, hrun', hj'⟩ := hj.step hE (inOrder_of_reach (.of_exec _ hs₀)) hb₀ href₀ hgrows hstep
    rw [tickets_concat hs₀, observed_concat hs₀]
    exact ⟨b, c, hb, href, hE.step hb₀ href₀ hgrows (List.Subset.refl _) hstep, hrun.trans hrun',
      hj'⟩

end Cluster

/-- **A cluster is a broadcast.**  What clients see of a run of the cluster, the
calls of `Start` that are accepted and the messages that are delivered, is what
they see of a run of the broadcast, in which every instance has read as much of the
journal as it has delivered. -/
theorem refines_broadcast {as : List (Action n Cmd)} {s : Cluster G}
    (h : exec Cluster.failStop (Cluster.init G) as = some s) :
    ∃ c : Broadcast (Fin n × ℕ) Cmd,
      Broadcast.Run (.empty _ _) ((Cluster.init G).observed as) c ∧
      ∀ i k, c.read (i, k) = (s.delivered i k).length := by
  obtain ⟨_, c, -, -, -, hrun, hj⟩ := Cluster.journaled_of_exec h
  exact ⟨c, hrun, fun i k => hj.read (i, k)⟩

/-- Clients see one call, and both servers deliver it. -/
theorem refines_broadcast_twoTerms : ∃ s : Cluster (Gob.letter 3 ℕ),
    exec Cluster.failStop (Cluster.init _) twoTerms = some s ∧
    (Broadcast.got ((0, 0) : Fin 3 × ℕ)
      ((Cluster.init (Gob.letter 3 ℕ)).observed twoTerms) = [7]) ∧
    ∃ c : Broadcast (Fin 3 × ℕ) ℕ,
      Broadcast.Run (.empty _ _) ((Cluster.init (Gob.letter 3 ℕ)).observed twoTerms) c ∧
      ∀ i k, c.read (i, k) = (s.delivered i k).length := by
  have hrun : (exec Cluster.failStop (Cluster.init (Gob.letter 3 ℕ)) twoTerms).map Cluster.trace =
      some twoTermsTrace := by decide
  obtain ⟨s, hs, -⟩ := Option.map_eq_some_iff.mp hrun
  exact ⟨s, hs, by decide, refines_broadcast hs⟩

/-- **Order and number of deliveries.**  Of any two instances, of one server or of two,
one has delivered a prefix of what the other has; and no instance delivers a command
more often than `Start` accepted it. -/
theorem delivered_commands [DecidableEq Cmd] {as : List (Action n Cmd)} {s : Cluster G}
    (h : exec Cluster.failStop (Cluster.init G) as = some s) (r r' : Fin n × ℕ) (command : Cmd) :
    (Broadcast.got r ((Cluster.init G).observed as) <+:
        Broadcast.got r' ((Cluster.init G).observed as) ∨
      Broadcast.got r' ((Cluster.init G).observed as) <+:
        Broadcast.got r ((Cluster.init G).observed as)) ∧
    (Broadcast.got r ((Cluster.init G).observed as)).count command ≤
      (((Cluster.init G).tickets as).map fun x => x.2.command).count command := by
  obtain ⟨_, c, -, -, -, hrun, hj⟩ := Cluster.journaled_of_exec h
  refine ⟨hrun.got_comparable r r', ?_⟩
  rw [← hj.calls, hrun.calls_eq]
  exact hrun.count_got_le r command

theorem delivered_commands_twoTerms :
    (Broadcast.got (1, 0) ((Cluster.init (Gob.letter 3 ℕ)).observed twoTerms)).count 7 = 1 ∧
    (Broadcast.got (1, 0) ((Cluster.init (Gob.letter 3 ℕ)).observed twoTerms)).count 7 ≤
      (((Cluster.init (Gob.letter 3 ℕ)).tickets twoTerms).map fun x => x.2.command).count 7 := by
  have hrun : (exec Cluster.failStop (Cluster.init (Gob.letter 3 ℕ)) twoTerms).map Cluster.trace =
      some twoTermsTrace := by decide
  obtain ⟨s, hs, -⟩ := Option.map_eq_some_iff.mp hrun
  exact ⟨by decide, (delivered_commands hs (1, 0) (0, 0) 7).2⟩

end Raft
end SepLab
