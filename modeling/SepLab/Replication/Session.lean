import Mathlib.Data.Int.Notation
import Mathlib.Logic.Function.Basic
import SepLab.Lib.Transition

/-!
# Session guarantees over lagging replicas

The consistency topic's simulation: replicas apply the primary's log some
operations late, and a session that has written reads with the token its write
returned, from a replica that has come that far or, after some polls, from the
primary.

## Main definitions

* `Replica.catchUp`, `Cluster.write`, `Cluster.readLsnToken` — the simulation's functions.
* `Cluster.step` — its operations in any order, and lags that change between them.
* `replay log` — the store after the entries of `log`.
* `Replica.Synced log r`, `Cluster.Inv` — replica `r` is a prefix of the log.

## Main results

* `Replica.Synced.catchUp` — catching up replays the log further.
* `Cluster.Inv.step` — every operation keeps replicas in step with the log.
* `read_your_writes_by_token` — a read with a token sees the write that issued it.
-/

namespace SepLab
namespace Replication

variable {K V : Type} [DecidableEq K]

/-- An entry of the primary's log. -/
structure Entry (K V : Type) where
  lsn : ℕ
  key : K
  value : V
deriving DecidableEq

/-! ### Replicas -/

/-- A replica that applies the primary's log after `lag` operations. -/
structure Replica (K V : Type) where
  name : String
  lag : ℕ
  applied : ℕ
  store : K → Option V
  lsn : ℕ

namespace Replica

/-- A replica as it is made. -/
def new (name : String) (lag : ℕ) : Replica K V := ⟨name, lag, 0, fun _ => none, 0⟩

/-- One turn of the loop of `catch_up`. -/
def applyNext (log : List (Entry K V)) (r : Replica K V) : Replica K V :=
  match log[r.applied]? with
  | some e =>
    { r with
      store := Function.update r.store e.key (some e.value)
      lsn := e.lsn
      applied := r.applied + 1 }
  | none => r

/-- The loop of `catch_up`, with the number of turns that are left. -/
def applyMany (log : List (Entry K V)) : ℕ → Replica K V → Replica K V
  | 0, r => r
  | n + 1, r => applyMany log n (r.applyNext log)

/-- `catch_up`: apply the log up to `max(0, len(log) - lag)`. -/
def catchUp (r : Replica K V) (log : List (Entry K V)) : Replica K V :=
  applyMany log (log.length - r.lag - r.applied) r

/-- The value of a key. -/
def read (r : Replica K V) (key : K) : Option V := r.store key

end Replica

/-! ### The cluster -/

/-- The primary, its log and its replicas, with the counters of the record table. -/
structure Cluster (K V : Type) where
  replicas : List (Replica K V)
  log : List (Entry K V)
  primary : K → Option V
  nextLsn : ℕ
  primaryReads : ℕ
  replicaReads : ℕ
  pollIterations : ℕ
  fallbacks : ℕ

namespace Cluster

/-- A cluster whose replicas have the given names and lags. -/
def init (specs : List (String × ℕ)) : Cluster K V :=
  ⟨specs.map fun p => .new p.1 p.2, [], fun _ => none, 1, 0, 0, 0, 0⟩

/-- Write to the primary; the answer is the write's log sequence number. -/
def write (c : Cluster K V) (key : K) (value : V) : ℕ × Cluster K V :=
  let log := c.log ++ [⟨c.nextLsn, key, value⟩]
  (c.nextLsn,
    { c with
      nextLsn := c.nextLsn + 1
      primary := Function.update c.primary key (some value)
      log := log
      replicas := c.replicas.map fun r => r.catchUp log })

/-- Read from the primary. -/
def readPrimary (c : Cluster K V) (key : K) : Option V × Cluster K V :=
  (c.primary key, { c with primaryReads := c.primaryReads + 1 })

/-- Read from a replica, whatever it has applied; `none` is the `IndexError`. -/
def readReplica (c : Cluster K V) (replica : ℕ) (key : K) : Option (Option V × Cluster K V) :=
  c.replicas[replica]?.map fun r => (r.read key, { c with replicaReads := c.replicaReads + 1 })

/-- A poll that finds the replica behind the token: it is replayed further meanwhile. -/
def poll (c : Cluster K V) (replica : ℕ) (r : Replica K V) : Cluster K V :=
  { c with
    pollIterations := c.pollIterations + 1
    replicas := c.replicas.set replica ({ r with lag := r.lag - 1 }.catchUp c.log) }

/-- The loop of `read_lsn_token`, with the number of polls that are left, and the read of
the primary after it. -/
def pollLoop (replica : ℕ) (key : K) (token : ℕ) :
    ℕ → Cluster K V → Option ((Option V × String) × Cluster K V)
  | 0, c =>
    let r := { c with fallbacks := c.fallbacks + 1 }.readPrimary key
    some ((r.1, "primary (fallback: deadline hit)"), r.2)
  | n + 1, c =>
    match c.replicas[replica]? with
    | none => none
    | some r =>
      if token ≤ r.lsn then
        some ((r.read key, "replica " ++ r.name),
          { c with
            pollIterations := c.pollIterations + 1
            replicaReads := c.replicaReads + 1 })
      else pollLoop replica key token n (c.poll replica r)

/-- `read_lsn_token`: poll the replica until it has replayed up to the token, `max_polls`
times at most, and read from the primary after that. -/
def readLsnToken (c : Cluster K V) (replica : ℕ) (key : K) (token : ℕ) (maxPolls : ℤ) :
    Option ((Option V × String) × Cluster K V) :=
  if replica < c.replicas.length then pollLoop replica key token maxPolls.toNat c else none

/-- The operations on a cluster, and a lag that changes between two of them. -/
inductive Op (K V : Type)
  | write (key : K) (value : V)
  | readPrimary (key : K)
  | readReplica (replica : ℕ) (key : K)
  | readLsnToken (replica : ℕ) (key : K) (token : ℕ) (maxPolls : ℤ)
  | setLag (replica : ℕ) (lag : ℕ)

/-- The cluster after an operation. -/
def step (c : Cluster K V) : Op K V → Option (Cluster K V)
  | .write key value => some (c.write key value).2
  | .readPrimary key => some (c.readPrimary key).2
  | .readReplica replica key => (c.readReplica replica key).map Prod.snd
  | .readLsnToken replica key token maxPolls =>
    (c.readLsnToken replica key token maxPolls).map Prod.snd
  | .setLag replica lag =>
    c.replicas[replica]?.map fun r =>
      { c with replicas := c.replicas.set replica { r with lag := lag } }

end Cluster

/-! ### Replaying the log -/

/-- The store after the entries of a log. -/
def replay (log : List (Entry K V)) : K → Option V :=
  log.foldl (fun store e => Function.update store e.key (some e.value)) fun _ => none

@[simp] theorem replay_nil : replay ([] : List (Entry K V)) = fun _ => none := rfl

theorem replay_concat (log : List (Entry K V)) (e : Entry K V) :
    replay (log ++ [e]) = Function.update (replay log) e.key (some e.value) := by
  unfold replay
  rw [List.foldl_append]
  rfl

/-- The entries of a log are numbered from `1`. -/
def Numbered (log : List (Entry K V)) : Prop := ∀ i e, log[i]? = some e → e.lsn = i + 1

omit [DecidableEq K] in
theorem Numbered.concat {log : List (Entry K V)} (h : Numbered log) (key : K) (value : V) :
    Numbered (log ++ [⟨log.length + 1, key, value⟩]) := by
  intro i e he
  rw [List.getElem?_append] at he
  split at he
  · exact h i e he
  · next hi =>
    rw [List.getElem?_singleton] at he
    split at he
    · obtain rfl := Option.some_inj.mp he
      show log.length + 1 = i + 1
      omega
    · cases he

namespace Replica

/-- A replica is what the first `applied` entries of the log make. -/
structure Synced (log : List (Entry K V)) (r : Replica K V) : Prop where
  store : r.store = replay (log.take r.applied)
  lsn : r.lsn = r.applied
  applied : r.applied ≤ log.length

variable {log : List (Entry K V)} {r : Replica K V}

theorem Synced.new (name : String) (lag : ℕ) :
    Synced ([] : List (Entry K V)) (Replica.new name lag) := by
  constructor
  · rfl
  · rfl
  · exact Nat.le_refl 0

/-- What a replica has replayed stays, when the log grows. -/
theorem Synced.append (h : Synced log r) (es : List (Entry K V)) : Synced (log ++ es) r := by
  constructor
  · rw [List.take_append_of_le_length h.applied]
    exact h.store
  · exact h.lsn
  · rw [List.length_append]
    have happlied := h.applied
    omega

/-- One turn of the loop replays one entry, if there is one. -/
theorem Synced.applyNext (hlog : Numbered log) (h : Synced log r) :
    Synced log (r.applyNext log) ∧ r.applied ≤ (r.applyNext log).applied := by
  unfold Replica.applyNext
  split
  · next e he =>
    refine ⟨⟨?_, ?_, ?_⟩, ?_⟩
    · show Function.update r.store e.key (some e.value) = replay (log.take (r.applied + 1))
      rw [List.take_add_one, he, Option.toList_some, replay_concat, h.store]
    · exact hlog r.applied e he
    · have hlt := (List.getElem?_eq_some_iff.mp he).1
      show r.applied + 1 ≤ log.length
      omega
    · exact Nat.le_add_right _ _
  · exact ⟨h, Nat.le_refl _⟩

theorem Synced.applyMany (hlog : Numbered log) (n : ℕ) (h : Synced log r) :
    Synced log (Replica.applyMany log n r) ∧
      r.applied ≤ (Replica.applyMany log n r).applied := by
  induction n generalizing r with
  | zero => exact ⟨h, Nat.le_refl _⟩
  | succ n ih =>
    obtain ⟨hnext, hle⟩ := h.applyNext hlog
    obtain ⟨hmany, hle'⟩ := ih hnext
    exact ⟨hmany, Nat.le_trans hle hle'⟩

/-- A lag changes nothing that has been replayed. -/
theorem Synced.setLag (h : Synced log r) (lag : ℕ) : Synced log { r with lag := lag } :=
  ⟨h.store, h.lsn, h.applied⟩

/-- **Catching up replays the log further.** -/
theorem Synced.catchUp (hlog : Numbered log) (h : Synced log r) :
    Synced log (r.catchUp log) ∧ r.applied ≤ (r.catchUp log).applied :=
  h.applyMany hlog _

end Replica

namespace Cluster

variable {c c' : Cluster K V}

/-- **The simulation.**  The primary and the replicas are made of the log, the primary of
all of it. -/
structure Inv (c : Cluster K V) : Prop where
  numbered : Numbered c.log
  nextLsn : c.nextLsn = c.log.length + 1
  primary : c.primary = replay c.log
  replicas : ∀ r ∈ c.replicas, r.Synced c.log

/-- What an operation never takes back: entries of the log, and what replicas have replayed. -/
structure Grows (c c' : Cluster K V) : Prop where
  log : c.log <+: c'.log
  length : c'.replicas.length = c.replicas.length
  applied : ∀ (i : ℕ) (r r' : Replica K V), c.replicas[i]? = some r → c'.replicas[i]? = some r' →
    r.applied ≤ r'.applied

omit [DecidableEq K] in
theorem Grows.refl (c : Cluster K V) : Grows c c where
  log := List.prefix_rfl
  length := rfl
  applied i r r' hr hr' := by
    rw [hr, Option.some_inj] at hr'
    exact Nat.le_of_eq (congrArg Replica.applied hr')

omit [DecidableEq K] in
theorem Grows.trans {c₁ c₂ c₃ : Cluster K V} (h : Grows c₁ c₂) (h' : Grows c₂ c₃) :
    Grows c₁ c₃ where
  log := h.log.trans h'.log
  length := h'.length.trans h.length
  applied i r r' hr hr' := by
    have hlt : i < c₂.replicas.length := by
      rw [h.length]
      exact (List.getElem?_eq_some_iff.mp hr).1
    have hmid := List.getElem?_eq_getElem hlt
    exact Nat.le_trans (h.applied i r _ hr hmid) (h'.applied i _ r' hmid hr')

theorem Inv.init (specs : List (String × ℕ)) : Inv (init specs : Cluster K V) := by
  constructor
  · intro i e he
    cases he
  · rfl
  · rfl
  · intro r hr
    obtain ⟨p, -, rfl⟩ := List.mem_map.mp hr
    exact .new p.1 p.2

/-- A write takes the next number, and every replica catches up. -/
theorem Inv.write (h : Inv c) (key : K) (value : V) :
    Inv (c.write key value).2 ∧ Grows c (c.write key value).2 := by
  have hnumbered : Numbered (c.log ++ [⟨c.nextLsn, key, value⟩]) := by
    rw [h.nextLsn]
    exact h.numbered.concat key value
  -- every replica takes what has become due of the new log
  have hcatch : ∀ r ∈ c.replicas,
      (r.catchUp (c.log ++ [⟨c.nextLsn, key, value⟩])).Synced
        (c.log ++ [⟨c.nextLsn, key, value⟩]) ∧
      r.applied ≤ (r.catchUp (c.log ++ [⟨c.nextLsn, key, value⟩])).applied :=
    fun r hr => ((h.replicas r hr).append _).catchUp hnumbered
  constructor
  · constructor
    · exact hnumbered
    · show c.nextLsn + 1 = (c.log ++ [_]).length + 1
      rw [List.length_append, h.nextLsn]
      rfl
    · show Function.update c.primary key (some value) = replay (c.log ++ [_])
      rw [replay_concat, h.primary]
    · intro r' hr'
      obtain ⟨r, hr, rfl⟩ := List.mem_map.mp hr'
      exact (hcatch r hr).1
  · constructor
    · exact List.prefix_append _ _
    · exact List.length_map _
    · intro i r r' hr hr'
      replace hr' : (c.replicas.map fun r =>
        r.catchUp (c.log ++ [⟨c.nextLsn, key, value⟩]))[i]? = some r' := hr'
      rw [List.getElem?_map, hr, Option.map_some, Option.some_inj] at hr'
      subst hr'
      exact (hcatch r (List.mem_of_getElem? hr)).2

/-- A replica is replaced by one that has replayed at least as much. -/
theorem Inv.set (h : Inv c) {replica : ℕ} {r r' : Replica K V}
    (hr : c.replicas[replica]? = some r) (hsynced : r'.Synced c.log)
    (hle : r.applied ≤ r'.applied) (polls : ℕ) :
    Inv { c with
      pollIterations := polls
      replicas := c.replicas.set replica r' } ∧
    Grows c { c with
      pollIterations := polls
      replicas := c.replicas.set replica r' } := by
  constructor
  · refine ⟨h.numbered, h.nextLsn, h.primary, ?_⟩
    intro q hq
    rcases List.mem_or_eq_of_mem_set hq with hq | rfl
    · exact h.replicas q hq
    · exact hsynced
  · refine ⟨List.prefix_rfl, List.length_set, ?_⟩
    intro i q q' hq hq'
    replace hq' : (c.replicas.set replica r')[i]? = some q' := hq'
    by_cases hi : replica = i
    · subst hi
      rw [hr, Option.some_inj] at hq
      rw [List.getElem?_set_self (List.getElem?_eq_some_iff.mp hr).1, Option.some_inj] at hq'
      exact hq ▸ hq' ▸ hle
    · rw [List.getElem?_set_ne hi, hq, Option.some_inj] at hq'
      exact Nat.le_of_eq (congrArg Replica.applied hq')

/-- A poll replays the replica further, with its lag one operation shorter. -/
theorem Inv.poll (h : Inv c) {replica : ℕ} {r : Replica K V}
    (hr : c.replicas[replica]? = some r) : Inv (c.poll replica r) ∧ Grows c (c.poll replica r) := by
  have hr' := ((h.replicas r (List.mem_of_getElem? hr)).setLag (r.lag - 1)).catchUp h.numbered
  exact h.set hr hr'.1 hr'.2 _

/-- The value of `key` after some prefix of the log with at least `token` entries. -/
def ReadFrom (log : List (Entry K V)) (key : K) (token : ℕ) (value : Option V) : Prop :=
  ∃ n, token ≤ n ∧ n ≤ log.length ∧ value = replay (log.take n) key

/-- **The polls end with an answer**: that of the replica once it has come as far as the
token, or that of the primary. -/
theorem Inv.pollLoop (h : Inv c) {replica : ℕ} (hlt : replica < c.replicas.length) (key : K)
    (token n : ℕ) : ∃ value source c',
      Cluster.pollLoop replica key token n c = some ((value, source), c') ∧ Inv c' ∧ Grows c c' ∧
      (token ≤ c.log.length → ReadFrom c.log key token value) := by
  induction n generalizing c with
  | zero =>
    refine ⟨_, _, _, rfl, ⟨h.numbered, h.nextLsn, h.primary, h.replicas⟩, ?_, ?_⟩
    · exact ⟨List.prefix_rfl, rfl, (Grows.refl c).applied⟩
    · intro htoken
      refine ⟨c.log.length, htoken, Nat.le_refl _, ?_⟩
      rw [List.take_length]
      exact congrFun h.primary key
  | succ n ih =>
    have hr := List.getElem?_eq_getElem hlt
    unfold Cluster.pollLoop
    rw [hr]
    simp only
    -- the replica has reached the token
    split
    · next hle =>
      have hsynced := h.replicas _ (List.mem_of_getElem? hr)
      refine ⟨_, _, _, rfl, ⟨h.numbered, h.nextLsn, h.primary, h.replicas⟩, ?_, ?_⟩
      · exact ⟨List.prefix_rfl, rfl, (Grows.refl c).applied⟩
      · intro _
        rw [hsynced.lsn] at hle
        exact ⟨_, hle, hsynced.applied, congrFun hsynced.store key⟩
    -- it polls once more, and the rest of the loop reads
    · obtain ⟨hinv, hgrows⟩ := h.poll hr
      obtain ⟨value, source, c', hloop, hinv', hgrows', hread⟩ := ih hinv (hgrows.length ▸ hlt)
      exact ⟨value, source, c', hloop, hinv', hgrows.trans hgrows', hread⟩

/-- **Every operation keeps the primary and the replicas in step with the log.** -/
theorem Inv.step (h : Inv c) {op : Op K V} (hs : c.step op = some c') : Inv c' ∧ Grows c c' := by
  have hcount : ∀ n m, Inv { c with
      primaryReads := n
      replicaReads := m } ∧ Grows c { c with
      primaryReads := n
      replicaReads := m } := by
    intro n m
    constructor
    · exact ⟨h.numbered, h.nextLsn, h.primary, h.replicas⟩
    · exact ⟨List.prefix_rfl, rfl, (Grows.refl c).applied⟩
  cases op with
  | write key value => exact Option.some_inj.mp hs ▸ h.write key value
  | readPrimary key => exact Option.some_inj.mp hs ▸ hcount _ _
  | readReplica replica key =>
    obtain ⟨x, hx, rfl⟩ := Option.map_eq_some_iff.mp hs
    obtain ⟨r, -, rfl⟩ := Option.map_eq_some_iff.mp hx
    exact hcount _ _
  | readLsnToken replica key token maxPolls =>
    obtain ⟨x, hx, rfl⟩ := Option.map_eq_some_iff.mp hs
    unfold readLsnToken at hx
    split at hx
    · next hlt =>
      obtain ⟨value, source, c', hloop, hinv, hgrows, -⟩ :=
        h.pollLoop hlt key token maxPolls.toNat
      rw [hx, Option.some_inj] at hloop
      subst hloop
      exact ⟨hinv, hgrows⟩
    · cases hx
  | setLag replica lag =>
    obtain ⟨r, hr, rfl⟩ := Option.map_eq_some_iff.mp hs
    exact h.set hr ((h.replicas r (List.mem_of_getElem? hr)).setLag lag) (Nat.le_refl _) _

/-- The invariant holds in every state that is reached. -/
theorem Inv.of_reach {specs : List (String × ℕ)} (h : Reach Cluster.step (.init specs) c) : Inv c :=
  h.invariant (.init specs) fun _ _ _ hinv hs => (hinv.step hs).1

/-- Nothing is taken back between a state and a later one. -/
theorem Inv.grows (h : Inv c) (h' : Reach Cluster.step c c') : Grows c c' := by
  refine (h'.invariant (P := fun d => Inv d ∧ Grows c d) ⟨h, .refl c⟩ ?_).2
  intro d op d' hd hs
  obtain ⟨hinv, hgrows⟩ := hd.1.step hs
  exact ⟨hinv, hd.2.trans hgrows⟩

end Cluster

/-- **Reading your writes with a token.**  A write returns a token; whatever happens after
it, a read with that token returns the value of a prefix of the log that has the write in
it, whether the replica or the primary answers.  In every state the replicas have replayed
a prefix of the log, and later not a shorter one. -/
theorem read_your_writes_by_token (specs : List (String × ℕ)) :
    (∀ (c c' : Cluster K V) (key : K) (value : V), Reach Cluster.step (.init specs) c →
      Reach Cluster.step (c.write key value).2 c' →
      ∀ replica key' maxPolls, replica < c'.replicas.length → ∃ answer source c'',
        c'.readLsnToken replica key' (c.write key value).1 maxPolls =
          some ((answer, source), c'') ∧
        ∃ n, (c.write key value).1 ≤ n ∧ n ≤ c'.log.length ∧
          answer = replay (c'.log.take n) key' ∧
          ⟨(c.write key value).1, key, value⟩ ∈ c'.log.take n) ∧
    (∀ c : Cluster K V, Reach Cluster.step (.init specs) c → ∀ r ∈ c.replicas,
      r.store = replay (c.log.take r.applied) ∧ r.lsn = r.applied ∧ r.applied ≤ c.log.length) ∧
    ∀ c c' : Cluster K V, Reach Cluster.step (.init specs) c → Reach Cluster.step c c' →
      c'.replicas.length = c.replicas.length ∧
      ∀ (i : ℕ) (r r' : Replica K V), c.replicas[i]? = some r → c'.replicas[i]? = some r' →
        r.applied ≤ r'.applied := by
  refine ⟨?_, ?_, ?_⟩
  · intro c c' key value h h' replica key' maxPolls hlt
    have hinv := Cluster.Inv.of_reach h
    have hgrows := (hinv.write key value).1.grows h'
    have hreach : Reach Cluster.step (.init specs) c' :=
      Reach.trans (h.tail (a := .write key value) rfl) h'
    have hinv' := Cluster.Inv.of_reach hreach
    -- the token is the length of the log that the write has left
    have htoken : (c.write key value).1 = (c.write key value).2.log.length := by
      show c.nextLsn = (c.log ++ [_]).length
      rw [List.length_append]
      exact hinv.nextLsn
    obtain ⟨answer, source, c'', hloop, -, -, hread⟩ :=
      hinv'.pollLoop hlt key' (c.write key value).1 maxPolls.toNat
    refine ⟨answer, source, c'', ?_, ?_⟩
    · unfold Cluster.readLsnToken
      rw [if_pos hlt, hloop]
    · obtain ⟨n, hn, hle, hvalue⟩ := hread (htoken ▸ hgrows.log.length_le)
      refine ⟨n, hn, hle, hvalue, ?_⟩
      have hprefix : (c.write key value).2.log <+: c'.log.take n :=
        List.prefix_take_iff.mpr ⟨hgrows.log, htoken ▸ hn⟩
      exact hprefix.subset (List.mem_append_right _ (List.mem_singleton_self _))
  · intro c h r hr
    have hsynced := (Cluster.Inv.of_reach h).replicas r hr
    exact ⟨hsynced.store, hsynced.lsn, hsynced.applied⟩
  · intro c c' h h'
    have hgrows := (Cluster.Inv.of_reach h).grows h'
    exact ⟨hgrows.length, hgrows.applied⟩

/-- A replica two operations behind: it is found behind the token by the first two polls and
with it by the third.  A session that polls once is answered by the primary. -/
theorem read_your_writes_by_token_lagging : ∃ c : Cluster ℕ ℕ,
    Reach Cluster.step (.init [("r1", 2)]) c ∧ (c.write 5 20).1 = 2 ∧
    ((c.write 5 20).2.readLsnToken 0 5 2 3).map Prod.fst = some (some 20, "replica r1") ∧
    ((c.write 5 20).2.readLsnToken 0 5 2 1).map Prod.fst =
      some (some 20, "primary (fallback: deadline hit)") ∧
    ∀ maxPolls, ∃ answer source c'', (c.write 5 20).2.readLsnToken 0 5 2 maxPolls =
        some ((answer, source), c'') ∧
      ∃ n, 2 ≤ n ∧ n ≤ (c.write 5 20).2.log.length ∧
        answer = replay ((c.write 5 20).2.log.take n) 5 ∧
        (⟨2, 5, 20⟩ : Entry ℕ ℕ) ∈ (c.write 5 20).2.log.take n := by
  have hreach : Reach Cluster.step (.init [("r1", 2)])
      ((Cluster.init [("r1", 2)] : Cluster ℕ ℕ).write 5 10).2 :=
    Reach.refl.tail (a := .write 5 10) rfl
  refine ⟨_, hreach, rfl, rfl, rfl, ?_⟩
  intro maxPolls
  exact (read_your_writes_by_token [("r1", 2)]).1 _ _ 5 20 hreach .refl 0 5 maxPolls (by decide)

end Replication
end SepLab
