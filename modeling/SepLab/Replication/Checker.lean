import SepLab.Lib.LastHit
import SepLab.Replication.Session

/-!
# The checker of session guarantees

The consistency topic's `Checker` watches one session: it is told of every write, and of what
the session's reads return, and records violations of read-your-writes and of monotonic reads.
It does not see versions, and takes a value for the last write of the key with this value.

## Main definitions

* `Checker`, `Checker.observeWrite`, `Checker.observeRead` — the class.
* `Sessions`, `Sessions.step` — sessions with a checker each, over one cluster.
* `taken`, `own` — the version that a value is taken for, and a session's own last write.
* `Judged s s' r` — what the checker makes of the read `r`.

## Main results

* `lastHit_replay` — the value that a read returns is that of the last write it has replayed.
* `Sessions.Inv.step` — what the checkers know in every state.
* `checker_judges` — **which reads are recorded as violations**.
-/

namespace SepLab
namespace Replication

variable {J K V : Type} [DecidableEq J] [DecidableEq K] [DecidableEq V]

/-! ### The class -/

/-- What a checker records, with the parts of its message. -/
inductive Violation (K V : Type)
  | readYourWrites (key : K) (wrote : V) (value : Option V) (place : String)
  | monotonicReads (key : K) (seen idx : ℤ) (value : Option V) (place : String)
deriving DecidableEq

/-- The guarantee that is violated is read-your-writes. -/
def Violation.isReadYourWrites : Violation K V → Bool
  | .readYourWrites .. => true
  | .monotonicReads .. => false

/-- The guarantee that is violated is monotonic reads. -/
def Violation.isMonotonicReads (v : Violation K V) : Bool := !v.isReadYourWrites

/-- The histories of a checker and what it has recorded. -/
structure Checker (K V : Type) where
  violations : List (Violation K V)
  myWrites : K → Option V
  versionOrder : List (K × V)
  lastSeenIndex : K → Option ℤ

namespace Checker

/-- `__init__` -/
def new : Checker K V := ⟨[], fun _ => none, [], fun _ => none⟩

/-- `observe_write` -/
def observeWrite (c : Checker K V) (key : K) (value : V) (mine : Bool) : Checker K V :=
  { c with
    myWrites := if mine then Function.update c.myWrites key (some value) else c.myWrites
    versionOrder := c.versionOrder ++ [(key, value)] }

/-- `_version_of` -/
def versionOf (c : Checker K V) (key : K) (value : Option V) : ℤ :=
  lastIndex (fun e => decide (e.1 = key) && decide (some e.2 = value)) c.versionOrder

/-- The first check of `observe_read`. -/
def checkMyWrites (c : Checker K V) (key : K) (value : Option V) (place : String) :
    List (Violation K V) :=
  match c.myWrites key with
  | some wrote => if value ≠ some wrote then [.readYourWrites key wrote value place] else []
  | none => []

/-- The second check of `observe_read`. -/
def checkSeen (c : Checker K V) (key : K) (idx : ℤ) (value : Option V) (place : String) :
    List (Violation K V) :=
  match c.lastSeenIndex key with
  | some seen => if idx < seen then [.monotonicReads key seen idx value place] else []
  | none => []

/-- `observe_read` -/
def observeRead (c : Checker K V) (key : K) (value : Option V) (place : String) : Checker K V :=
  let idx := c.versionOf key value
  { c with
    violations := c.violations ++ c.checkMyWrites key value place ++ c.checkSeen key idx value place
    lastSeenIndex := Function.update c.lastSeenIndex key
      (some (max idx ((c.lastSeenIndex key).getD (-1)))) }

end Checker

/-! ### Sessions -/

/-- A write, with the session that made it. -/
structure Write (J K V : Type) where
  session : J
  key : K
  value : V
deriving DecidableEq

/-- A read and its answer: the position in the log of the version that was served, and of the one
that the answer was taken for. -/
structure Read (J K V : Type) where
  session : J
  key : K
  value : Option V
  version : ℤ
  taken : ℤ
deriving DecidableEq

/-- A cluster, the checker of each session, and the writes and reads so far. -/
structure Sessions (J K V : Type) where
  cluster : Cluster K V
  checker : J → Checker K V
  writes : List (Write J K V)
  reads : List (Read J K V)

/-- What can happen: a session writes, or reads from a replica or the primary; a poll replays a
replica further, or its lag changes.  A read with a token is its polls and the read that ends
them. -/
inductive Event (J K V : Type)
  | write (session : J) (key : K) (value : V)
  | read (session : J) (key : K) (replica : Option ℕ) (place : String)
  | poll (replica : ℕ)
  | setLag (replica lag : ℕ)

omit [DecidableEq K] [DecidableEq V] in
/-- The answer to a read, and how many entries of the log it reflects. -/
def Cluster.serve (c : Cluster K V) (key : K) : Option ℕ → Option ((Option V × ℕ) × Cluster K V)
  | none =>
    let r := c.readPrimary key
    some ((r.1, c.log.length), r.2)
  | some replica =>
    c.replicas[replica]?.bind fun r =>
      (c.readReplica replica key).map fun answer => ((answer.1, r.applied), answer.2)

/-- The position of the last entry for `key`. -/
def version (log : List (Entry K V)) (key : K) : ℤ := lastIndex (fun e => decide (e.key = key)) log

namespace Sessions

/-- Sessions of a new cluster. -/
def init (specs : List (String × ℕ)) : Sessions J K V := ⟨.init specs, fun _ => .new, [], []⟩

/-- A session writes, and all checkers are told. -/
def write (s : Sessions J K V) (j : J) (key : K) (value : V) : Sessions J K V :=
  { s with
    cluster := (s.cluster.write key value).2
    checker := fun i => (s.checker i).observeWrite key value (decide (i = j))
    writes := s.writes ++ [⟨j, key, value⟩] }

/-- A session has read, and tells its checker. -/
def read (s : Sessions J K V) (j : J) (key : K) (value : Option V) (applied : ℕ)
    (cluster : Cluster K V) (place : String) : Sessions J K V :=
  { s with
    cluster := cluster
    checker := Function.update s.checker j ((s.checker j).observeRead key value place)
    reads := s.reads ++ [⟨j, key, value, version (s.cluster.log.take applied) key,
      (s.checker j).versionOf key value⟩] }

/-- The sessions after an event. -/
def step (s : Sessions J K V) : Event J K V → Option (Sessions J K V)
  | .write j key value => some (s.write j key value)
  | .read j key replica place =>
    (s.cluster.serve key replica).map fun r => s.read j key r.1.1 r.1.2 r.2 place
  | .poll replica =>
    s.cluster.replicas[replica]?.map fun r => { s with cluster := s.cluster.poll replica r }
  | .setLag replica lag =>
    (s.cluster.step (.setLag replica lag)).map fun c => { s with cluster := c }

/-- The violations that the checker of `j` has recorded between two states. -/
def recorded (s s' : Sessions J K V) (j : J) : List (Violation K V) :=
  (s'.checker j).violations.drop (s.checker j).violations.length

end Sessions

/-- The position of the last write of `key` with this value. -/
def taken (writes : List (Write J K V)) (key : K) (value : Option V) : ℤ :=
  lastIndex (fun w => decide (w.key = key) && decide (some w.value = value)) writes

/-- The position of the last write of `key` by session `j`. -/
def own (writes : List (Write J K V)) (j : J) (key : K) : ℤ :=
  lastIndex (fun w => decide (w.session = j) && decide (w.key = key)) writes

/-- No value is written to `key` twice. -/
def Told (writes : List (Write J K V)) (key : K) : Prop :=
  writes.Pairwise fun w w' => w.key = key → w'.key = key → w.value ≠ w'.value

/-! ### Values and versions -/

omit [DecidableEq V] in
/-- The value of a key is that of its last entry. -/
theorem lastHit_replay (log : List (Entry K V)) (key : K) :
    replay log key =
      (lastHit (fun e => decide (e.key = key)) log).map fun e => e.1.value := by
  induction log using List.reverseRecOn with
  | nil => rfl
  | append_singleton log e ih =>
    rw [replay_concat, lastHit_concat]
    by_cases he : e.key = key
    · subst he
      simp
    · rw [Function.update_of_ne (Ne.symm he), ih]
      simp [he]

/-- What is written, without the one who writes it. -/
def Write.pair (w : Write J K V) : K × V := (w.key, w.value)

/-- What an entry of the log writes. -/
def Entry.pair (e : Entry K V) : K × V := (e.key, e.value)

section
variable {log : List (Entry K V)} {writes : List (Write J K V)}

omit [DecidableEq J] [DecidableEq V] in
/-- The log tells the value of a key as the writes do. -/
theorem replay_of_pairs (h : log.map Entry.pair = writes.map Write.pair) (key : K) :
    replay log key = (lastHit (fun w => decide (w.key = key)) writes).map (·.1.value) := by
  have hlog := lastHit_map (fun e : K × V => decide (e.1 = key)) Entry.pair log
  have hwrites := lastHit_map (fun e : K × V => decide (e.1 = key)) Write.pair writes
  rw [h, hwrites] at hlog
  have hvalue := congrArg (Option.map fun e => e.1.2) hlog
  rw [Option.map_map, Option.map_map] at hvalue
  rw [lastHit_replay]
  exact hvalue.symm

omit [DecidableEq J] [DecidableEq V] in
theorem version_of_pairs (h : log.map Entry.pair = writes.map Write.pair) (key : K) :
    version log key = lastIndex (fun w => decide (w.key = key)) writes := by
  have hlog := lastIndex_map (fun e : K × V => decide (e.1 = key)) Entry.pair log
  have hwrites := lastIndex_map (fun e : K × V => decide (e.1 = key)) Write.pair writes
  rw [h, hwrites] at hlog
  exact hlog.symm

omit [DecidableEq J] in
/-- Where no value is written to the key twice, the value that is read tells the version. -/
theorem taken_eq_version (h : log.map Entry.pair = writes.map Write.pair) {key : K}
    (htold : Told writes key) (n : ℕ) :
    taken writes key (replay (log.take n) key) = version (log.take n) key := by
  have htake : (log.take n).map Entry.pair = (writes.take n).map Write.pair := by
    rw [List.map_take, List.map_take, h]
  rw [replay_of_pairs htake, version_of_pairs htake]
  cases hlast : lastHit (fun w => decide (w.key = key)) (writes.take n) with
  | none =>
    have hnone : lastHit (fun w => decide (w.key = key) && decide (some w.value = none)) writes =
        none := lastHit_eq_none_iff.mpr fun w _ => by simp
    rw [lastIndex, hlast, taken, lastIndex, Option.map_none, hnone]
  | some e =>
    obtain ⟨w, i⟩ := e
    obtain ⟨hw, hkey, -⟩ := lastHit_eq_some_iff.mp hlast
    have hkey' : w.key = key := of_decide_eq_true hkey
    have hwrites : writes[i]? = some w := by
      rw [List.getElem?_take] at hw
      split at hw
      · exact hw
      · cases hw
    rw [lastIndex_eq_of_lastHit hlast, Option.map_some, taken]
    refine lastIndex_eq_of_lastHit (lastHit_eq_some_iff.mpr ⟨hwrites, by simp [hkey'], ?_⟩)
    intro k b hik hb
    obtain ⟨hk, rfl⟩ := List.getElem?_eq_some_iff.mp hb
    obtain ⟨hi, rfl⟩ := List.getElem?_eq_some_iff.mp hwrites
    -- a later write of the key wrote another value, for no value is told twice
    have hne := List.pairwise_iff_getElem.mp htold i k hi hk hik hkey'
    by_cases hb' : writes[k].key = key
    · simp [hb', Ne.symm (hne hb')]
    · simp [hb']

end

/-! ### What the checkers know -/

omit [DecidableEq V] in
/-- An answer is the value of the key after some of the log, which stays as it is. -/
theorem Cluster.Inv.serve {c c' : Cluster K V} (h : Cluster.Inv c) {key : K}
    {replica : Option ℕ} {value : Option V} {n : ℕ}
    (hserve : c.serve key replica = some ((value, n), c')) :
    value = replay (c.log.take n) key ∧ Cluster.Inv c' ∧ c'.log = c.log := by
  cases replica with
  | none =>
    obtain ⟨⟨rfl, rfl⟩, rfl⟩ := by simpa [Cluster.serve] using hserve
    refine ⟨?_, ⟨h.numbered, h.nextLsn, h.primary, h.replicas⟩, rfl⟩
    rw [List.take_length]
    exact congrFun h.primary key
  | some replica =>
    obtain ⟨r, hr, hserve⟩ := Option.bind_eq_some_iff.mp hserve
    simp only [Cluster.readReplica, hr, Option.map_some, Option.some_inj, Prod.mk.injEq] at hserve
    obtain ⟨⟨rfl, rfl⟩, rfl⟩ := hserve
    refine ⟨?_, ⟨h.numbered, h.nextLsn, h.primary, h.replicas⟩, rfl⟩
    exact congrFun (h.replicas r (List.mem_of_getElem? hr)).store key

/-- The largest version seen of a key, after one more read of it. -/
theorem Checker.seen_observeRead (c : Checker K V) (key : K) (value : Option V) (place : String)
    (x : ℤ) : (∃ m, (c.observeRead key value place).lastSeenIndex key = some m ∧ x < m) ↔
      (∃ m, c.lastSeenIndex key = some m ∧ x < m) ∨ x < c.versionOf key value := by
  have hidx : -1 ≤ c.versionOf key value := neg_one_le_lastIndex
  simp only [observeRead, Function.update_self, Option.some_inj, exists_eq_left']
  cases c.lastSeenIndex key with
  | none =>
    simp only [Option.getD_none, reduceCtorEq, false_and, exists_false, false_or]
    omega
  | some m =>
    simp only [Option.getD_some, Option.some_inj, exists_eq_left']
    omega

namespace Sessions

/-- The histories of the checkers are made of the writes and of the sessions' own reads. -/
structure Inv (s : Sessions J K V) : Prop where
  cluster : s.cluster.Inv
  log : s.cluster.log.map Entry.pair = s.writes.map Write.pair
  order : ∀ j, (s.checker j).versionOrder = s.writes.map Write.pair
  mine : ∀ j key, (s.checker j).myWrites key =
    (lastHit (fun w => decide (w.session = j) && decide (w.key = key)) s.writes).map (·.1.value)
  seen : ∀ j key x, (∃ m, (s.checker j).lastSeenIndex key = some m ∧ x < m) ↔
    ∃ r ∈ s.reads, r.session = j ∧ r.key = key ∧ x < r.taken
  told : ∀ r ∈ s.reads, Told s.writes r.key → r.taken = r.version

variable {s s' : Sessions J K V}

omit [DecidableEq V] in
theorem Inv.init (specs : List (String × ℕ)) : Inv (init specs : Sessions J K V) where
  cluster := .init specs
  log := rfl
  order _ := rfl
  mine _ _ := rfl
  seen j key x := by simp [Sessions.init, Checker.new]
  told r hr := by simp [Sessions.init] at hr

/-- The checker recovers the version that a value is taken for. -/
theorem Inv.versionOf (h : Inv s) (j : J) (key : K) (value : Option V) :
    (s.checker j).versionOf key value = taken s.writes key value := by
  rw [Checker.versionOf, h.order, lastIndex_map]
  rfl

omit [DecidableEq V] in
theorem Inv.write (h : Inv s) (j : J) (key : K) (value : V) : Inv (s.write j key value) where
  cluster := (h.cluster.write key value).1
  log := by
    show (s.cluster.log ++ [_]).map Entry.pair = (s.writes ++ [_]).map Write.pair
    rw [List.map_append, List.map_append, h.log]
    rfl
  order i := by
    show (s.checker i).versionOrder ++ [(key, value)] = (s.writes ++ [_]).map Write.pair
    rw [List.map_append, h.order]
    rfl
  mine i key' := by
    show (if decide (i = j) then _ else (s.checker i).myWrites) key' =
      (lastHit _ (s.writes ++ [⟨j, key, value⟩])).map _
    rw [lastHit_concat]
    by_cases hi : i = j
    · by_cases hkey : key' = key
      · simp [hi, hkey]
      · simp [hi, hkey, Ne.symm hkey, h.mine]
    · simp [hi, Ne.symm hi, h.mine]
  seen := h.seen
  told r hr htold := h.told r hr (List.pairwise_append.mp htold).1

/-- A read leaves the histories of writes as they are. -/
theorem histories_read (s : Sessions J K V) (j : J) (key : K) (value : Option V) (n : ℕ)
    (cluster : Cluster K V) (place : String) (i : J) :
    ((s.read j key value n cluster place).checker i).versionOrder = (s.checker i).versionOrder ∧
      ((s.read j key value n cluster place).checker i).myWrites = (s.checker i).myWrites := by
  by_cases hi : i = j
  · subst hi
    simp [Sessions.read, Checker.observeRead]
  · simp [Sessions.read, hi]

theorem Inv.read (h : Inv s) {j : J} {key : K} {replica : Option ℕ} {value : Option V} {n : ℕ}
    {cluster : Cluster K V} (hserve : s.cluster.serve key replica = some ((value, n), cluster))
    (place : String) : Inv (s.read j key value n cluster place) := by
  obtain ⟨hvalue, hcluster, hlog⟩ := h.cluster.serve hserve
  constructor
  · exact hcluster
  · exact (congrArg (List.map Entry.pair) hlog).trans h.log
  · intro i
    rw [(histories_read ..).1]
    exact h.order i
  · intro i key'
    rw [(histories_read ..).2]
    exact h.mine i key'
  · intro i key' x
    have hseen := h.seen i key' x
    show (∃ m, (Function.update s.checker j _ i).lastSeenIndex key' = some m ∧ x < m) ↔
      ∃ r ∈ s.reads ++ [_], r.session = i ∧ r.key = key' ∧ x < r.taken
    -- the session that reads, or another one, whose checker stays as it is
    by_cases hi : i = j
    · subst hi
      rw [Function.update_self]
      by_cases hkey : key' = key
      · subst hkey
        rw [Checker.seen_observeRead, hseen]
        simp only [List.mem_append, List.mem_singleton, or_and_right, exists_or, exists_eq_left,
          true_and]
      · simpa [Checker.observeRead, hkey, Ne.symm hkey] using hseen
    · rw [Function.update_of_ne hi]
      simpa [Ne.symm hi] using hseen
  · intro r hr htold
    rcases List.mem_append.mp hr with hr | hr
    · exact h.told r hr htold
    · obtain rfl := List.mem_singleton.mp hr
      show (s.checker j).versionOf key value = version (s.cluster.log.take n) key
      rw [h.versionOf, hvalue]
      exact taken_eq_version h.log htold n

omit [DecidableEq V] in
/-- What only moves the replicas leaves the checkers as they are. -/
theorem Inv.move (h : Inv s) {c : Cluster K V} (hc : c.Inv) (hlog : c.log = s.cluster.log) :
    Inv { s with cluster := c } :=
  ⟨hc, (congrArg (List.map Entry.pair) hlog).trans h.log, h.order, h.mine, h.seen, h.told⟩

/-- **What the checkers know, over one event.** -/
theorem Inv.step (h : Inv s) {e : Event J K V} (hs : s.step e = some s') : Inv s' := by
  cases e with
  | write j key value => exact Option.some_inj.mp hs ▸ h.write j key value
  | read j key replica place =>
    obtain ⟨⟨⟨value, n⟩, cluster⟩, hserve, rfl⟩ := Option.map_eq_some_iff.mp hs
    exact h.read hserve place
  | poll replica =>
    obtain ⟨r, hr, rfl⟩ := Option.map_eq_some_iff.mp hs
    exact h.move (h.cluster.poll hr).1 rfl
  | setLag replica lag =>
    obtain ⟨c, hc, rfl⟩ := Option.map_eq_some_iff.mp hs
    refine h.move (h.cluster.step hc).1 ?_
    obtain ⟨r, -, rfl⟩ := Option.map_eq_some_iff.mp hc
    rfl

theorem Inv.of_reach {specs : List (String × ℕ)}
    (h : Reach Sessions.step (Sessions.init specs) s) : Inv s :=
  h.invariant (.init specs) fun _ _ _ hinv hs => hinv.step hs

end Sessions

/-! ### What the checkers record -/

omit [DecidableEq K] in
/-- The first check records violations of read-your-writes only. -/
theorem checkMyWrites_any (c : Checker K V) (key : K) (value : Option V) (place : String) :
    ((c.checkMyWrites key value place).any Violation.isReadYourWrites = true ↔
      ∃ wrote, c.myWrites key = some wrote ∧ value ≠ some wrote) ∧
    (c.checkMyWrites key value place).any Violation.isMonotonicReads = false := by
  unfold Checker.checkMyWrites
  cases c.myWrites key with
  | none => simp
  | some wrote =>
    by_cases hne : value = some wrote <;>
      simp [hne, Violation.isReadYourWrites, Violation.isMonotonicReads]

omit [DecidableEq K] [DecidableEq V] in
/-- The second check records violations of monotonic reads only. -/
theorem checkSeen_any (c : Checker K V) (key : K) (idx : ℤ) (value : Option V) (place : String) :
    ((c.checkSeen key idx value place).any Violation.isMonotonicReads = true ↔
      ∃ seen, c.lastSeenIndex key = some seen ∧ idx < seen) ∧
    (c.checkSeen key idx value place).any Violation.isReadYourWrites = false := by
  unfold Checker.checkSeen
  cases c.lastSeenIndex key with
  | none => simp
  | some seen =>
    by_cases hlt : idx < seen <;>
      simp [hlt, Violation.isReadYourWrites, Violation.isMonotonicReads]

/-- A value taken for a version before a session's own last write is not the one that it wrote,
and the value taken for this write is. -/
theorem value_of_own {writes : List (Write J K V)} {j : J} {key : K} {value : Option V}
    {w : Write J K V} {i : ℕ}
    (hlast : lastHit (fun w => decide (w.session = j) && decide (w.key = key)) writes =
      some (w, i)) :
    (taken writes key value < own writes j key → value ≠ some w.value) ∧
      (taken writes key value = own writes j key → value = some w.value) := by
  obtain ⟨hw, hmine, -⟩ := lastHit_eq_some_iff.mp hlast
  have hkey : w.key = key := of_decide_eq_true (Bool.and_eq_true_iff.mp hmine).2
  rw [own, lastIndex_eq_of_lastHit hlast]
  constructor
  -- the own write has this value, so the place of the value is at least as late
  · rintro hlt rfl
    have hle : (i : ℤ) ≤ taken writes key (some w.value) := le_lastIndex hw (by simp [hkey])
    omega
  · intro heq
    cases hhit : lastHit (fun w => decide (w.key = key) && decide (some w.value = value))
        writes with
    | none =>
      rw [taken, lastIndex, hhit, Option.elim_none] at heq
      omega
    | some e =>
      obtain ⟨w', i'⟩ := e
      rw [taken, lastIndex_eq_of_lastHit hhit] at heq
      obtain ⟨hw', hvalue, -⟩ := lastHit_eq_some_iff.mp hhit
      obtain rfl : i' = i := by omega
      obtain rfl : w = w' := Option.some_inj.mp (hw.symm.trans hw')
      exact (of_decide_eq_true (Bool.and_eq_true_iff.mp hvalue).2).symm

/-- What the checker makes of the read `r`, which leads from `s` to `s'`. -/
structure Judged (s s' : Sessions J K V) (r : Read J K V) : Prop where
  /-- The answer is the value of the key, and the version its position, in some of the log. -/
  served : ∃ n, r.value = replay (s.cluster.log.take n) r.key ∧
    r.version = version (s.cluster.log.take n) r.key
  taken : r.taken = taken s.writes r.key r.value
  monotonicReads : (Sessions.recorded s s' r.session).any Violation.isMonotonicReads = true ↔
    ∃ r' ∈ s.reads, r'.session = r.session ∧ r'.key = r.key ∧ r.taken < r'.taken
  stale : r.taken < own s.writes r.session r.key →
    (Sessions.recorded s s' r.session).any Violation.isReadYourWrites = true
  fresh : own s.writes r.session r.key = -1 ∨ r.taken = own s.writes r.session r.key →
    (Sessions.recorded s s' r.session).any Violation.isReadYourWrites = false
  told : Told s.writes r.key → r.taken = r.version ∧
    ∀ r' ∈ s.reads, r'.key = r.key → r'.taken = r'.version

namespace Sessions

variable {s s' : Sessions J K V}

/-- Read-your-writes is recorded of every version before the own last write, and not of this
write, or where there is none. -/
theorem Inv.ne_myWrites (h : Inv s) (j : J) (key : K) (value : Option V) :
    (taken s.writes key value < own s.writes j key →
      ∃ wrote, (s.checker j).myWrites key = some wrote ∧ value ≠ some wrote) ∧
    (own s.writes j key = -1 ∨ taken s.writes key value = own s.writes j key →
      ¬ ∃ wrote, (s.checker j).myWrites key = some wrote ∧ value ≠ some wrote) := by
  rw [h.mine j key]
  cases hlast : lastHit (fun w => decide (w.session = j) && decide (w.key = key)) s.writes with
  | none =>
    have hown : own s.writes j key = -1 := by rw [own, lastIndex, hlast, Option.elim_none]
    have htaken : -1 ≤ taken s.writes key value := neg_one_le_lastIndex
    constructor
    · intro hlt
      omega
    · simp
  | some e =>
    obtain ⟨w, i⟩ := e
    have hown : own s.writes j key = i := lastIndex_eq_of_lastHit hlast
    -- a value from before the own write is another one
    constructor
    · intro hlt
      exact ⟨w.value, rfl, (value_of_own hlast).1 hlt⟩
    · rintro (hnone | heq) ⟨wrote, hwrote, hne⟩
      · omega
      · obtain rfl := Option.some_inj.mp hwrote
        exact hne ((value_of_own hlast).2 heq)

/-- **How a checker judges a read**, from what it knows. -/
theorem Inv.judged (h : Inv s) {j : J} {key : K} {replica : Option ℕ} {value : Option V} {n : ℕ}
    {cluster : Cluster K V} (hserve : s.cluster.serve key replica = some ((value, n), cluster))
    (place : String) : Judged s (s.read j key value n cluster place)
      ⟨j, key, value, version (s.cluster.log.take n) key, (s.checker j).versionOf key value⟩ := by
  obtain ⟨hvalue, -, -⟩ := h.cluster.serve hserve
  have hrecorded : recorded s (s.read j key value n cluster place) j =
      (s.checker j).checkMyWrites key value place ++
        (s.checker j).checkSeen key ((s.checker j).versionOf key value) value place := by
    simp only [recorded, Sessions.read, Function.update_self, Checker.observeRead,
      List.append_assoc, List.drop_left']
  obtain ⟨hmine, hmine'⟩ := checkMyWrites_any (s.checker j) key value place
  obtain ⟨hseen, hseen'⟩ :=
    checkSeen_any (s.checker j) key ((s.checker j).versionOf key value) value place
  obtain ⟨hbefore, hat⟩ := h.ne_myWrites j key value
  rw [← h.versionOf j key value] at hbefore hat
  constructor
  · exact ⟨n, hvalue, rfl⟩
  · exact h.versionOf j key value
  · show (recorded s _ j).any Violation.isMonotonicReads = true ↔ _
    rw [hrecorded, List.any_append, hmine', Bool.false_or, hseen]
    exact h.seen j key _
  · intro hlt
    show (recorded s _ j).any Violation.isReadYourWrites = true
    rw [hrecorded, List.any_append, hseen', Bool.or_false, hmine]
    exact hbefore hlt
  · intro hfresh
    show (recorded s _ j).any Violation.isReadYourWrites = false
    rw [hrecorded, List.any_append, hseen', Bool.or_false, Bool.eq_false_iff]
    exact fun hany => hat hfresh (hmine.mp hany)
  · intro htold
    refine ⟨?_, fun r' hr' hkey => h.told r' hr' ?_⟩
    · show (s.checker j).versionOf key value = version (s.cluster.log.take n) key
      rw [h.versionOf, hvalue]
      exact taken_eq_version h.log htold n
    · rw [hkey]
      exact htold

end Sessions

/-- **Which reads are recorded as violations.**  For every cluster, in every run of any sessions,
a read is recorded as one of monotonic reads exactly if the version that its answer is taken for
is older than one that the session has read of the key before; as one of read-your-writes if it
is older than the session's own last write, and not if it is this write.  Where no value is
written to the key twice, these are the versions that were served. -/
theorem checker_judges (specs : List (String × ℕ)) {s s' : Sessions J K V} {j : J} {key : K}
    {replica : Option ℕ} {place : String} (h : Reach Sessions.step (.init specs) s)
    (hs : s.step (.read j key replica place) = some s') :
    ∃ r, s'.reads = s.reads ++ [r] ∧ r.session = j ∧ r.key = key ∧ Judged s s' r := by
  obtain ⟨⟨⟨value, n⟩, cluster⟩, hserve, rfl⟩ := Option.map_eq_some_iff.mp hs
  exact ⟨_, rfl, rfl, rfl, (Sessions.Inv.of_reach h).judged hserve place⟩

/-- A session that has written twice reads its second write, and then its first from a replica
that is one operation behind: both guarantees are recorded as violated. -/
theorem checker_judges_lagging : ∃ (s s' : Sessions ℕ ℕ ℕ) (r : Read ℕ ℕ ℕ),
    r.version = 0 ∧ own s.writes 7 5 = 1 ∧
    (Sessions.recorded s s' 7).map Violation.isReadYourWrites = [true, false] ∧
    s'.reads = s.reads ++ [r] ∧ Judged s s' r := by
  -- the slow replica has only the first write when the session reads it
  have hrun : ((exec Sessions.step (.init [("fast", 0), ("slow", 1)])
      [.write 7 5 10, .write 7 5 11, .read 7 5 (some 0) "fast"]).bind fun s =>
    (s.step (.read 7 5 (some 1) "slow")).map fun s' =>
      (s.writes, s'.reads, (Sessions.recorded s s' 7).map Violation.isReadYourWrites)) =
      some ([⟨7, 5, 10⟩, ⟨7, 5, 11⟩], [⟨7, 5, some 11, 1, 1⟩, ⟨7, 5, some 10, 0, 0⟩],
        [true, false]) := by decide
  obtain ⟨s, hs, hrun'⟩ := Option.bind_eq_some_iff.mp hrun
  obtain ⟨s', hs', hobs⟩ := Option.map_eq_some_iff.mp hrun'
  simp only [Prod.mk.injEq] at hobs
  obtain ⟨hwrites, hreads, hrecorded⟩ := hobs
  obtain ⟨r, hr, -, -, hjudged⟩ := checker_judges _ (.of_exec _ hs) hs'
  refine ⟨s, s', r, ?_, ?_, hrecorded, hr, hjudged⟩
  · have hlast := congrArg List.getLast? (hr.symm.trans hreads)
    rw [List.getLast?_concat, List.getLast?_cons_cons, List.getLast?_singleton,
      Option.some_inj] at hlast
    rw [hlast]
  · rw [hwrites]
    decide

/-- A session reads the third version of a key, then the first, and then the second, which is
newer than the one that it has read last: this too is recorded as a violation. -/
theorem not_exact : ¬ ∀ (specs : List (String × ℕ)) (s s' : Sessions ℕ ℕ ℕ) (j key : ℕ)
    (replica : Option ℕ) (place : String), Reach Sessions.step (.init specs) s →
    s.step (.read j key replica place) = some s' →
    ∃ r, s'.reads = s.reads ++ [r] ∧
      ((Sessions.recorded s s' j).any Violation.isReadYourWrites = true ↔
        r.version < own s.writes j key) ∧
      ((Sessions.recorded s s' j).any Violation.isMonotonicReads = true ↔
        ∃ r', (s.reads.filter fun r => decide (r.session = j) && decide (r.key = key)).getLast? =
          some r' ∧ r.version < r'.version) := by
  intro h
  -- the third read is older than the first, but not than the second
  have hrun : ((exec Sessions.step (.init [("r0", 0), ("r1", 2), ("r2", 1)])
      [.write 1 5 10, .write 1 5 11, .write 1 5 12, .read 7 5 (some 0) "r0",
        .read 7 5 (some 1) "r1"]).bind fun s =>
    (s.step (.read 7 5 (some 2) "r2")).map fun s' =>
      (s.reads, s'.reads, (Sessions.recorded s s' 7).any Violation.isMonotonicReads)) =
      some ([⟨7, 5, some 12, 2, 2⟩, ⟨7, 5, some 10, 0, 0⟩],
        [⟨7, 5, some 12, 2, 2⟩, ⟨7, 5, some 10, 0, 0⟩, ⟨7, 5, some 11, 1, 1⟩], true) := by decide
  obtain ⟨s, hs, hrun'⟩ := Option.bind_eq_some_iff.mp hrun
  obtain ⟨s', hs', hobs⟩ := Option.map_eq_some_iff.mp hrun'
  simp only [Prod.mk.injEq] at hobs
  obtain ⟨hreads, hreads', hrecorded⟩ := hobs
  obtain ⟨r, hr, -, hmonotonic⟩ := h _ s s' 7 5 _ _ (.of_exec _ hs) hs'
  obtain ⟨r', hlast, hlt⟩ := hmonotonic.mp hrecorded
  have hr' : r = ⟨7, 5, some 11, 1, 1⟩ := by
    have hlast' := congrArg List.getLast? (hr.symm.trans hreads')
    simpa using hlast'
  rw [hreads] at hlast
  obtain rfl : (⟨7, 5, some 10, 0, 0⟩ : Read ℕ ℕ ℕ) = r' := Option.some_inj.mp hlast
  rw [hr'] at hlt
  exact absurd hlt (by decide)

end Replication
end SepLab
