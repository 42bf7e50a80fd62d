import Mathlib.Data.Fintype.Basic
import Mathlib.Data.List.FinRange
import Mathlib.Logic.Function.Basic

/-!
# One Raft server

The state of a `Raft` object and every section of `raft.go` that runs with
`rf.mu` held, in the order of the source.  A section works on a `Peer`: the
object together with the contents of its `Persister`, so that each save point of
the source is a call of `persist` here.  Timers only decide when a section runs
and are left out.

Indices and terms are the source's `int`s, all non-negative; `votedFor = none`
is its `-1`.  `ConflictTerm` and `ConflictIndex` keep the source's `-1`.

## Main definitions

* `Gob` — the encoding of the persistent state, assumed to be undone by decoding.
* `Raft`, `Peer` — the object, and the object with its persister.
* `Peer.requestVote`, `Peer.appendEntries` — the RPC handlers.
* `Peer.startElection`, `Peer.voteReply`, `Raft.becomeLeaderLocked` — elections.
* `Raft.replicateTo`, `Peer.appendReply`, `Raft.advanceCommitIndex` — replication.
* `Raft.applier` — taking the next batch for the state machine.
-/

namespace SepLab
namespace Raft

/-- The role of a server. -/
inductive Role
  | follower
  | candidate
  | leader
  deriving DecidableEq, Repr

/-- A log entry: the term of the leader that appended it, and its command. -/
structure LogEntry (Cmd : Type) where
  term : ℕ
  command : Cmd
  deriving DecidableEq, Repr

/-- What a server hands to the state machine above it. -/
structure ApplyMsg (Cmd : Type) where
  commandValid : Bool
  command : Cmd
  commandIndex : ℕ
  deriving DecidableEq, Repr

/-- Exactly what has to survive a crash. -/
structure PersistentState (n : ℕ) (Cmd : Type) where
  currentTerm : ℕ
  votedFor : Option (Fin n)
  log : List (LogEntry Cmd)
  deriving DecidableEq

/-- The `encoding/gob` codec: decoding undoes encoding, and an empty input has nothing to decode. -/
structure Gob (n : ℕ) (Cmd : Type) where
  Byte : Type
  encode : PersistentState n Cmd → List Byte
  decode : List Byte → Option (PersistentState n Cmd)
  decode_encode : ∀ s, decode (encode s) = some s
  decode_nil : decode [] = none

variable {n : ℕ} {Cmd : Type}

/-- `encodeState` -/
def encodeState (G : Gob n Cmd) (s : PersistentState n Cmd) : List G.Byte := G.encode s

/-- `decodeState`, which has nothing to decode on an empty persister. -/
def decodeState (G : Gob n Cmd) (data : List G.Byte) : Option (PersistentState n Cmd) :=
  if data.isEmpty then none else G.decode data

/-- The volatile and persistent fields of a `Raft` object; `dead` is the flag that `Kill` sets. -/
structure Server (n : ℕ) (Cmd : Type) where
  currentTerm : ℕ
  votedFor : Option (Fin n)
  log : List (LogEntry Cmd)
  commitIndex : ℕ
  lastApplied : ℕ
  nextIndex : Fin n → ℕ
  matchIndex : Fin n → ℕ
  role : Role
  dead : Bool

/-- A server with the contents of its `Persister`. -/
structure Peer (G : Gob n Cmd) where
  rf : Server n Cmd
  disk : List G.Byte

/-- `log[0]`, the entry every log starts with. -/
def sentinel [Inhabited Cmd] : LogEntry Cmd := ⟨0, default⟩

/-- `Make`: a fresh object, with whatever the persister holds. -/
def make [Inhabited Cmd] (G : Gob n Cmd) (persister : List G.Byte) : Server n Cmd :=
  let rf : Server n Cmd :=
    { currentTerm := 0, votedFor := none, log := [sentinel], commitIndex := 0, lastApplied := 0
      nextIndex := fun _ => 0, matchIndex := fun _ => 0, role := .follower, dead := false }
  match decodeState G persister with
  | some state =>
    { rf with currentTerm := state.currentTerm, votedFor := state.votedFor, log := state.log }
  | none => rf

/-! ### Small helpers -/

/-- `lastLogIndex` -/
def lastLogIndex (log : List (LogEntry Cmd)) : ℕ := log.length - 1

/-- `log[i].Term`. -/
def termAt (log : List (LogEntry Cmd)) (i : ℕ) : ℕ := (log[i]?.map LogEntry.term).getD 0

/-- `lastLogTerm` -/
def lastLogTerm (log : List (LogEntry Cmd)) : ℕ := termAt log (log.length - 1)

/-- `majority` -/
def majority (n : ℕ) : ℕ := n / 2 + 1

namespace Peer

variable {G : Gob n Cmd}

/-- `persist` -/
def persist (p : Peer G) : Peer G :=
  { p with disk := encodeState G ⟨p.rf.currentTerm, p.rf.votedFor, p.rf.log⟩ }

/-- `becomeFollower` -/
def becomeFollower (p : Peer G) (term : ℕ) : Peer G :=
  persist { p with rf := { p.rf with currentTerm := term, votedFor := none, role := .follower } }

/-- `Start`: append a command if this server leads.  Returns the index, the term and whether it
does. -/
def start (p : Peer G) (command : Cmd) : Peer G × ℤ × ℕ × Bool :=
  if p.rf.role ≠ .leader ∨ p.rf.dead then (p, -1, p.rf.currentTerm, false)
  else
    let log := p.rf.log ++ [⟨p.rf.currentTerm, command⟩]
    (persist { p with rf := { p.rf with log := log } }, lastLogIndex log, p.rf.currentTerm, true)

end Peer

/-! ### RequestVote -/

/-- `RequestVoteArgs` -/
structure RequestVoteArgs (n : ℕ) where
  term : ℕ
  candidateId : Fin n
  lastLogIndex : ℕ
  lastLogTerm : ℕ
  deriving DecidableEq, Repr

/-- `RequestVoteReply` -/
structure RequestVoteReply where
  term : ℕ
  voteGranted : Bool
  deriving DecidableEq, Repr

/-- The election restriction: the candidate's log is not behind `log`. -/
def upToDate (log : List (LogEntry Cmd)) (args : RequestVoteArgs n) : Bool :=
  args.lastLogTerm > lastLogTerm log ||
    (args.lastLogTerm == lastLogTerm log && args.lastLogIndex ≥ lastLogIndex log)

namespace Peer

variable {G : Gob n Cmd}

/-- A request or reply of a later term makes its receiver a follower of that term. -/
def observe (p : Peer G) (term : ℕ) : Peer G :=
  if term > p.rf.currentTerm then p.becomeFollower term else p

/-- `RequestVote` -/
def requestVote (p : Peer G) (args : RequestVoteArgs n) : Peer G × RequestVoteReply :=
  if args.term < p.rf.currentTerm then (p, ⟨p.rf.currentTerm, false⟩)
  else
    let p := p.observe args.term
    if (p.rf.votedFor = none ∨ p.rf.votedFor = some args.candidateId) ∧ upToDate p.rf.log args then
      (persist { p with rf := { p.rf with votedFor := some args.candidateId } },
        ⟨p.rf.currentTerm, true⟩)
    else (p, ⟨p.rf.currentTerm, false⟩)

end Peer

/-! ### AppendEntries -/

/-- `AppendEntriesArgs` -/
structure AppendEntriesArgs (n : ℕ) (Cmd : Type) where
  term : ℕ
  leaderId : Fin n
  prevLogIndex : ℕ
  prevLogTerm : ℕ
  entries : List (LogEntry Cmd)
  leaderCommit : ℕ
  deriving DecidableEq, Repr

/-- `AppendEntriesReply` -/
structure AppendEntriesReply where
  term : ℕ
  success : Bool
  conflictTerm : ℤ
  conflictIndex : ℤ
  deriving DecidableEq, Repr

/-- The loop that walks `ConflictIndex` back to the first entry of the conflicting term. -/
def conflictStart (log : List (LogEntry Cmd)) (conflictTerm : ℕ) : ℕ → ℕ
  | 0 => 0
  | i + 1 => if i + 1 > 1 ∧ termAt log i = conflictTerm then conflictStart log conflictTerm i
      else i + 1

/-- The loop over the entries of a request: skip what is there, and cut the log
only where it disagrees.  `idx` is where the first of `entries` belongs. -/
def appendLoop (log : List (LogEntry Cmd)) (idx : ℕ) :
    List (LogEntry Cmd) → List (LogEntry Cmd)
  | [] => log
  | entry :: rest =>
    if idx ≤ lastLogIndex log then
      if termAt log idx = entry.term then appendLoop log (idx + 1) rest
      else log.take idx ++ entry :: rest
    else log ++ entry :: rest

namespace Peer

variable {G : Gob n Cmd}

/-- `AppendEntries` -/
def appendEntries (p : Peer G) (args : AppendEntriesArgs n Cmd) :
    Peer G × AppendEntriesReply :=
  if args.term < p.rf.currentTerm then (p, ⟨p.rf.currentTerm, false, -1, -1⟩)
  else
    let p := p.observe args.term
    let p := { p with rf := { p.rf with role := .follower } }
    let log := p.rf.log
    if args.prevLogIndex > lastLogIndex log then
      (p, ⟨p.rf.currentTerm, false, -1, lastLogIndex log + 1⟩)
    else if termAt log args.prevLogIndex ≠ args.prevLogTerm then
      let conflictTerm := termAt log args.prevLogIndex
      (p, ⟨p.rf.currentTerm, false, conflictTerm,
        conflictStart log conflictTerm args.prevLogIndex⟩)
    else
      let log := appendLoop log (args.prevLogIndex + 1) args.entries
      let p := persist { p with rf := { p.rf with log := log } }
      let commitIndex :=
        if args.leaderCommit > p.rf.commitIndex then
          min args.leaderCommit (args.prevLogIndex + args.entries.length)
        else p.rf.commitIndex
      ({ p with rf := { p.rf with commitIndex := commitIndex } },
        ⟨p.rf.currentTerm, true, -1, -1⟩)

end Peer

/-! ### Elections -/

/-- `becomeLeaderLocked`: nothing happens unless the server is a candidate. -/
def Server.becomeLeaderLocked (rf : Server n Cmd) (me : Fin n) : Server n Cmd :=
  if rf.role ≠ .candidate then rf
  else
    { rf with
      role := .leader
      nextIndex := fun _ => lastLogIndex rf.log + 1
      matchIndex := Function.update (fun _ => 0) me (lastLogIndex rf.log) }

namespace Peer

variable {G : Gob n Cmd}

/-- The first half of `startElection`: the new candidate and the request it sends to everyone. -/
def startElection (p : Peer G) (me : Fin n) : Option (Peer G × RequestVoteArgs n) :=
  if p.rf.role = .leader ∨ p.rf.dead then none
  else
    let p := persist { p with rf :=
      { p.rf with
        currentTerm := p.rf.currentTerm + 1
        role := .candidate
        votedFor := some me } }
    some (p, ⟨p.rf.currentTerm, me, lastLogIndex p.rf.log, lastLogTerm p.rf.log⟩)

/-- The callback of a vote reply to the election of `term`, whose goroutines share the counter
`votes`. -/
def voteReply (p : Peer G) (me : Fin n) (term votes : ℕ) (reply : RequestVoteReply) :
    Peer G × ℕ :=
  if reply.term > p.rf.currentTerm then (p.becomeFollower reply.term, votes)
  else if p.rf.role ≠ .candidate ∨ p.rf.currentTerm ≠ term then (p, votes)
  else if reply.voteGranted then
    if votes + 1 ≥ majority n then
      ({ p with rf := p.rf.becomeLeaderLocked me }, votes + 1)
    else (p, votes + 1)
  else (p, votes)

end Peer

/-! ### Replication -/

/-- The first half of `replicateTo`: the request to `peer`, if this server still leads `term`. -/
def Server.replicateTo (rf : Server n Cmd) (me peer : Fin n) (term : ℕ) :
    Option (AppendEntriesArgs n Cmd) :=
  if rf.role ≠ .leader ∨ rf.currentTerm ≠ term then none
  else
    let next := rf.nextIndex peer
    let next := if next < 1 then 1 else next
    let next := if next > lastLogIndex rf.log + 1 then lastLogIndex rf.log + 1 else next
    some
      { term := term, leaderId := me, prevLogIndex := next - 1
        prevLogTerm := termAt rf.log (next - 1), entries := rf.log.drop next
        leaderCommit := rf.commitIndex }

/-- How many servers are known to hold entry `k`, this one included. -/
def Server.replicas (rf : Server n Cmd) (me : Fin n) (k : ℕ) : ℕ :=
  1 + (List.finRange n).countP fun peer => decide (peer ≠ me ∧ rf.matchIndex peer ≥ k)

/-- The loop of `advanceCommitIndex`, from entry `k` down to the commit index. -/
def Server.advanceLoop (rf : Server n Cmd) (me : Fin n) : ℕ → Server n Cmd
  | 0 => rf
  | k + 1 =>
    if k + 1 ≤ rf.commitIndex then rf
    else if termAt rf.log (k + 1) ≠ rf.currentTerm then rf.advanceLoop me k
    else if rf.replicas me (k + 1) ≥ majority n then { rf with commitIndex := k + 1 }
    else rf.advanceLoop me k

/-- `advanceCommitIndex` -/
def Server.advanceCommitIndex (rf : Server n Cmd) (me : Fin n) : Server n Cmd :=
  rf.advanceLoop me (lastLogIndex rf.log)

/-- The last index, at most `i`, of an entry of `term`, not counting the sentinel. -/
def lastIndexOfTerm (log : List (LogEntry Cmd)) (term : ℤ) : ℕ → Option ℕ
  | 0 => none
  | i + 1 => if (termAt log (i + 1) : ℤ) = term then some (i + 1) else lastIndexOfTerm log term i

namespace Peer

variable {G : Gob n Cmd}

/-- The callback of the reply of `peer` to `args`. -/
def appendReply (p : Peer G) (me peer : Fin n) (args : AppendEntriesArgs n Cmd)
    (reply : AppendEntriesReply) : Peer G :=
  if reply.term > p.rf.currentTerm then p.becomeFollower reply.term
  else if p.rf.role ≠ .leader ∨ p.rf.currentTerm ≠ args.term then p
  else if reply.success then
    let k := args.prevLogIndex + args.entries.length
    let rf :=
      if k > p.rf.matchIndex peer then
        { p.rf with
          matchIndex := Function.update p.rf.matchIndex peer k
          nextIndex := Function.update p.rf.nextIndex peer (k + 1) }
      else p.rf
    { p with rf := rf.advanceCommitIndex me }
  else
    let next :=
      if reply.conflictTerm = -1 then (max 1 reply.conflictIndex).toNat
      else
        match lastIndexOfTerm p.rf.log reply.conflictTerm (lastLogIndex p.rf.log) with
        | some last => last + 1
        | none => (max 1 reply.conflictIndex).toNat
    { p with rf := { p.rf with nextIndex := Function.update p.rf.nextIndex peer next } }

end Peer

/-! ### Applying -/

/-- The messages for `entries`, the first of which has index `start`. -/
def applyMsgs (start : ℕ) (entries : List (LogEntry Cmd)) : List (ApplyMsg Cmd) :=
  entries.mapIdx fun i entry => ⟨true, entry.command, start + i⟩

/-- One turn of `applier`: the batch of newly committed entries, if there is one. -/
def Server.applier (rf : Server n Cmd) : Option (Server n Cmd × List (ApplyMsg Cmd)) :=
  if rf.dead ∨ rf.lastApplied ≥ rf.commitIndex then none
  else
    let start := rf.lastApplied + 1
    let last := rf.commitIndex
    let batch := (rf.log.take (last + 1)).drop start
    some ({ rf with lastApplied := last }, applyMsgs start batch)

end Raft
end SepLab
