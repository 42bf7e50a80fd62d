import Mathlib.Data.List.Infix
import SepLab.Lib.Ballots
import SepLab.Lib.Transition
import SepLab.Raft.Server

/-!
# A cluster of Raft servers

The servers of a cluster, their persisters, the RPCs that `Network.Call` has in
flight, and the harness that kills and restarts servers.  A restart makes a new
instance of a server on the old persister; the goroutines of the killed instance
may still be there, so instances are kept apart: `inst i k` is the `k`-th
instance of server `i`, and `nodes i` is the number of the one attached to the
network.

An RPC is in flight from its request until its caller's callback has run, or the
call has failed; it is delivered at most once and its reply is read at most once,
after any delay.  The order of the actions is arbitrary.

## Main definitions

* `Cluster`, `Cluster.init` — the state, `n` servers that have just been made.
* `Action`, `step` — every section that runs with `rf.mu` held, the applier's
  sends, the failure of a call, `crash` and `restart`.
* `Event` — what an observer of the run sees, oldest first in `Cluster.trace`.
* `failStop` — the system in which a killed instance takes no further step.
-/

namespace SepLab
namespace Raft

variable {n : ℕ} {Cmd : Type}

/-- One instance of a server with the variables of its goroutines: the counter
`votes` of the election it started in each term, and what the applier has taken
from the log and not sent yet. -/
structure Instance (n : ℕ) (Cmd : Type) where
  rf : Server n Cmd
  votes : ℕ → ℕ
  batch : List (ApplyMsg Cmd)

/-- A `Raft.RequestVote` call in flight. -/
structure VoteCall (n : ℕ) where
  src : Fin n
  inc : ℕ
  dst : Fin n
  args : RequestVoteArgs n
  reply : Option RequestVoteReply
  deriving DecidableEq, Repr

/-- A `Raft.AppendEntries` call in flight. -/
structure AppendCall (n : ℕ) (Cmd : Type) where
  src : Fin n
  inc : ℕ
  dst : Fin n
  args : AppendEntriesArgs n Cmd
  reply : Option AppendEntriesReply
  deriving DecidableEq, Repr

/-- What happens in a run. -/
inductive Event (n : ℕ) (Cmd : Type)
  /-- `voter` votes for `candidate` in `term`. -/
  | voteGranted (voter : Fin n) (term : ℕ) (candidate : Fin n)
  /-- `becomeLeaderLocked` makes `peer` the leader of `term`, with this log. -/
  | becameLeader (peer : Fin n) (term : ℕ) (log : List (LogEntry Cmd))
  /-- `advanceCommitIndex` sets the commit index of the leader `peer` of `term`, with this log. -/
  | committed (peer : Fin n) (term index : ℕ) (log : List (LogEntry Cmd))
  /-- The applier of instance `inc` of `peer` sends a message. -/
  | applied (peer : Fin n) (inc : ℕ) (msg : ApplyMsg Cmd)
  deriving DecidableEq, Repr

/-- What an observer sees of a section of server `i` that may win the election of `term`. -/
def leaderEvents (i : Fin n) (term : ℕ) (rf rf' : Server n Cmd) : List (Event n Cmd) :=
  if rf.role ≠ .leader ∧ rf'.role = .leader then [.becameLeader i term rf'.log] else []

/-- What an observer sees of a section of the leader `i` that may advance its commit index. -/
def commitEvents (i : Fin n) (rf rf' : Server n Cmd) : List (Event n Cmd) :=
  if rf.commitIndex ≠ rf'.commitIndex then
    [.committed i rf'.currentTerm rf'.commitIndex rf'.log]
  else []

/-- The state of a cluster of `n` servers. -/
structure Cluster (G : Gob n Cmd) where
  inst : Fin n → ℕ → Instance n Cmd
  nodes : Fin n → ℕ
  persisters : Fin n → List G.Byte
  voteCalls : List (VoteCall n)
  appendCalls : List (AppendCall n Cmd)
  trace : List (Event n Cmd)

/-- The atomic steps; calls are named by their place among those in flight. -/
inductive Action (n : ℕ) (Cmd : Type)
  /-- The election timer of instance `k` of server `i` fires. -/
  | startElection (i : Fin n) (k : ℕ)
  /-- A vote request is handled. -/
  | requestVote (c : ℕ)
  /-- A vote reply reaches its callback. -/
  | voteReply (c : ℕ)
  /-- A vote call fails. -/
  | loseVote (c : ℕ)
  /-- A client calls `Start`. -/
  | start (i : Fin n) (k : ℕ) (command : Cmd)
  /-- Instance `k` of server `i` sends its log to `peer`. -/
  | replicateTo (i : Fin n) (k : ℕ) (peer : Fin n) (term : ℕ)
  /-- An append request is handled. -/
  | appendEntries (c : ℕ)
  /-- An append reply reaches its callback. -/
  | appendReply (c : ℕ)
  /-- An append call fails. -/
  | loseAppend (c : ℕ)
  /-- The applier takes the next batch. -/
  | applier (i : Fin n) (k : ℕ)
  /-- The applier sends the next message of its batch. -/
  | send (i : Fin n) (k : ℕ)
  /-- The harness kills the attached instance. -/
  | crash (i : Fin n)
  /-- The harness makes a new instance on the same persister. -/
  | restart (i : Fin n)
  deriving DecidableEq, Repr

namespace Cluster

variable {G : Gob n Cmd}

/-- Instance `k` of server `i` with the server's persister. -/
def peer (s : Cluster G) (i : Fin n) (k : ℕ) : Peer G := ⟨(s.inst i k).rf, s.persisters i⟩

@[simp] theorem peer_rf (s : Cluster G) (i : Fin n) (k : ℕ) : (s.peer i k).rf = (s.inst i k).rf :=
  rfl

/-- The cluster after a section has left instance `k` of server `i` and its persister at `p`. -/
def put (s : Cluster G) (i : Fin n) (k : ℕ) (p : Peer G) : Cluster G :=
  { s with
    inst := set₂ s.inst i k { s.inst i k with rf := p.rf }
    persisters := Function.update s.persisters i p.disk }

/-- The cluster after the goroutines of instance `k` of server `i` have set their variables. -/
def setVotes (s : Cluster G) (i : Fin n) (k term votes : ℕ) : Cluster G :=
  { s with
    inst := set₂ s.inst i k
      { s.inst i k with votes := Function.update (s.inst i k).votes term votes } }

/-- The cluster after an applier has sent or taken messages. -/
def setBatch (s : Cluster G) (i : Fin n) (k : ℕ) (batch : List (ApplyMsg Cmd)) : Cluster G :=
  { s with inst := set₂ s.inst i k { s.inst i k with batch := batch } }

/-- The cluster after an observer has seen `es`. -/
def emit (s : Cluster G) (es : List (Event n Cmd)) : Cluster G := { s with trace := s.trace ++ es }

/-- The instance attached to the network. -/
def node (s : Cluster G) (i : Fin n) : Instance n Cmd := s.inst i (s.nodes i)

/-- Everyone but `i`, in the order in which the loops over the peers run. -/
def others (i : Fin n) : List (Fin n) := (List.finRange n).filter (· ≠ i)

/-- An instance stands for election: it votes for itself and calls all others. -/
def startElection (s : Cluster G) (i : Fin n) (k : ℕ) : Option (Cluster G) :=
  if k ≤ s.nodes i then
    ((s.peer i k).startElection i).map fun (p, args) =>
      let s := (s.put i k p).setVotes i k args.term 1
      let calls := (others i).map fun j => (⟨i, k, j, args, none⟩ : VoteCall n)
      { s with voteCalls := s.voteCalls ++ calls }.emit [.voteGranted i args.term i]
  else none

/-- `Network.Call` finds the callee alive and its handler runs, in one step; `Network.chooseVote`
takes the two apart. -/
def requestVote (s : Cluster G) (c : ℕ) : Option (Cluster G) :=
  s.voteCalls[c]?.bind fun call =>
    if call.reply = none ∧ (s.node call.dst).rf.dead = false then
      let k := s.nodes call.dst
      let (p, reply) := (s.peer call.dst k).requestVote call.args
      let s := s.put call.dst k p
      some <| { s with voteCalls := s.voteCalls.set c { call with reply := some reply } }.emit
        (if reply.voteGranted then [.voteGranted call.dst reply.term call.args.candidateId] else [])
    else none

/-- The callback of a vote call, which then is over. -/
def voteReply (s : Cluster G) (c : ℕ) : Option (Cluster G) :=
  s.voteCalls[c]?.bind fun call => call.reply.map fun reply =>
    let i := call.src
    let k := call.inc
    let term := call.args.term
    let (p, votes) := (s.peer i k).voteReply i term ((s.inst i k).votes term) reply
    let es := leaderEvents i term (s.inst i k).rf p.rf
    let s := (s.put i k p).setVotes i k term votes
    { s with voteCalls := s.voteCalls.eraseIdx c }.emit es

/-- A vote call fails; the callee may have handled it. -/
def loseVote (s : Cluster G) (c : ℕ) : Option (Cluster G) :=
  if c < s.voteCalls.length then some { s with voteCalls := s.voteCalls.eraseIdx c } else none

/-- `Start` on an instance. -/
def start (s : Cluster G) (i : Fin n) (k : ℕ) (command : Cmd) : Option (Cluster G) :=
  if k ≤ s.nodes i then some (s.put i k ((s.peer i k).start command).1) else none

/-- A leader calls a peer with what it takes the peer to lack. -/
def replicateTo (s : Cluster G) (i : Fin n) (k : ℕ) (peer : Fin n) (term : ℕ) :
    Option (Cluster G) :=
  if k ≤ s.nodes i ∧ peer ≠ i then
    ((s.inst i k).rf.replicateTo i peer term).map fun args =>
      { s with appendCalls := s.appendCalls ++ [⟨i, k, peer, args, none⟩] }
  else none

/-- The same for an append request; `Network.chooseAppend` takes the two apart. -/
def appendEntries (s : Cluster G) (c : ℕ) : Option (Cluster G) :=
  s.appendCalls[c]?.bind fun call =>
    if call.reply = none ∧ (s.node call.dst).rf.dead = false then
      let k := s.nodes call.dst
      let (p, reply) := (s.peer call.dst k).appendEntries call.args
      let s := s.put call.dst k p
      some { s with appendCalls := s.appendCalls.set c { call with reply := some reply } }
    else none

/-- The callback of an append call, which then is over. -/
def appendReply (s : Cluster G) (c : ℕ) : Option (Cluster G) :=
  s.appendCalls[c]?.bind fun call => call.reply.map fun reply =>
    let i := call.src
    let k := call.inc
    let p := (s.peer i k).appendReply i call.dst call.args reply
    let es := commitEvents i (s.inst i k).rf p.rf
    let s := s.put i k p
    { s with appendCalls := s.appendCalls.eraseIdx c }.emit es

/-- An append call fails; the callee may have handled it. -/
def loseAppend (s : Cluster G) (c : ℕ) : Option (Cluster G) :=
  if c < s.appendCalls.length then some { s with appendCalls := s.appendCalls.eraseIdx c } else none

/-- The applier is a single goroutine: it takes a batch when it has sent the one before. -/
def applier (s : Cluster G) (i : Fin n) (k : ℕ) : Option (Cluster G) :=
  if k ≤ s.nodes i ∧ (s.inst i k).batch = [] then
    (s.inst i k).rf.applier.map fun (rf, batch) =>
      (s.put i k ⟨rf, s.persisters i⟩).setBatch i k batch
  else none

/-- The applier sends the next message of its batch. -/
def send (s : Cluster G) (i : Fin n) (k : ℕ) : Option (Cluster G) :=
  match (s.inst i k).batch with
  | [] => none
  | msg :: rest =>
    if k ≤ s.nodes i then some ((s.setBatch i k rest).emit [.applied i k msg]) else none

/-- `crash` of the harness: the attached instance is killed, and its persister stays. -/
def crash (s : Cluster G) (i : Fin n) : Option (Cluster G) :=
  if (s.node i).rf.dead then none
  else
    some { s with
      inst := set₂ s.inst i (s.nodes i)
        { s.node i with rf := { (s.node i).rf with dead := true } } }

variable [Inhabited Cmd]

/-- An instance that `Make` has just returned. -/
def fresh (G : Gob n Cmd) (persister : List G.Byte) : Instance n Cmd :=
  ⟨make G persister, fun _ => 0, []⟩

/-- `restart` of the harness: a new instance on the persister, attached in place of the old one.
-/
def restart (s : Cluster G) (i : Fin n) : Option (Cluster G) :=
  if (s.node i).rf.dead then
    some { s with
      inst := set₂ s.inst i (s.nodes i + 1) (fresh G (s.persisters i))
      nodes := Function.update s.nodes i (s.nodes i + 1) }
  else none

/-- `n` servers made on empty persisters. -/
def init (G : Gob n Cmd) : Cluster G where
  inst _ _ := fresh G []
  nodes _ := 0
  persisters _ := []
  voteCalls := []
  appendCalls := []
  trace := []

/-- One atomic step of the cluster. -/
def step (s : Cluster G) : Action n Cmd → Option (Cluster G)
  | .startElection i k => s.startElection i k
  | .requestVote c => s.requestVote c
  | .voteReply c => s.voteReply c
  | .loseVote c => s.loseVote c
  | .start i k command => s.start i k command
  | .replicateTo i k peer term => s.replicateTo i k peer term
  | .appendEntries c => s.appendEntries c
  | .appendReply c => s.appendReply c
  | .loseAppend c => s.loseAppend c
  | .applier i k => s.applier i k
  | .send i k => s.send i k
  | .crash i => s.crash i
  | .restart i => s.restart i

omit [Inhabited Cmd] in
/-- The instance that takes the step, if it is a server's step. -/
def actor (s : Cluster G) : Action n Cmd → Option (Fin n × ℕ)
  | .startElection i k | .start i k _ | .replicateTo i k _ _ | .applier i k | .send i k =>
    some (i, k)
  | .requestVote c => s.voteCalls[c]?.map fun call => (call.dst, s.nodes call.dst)
  | .voteReply c => s.voteCalls[c]?.map fun call => (call.src, call.inc)
  | .appendEntries c => s.appendCalls[c]?.map fun call => (call.dst, s.nodes call.dst)
  | .appendReply c => s.appendCalls[c]?.map fun call => (call.src, call.inc)
  | .loseVote _ | .loseAppend _ | .crash _ | .restart _ => none

omit [Inhabited Cmd] in
/-- The step is not that of a killed instance. -/
def alive (s : Cluster G) (a : Action n Cmd) : Bool :=
  match s.actor a with
  | some (i, k) => !(s.inst i k).rf.dead
  | none => true

/-- The cluster in which a killed instance takes no further step. -/
def failStop : Cluster G → Action n Cmd → Option (Cluster G) := guarded alive step

end Cluster

/-- A codec that writes the whole state as one letter. -/
def Gob.letter (n : ℕ) (Cmd : Type) : Gob n Cmd where
  Byte := PersistentState n Cmd
  encode s := [s]
  decode data := data.head?
  decode_encode _ := rfl
  decode_nil := rfl

/-- Two of three servers elect a leader, which replicates, commits and applies an entry. -/
example : (exec Cluster.failStop (Cluster.init (Gob.letter 3 ℕ))
    [.startElection 0 0, .requestVote 0, .voteReply 0, .start 0 0 7, .replicateTo 0 0 1 1,
      .appendEntries 0, .appendReply 0, .applier 0 0, .send 0 0]).map Cluster.trace =
    some [.voteGranted 0 1 0, .voteGranted 1 1 0, .becameLeader 0 1 [⟨0, 0⟩],
      .committed 0 1 1 [⟨0, 0⟩, ⟨1, 7⟩], .applied 0 0 ⟨true, 7, 1⟩] := by
  decide

end Raft
end SepLab
