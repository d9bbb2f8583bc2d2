import Mathlib.Logic.Function.Basic
import B5KvStore.Lib.Runs
import B5KvStore.Raft.ReadIndex
import B5KvStore.Raft.Snapshots

/-!
# A cluster of nodes

Hosts, the calls that are under way between them, and one step for each critical
section a goroutine of some host runs.  A run is a list of `Action`s: steps that
run to their end, and crashes, which may fall between any two disk writes of a
step and are followed by a restart through `NewNode`.

Messages are delayed and reordered because every call is its own record, taken
up in any order; they are lost when nobody takes them up again.  A process that
has been restarted does not see the replies to its earlier calls: calls carry
the `epoch` of the process that made them.

* `Config` — who takes part.
* `Host`, `Cluster` — one process with its data directory; all of them together.
* `Op`, `exec` — the critical sections.
* `Action`, `step`, `run` — what can happen, and runs.
-/

namespace B5KvStore

/-- The members of a cluster: distinct addresses with distinct, non-empty ids.
`decode` is `proto.Unmarshal` of a `KVCommand`. -/
structure Config where
  addrs : List String
  idOf : String → String
  logCapacityEntries : Nat
  decode : List UInt8 → Option KVCommand
  nodup : addrs.Nodup
  ids_ne : ∀ p ∈ addrs, idOf p ≠ ""
  ids_inj : ∀ p ∈ addrs, ∀ q ∈ addrs, idOf p = idOf q → p = q

/-- The other members. -/
def Config.peersOf (c : Config) (p : String) : List String := c.addrs.erase p

/-- `NewNode` for a member, on what its data directory holds. -/
def Config.newNode (c : Config) (p : String) (d : Disk) : Node :=
  B5KvStore.newNode (c.idOf p) p (c.peersOf p) c.logCapacityEntries d

/-- The `ApplyFn` of a consensus node: commands that do not decode are skipped. -/
def Config.applyFn (c : Config) (kv : KVMap) (msg : ApplyMsg) : KVMap :=
  match c.decode msg.command with
  | some cmd => kv.apply cmd
  | none => kv

/-- What an event does to the state machine. -/
def Config.applyEvent (c : Config) (kv : KVMap) : NodeEvent → KVMap
  | .applied msg => c.applyFn kv msg
  | _ => kv

/-- One process with its data directory. -/
structure Host where
  node : Node
  disk : Disk
  kv : KVMap
  /-- How many times the process has been restarted. -/
  epoch : Nat
  poll : PollPhase

/-- The state machine a process starts with: the latest local snapshot. -/
def Disk.initialKV (d : Disk) : KVMap :=
  match d.latest with
  | some f => f.state
  | none => fun _ => none

/-- A process started on a data directory.  Each change of the directory, the write of a snapshot
too, happens whole or not at all, so what a crash leaves can be read and a restart does not fail.
A snapshot whose write was interrupted, with which `Latest` fails, is in `Persistence.SnapshotFile`
only. -/
def Config.boot (c : Config) (p : String) (d : Disk) (epoch : Nat) : Host :=
  { node := c.newNode p d, disk := d, kv := d.initialKV, epoch := epoch, poll := .idle }

/-! ## Calls under way -/

/-- The election a process is holding. -/
structure ElectionCall where
  candidate : String
  epoch : Nat
  election : Election

/-- One round of `AppendEntries` requests; `read` is the Read-Index request it
confirms, if any. -/
structure Broadcast where
  leader : String
  epoch : Nat
  term : Nat
  reqs : List OutgoingAppendEntries
  calls : String → CallPhase AppendEntriesReply
  read : Option Nat

/-- A `ProposeSync` call for a command, with the index and the term it was given;
`chan` is the value its channel holds. -/
structure Proposal where
  leader : String
  epoch : Nat
  index : Nat
  term : Nat
  command : List UInt8
  chan : Option (Option RaftError)
  returned : Bool
  deriving DecidableEq

/-- How far a `FollowerLinearizableRead` has come. -/
inductive ReadPhase where
  /-- `SendReadIndex` is on its way to the leader. -/
  | asking
  /-- The leader's process has captured its term and its commit index. -/
  | captured (epoch term readIndex : Nat)
  /-- It is counting the acknowledgements of a confirmation round. -/
  | confirming (epoch term readIndex acked : Nat)
  /-- The reply is on its way back; `none` is an error. -/
  | answered (reply : Option ReadIndexReply)
  /-- `waitForApplied`. -/
  | waiting (readIndex : Nat)
  /-- Returned `nil`, with `lastApplied` at this value. -/
  | done (lastApplied : Nat)
  /-- Returned `ErrReadIndexUnavailable`. -/
  | unavailable
  deriving DecidableEq, Repr

/-- A `FollowerLinearizableRead` call; `startedAt` is the length of the history
when it started. -/
structure ReadCall where
  reader : String
  epoch : Nat
  leader : String
  startedAt : Nat
  phase : ReadPhase
  deriving DecidableEq, Repr

/-- A `Server.Get` call on the leader path; `served` is what it returned, with
`lastApplied` at the moment it read the map. -/
structure GetCall where
  server : String
  epoch : Nat
  startedAt : Nat
  term : Nat
  served : Option (Option String × Nat)
  deriving DecidableEq, Repr

/-- Something a process did. -/
structure Event where
  host : String
  epoch : Nat
  what : NodeEvent
  deriving DecidableEq

/-- The cluster.  `catalog` is the snapshot the catalog service offers. -/
structure Cluster where
  hosts : String → Host
  elections : List ElectionCall
  broadcasts : List Broadcast
  proposals : List Proposal
  reads : List ReadCall
  gets : List GetCall
  catalog : Option File
  history : List Event

/-- Every process on an empty directory, and nothing under way. -/
def Config.init (c : Config) : Cluster where
  hosts p := c.boot p Disk.empty 0
  elections := []
  broadcasts := []
  proposals := []
  reads := []
  gets := []
  catalog := none
  history := []

/-! ## Steps -/

/-- The critical sections, each with the process or the call it belongs to.
Flags say which `SaveState` calls fail. -/
inductive Op where
  | startElection (p : String) (fails : Bool)
  | soloElection (k : Nat)
  | requestVote (k : Nat) (peer : String) (f : SaveFaults)
  | requestVoteReply (k : Nat) (peer : String) (fails : Bool)
  | broadcastAppendEntries (p : String)
  | appendEntries (k : Nat) (peer : String) (f : SaveFaults)
  | appendEntriesReply (k : Nat) (peer : String) (fails : Bool)
  | propose (p : String) (command : List UInt8)
  | proposeSync (p : String) (command : List UInt8)
  | proposeReturn (k : Nat)
  | proposeCancel (k : Nat)
  | startRead (p : String)
  | requestReadIndex (r : Nat)
  | confirmLeadership (r : Nat)
  | readIndexFailed (r : Nat)
  | readIndexReply (r : Nat)
  | readApplied (r : Nat)
  | readTimeout (r : Nat)
  | getStatus (p : String)
  | getValue (k : Nat) (key : String)
  | confirmCompaction (p : String) (req : CompactionAck)
  | pollInfo (p : String)
  | pollDecide (p : String)
  | pollFetch (p : String)
  | pollAbort (p : String)
  | pollWriteFile (p : String)
  | pollRewriteLog (p : String)
  | pollRestore (p : String)
  | pollAdopt (p : String)
  | pollCompact (p : String)

/-- No `SaveState` call of the operation fails. -/
def Op.NoFaults : Op → Prop
  | .startElection _ fails => fails = false
  | .requestVote _ _ f => f = noFaults
  | .requestVoteReply _ _ fails => fails = false
  | .appendEntries _ _ f => f = noFaults
  | .appendEntriesReply _ _ fails => fails = false
  | _ => True

instance (op : Op) : Decidable op.NoFaults := by
  cases op <;> unfold Op.NoFaults <;> infer_instance

/-- The operations that involve snapshots. -/
def Op.snapshotting : Op → Bool
  | .confirmCompaction _ _ | .pollInfo _ | .pollDecide _ | .pollFetch _ | .pollAbort _
  | .pollWriteFile _ | .pollRewriteLog _ | .pollRestore _ | .pollAdopt _ | .pollCompact _ => true
  | _ => false

/-- What a critical section does: the process it runs in, what it does there, and
the system around it, where calls may have come or gone. -/
structure Outcome where
  host : String
  result : Locked
  around : Cluster

namespace Cluster

/-- Replace one process. -/
def setHost (s : Cluster) (p : String) (h : Host) : Cluster :=
  { s with hosts := Function.update s.hosts p h }

/-- Where the poll loop of a process goes next. -/
def setPoll (s : Cluster) (p : String) (ph : PollPhase) : Cluster :=
  s.setHost p { s.hosts p with poll := ph }

def setElection (s : Cluster) (k : Nat) (e : ElectionCall) : Cluster :=
  { s with elections := s.elections.set k e }

def setBroadcast (s : Cluster) (k : Nat) (b : Broadcast) : Cluster :=
  { s with broadcasts := s.broadcasts.set k b }

def setProposal (s : Cluster) (k : Nat) (p : Proposal) : Cluster :=
  { s with proposals := s.proposals.set k p }

def setGet (s : Cluster) (k : Nat) (g : GetCall) : Cluster :=
  { s with gets := s.gets.set k g }

def setRead (s : Cluster) (r : Nat) (phase : ReadPhase) : Cluster :=
  { s with reads := s.reads.modify r fun call => { call with phase := phase } }

/-- Send one round of requests. -/
def send (s : Cluster) (p : String) (reqs : List OutgoingAppendEntries) (read : Option Nat) :
    Cluster :=
  let n := (s.hosts p).node
  { s with broadcasts := s.broadcasts ++
      [⟨p, (s.hosts p).epoch, n.currentTerm, reqs, fun _ => .sent, read⟩] }

/-- A counted acknowledgement of a confirmation round. -/
def ackRead (s : Cluster) (c : Config) (r : Nat) (epoch : Nat) : Cluster :=
  match s.reads[r]? with
  | some call =>
      match call.phase with
      | .confirming ep term readIndex acked =>
          if ep = epoch then
            if quorumSize ((c.peersOf call.leader).length + 1) ≤ acked + 1 then
              s.setRead r (.answered (some { ok := true, readIndex := readIndex }))
            else s.setRead r (.confirming ep term readIndex (acked + 1))
          else s
      | _ => s
  | none => s

/-- The value a channel receives. -/
def notify (ps : List Proposal) : NodeEvent → List Proposal
  | .notified ch outcome => ps.modify ch fun p => { p with chan := some outcome }
  | _ => ps

/-- The end of a critical section of process `p`. -/
def finish (s : Cluster) (c : Config) (p : String) (r : Locked) : Cluster :=
  let h := s.hosts p
  { s.setHost p
      { h with
        node := r.node
        disk := h.disk.applyAll r.writes
        kv := r.events.foldl c.applyEvent h.kv } with
    proposals := r.events.foldl notify s.proposals
    history := s.history ++ r.events.map fun e => ⟨p, h.epoch, e⟩ }

/-- Process `p` crashes after these writes and is restarted. -/
def restart (s : Cluster) (c : Config) (p : String) (ws : List DiskWrite) : Cluster :=
  let h := s.hosts p
  s.setHost p (c.boot p (h.disk.applyAll ws) (h.epoch + 1))

end Cluster

/-- Where a call stands once the peer has handled it. -/
def replyPhase {α : Type} : Except RaftError α → CallPhase α
  | .ok reply => .answered reply
  | .error _ => .finished

/-- A critical section that only looks at the node. -/
def look (s : Cluster) (p : String) (around : Cluster) : Option Outcome :=
  some ⟨p, (s.hosts p).node.lock, around⟩

/-- The critical section an operation runs, if it can run at all. -/
def exec (c : Config) (s : Cluster) : Op → Option Outcome
  | .startElection p fails => do
      guard (p ∈ c.addrs)
      let (r, e) := (s.hosts p).node.lock.startElection fails
      some ⟨p, r, { s with elections := s.elections ++
        (e.map fun e => ⟨p, (s.hosts p).epoch, e⟩).toList }⟩
  | .soloElection k => do
      let call ← s.elections[k]?
      guard (call.epoch = (s.hosts call.candidate).epoch ∧ call.election.quorum ≤ 1)
      some ⟨call.candidate, (s.hosts call.candidate).node.lock.soloElection call.election, s⟩
  | .requestVote k peer f => do
      let call ← s.elections[k]?
      let e := call.election
      guard (peer ∈ c.addrs ∧ e.calls peer = .sent)
      let (r, reply) := (s.hosts peer).node.lock.requestVote e.req f
      some ⟨peer, r, s.setElection k { call with
        election := { e with calls := Function.update e.calls peer (replyPhase reply) } }⟩
  | .requestVoteReply k peer fails => do
      let call ← s.elections[k]?
      let e := call.election
      guard (call.epoch = (s.hosts call.candidate).epoch)
      match e.calls peer with
      | .answered reply =>
          let (r, votes) :=
            (s.hosts call.candidate).node.lock.handleRequestVoteReply e reply fails
          some ⟨call.candidate, r, s.setElection k { call with
            election :=
              { e with votes := votes, calls := Function.update e.calls peer .finished } }⟩
      | _ => none
  | .broadcastAppendEntries p => do
      guard (p ∈ c.addrs ∧ (s.hosts p).node.role = .leader)
      look s p (s.send p (s.hosts p).node.buildAppendEntriesRequestsLocked none)
  | .appendEntries k peer f => do
      let b ← s.broadcasts[k]?
      let out ← b.reqs.find? fun o => o.peer = peer
      guard (peer ∈ c.addrs ∧ b.calls peer = .sent)
      let (r, reply) := (s.hosts peer).node.lock.appendEntries out.req f
      some ⟨peer, r, s.setBroadcast k { b with
        calls := Function.update b.calls peer (replyPhase reply) }⟩
  | .appendEntriesReply k peer fails => do
      let b ← s.broadcasts[k]?
      let out ← b.reqs.find? fun o => o.peer = peer
      guard (b.epoch = (s.hosts b.leader).epoch)
      match b.calls peer with
      | .answered reply =>
          let (r, success) :=
            (s.hosts b.leader).node.lock.handleAppendEntriesReply b.term out reply fails
          let s' := s.setBroadcast k { b with calls := Function.update b.calls peer .finished }
          some ⟨b.leader, r, match b.read with
            | some read => if success then s'.ackRead c read b.epoch else s'
            | none => s'⟩
      | _ => none
  | .propose p command => do
      guard (p ∈ c.addrs)
      some ⟨p, (s.hosts p).node.lock.propose command, s⟩
  | .proposeSync p command => do
      guard (p ∈ c.addrs)
      let (r, res) := (s.hosts p).node.lock.proposeSync command s.proposals.length
      some ⟨p, r, match res with
        | .ok (index, term) => { s with proposals := s.proposals ++
            [⟨p, (s.hosts p).epoch, index, term, command, none, false⟩] }
        | .error _ => s⟩
  | .proposeReturn k => do
      let call ← s.proposals[k]?
      let outcome ← call.chan
      guard (call.epoch = (s.hosts call.leader).epoch ∧ call.returned = false)
      some ⟨call.leader, (s.hosts call.leader).node.lock.emit [.returned call.index outcome],
        s.setProposal k { call with returned := true }⟩
  | .proposeCancel k => do
      let call ← s.proposals[k]?
      guard (call.epoch = (s.hosts call.leader).epoch ∧ call.returned = false)
      some ⟨call.leader, (s.hosts call.leader).node.lock.modify fun n =>
          { n with waiters := n.waiters.erase call.index },
        s.setProposal k { call with returned := true }⟩
  | .startRead p => do
      guard (p ∈ c.addrs)
      match (s.hosts p).node.startRead with
      | .ask leader => look s p { s with reads := s.reads ++
          [⟨p, (s.hosts p).epoch, leader, s.history.length, .asking⟩] }
      | _ => look s p s
  | .requestReadIndex r => do
      let call ← s.reads[r]?
      guard (call.phase = .asking ∧ call.leader ∈ c.addrs)
      look s call.leader (s.setRead r (match (s.hosts call.leader).node.requestReadIndex with
        | .error reply => .answered (some reply)
        | .ok (term, readIndex) => .captured (s.hosts call.leader).epoch term readIndex))
  | .confirmLeadership r => do
      let call ← s.reads[r]?
      match call.phase with
      | .captured epoch term readIndex =>
          guard (call.leader ∈ c.addrs ∧ epoch = (s.hosts call.leader).epoch)
          look s call.leader (match (s.hosts call.leader).node.confirmLeadership term with
            | none => s.setRead r
                (.answered ((s.hosts call.leader).node.readIndexFailed term))
            | some reqs =>
                if c.peersOf call.leader = [] then
                  s.setRead r (.answered (some { ok := true, readIndex := readIndex }))
                else
                  (s.setRead r (.confirming epoch term readIndex 1)).send call.leader reqs (some r))
      | _ => none
  | .readIndexFailed r => do
      let call ← s.reads[r]?
      match call.phase with
      | .confirming epoch term _ _ =>
          guard (epoch = (s.hosts call.leader).epoch)
          look s call.leader (s.setRead r
            (.answered ((s.hosts call.leader).node.readIndexFailed term)))
      | _ => none
  | .readIndexReply r => do
      let call ← s.reads[r]?
      guard (call.epoch = (s.hosts call.reader).epoch)
      match call.phase with
      | .answered (some reply) =>
          if reply.ok then look s call.reader (s.setRead r (.waiting reply.readIndex))
          else some ⟨call.reader,
            (s.hosts call.reader).node.lock.modify fun n => n.rememberRedirect reply,
            s.setRead r .unavailable⟩
      | .answered none => look s call.reader (s.setRead r .unavailable)
      | _ => none
  | .readApplied r => do
      let call ← s.reads[r]?
      guard (call.epoch = (s.hosts call.reader).epoch)
      match call.phase with
      | .waiting readIndex =>
          guard (readIndex ≤ (s.hosts call.reader).node.lastApplied)
          look s call.reader (s.setRead r (.done (s.hosts call.reader).node.lastApplied))
      | _ => none
  | .readTimeout r => do
      let call ← s.reads[r]?
      guard (call.epoch = (s.hosts call.reader).epoch)
      match call.phase with
      | .done _ => none
      | _ => look s call.reader (s.setRead r .unavailable)
  | .getStatus p => do
      guard (p ∈ c.addrs ∧ (s.hosts p).node.role = .leader)
      look s p { s with gets := s.gets ++
        [⟨p, (s.hosts p).epoch, s.history.length, (s.hosts p).node.currentTerm, none⟩] }
  | .getValue k key => do
      let call ← s.gets[k]?
      guard (call.epoch = (s.hosts call.server).epoch ∧ call.served = none)
      look s call.server (s.setGet k { call with
        served := some ((s.hosts call.server).kv key, (s.hosts call.server).node.lastApplied) })
  | .confirmCompaction p req => do
      guard (p ∈ c.addrs)
      some ⟨p, ((s.hosts p).node.lock.confirmCompaction req).1, s⟩
  | .pollInfo p => do
      guard (p ∈ c.addrs)
      match (s.hosts p).poll, s.catalog with
      | .idle, some file => look s p (s.setPoll p (.informed file.lastIncludedIndex))
      | _, _ => none
  | .pollDecide p => do
      guard (p ∈ c.addrs)
      match (s.hosts p).poll with
      | .informed target => look s p (s.setPoll p ((s.hosts p).node.pollDecision target))
      | _ => none
  | .pollFetch p => do
      guard (p ∈ c.addrs)
      match (s.hosts p).poll, s.catalog with
      | .catchingUp, some file =>
          look s p (s.setPoll p (if file.lastIncludedIndex = 0 then .idle else .fetched file))
      | .compacting target, some file =>
          look s p (s.setPoll p
            (if file.lastIncludedIndex ≠ target then .idle else .compactFetched file))
      | _, _ => none
  | .pollAbort p => do
      guard (p ∈ c.addrs)
      match (s.hosts p).poll with
      | .catchingUp => look s p (s.setPoll p .idle)
      | .compacting _ => look s p (s.setPoll p .idle)
      | _ => none
  | .pollWriteFile p => do
      guard (p ∈ c.addrs)
      match (s.hosts p).poll with
      | .fetched file => some ⟨p, (s.hosts p).node.lock.write [.writeFile file],
          s.setPoll p (.written file)⟩
      | _ => none
  | .pollRewriteLog p => do
      guard (p ∈ c.addrs)
      match (s.hosts p).poll with
      | .written file => some ⟨p, (s.hosts p).node.lock.write [.rewriteLog [file.anchor]],
          s.setPoll p (.rewritten file)⟩
      | _ => none
  | .pollRestore p => do
      guard (p ∈ c.addrs)
      match (s.hosts p).poll with
      | .rewritten file => look s p (s.setHost p
          { s.hosts p with kv := file.state, poll := .restored file })
      | _ => none
  | .pollAdopt p => do
      guard (p ∈ c.addrs)
      match (s.hosts p).poll with
      | .restored file => some ⟨p, (s.hosts p).node.lock.adoptSnapshot file, s.setPoll p .idle⟩
      | _ => none
  | .pollCompact p => do
      guard (p ∈ c.addrs)
      match (s.hosts p).poll with
      | .compactFetched file => some ⟨p, (s.hosts p).node.lock.pollCompact file,
          s.setPoll p .idle⟩
      | _ => none

/-- What can happen in a cluster. -/
inductive Action where
  /-- A critical section runs to its end. -/
  | run (op : Op)
  /-- A process crashes between two critical sections and is restarted. -/
  | crash (p : String)
  /-- A process crashes in the middle of a critical section, after `k` of its disk
  writes, and is restarted.  Whatever it would have answered is lost. -/
  | crashDuring (op : Op) (k : Nat)
  /-- The catalog offers another snapshot. -/
  | publish (file : File)

/-- No `SaveState` call of the step fails. -/
def Action.NoFaults : Action → Prop
  | .run op | .crashDuring op _ => op.NoFaults
  | _ => True

instance (a : Action) : Decidable a.NoFaults := by
  cases a <;> unfold Action.NoFaults <;> infer_instance

/-- One step of the cluster, if it is possible. -/
def step (c : Config) (s : Cluster) : Action → Option Cluster
  | .run op => (exec c s op).map fun o => o.around.finish c o.host o.result
  | .crash p => if p ∈ c.addrs then some (s.restart c p []) else none
  | .crashDuring op k => (exec c s op).map fun o =>
      s.restart c o.host (o.result.writes.take k)
  | .publish file => some { s with catalog := some file }

/-- Execute a list of actions. -/
def run (c : Config) (s : Cluster) : List Action → Option Cluster
  | [] => some s
  | a :: as => (step c s a).bind fun s' => run c s' as

theorem run_eq_exec (c : Config) (s : Cluster) (as : List Action) :
    run c s as = Runs.exec (step c) s as := by
  induction as generalizing s with
  | nil => rfl
  | cons a as ih =>
      unfold run Runs.exec
      cases step c s a with
      | none => rfl
      | some s' => exact ih s'

/-- A run that is found to end in a state with `P` does. -/
theorem exists_of_run {c : Config} {s : Cluster} {as : List Action} (P : Cluster → Prop)
    [DecidablePred P] (h : (run c s as).any (fun s' => decide (P s')) = true) :
    ∃ s', run c s as = some s' ∧ P s' := by
  obtain ⟨s', hs', hP⟩ := (Option.any_eq_true _ _).1 h
  exact ⟨s', hs', of_decide_eq_true hP⟩

/-! ## A small cluster -/

/-- Three members. -/
def trio : Config where
  addrs := ["a", "b", "c"]
  idOf p := p
  logCapacityEntries := 1000
  decode := decodePut
  nodup := by decide
  ids_ne := by decide
  ids_inj := by decide

/-- Node `p` wins its election, the `k`-th of the run, with the vote of `q`. -/
def winElection (p q : String) (k : Nat) : List Action :=
  [.run (.startElection p false), .run (.requestVote k q noFaults),
    .run (.requestVoteReply k q false)]

/-- The leader `p` sends a round of requests, the `k`-th of the run, and `q` answers. -/
def replicate (p q : String) (k : Nat) : List Action :=
  [.run (.broadcastAppendEntries p), .run (.appendEntries k q noFaults),
    .run (.appendEntriesReply k q false)]

/-- The poll loop of `p` finds a snapshot ahead of it and fetches it. -/
def fetchSnapshot (p : String) : List Action :=
  [.run (.pollInfo p), .run (.pollDecide p), .run (.pollFetch p)]

/-- The rest of `catchUpFromSnapshot`. -/
def adoptFetched (p : String) : List Action :=
  [.run (.pollWriteFile p), .run (.pollRewriteLog p), .run (.pollRestore p), .run (.pollAdopt p)]

/-- The snapshot of two entries of term 1. -/
def snapshotOfTwo : File :=
  ⟨(KVMap.apply (fun _ => none) ⟨.put, "x", "1"⟩).apply ⟨.put, "x", "2"⟩, 2, 1⟩

end B5KvStore
