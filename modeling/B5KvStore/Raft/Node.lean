import B5KvStore.Raft.Types

/-!
# The state of a node and what every handler shares

`Node` is the part of the Go struct that decides what the node does; timers and
log lines are left out.  Handlers run with the node's lock held, and what they do
is a `Locked`: the node, the disk writes made so far, and the events another
component can observe — calls of `ApplyFn`, values sent to waiting proposals,
elections won and commit indices moved.  The functions keep the names of the source,
`…Locked` included.

A `SaveState` call may fail; the handlers take its outcome as an argument
(`SaveFaults`), and a failed call leaves the disk alone.
-/

namespace B5KvStore

/-- The Go map `map[string]uint64`. -/
abbrev IndexMap := AList fun _ : String => Nat

/-- `map[key]`, which is `0` for a missing key. -/
def IndexMap.at (m : IndexMap) (p : String) : Nat := (m.lookup p).getD 0

/-- `Node`. -/
structure Node where
  id : String
  address : String
  peers : List String
  logCapacityEntries : Nat
  currentTerm : Nat
  votedFor : String
  log : List LogEntry
  logOffset : Nat
  /-- The index in the name of the current snapshot file, if there is one. -/
  currentSnapshotPath : Option Nat
  role : Role
  commitIndex : Nat
  lastApplied : Nat
  nextIndex : IndexMap
  matchIndex : IndexMap
  currentLeader : String
  /-- How many times the channel readers park on has been closed and replaced. -/
  applyWake : Nat
  /-- The channel registered for an index, by the number of its proposal. -/
  waiters : AList fun _ : Nat => Nat
  deriving DecidableEq

/-- What other components observe of a node. -/
inductive NodeEvent where
  /-- `BECAME_LEADER`, with the new leader. -/
  | becameLeader (leader : Node)
  /-- A leader has moved its commit index. -/
  | advancedCommit (leader : Node)
  /-- A call of `ApplyFn`. -/
  | applied (msg : ApplyMsg)
  /-- A value sent on the channel of a waiting `ProposeSync`; `none` is `nil`. -/
  | notified (waiter : Nat) (outcome : Option RaftError)
  /-- `ProposeSync` returned this for the entry at an index; `none` is `nil`. -/
  | returned (index : Nat) (outcome : Option RaftError)
  deriving DecidableEq

/-- `quorumSize`. -/
def quorumSize (n : Nat) : Nat := n / 2 + 1

/-- `min64`. -/
def min64 (a b : Nat) : Nat := if a < b then a else b

namespace Node

/-- `lastLogIndexLocked`. -/
def lastLogIndexLocked (n : Node) : Nat := n.logOffset + n.log.length

/-- `lastLogTermLocked`. -/
def lastLogTermLocked (n : Node) : Nat :=
  match n.log.getLast? with
  | none => 0
  | some e => e.term

/-- `entryAtLocked`: the entry at an index, if the log still holds it. -/
def entryAtLocked (n : Node) (index : Nat) : Option LogEntry :=
  if index ≤ n.logOffset ∨ n.logOffset + n.log.length < index then none
  else n.log[index - n.logOffset - 1]?

end Node

/-- What a critical section has done so far. -/
structure Locked where
  node : Node
  writes : List DiskWrite
  events : List NodeEvent

/-- A critical section that has done nothing yet. -/
def Node.lock (n : Node) : Locked := ⟨n, [], []⟩

/-- Which `SaveState` calls of a handler fail: the one that records an observed
term, and the one that records a vote. -/
structure SaveFaults where
  observe : Bool
  vote : Bool
  deriving DecidableEq, Repr

/-- No call fails. -/
def noFaults : SaveFaults := ⟨false, false⟩

namespace Locked

/-- Change the node. -/
def modify (s : Locked) (f : Node → Node) : Locked := { s with node := f s.node }

/-- Write to disk. -/
def write (s : Locked) (ws : List DiskWrite) : Locked := { s with writes := s.writes ++ ws }

/-- Let others observe something. -/
def emit (s : Locked) (es : List NodeEvent) : Locked := { s with events := s.events ++ es }

@[simp] theorem node_modify (s : Locked) (f : Node → Node) : (s.modify f).node = f s.node := rfl
@[simp] theorem writes_modify (s : Locked) (f : Node → Node) :
    (s.modify f).writes = s.writes := rfl
@[simp] theorem events_modify (s : Locked) (f : Node → Node) :
    (s.modify f).events = s.events := rfl
@[simp] theorem node_write (s : Locked) (ws : List DiskWrite) : (s.write ws).node = s.node := rfl
@[simp] theorem writes_write (s : Locked) (ws : List DiskWrite) :
    (s.write ws).writes = s.writes ++ ws := rfl
@[simp] theorem events_write (s : Locked) (ws : List DiskWrite) :
    (s.write ws).events = s.events := rfl
@[simp] theorem node_emit (s : Locked) (es : List NodeEvent) : (s.emit es).node = s.node := rfl
@[simp] theorem writes_emit (s : Locked) (es : List NodeEvent) :
    (s.emit es).writes = s.writes := rfl
@[simp] theorem events_emit (s : Locked) (es : List NodeEvent) :
    (s.emit es).events = s.events ++ es := rfl

/-- `persistStateLocked`: the error, if the call failed. -/
def persistStateLocked (s : Locked) (fails : Bool) : Locked × Option RaftError :=
  if fails then (s, some .saveState)
  else (s.write [.saveState s.node.currentTerm s.node.votedFor], none)

/-- `abortPendingWaitersLocked`. -/
def abortPendingWaitersLocked (s : Locked) (err : RaftError) : Locked :=
  (s.emit (s.node.waiters.entries.map fun w => .notified w.2 (some err))).modify
    fun n => { n with waiters := ∅ }

/-- `setRoleLocked`. -/
def setRoleLocked (s : Locked) (r : Role) : Locked :=
  let s := if s.node.role = .leader ∧ r ≠ .leader then s.abortPendingWaitersLocked .leadershipLost
    else s
  s.modify fun n => { n with role := r }

/-- `observeTermLocked`: the error of `persistStateLocked`, which leaves the new
term in memory. -/
def observeTermLocked (s : Locked) (term : Nat) (fails : Bool) : Locked × Option RaftError :=
  if term ≤ s.node.currentTerm then (s, none)
  else
    let s := s.modify fun n => { n with currentTerm := term, votedFor := "" }
    (s.setRoleLocked .follower).persistStateLocked fails

/-- One round of the loop of `applyCommittedLocked` past the lookup: apply the
entry and notify whoever waits for its index. -/
def applyEntryLocked (s : Locked) (e : LogEntry) : Locked :=
  let s := s.emit [.applied ⟨e.index, e.term, e.command⟩]
  match s.node.waiters.lookup e.index with
  | some ch => (s.emit [.notified ch none]).modify fun n =>
      { n with waiters := n.waiters.erase e.index }
  | none => s

/-- The loop of `applyCommittedLocked`; `fuel` counts the entries to go. -/
def applyLoop : Nat → Locked → Locked
  | 0, s => s
  | fuel + 1, s =>
      if s.node.lastApplied < s.node.commitIndex then
        let s := s.modify fun n => { n with lastApplied := n.lastApplied + 1 }
        match s.node.entryAtLocked s.node.lastApplied with
        | none => s
        | some e => applyLoop fuel (s.applyEntryLocked e)
      else s

/-- `applyCommittedLocked`. -/
def applyCommittedLocked (s : Locked) : Locked :=
  let s' := applyLoop (s.node.commitIndex - s.node.lastApplied) s
  if s.node.lastApplied < s.node.commitIndex then
    s'.modify fun n => { n with applyWake := n.applyWake + 1 }
  else s'

end Locked

/-- `defaultLogCapacityEntries`. -/
def defaultLogCapacityEntries : Nat := 1000

/-- `NewNode` on a data directory, with the local snapshot found there. -/
def newNode (id address : String) (peers : List String) (logCapacityEntries : Nat) (d : Disk) :
    Node :=
  let st := d.loadState
  -- a snapshot of index 0 is treated like none
  let base : List LogEntry × Nat × Nat × Option Nat :=
    match d.latest.filter (0 < ·.lastIncludedIndex) with
    | some f =>
        let anchor : LogEntry := ⟨f.lastIncludedTerm, f.lastIncludedIndex, []⟩
        (anchor :: d.log.filter (anchor.index < ·.index), anchor.index - 1, anchor.index,
          some anchor.index)
    | none =>
        match d.log with
        | [] => ([], 0, 0, none)
        | e :: _ => (d.log, e.index - 1, if 0 < e.index - 1 then e.index - 1 + 1 else 0, none)
  { id := id, address := address, peers := peers
    logCapacityEntries := if logCapacityEntries = 0 then defaultLogCapacityEntries
      else logCapacityEntries
    currentTerm := st.1, votedFor := st.2
    log := base.1, logOffset := base.2.1, currentSnapshotPath := base.2.2.2
    role := .follower, commitIndex := base.2.2.1, lastApplied := base.2.2.1
    nextIndex := ∅, matchIndex := ∅, currentLeader := "", applyWake := 0, waiters := ∅ }

end B5KvStore
