import Mathlib.Algebra.Group.Nat.Defs
import B5KvStore.Lib.Runs
import B5KvStore.Raft.Operations
import B5KvStore.Raft.Specs

/-!
# No access out of range

The operations once more, as the machine executes them.  Terms and indices are `uint64`, so an
addition wraps around at `2 ^ 64`, and the run-time checks of the language stop a function at the
first access out of range.  A subtraction below zero, which would wrap around silently, is stopped
here as well.

The last index a `uint64` can hold is one too many: the loop that collects the entries of a
request runs while its variable is at most the last index of the log, and from the largest
`uint64` the variable goes on at `0`, where there is no entry.

* `word`, `Fault` — wrap-around, and what stops a function.
* `Node.performChecked` — one operation as the machine executes it.
* `Node.Clear` — no index is counted past the largest one, and no requests are built at it.
* `Node.Fits.performChecked` — one such operation is not stopped and keeps the log in order.
* `panic_free` — any sequence of operations, from a well-formed directory on.
-/

namespace B5KvStore

/-! ## Arithmetic of the machine -/

/-- What is left of a number in a `uint64`. -/
def word (a : Nat) : Nat := a % 2 ^ 64

/-- What stops a function. -/
inductive Fault where
  /-- A pointer that is `nil` is followed. -/
  | nilPointer
  /-- An index or a slice bound exceeds the length. -/
  | outOfRange
  /-- A subtraction of unsigned numbers goes below zero. -/
  | underflow
  | divideByZero
  /-- No panic: a loop has used up the rounds it is given. -/
  | running
  deriving DecidableEq, Repr

/-- A subtraction of unsigned numbers. -/
def checkedSub (a b : Nat) : Except Fault Nat :=
  if b ≤ a then .ok (a - b) else .error .underflow

/-- A division. -/
def checkedDiv (a b : Nat) : Except Fault Nat :=
  if b = 0 then .error .divideByZero else .ok (a / b)

section Slices

variable {α : Type}

/-- `l[i]`. -/
def elementAt (l : List α) (i : Nat) : Except Fault α :=
  match l[i]? with
  | some x => .ok x
  | none => .error .outOfRange

/-- `l[:i]`. -/
def sliceTo (l : List α) (i : Nat) : Except Fault (List α) :=
  if i ≤ l.length then .ok (l.take i) else .error .outOfRange

/-- `l[i:]`. -/
def sliceFrom (l : List α) (i : Nat) : Except Fault (List α) :=
  if i ≤ l.length then .ok (l.drop i) else .error .outOfRange

/-- What a pointer points at. -/
def follow : Option α → Except Fault α
  | some x => .ok x
  | none => .error .nilPointer

theorem elementAt_eq {l : List α} {i : Nat} {x : α} (h : l[i]? = some x) :
    elementAt l i = .ok x := by
  unfold elementAt
  rw [h]

theorem sliceTo_eq {l : List α} {i : Nat} (h : i ≤ l.length) : sliceTo l i = .ok (l.take i) :=
  if_pos h

theorem sliceFrom_eq {l : List α} {i : Nat} (h : i ≤ l.length) :
    sliceFrom l i = .ok (l.drop i) := if_pos h

end Slices

theorem word_lt (a : Nat) : word a < 2 ^ 64 := Nat.mod_lt a (by decide)

theorem word_eq {a : Nat} (h : a < 2 ^ 64) : word a = a := Nat.mod_eq_of_lt h

theorem checkedSub_eq {a b : Nat} (h : b ≤ a) : checkedSub a b = .ok (a - b) := if_pos h

theorem checkedDiv_eq {a b : Nat} (h : 0 < b) : checkedDiv a b = .ok (a / b) :=
  if_neg (by omega)

@[simp] theorem ok_bind {α β : Type} (x : α) (f : α → Except Fault β) :
    ((.ok x : Except Fault α) >>= f) = f x := rfl

/-- What is computed from the result of a function stops nothing. -/
theorem bind_pure_ok {α β : Type} {x : Except Fault α} {f : α → β} {P : β → Prop}
    (h : ∃ a, x = .ok a ∧ P (f a)) : ∃ b, (x >>= fun a => pure (f a)) = .ok b ∧ P b := by
  obtain ⟨a, rfl, ha⟩ := h
  exact ⟨f a, rfl, ha⟩

/-! ## The functions of a node -/

namespace Node

/-- `lastLogIndexLocked`. -/
def lastLogIndexChecked (n : Node) : Nat := word (n.logOffset + n.log.length)

/-- `entryAtLocked`; `none` is `nil`. -/
def entryAtChecked (n : Node) (index : Nat) : Except Fault (Option LogEntry) :=
  if index ≤ n.logOffset ∨ n.lastLogIndexChecked < index then .ok none
  else do
    let i ← checkedSub index n.logOffset
    let i ← checkedSub i 1
    let e ← elementAt n.log i
    return some e

/-- The consistency check of `AppendEntries`. -/
def checkPrevChecked (n : Node) (req : AppendEntriesRequest) :
    Except Fault (Option AppendEntriesReply) :=
  if req.prevLogIndex ≤ n.logOffset then .ok none
  else do
    match ← n.entryAtChecked req.prevLogIndex with
    | none => return (some
        { term := n.currentTerm, success := false
          conflictIndex := word (n.lastLogIndexChecked + 1), conflictTerm := 0 })
    | some entry =>
        if entry.term ≠ req.prevLogTerm then return (some
          { term := n.currentTerm, success := false
            conflictIndex := word (n.firstIndexOfTermLocked entry.term)
            conflictTerm := entry.term })
        else return none

/-- The loop of `buildAppendEntriesRequestsLocked` over the indices from `idx` on, for so many
rounds.  It follows the pointers `entryAtLocked` returns without looking whether they are
`nil`. -/
def collectChecked (n : Node) : Nat → Nat → List LogEntry → Except Fault (List LogEntry)
  | 0, _, _ => .error .running
  | rounds + 1, idx, entries =>
      if idx ≤ n.lastLogIndexChecked then do
        let found ← n.entryAtChecked idx
        let e ← follow found
        n.collectChecked rounds (word (idx + 1)) (entries ++ [e])
      else .ok entries

/-- The request `buildAppendEntriesRequestsLocked` builds for one peer. -/
def buildAppendEntriesRequestChecked (n : Node) (p : String) :
    Except Fault OutgoingAppendEntries := do
  let next := if n.nextIndex.at p ≤ n.logOffset then word (n.logOffset + 1) else n.nextIndex.at p
  let prevIndex ← checkedSub next 1
  let prev ← if 0 < prevIndex then n.entryAtChecked prevIndex else .ok none
  let prevTerm := match prev with
    | some e => e.term
    | none => 0
  -- a round for each index up to the last, and one to look whether the loop is over
  let entries ← n.collectChecked (n.lastLogIndexChecked + 1 - next + 1) next []
  return { peer := p
           req := ⟨n.currentTerm, n.address, prevIndex, prevTerm, entries, n.commitIndex⟩
           prevIndex := prevIndex
           numEntries := entries.length }

/-- `buildAppendEntriesRequestsLocked`. -/
def buildAppendEntriesRequestsChecked (n : Node) : Except Fault (List OutgoingAppendEntries) :=
  n.peers.mapM n.buildAppendEntriesRequestChecked

/-- `GetLogStatus`. -/
def getLogStatusChecked (n : Node) : Except Fault LogStatusReply := do
  let total := word n.log.length
  let occupancy ← checkedDiv (word (total * 100)) n.logCapacityEntries
  return { totalEntries := total
           occupancyPercent := occupancy
           firstIndex := if 0 < total then word (n.logOffset + 1) else 0
           lastIndex := n.lastLogIndexChecked }

/-- The loop of `StreamLogRange`, for so many rounds. -/
def streamChecked (n : Node) (toIndex : Nat) :
    Nat → Nat → List LogEntry → Except Fault (List LogEntry)
  | 0, _, _ => .error .running
  | rounds + 1, idx, entries =>
      if idx ≤ toIndex then do
        let found ← n.entryAtChecked idx
        n.streamChecked toIndex rounds (word (idx + 1)) (entries ++ found.toList)
      else .ok entries

/-- `StreamLogRange`. -/
def streamLogRangeChecked (n : Node) (fromIndex toIndex : Nat) : Except Fault (List LogEntry) :=
  n.streamChecked toIndex (toIndex + 1 - fromIndex + 1) fromIndex []

/-- A follower is known to hold the log up to `newMatch`. -/
def recordMatchChecked (n : Node) (peer : String) (newMatch : Nat) : Node :=
  { n with
    matchIndex := if n.matchIndex.at peer < newMatch then n.matchIndex.insert peer newMatch
      else n.matchIndex
    nextIndex := if n.nextIndex.at peer < word (newMatch + 1) then
        n.nextIndex.insert peer (word (newMatch + 1))
      else n.nextIndex }

/-- Where `handleAppendEntriesReplyLocked` moves `nextIndex` after a rejection. -/
def backOffChecked (n : Node) (reply : AppendEntriesReply) : Nat :=
  let next :=
    if reply.conflictTerm ≠ 0 then
      let lastIdx := word (n.lastIndexOfTermLocked reply.conflictTerm)
      if 0 < lastIdx then word (lastIdx + 1) else reply.conflictIndex
    else reply.conflictIndex
  if next < 1 then 1 else next

end Node

/-! ## The critical sections -/

namespace Locked

/-- `RequestVote` once the term of the request has been observed. -/
def castVoteChecked (s : Locked) (req : RequestVoteRequest) (fails : Bool) :
    Locked × Except RaftError RequestVoteReply :=
  if req.term < s.node.currentTerm then (s, .ok ⟨s.node.currentTerm, false⟩)
  else if (s.node.votedFor = "" ∨ s.node.votedFor = req.candidateId) ∧
      isLogAtLeastAsUpToDate req.lastLogTerm req.lastLogIndex
        s.node.lastLogTermLocked s.node.lastLogIndexChecked then
    match (s.modify fun n => { n with votedFor := req.candidateId }).persistStateLocked fails with
    | (s, some err) => (s, .error err)
    | (s, none) => (s, .ok ⟨s.node.currentTerm, true⟩)
  else (s, .ok ⟨s.node.currentTerm, false⟩)

/-- `RequestVote`. -/
def requestVoteChecked (s : Locked) (req : RequestVoteRequest) (f : SaveFaults) :
    Locked × Except RaftError RequestVoteReply :=
  match s.observeRequest req.term f.observe with
  | (s, some err) => (s, .error err)
  | (s, none) => s.castVoteChecked req f.vote

/-- `becomeLeaderLocked`, without the broadcast it starts. -/
def becomeLeaderChecked (s : Locked) : Locked :=
  if s.node.role ≠ .candidate then s
  else
    let s := s.modify fun n =>
      { n with
        role := .leader
        currentLeader := n.address
        nextIndex := n.peers.foldl (fun m p => m.insert p (word (n.lastLogIndexChecked + 1))) ∅
        matchIndex := n.peers.foldl (fun m p => m.insert p 0) ∅ }
    s.emit [.becameLeader s.node]

/-- `startElection` up to the point where it releases the lock. -/
def startElectionChecked (s : Locked) (fails : Bool) : Locked × Option Election :=
  if s.node.role = .leader then (s, none)
  else
    let s := (s.setRoleLocked .candidate).modify fun n =>
      { n with currentTerm := word (n.currentTerm + 1), votedFor := n.id }
    match s.persistStateLocked fails with
    | (s, some _) => (s, none)
    | (s, none) =>
        let quorum := quorumSize (s.node.peers.length + 1)
        (s, some
          { req := ⟨s.node.currentTerm, s.node.id, s.node.lastLogIndexChecked,
              s.node.lastLogTermLocked⟩
            quorum := quorum
            votes := 1
            calls := fun p => if p ∈ s.node.peers ∧ 1 < quorum then .sent else .finished })

/-- The second critical section of `startElection`, for a quorum of one. -/
def soloElectionChecked (s : Locked) (e : Election) : Locked :=
  if s.node.role = .candidate ∧ s.node.currentTerm = e.req.term then s.becomeLeaderChecked else s

/-- What a goroutine of `startElection` does with the reply it gets. -/
def handleRequestVoteReplyChecked (s : Locked) (e : Election) (reply : RequestVoteReply)
    (fails : Bool) : Locked × Nat :=
  if s.node.currentTerm < reply.term then ((s.observeTermLocked reply.term fails).1, e.votes)
  else if s.node.role ≠ .candidate ∨ s.node.currentTerm ≠ e.req.term then (s, e.votes)
  else
    let votes := if reply.voteGranted then e.votes + 1 else e.votes
    (if reply.voteGranted ∧ e.quorum ≤ votes then s.becomeLeaderChecked else s, votes)

/-- The loop of `applyCommittedLocked`; `fuel` counts the entries to go.  Below the commit index
the counter does not wrap around. -/
def applyLoopChecked : Nat → Locked → Except Fault Locked
  | 0, s => .ok s
  | fuel + 1, s =>
      if s.node.lastApplied < s.node.commitIndex then do
        let s := s.modify fun n => { n with lastApplied := word (n.lastApplied + 1) }
        match ← s.node.entryAtChecked s.node.lastApplied with
        | none => return s
        | some e => applyLoopChecked fuel (s.applyEntryLocked e)
      else .ok s

/-- `applyCommittedLocked`. -/
def applyCommittedChecked (s : Locked) : Except Fault Locked := do
  let s' ← applyLoopChecked (s.node.commitIndex - s.node.lastApplied) s
  if s.node.lastApplied < s.node.commitIndex then
    return s'.modify fun n => { n with applyWake := n.applyWake + 1 }
  else return s'

/-- The first loop of `mergeEntriesLocked`. -/
def skipCompactedChecked (logOffset : Nat) : Nat → List LogEntry → Nat × List LogEntry
  | idx, [] => (idx, [])
  | idx, e :: es =>
      if idx ≤ logOffset then skipCompactedChecked logOffset (word (idx + 1)) es
      else (idx, e :: es)

/-- The second loop of `mergeEntriesLocked`. -/
def mergeLoopChecked (s : Locked) : Nat → List LogEntry → Except Fault (Locked × List LogEntry)
  | _, [] => .ok (s, [])
  | idx, e :: es => do
      match ← s.node.entryAtChecked idx with
      | none => return (s, e :: es)
      | some existing =>
          if existing.term ≠ e.term then
            let i ← checkedSub idx s.node.logOffset
            let i ← checkedSub i 1
            let log ← sliceTo s.node.log i
            return ((s.write [.truncateLogFrom idx]).modify fun n => { n with log := log },
              e :: es)
          else mergeLoopChecked s (word (idx + 1)) es

/-- `mergeEntriesLocked`. -/
def mergeEntriesChecked (s : Locked) (prevLogIndex : Nat) (newEntries : List LogEntry) :
    Except Fault Locked := do
  let start := skipCompactedChecked s.node.logOffset (word (prevLogIndex + 1)) newEntries
  let merged ← s.mergeLoopChecked start.1 start.2
  if merged.2 = [] then return merged.1 else return merged.1.appendLog merged.2

/-- What an accepted `AppendEntries` does to commit index and state machine. -/
def followCommitChecked (s : Locked) (leaderCommit : Nat) : Except Fault Locked :=
  if s.node.commitIndex < leaderCommit then
    (s.modify fun n =>
      { n with commitIndex := min64 leaderCommit n.lastLogIndexChecked }).applyCommittedChecked
  else .ok s

/-- `AppendEntries` once the term of the request has been observed. -/
def acceptEntriesChecked (s : Locked) (req : AppendEntriesRequest) :
    Except Fault (Locked × AppendEntriesReply) :=
  if req.term < s.node.currentTerm then
    .ok (s, { term := s.node.currentTerm, success := false })
  else do
    let s := (s.setRoleLocked .follower).modify fun n => { n with currentLeader := req.leaderId }
    match ← s.node.checkPrevChecked req with
    | some rejection => return (s, rejection)
    | none =>
        let s ← if req.entries = [] then .ok s
          else s.mergeEntriesChecked req.prevLogIndex req.entries
        let s' ← s.followCommitChecked req.leaderCommit
        return (s', { term := s.node.currentTerm, success := true })

/-- `AppendEntries`. -/
def appendEntriesChecked (s : Locked) (req : AppendEntriesRequest) (f : SaveFaults) :
    Except Fault (Locked × Except RaftError AppendEntriesReply) :=
  match s.observeRequest req.term f.observe with
  | (s, some err) => .ok (s, .error err)
  | (s, none) => do
      let r ← s.acceptEntriesChecked req
      return (r.1, .ok r.2)

/-- `appendLocalLocked`. -/
def appendLocalChecked (s : Locked) (command : List UInt8) : Locked :=
  s.appendLog [⟨s.node.currentTerm, word (s.node.lastLogIndexChecked + 1), command⟩]

/-- `Propose`. -/
def proposeChecked (s : Locked) (command : List UInt8) : Locked :=
  if s.node.role ≠ .leader then s else s.appendLocalChecked command

/-- `ProposeSync` up to the point where it waits on its channel. -/
def proposeSyncChecked (s : Locked) (command : List UInt8) (ch : Nat) :
    Locked × Except RaftError (Nat × Nat) :=
  if s.node.role ≠ .leader then (s, .error .notLeader)
  else
    let index := word (s.node.lastLogIndexChecked + 1)
    ((s.appendLocalChecked command).modify fun n =>
      { n with waiters := n.waiters.insert index ch }, .ok (index, s.node.currentTerm))

/-- The loop of `maybeAdvanceCommitIndexLocked`. -/
def advanceLoopChecked (s : Locked) : Nat → Except Fault Locked
  | 0 => .ok s
  | N + 1 =>
      if s.node.commitIndex < N + 1 then do
        let entry ← s.node.entryAtChecked (N + 1)
        if entry.map LogEntry.term = some s.node.currentTerm ∧
            quorumSize (s.node.peers.length + 1) ≤ matchCount s.node (N + 1) then
          let s := s.modify fun n => { n with commitIndex := N + 1 }
          (s.emit [.advancedCommit s.node]).applyCommittedChecked
        else advanceLoopChecked s N
      else .ok s

/-- `handleAppendEntriesReplyLocked`. -/
def handleAppendEntriesReplyLockedChecked (s : Locked) (peer : String) (sentPrevLogIndex : Nat)
    (numEntriesSent : Nat) (reply : AppendEntriesReply) (fails : Bool) : Except Fault Locked :=
  if s.node.currentTerm < reply.term then .ok (s.observeTermLocked reply.term fails).1
  else if reply.success then
    let s := s.modify fun n =>
      n.recordMatchChecked peer (word (sentPrevLogIndex + numEntriesSent))
    s.advanceLoopChecked s.node.lastLogIndexChecked
  else .ok (s.modify fun n =>
    { n with nextIndex := n.nextIndex.insert peer (n.backOffChecked reply) })

/-- `sendAppendEntriesAndHandle` from the reply on. -/
def handleAppendEntriesReplyChecked (s : Locked) (term : Nat) (r : OutgoingAppendEntries)
    (reply : AppendEntriesReply) (fails : Bool) : Except Fault (Locked × Bool) :=
  if s.node.role ≠ .leader ∨ s.node.currentTerm ≠ term then .ok (s, false)
  else do
    let s ← s.handleAppendEntriesReplyLockedChecked r.peer r.prevIndex r.numEntries reply fails
    return (s, reply.term = term ∧ reply.success)

/-- `compactLocked`. -/
def compactChecked (s : Locked) (file : File) :
    Except Fault (Locked × Option CompactionError) := do
  match ← s.node.entryAtChecked file.lastIncludedIndex with
  | none => return (s, some (.notPresent file.lastIncludedIndex (word (s.node.logOffset + 1))
      s.node.lastLogIndexChecked))
  | some _ =>
      let s := (s.write [.writeFile file]).replaceSnapshotFileLocked file.lastIncludedIndex
      let pos ← checkedSub file.lastIncludedIndex s.node.logOffset
      let suffix ← sliceFrom s.node.log pos
      let offset ← checkedSub file.lastIncludedIndex 1
      return ((s.write [.rewriteLog (file.anchor :: suffix)]).modify fun n =>
        { n with log := file.anchor :: suffix, logOffset := offset }, none)

/-- `ConfirmCompaction`. -/
def confirmCompactionChecked (s : Locked) (req : CompactionAck) :
    Except Fault (Locked × Option CompactionError) :=
  if req.truncatedUpToIndex ≤ word (s.node.logOffset + 1) then .ok (s, none)
  else if s.node.lastApplied < req.truncatedUpToIndex then
    .ok (s, some (.notApplied req.truncatedUpToIndex s.node.lastApplied))
  else
    match req.stateMachineSnapshot with
    | .error cause => .ok (s, some (.decode cause))
    | .ok file =>
        if file.lastIncludedIndex ≠ req.truncatedUpToIndex then
          .ok (s, some (.mismatch file.lastIncludedIndex req.truncatedUpToIndex))
        else s.compactChecked file

/-- The locked part of the local-compaction branch of `snapshotPollOnce`. -/
def pollCompactChecked (s : Locked) (file : File) : Except Fault Locked :=
  if word (s.node.logOffset + 1) < file.lastIncludedIndex ∧
      file.lastIncludedIndex ≤ s.node.lastApplied then do
    let r ← s.compactChecked file
    return r.1
  else .ok s

/-- `catchUpFromSnapshot` from the fetched file on. -/
def catchUpFromSnapshotChecked (s : Locked) (file : File) : Except Fault Locked :=
  if file.lastIncludedIndex = 0 then .ok s
  else do
    let s := (s.write [.writeFile file]).write [.rewriteLog [file.anchor]]
    let offset ← checkedSub file.lastIncludedIndex 1
    return (s.replaceSnapshotFileLocked file.lastIncludedIndex).modify fun n =>
      { n with
        log := [file.anchor]
        logOffset := offset
        commitIndex := if n.commitIndex < file.lastIncludedIndex then file.lastIncludedIndex
          else n.commitIndex
        lastApplied := if n.lastApplied < file.lastIncludedIndex then file.lastIncludedIndex
          else n.lastApplied }

end Locked

/-- What `NewNode` takes from `log.dat` and the local snapshot: the log, its offset, the first
value of `lastApplied`, and the path of the snapshot. -/
def Disk.baseChecked (d : Disk) : Except Fault (List LogEntry × Nat × Nat × Option Nat) :=
  match d.latest.filter (0 < ·.lastIncludedIndex) with
  | some f => do
      let offset ← checkedSub f.lastIncludedIndex 1
      return (f.anchor :: d.log.filter (f.lastIncludedIndex < ·.index), offset,
        f.lastIncludedIndex, some f.lastIncludedIndex)
  | none =>
      match d.log with
      | [] => .ok ([], 0, 0, none)
      | e :: _ => do
          let offset ← checkedSub e.index 1
          return (d.log, offset, if 0 < offset then word (offset + 1) else 0, none)

/-- `NewNode` on a data directory, with the local snapshot found there. -/
def newNodeChecked (id address : String) (peers : List String) (logCapacityEntries : Nat)
    (d : Disk) : Except Fault Node := do
  let st := d.loadState
  let base ← d.baseChecked
  return { id := id, address := address, peers := peers
           logCapacityEntries := if logCapacityEntries = 0 then defaultLogCapacityEntries
             else logCapacityEntries
           currentTerm := st.1, votedFor := st.2
           log := base.1, logOffset := base.2.1, currentSnapshotPath := base.2.2.2
           role := .follower, commitIndex := base.2.2.1, lastApplied := base.2.2.1
           nextIndex := ∅, matchIndex := ∅, currentLeader := "", applyWake := 0, waiters := ∅ }

/-- The node after an operation. -/
def Node.performChecked (n : Node) : Operation → Except Fault Node
  | .appendEntries req f => do
      let r ← n.lock.appendEntriesChecked req f
      return r.1.node
  | .requestVote req f => .ok (n.lock.requestVoteChecked req f).1.node
  | .startElection fails => .ok (n.lock.startElectionChecked fails).1.node
  | .soloElection e => .ok (n.lock.soloElectionChecked e).node
  | .handleRequestVoteReply e reply fails =>
      .ok (n.lock.handleRequestVoteReplyChecked e reply fails).1.node
  | .broadcastAppendEntries =>
      if n.role ≠ .leader then .ok n
      else do
        let _ ← n.buildAppendEntriesRequestsChecked
        return n
  | .handleAppendEntriesReply term out reply fails => do
      let r ← n.lock.handleAppendEntriesReplyChecked term out reply fails
      return r.1.node
  | .propose command => .ok (n.lock.proposeChecked command).node
  | .proposeSync command ch => .ok (n.lock.proposeSyncChecked command ch).1.node
  | .getLogStatus => do
      let _ ← n.getLogStatusChecked
      return n
  | .streamLogRange fromIndex toIndex => do
      let _ ← n.streamLogRangeChecked fromIndex toIndex
      return n
  | .confirmCompaction req => do
      let r ← n.lock.confirmCompactionChecked req
      return r.1.node
  | .pollCompact file => do
      let s ← n.lock.pollCompactChecked file
      return s.node
  | .catchUpFromSnapshot file => do
      let s ← n.lock.catchUpFromSnapshotChecked file
      return s.node

/-! ## The condition and the invariant -/

/-- The numbers of an operation are those of the source: the entries of a request carry the
indices after `prevLogIndex`, and the index of a snapshot is a `uint64`. -/
def Operation.Valid : Operation → Prop
  | .appendEntries req _ =>
      ∀ k e, req.entries[k]? = some e → e.index = word (req.prevLogIndex + 1 + k)
  | .catchUpFromSnapshot file => file.lastIncludedIndex < 2 ^ 64
  | _ => True

/-- Below the top the entries of a request stand where their index says. -/
theorem Operation.Valid.placedFrom {req : AppendEntriesRequest} {f : SaveFaults}
    (h : Operation.Valid (.appendEntries req f))
    (hroom : req.prevLogIndex + req.entries.length < 2 ^ 64) :
    PlacedFrom (req.prevLogIndex + 1) req.entries := by
  intro k e hk
  have hlt := (List.getElem?_eq_some_iff.1 hk).1
  rw [h k e hk, word_eq (by omega)]

/-- No index is counted past the largest one, and no requests are built at it. -/
def Node.Clear (n : Node) : Operation → Prop
  | .appendEntries req _ => req.prevLogIndex + req.entries.length < 2 ^ 64
  | .propose _ | .proposeSync _ _ => n.role = .leader → n.lastLogIndexLocked + 1 < 2 ^ 64
  | .broadcastAppendEntries =>
      n.role = .leader → n.peers ≠ [] → n.lastLogIndexLocked + 1 < 2 ^ 64
  | .streamLogRange _ toIndex => toIndex + 1 < 2 ^ 64
  | _ => True

instance Node.decidableClear (n : Node) : (op : Operation) → Decidable (n.Clear op)
  | .appendEntries req _ =>
      inferInstanceAs (Decidable (req.prevLogIndex + req.entries.length < 2 ^ 64))
  | .propose _ | .proposeSync _ _ =>
      inferInstanceAs (Decidable (n.role = .leader → n.lastLogIndexLocked + 1 < 2 ^ 64))
  | .broadcastAppendEntries => inferInstanceAs
      (Decidable (n.role = .leader → n.peers ≠ [] → n.lastLogIndexLocked + 1 < 2 ^ 64))
  | .streamLogRange _ toIndex => inferInstanceAs (Decidable (toIndex + 1 < 2 ^ 64))
  | .requestVote _ _ | .startElection _ | .soloElection _ | .handleRequestVoteReply _ _ _
  | .handleAppendEntriesReply _ _ _ _ | .getLogStatus | .confirmCompaction _ | .pollCompact _
  | .catchUpFromSnapshot _ => instDecidableTrue

/-- **The invariant.**  The log is in order, and its indices are `uint64` values. -/
structure Node.Fits (n : Node) : Prop where
  inRange : n.InRange
  words : ∀ e ∈ n.log, e.index < 2 ^ 64

theorem Node.exists_entryAtLocked (n : Node) {index : Nat} (hlt : n.logOffset < index)
    (hle : index ≤ n.lastLogIndexLocked) : ∃ e, n.entryAtLocked index = some e := by
  unfold Node.lastLogIndexLocked at hle
  unfold Node.entryAtLocked
  rw [if_neg (by omega)]
  exact ⟨_, List.getElem?_eq_getElem (by omega)⟩

namespace Node.Fits

variable {n : Node} {s s' : Locked}

/-- The last index is that of the last entry. -/
theorem last (h : n.Fits) : n.lastLogIndexLocked < 2 ^ 64 := by
  unfold lastLogIndexLocked
  by_cases hnil : n.log = []
  · have hoff : n.logOffset = 0 := by
      by_contra hne
      exact h.inRange.nonempty (Nat.pos_of_ne_zero hne) hnil
    rw [hnil, hoff]
    decide
  · have hlen : 0 < n.log.length := List.length_pos_iff.2 hnil
    have hget := List.getElem?_eq_getElem (l := n.log) (show n.log.length - 1 < _ by omega)
    have hidx := h.inRange.positional _ _ hget
    have := h.words _ (List.mem_of_getElem? hget)
    omega

theorem lastLogIndexChecked_eq (h : n.Fits) : n.lastLogIndexChecked = n.lastLogIndexLocked :=
  word_eq h.last

theorem keepsLog (h : s.node.Fits) (hk : KeepsLog s s') : s'.node.Fits :=
  ⟨h.inRange.keepsLog hk, by rw [hk.log]; exact h.words⟩

/-- The offset is below the largest index. -/
theorem offset (h : n.Fits) : n.logOffset + 1 < 2 ^ 64 := by
  have hlast := h.last
  unfold lastLogIndexLocked at hlast
  rcases Nat.eq_zero_or_pos n.logOffset with hzero | hpos
  · rw [hzero]
    decide
  · have := List.length_pos_iff.2 (h.inRange.nonempty hpos)
    omega

/-! ## Reading the log -/

/-- Reading an entry never goes out of range. -/
theorem entryAtChecked_eq (h : n.Fits) (index : Nat) :
    n.entryAtChecked index = .ok (n.entryAtLocked index) := by
  unfold entryAtChecked entryAtLocked
  rw [h.lastLogIndexChecked_eq]
  unfold lastLogIndexLocked
  split
  · rfl
  · rename_i hin
    obtain ⟨e, he⟩ : ∃ e, n.log[index - n.logOffset - 1]? = some e :=
      ⟨_, List.getElem?_eq_getElem (by omega)⟩
    rw [checkedSub_eq (by omega), ok_bind, checkedSub_eq (by omega), ok_bind, elementAt_eq he, he]
    rfl

theorem checkPrevChecked_ok (h : n.Fits) (req : AppendEntriesRequest) :
    ∃ r, n.checkPrevChecked req = .ok r ∧
      (r = none → req.prevLogIndex ≤ n.lastLogIndexLocked) := by
  unfold checkPrevChecked
  split
  · rename_i hle
    exact ⟨none, rfl, fun _ => hle.trans (Nat.le_add_right _ _)⟩
  · rw [h.entryAtChecked_eq, ok_bind]
    cases he : n.entryAtLocked req.prevLogIndex with
    | none => exact ⟨_, rfl, nofun⟩
    | some entry =>
        have hle := (n.inside_of_entryAtLocked he).2
        dsimp only
        split
        · exact ⟨_, rfl, nofun⟩
        · exact ⟨_, rfl, fun _ => hle⟩

/-- Below the top the loop of `buildAppendEntriesRequestsLocked` finds every entry. -/
theorem collectChecked_eq (h : n.Fits) (htop : n.lastLogIndexLocked + 1 < 2 ^ 64)
    {rounds idx : Nat} (hidx : n.logOffset < idx)
    (hrounds : n.lastLogIndexLocked + 1 - idx < rounds) (entries : List LogEntry) :
    n.collectChecked rounds idx entries = .ok (entries ++
      (List.range' idx (n.lastLogIndexLocked + 1 - idx)).filterMap n.entryAtLocked) := by
  -- the distance to the last index goes down with every round
  induction rounds generalizing idx entries with
  | zero => omega
  | succ rounds ih =>
      unfold collectChecked
      rw [h.lastLogIndexChecked_eq]
      split
      · rename_i hle
        obtain ⟨e, he⟩ := n.exists_entryAtLocked hidx hle
        have hstep : n.lastLogIndexLocked + 1 - idx = n.lastLogIndexLocked + 1 - (idx + 1) + 1 := by
          omega
        rw [h.entryAtChecked_eq, he, word_eq (by omega), hstep, List.range'_succ,
          List.filterMap_cons_some he, List.append_cons]
        exact ih (by omega) (by omega) _
      · rename_i hlt
        rw [show n.lastLogIndexLocked + 1 - idx = 0 by omega]
        exact congrArg Except.ok (List.append_nil entries).symm

/-- **At the top** the loop goes on at index `0`, where there is no entry. -/
theorem collectChecked_top (h : n.Fits) (htop : n.lastLogIndexLocked + 1 = 2 ^ 64)
    {rounds idx : Nat} (hidx : n.logOffset < idx) (hle : idx ≤ n.lastLogIndexLocked)
    (hrounds : n.lastLogIndexLocked + 1 - idx < rounds) (entries : List LogEntry) :
    n.collectChecked rounds idx entries = .error .nilPointer := by
  induction rounds generalizing idx entries with
  | zero => omega
  | succ rounds ih =>
      obtain ⟨e, he⟩ := n.exists_entryAtLocked hidx hle
      unfold collectChecked
      rw [h.lastLogIndexChecked_eq, if_pos hle, h.entryAtChecked_eq, he]
      by_cases hlast : idx = n.lastLogIndexLocked
      · -- the next index is zero
        obtain ⟨rounds, rfl⟩ : ∃ r, rounds = r + 1 := ⟨rounds - 1, by omega⟩
        have hzero : word (idx + 1) = 0 := by
          unfold word
          rw [hlast, htop, Nat.mod_self]
        have hnil : n.entryAtLocked 0 = none := if_pos (Or.inl (Nat.zero_le _))
        rw [hzero, ok_bind]
        unfold follow
        rw [ok_bind]
        unfold collectChecked
        rw [if_pos (Nat.zero_le _), h.entryAtChecked_eq, hnil]
        rfl
      · rw [word_eq (by omega)]
        exact ih (by omega) (by omega) (by omega) _

/-- The first index of the request for a peer. -/
theorem next_lt (h : n.Fits) (p : String) : n.logOffset <
    if n.nextIndex.at p ≤ n.logOffset then word (n.logOffset + 1) else n.nextIndex.at p := by
  rw [word_eq h.offset]
  split <;> omega

theorem buildAppendEntriesRequestChecked_eq (h : n.Fits)
    (htop : n.lastLogIndexLocked + 1 < 2 ^ 64) (p : String) :
    n.buildAppendEntriesRequestChecked p = .ok (n.buildAppendEntriesRequest p) := by
  have hnext := h.next_lt p
  unfold buildAppendEntriesRequestChecked buildAppendEntriesRequest
  rw [word_eq h.offset] at hnext ⊢
  generalize (if n.nextIndex.at p ≤ n.logOffset then n.logOffset + 1
    else n.nextIndex.at p) = next at hnext ⊢
  dsimp only
  rw [h.lastLogIndexChecked_eq, checkedSub_eq (by omega), ok_bind,
    h.collectChecked_eq htop hnext (Nat.lt_succ_self _) []]
  split
  · rw [h.entryAtChecked_eq]
    rfl
  · rfl

/-- **Requests** below the top are those without a top. -/
theorem buildAppendEntriesRequestsChecked_eq (h : n.Fits)
    (htop : n.lastLogIndexLocked + 1 < 2 ^ 64) :
    n.buildAppendEntriesRequestsChecked = .ok n.buildAppendEntriesRequestsLocked := by
  unfold buildAppendEntriesRequestsChecked
  rw [funext (h.buildAppendEntriesRequestChecked_eq htop)]
  exact List.mapM_pure

theorem buildAppendEntriesRequestChecked_top (h : n.Fits)
    (htop : n.lastLogIndexLocked + 1 = 2 ^ 64) {p : String} (hp : n.nextIndex.at p < 2 ^ 64) :
    n.buildAppendEntriesRequestChecked p = .error .nilPointer := by
  have hnext := h.next_lt p
  have hle : (if n.nextIndex.at p ≤ n.logOffset then word (n.logOffset + 1)
      else n.nextIndex.at p) ≤ n.lastLogIndexLocked := by
    rw [word_eq h.offset]
    have := h.offset
    split <;> omega
  unfold buildAppendEntriesRequestChecked
  generalize (if n.nextIndex.at p ≤ n.logOffset then word (n.logOffset + 1)
    else n.nextIndex.at p) = next at hnext hle ⊢
  dsimp only
  rw [checkedSub_eq (by omega), ok_bind, h.collectChecked_top htop hnext hle
    (by rw [h.lastLogIndexChecked_eq]; omega) []]
  split
  · rw [h.entryAtChecked_eq]
    rfl
  · rfl

/-- **Requests** are built without a panic exactly if the last index is not the largest. -/
theorem buildAppendEntriesRequestsChecked_iff (h : n.Fits) (hpeers : n.peers ≠ [])
    (hnext : ∀ p ∈ n.peers, n.nextIndex.at p < 2 ^ 64) :
    (∃ reqs, n.buildAppendEntriesRequestsChecked = .ok reqs) ↔
      n.lastLogIndexLocked + 1 < 2 ^ 64 := by
  constructor
  · rintro ⟨reqs, hreqs⟩
    by_contra htop
    have hlast := h.last
    obtain ⟨p, ps, hps⟩ := List.exists_cons_of_ne_nil hpeers
    unfold buildAppendEntriesRequestsChecked at hreqs
    rw [hps, List.mapM_cons, h.buildAppendEntriesRequestChecked_top (by omega)
      (hnext p (by rw [hps]; exact List.mem_cons_self ..))] at hreqs
    cases hreqs
  · exact fun htop => ⟨_, h.buildAppendEntriesRequestsChecked_eq htop⟩

theorem getLogStatusChecked_ok (h : n.Fits) : ∃ status, n.getLogStatusChecked = .ok status := by
  unfold getLogStatusChecked
  dsimp only
  rw [checkedDiv_eq h.inRange.capacity]
  exact ⟨_, rfl⟩

theorem streamChecked_ok (h : n.Fits) {toIndex : Nat} (htop : toIndex + 1 < 2 ^ 64)
    {rounds idx : Nat} (hrounds : toIndex + 1 - idx < rounds) (entries : List LogEntry) :
    ∃ es, n.streamChecked toIndex rounds idx entries = .ok es := by
  induction rounds generalizing idx entries with
  | zero => omega
  | succ rounds ih =>
      unfold streamChecked
      split
      · rw [h.entryAtChecked_eq, ok_bind, word_eq (by omega)]
        exact ih (by omega) _
      · exact ⟨entries, rfl⟩

end Node.Fits

/-! ## Sections that leave the log alone -/

namespace Locked

variable {s : Locked}

theorem castVoteChecked_eq (h : s.node.Fits) (req : RequestVoteRequest) (fails : Bool) :
    s.castVoteChecked req fails = s.castVote req fails := by
  unfold castVoteChecked
  rw [h.lastLogIndexChecked_eq]
  rfl

theorem requestVoteChecked_eq (h : s.node.Fits) (req : RequestVoteRequest) (f : SaveFaults) :
    s.requestVoteChecked req f = s.requestVote req f := by
  have hobs := h.keepsLog (s.keepsLog_observeRequest req.term f.observe)
  unfold requestVoteChecked requestVote
  generalize s.observeRequest req.term f.observe = r at hobs ⊢
  obtain ⟨t, err⟩ := r
  cases err with
  | some err => rfl
  | none => exact castVoteChecked_eq hobs req f.vote

theorem keepsLog_becomeLeaderChecked (s : Locked) : KeepsLog s s.becomeLeaderChecked := by
  unfold becomeLeaderChecked
  split
  · exact .refl s
  · exact (KeepsLog.modify rfl rfl rfl rfl).trans (.emit _ _)

theorem keepsLog_startElectionChecked (s : Locked) (fails : Bool) :
    KeepsLog s (s.startElectionChecked fails).1 := by
  have hup : KeepsLog s ((s.setRoleLocked .candidate).modify fun n =>
      { n with currentTerm := word (n.currentTerm + 1), votedFor := n.id }) :=
    (s.keepsLog_setRoleLocked .candidate).trans (.modify rfl rfl rfl rfl)
  have hsave := hup.trans (keepsLog_persistStateLocked _ fails)
  unfold startElectionChecked
  split
  · exact .refl s
  · dsimp only
    split <;> rename_i heq <;> rw [heq] at hsave <;> exact hsave

theorem keepsLog_soloElectionChecked (s : Locked) (e : Election) :
    KeepsLog s (s.soloElectionChecked e) := by
  unfold soloElectionChecked
  split
  · exact keepsLog_becomeLeaderChecked s
  · exact .refl s

theorem keepsLog_handleRequestVoteReplyChecked (s : Locked) (e : Election)
    (reply : RequestVoteReply) (fails : Bool) :
    KeepsLog s (s.handleRequestVoteReplyChecked e reply fails).1 := by
  unfold handleRequestVoteReplyChecked
  split
  · exact keepsLog_observeTermLocked s _ _
  · split
    · exact .refl s
    · dsimp only
      generalize (if reply.voteGranted = true then e.votes + 1 else e.votes) = votes
      split
      · exact keepsLog_becomeLeaderChecked s
      · exact .refl s

theorem modify_congr {f g : Node → Node} (h : f s.node = g s.node) : s.modify f = s.modify g := by
  unfold modify
  rw [h]

/-- The loop counts up to the commit index only. -/
theorem applyLoopChecked_eq (h : s.node.Fits) (hcommit : s.node.commitIndex < 2 ^ 64)
    (fuel : Nat) : applyLoopChecked fuel s = .ok (applyLoop fuel s) := by
  induction fuel generalizing s with
  | zero => rfl
  | succ fuel ih =>
      unfold applyLoopChecked applyLoop
      split
      · rename_i hlt
        have hbump : KeepsLog s (s.modify fun n => { n with lastApplied := n.lastApplied + 1 }) :=
          .modify rfl rfl rfl rfl
        have hfits := h.keepsLog hbump
        have hword : (s.modify fun n => { n with lastApplied := word (n.lastApplied + 1) }) =
            s.modify fun n => { n with lastApplied := n.lastApplied + 1 } :=
          modify_congr (by rw [word_eq (by omega)])
        dsimp only
        rw [hword, hfits.entryAtChecked_eq, ok_bind]
        cases Node.entryAtLocked _ _ with
        | none => rfl
        | some e =>
            obtain ⟨w, es, heq, -⟩ := applyEntryLocked_spec
              (s.modify fun n => { n with lastApplied := n.lastApplied + 1 }) e
            refine ih (hfits.keepsLog (keepsLog_applyEntryLocked _ e)) ?_
            rw [heq]
            exact hcommit
      · rfl

theorem applyCommittedChecked_eq (h : s.node.Fits) (hcommit : s.node.commitIndex < 2 ^ 64) :
    s.applyCommittedChecked = .ok s.applyCommittedLocked := by
  unfold applyCommittedChecked applyCommittedLocked
  rw [applyLoopChecked_eq h hcommit, ok_bind]
  dsimp only
  split <;> rfl

theorem min64_le_right (a b : Nat) : min64 a b ≤ b := by
  unfold min64
  split <;> omega

theorem followCommitChecked_eq (h : s.node.Fits) (leaderCommit : Nat) :
    s.followCommitChecked leaderCommit = .ok (s.followCommit leaderCommit) := by
  unfold followCommitChecked followCommit
  split
  · have hset : KeepsLog s (s.modify fun n =>
        { n with commitIndex := min64 leaderCommit n.lastLogIndexLocked }) :=
      .modify rfl rfl rfl rfl
    have hword : (s.modify fun n =>
        { n with commitIndex := min64 leaderCommit n.lastLogIndexChecked }) =
        s.modify fun n => { n with commitIndex := min64 leaderCommit n.lastLogIndexLocked } :=
      modify_congr (by rw [h.lastLogIndexChecked_eq])
    rw [hword]
    exact applyCommittedChecked_eq (h.keepsLog hset) (lt_of_le_of_lt (min64_le_right _ _) h.last)
  · rfl

theorem advanceLoopChecked_eq (h : s.node.Fits) {N : Nat} (hN : N < 2 ^ 64) :
    s.advanceLoopChecked N = .ok (s.advanceLoop N) := by
  induction N with
  | zero => rfl
  | succ N ih =>
      unfold advanceLoopChecked advanceLoop
      split
      · rw [h.entryAtChecked_eq, ok_bind]
        split
        · have hset : KeepsLog s ((s.modify fun n => { n with commitIndex := N + 1 }).emit
              [.advancedCommit (s.modify fun n => { n with commitIndex := N + 1 }).node]) :=
            (KeepsLog.modify rfl rfl rfl rfl).trans (.emit _ _)
          exact applyCommittedChecked_eq (h.keepsLog hset) hN
        · exact ih (by omega)
      · rfl

theorem handleAppendEntriesReplyLockedChecked_ok (h : s.node.Fits) (peer : String)
    (prev num : Nat) (reply : AppendEntriesReply) (fails : Bool) :
    ∃ s', s.handleAppendEntriesReplyLockedChecked peer prev num reply fails = .ok s' ∧
      KeepsLog s s' := by
  unfold handleAppendEntriesReplyLockedChecked
  split
  · exact ⟨_, rfl, keepsLog_observeTermLocked s _ _⟩
  · split
    · have hset : KeepsLog s (s.modify fun n => n.recordMatchChecked peer (word (prev + num))) :=
        .modify rfl rfl rfl rfl
      exact ⟨_, advanceLoopChecked_eq (h.keepsLog hset) (word_lt _),
        hset.trans (keepsLog_advanceLoop _ _)⟩
    · exact ⟨_, rfl, .modify rfl rfl rfl rfl⟩

theorem handleAppendEntriesReplyChecked_ok (h : s.node.Fits) (term : Nat)
    (out : OutgoingAppendEntries) (reply : AppendEntriesReply) (fails : Bool) :
    ∃ r, s.handleAppendEntriesReplyChecked term out reply fails = .ok r ∧ KeepsLog s r.1 := by
  unfold handleAppendEntriesReplyChecked
  split
  · exact ⟨_, rfl, .refl s⟩
  · exact bind_pure_ok (handleAppendEntriesReplyLockedChecked_ok h out.peer out.prevIndex
      out.numEntries reply fails)

/-! ## Sections that change the log -/

/-- Indices that do not pass the top are skipped as if there were none. -/
theorem skipCompactedChecked_eq (off : Nat) {idx : Nat} {es : List LogEntry}
    (h : es ≠ [] → idx + es.length ≤ 2 ^ 64) :
    (skipCompactedChecked off idx es).2 = (skipCompacted off idx es).2 ∧
      ((skipCompacted off idx es).2 ≠ [] →
        (skipCompactedChecked off idx es).1 = (skipCompacted off idx es).1 ∧
        (skipCompacted off idx es).1 + (skipCompacted off idx es).2.length ≤ 2 ^ 64) := by
  induction es generalizing idx with
  | nil => exact ⟨rfl, fun hne => absurd rfl hne⟩
  | cons e es ih =>
      have hroom := h (by simp)
      rw [List.length_cons] at hroom
      unfold skipCompactedChecked skipCompacted
      split
      · cases es with
        | nil => exact ⟨rfl, fun hne => absurd rfl hne⟩
        | cons e' es' =>
            rw [List.length_cons] at hroom
            rw [word_eq (by omega)]
            exact ih fun _ => by rw [List.length_cons]; omega
      · exact ⟨rfl, fun _ => ⟨rfl, hroom⟩⟩

theorem mergeLoopChecked_eq (h : s.node.Fits) {idx : Nat} {es : List LogEntry}
    (hroom : es ≠ [] → idx + es.length ≤ 2 ^ 64) :
    s.mergeLoopChecked idx es = .ok (s.mergeLoop idx es) := by
  induction es generalizing idx with
  | nil => rfl
  | cons e es ih =>
      have hroom := hroom (by simp)
      rw [List.length_cons] at hroom
      unfold mergeLoopChecked mergeLoop
      rw [h.entryAtChecked_eq, ok_bind]
      cases hex : s.node.entryAtLocked idx with
      | none => rfl
      | some existing =>
          dsimp only
          split
          · -- the entry is there, so its position is a position of the log
            obtain ⟨hlt, hle⟩ := Node.inside_of_entryAtLocked hex
            unfold Node.lastLogIndexLocked at hle
            rw [checkedSub_eq (by omega), ok_bind, checkedSub_eq (by omega), ok_bind,
              sliceTo_eq (by omega)]
            rfl
          · cases es with
            | nil => rfl
            | cons e' es' =>
                rw [List.length_cons] at hroom
                rw [word_eq (by omega)]
                exact ih fun _ => by rw [List.length_cons]; omega

/-- **Merging** below the top is merging without a top. -/
theorem mergeEntriesChecked_eq (h : s.node.Fits) {prev : Nat} {es : List LogEntry}
    (hne : es ≠ []) (hroom : prev + es.length < 2 ^ 64) :
    s.mergeEntriesChecked prev es = .ok (s.mergeEntriesLocked prev es) := by
  have hlen : 0 < es.length := List.length_pos_iff.2 hne
  unfold mergeEntriesChecked mergeEntriesLocked
  rw [word_eq (by omega)]
  have hroom' : es ≠ [] → prev + 1 + es.length ≤ 2 ^ 64 := fun _ => by omega
  obtain ⟨hrest, hidx⟩ := skipCompactedChecked_eq s.node.logOffset hroom'
  dsimp only
  rw [hrest]
  by_cases hnil : (skipCompacted s.node.logOffset (prev + 1) es).2 = []
  · rw [hnil]
    rfl
  · obtain ⟨hstart, hfit⟩ := hidx hnil
    rw [hstart, mergeLoopChecked_eq h fun _ => hfit, ok_bind]
    split <;> rfl

theorem appendLocalChecked_eq (h : s.node.Fits) (hroom : s.node.lastLogIndexLocked + 1 < 2 ^ 64)
    (command : List UInt8) : s.appendLocalChecked command = s.appendLocalLocked command := by
  unfold appendLocalChecked appendLocalLocked
  rw [h.lastLogIndexChecked_eq, word_eq hroom]

theorem compactChecked_eq (h : s.node.Fits) (file : File) :
    s.compactChecked file = .ok (s.compactLocked file) := by
  unfold compactChecked compactLocked
  rw [h.entryAtChecked_eq, ok_bind]
  cases he : s.node.entryAtLocked file.lastIncludedIndex with
  | none =>
      dsimp only
      rw [word_eq h.offset, h.lastLogIndexChecked_eq]
      rfl
  | some e =>
      obtain ⟨hlt, hle⟩ := Node.inside_of_entryAtLocked he
      unfold Node.lastLogIndexLocked at hle
      dsimp only
      rw [node_replaceSnapshotFileLocked, node_write]
      dsimp only
      rw [checkedSub_eq (by omega), ok_bind, sliceFrom_eq (by omega), ok_bind,
        checkedSub_eq (by omega)]
      rfl

theorem confirmCompactionChecked_eq (h : s.node.Fits) (req : CompactionAck) :
    s.confirmCompactionChecked req = .ok (s.confirmCompaction req) := by
  unfold confirmCompactionChecked confirmCompaction
  rw [word_eq h.offset]
  split
  · rfl
  · split
    · rfl
    · cases req.stateMachineSnapshot with
      | error cause => rfl
      | ok file =>
          dsimp only
          split
          · rfl
          · exact compactChecked_eq h file

theorem pollCompactChecked_eq (h : s.node.Fits) (file : File) :
    s.pollCompactChecked file = .ok (s.pollCompact file) := by
  unfold pollCompactChecked pollCompact
  rw [word_eq h.offset]
  split
  · rw [compactChecked_eq h file]
    rfl
  · rfl

theorem catchUpFromSnapshotChecked_eq (s : Locked) (file : File) :
    s.catchUpFromSnapshotChecked file = .ok (s.catchUpFromSnapshot file) := by
  unfold catchUpFromSnapshotChecked catchUpFromSnapshot
  split
  · rfl
  · rw [checkedSub_eq (by omega)]
    rfl

end Locked

/-! ## One operation -/

namespace Node.Fits

variable {n : Node} {s : Locked}

theorem compactLocked (h : s.node.Fits) (file : File) : (s.compactLocked file).1.node.Fits := by
  refine ⟨h.inRange.compactLocked file, ?_⟩
  have hlast := h.last
  rcases s.node_compactLocked file with heq | ⟨-, hle, hnode⟩
  · rw [heq]
    exact h.words
  · rw [hnode]
    intro e he
    rcases List.mem_cons.1 he with rfl | he
    · exact lt_of_le_of_lt hle hlast
    · exact h.words e (List.mem_of_mem_drop he)

theorem catchUpFromSnapshot (h : s.node.Fits) {file : File}
    (hfile : file.lastIncludedIndex < 2 ^ 64) : (s.catchUpFromSnapshot file).node.Fits := by
  refine ⟨h.inRange.catchUpFromSnapshot file, ?_⟩
  unfold Locked.catchUpFromSnapshot Locked.adoptSnapshot
  split
  · exact h.words
  · intro e he
    obtain rfl := List.mem_singleton.1 he
    exact hfile

/-- The leader appends an entry below the top. -/
theorem appendLocalChecked (h : s.node.Fits) (hroom : s.node.lastLogIndexLocked + 1 < 2 ^ 64)
    (command : List UInt8) : (s.appendLocalChecked command).node.Fits := by
  rw [Locked.appendLocalChecked_eq h hroom]
  refine ⟨h.inRange.appendLocalLocked command, fun e he => ?_⟩
  rcases List.mem_append.1 he with he | he
  · exact h.words e he
  · obtain rfl := List.mem_singleton.1 he
    exact hroom

theorem mergeEntriesLocked (h : s.node.Fits) {prev : Nat} {es : List LogEntry}
    (hes : PlacedFrom (prev + 1) es) (hroom : prev + es.length < 2 ^ 64)
    (hprev : prev ≤ s.node.lastLogIndexLocked) : (s.mergeEntriesLocked prev es).node.Fits := by
  have hwords : ∀ e ∈ es, e.index < 2 ^ 64 := by
    intro e he
    obtain ⟨k, hk⟩ := List.mem_iff_getElem?.1 he
    have hidx := hes k e hk
    have hlt := (List.getElem?_eq_some_iff.1 hk).1
    omega
  refine ⟨h.inRange.mergeEntriesLocked hes hprev, ?_⟩
  rcases s.mergeEntriesLocked_cases hes hprev with heq | ⟨rest, -, hmem, heq⟩ |
    ⟨idx, rest, -, -, -, -, hmem, -, heq⟩
  · rw [heq]
    exact h.words
  · rw [heq]
    intro e he
    rcases List.mem_append.1 he with he | he
    · exact h.words e he
    · exact hwords e (hmem e he)
  · rw [heq]
    intro e he
    rcases List.mem_append.1 he with he | he
    · exact h.words e (List.mem_of_mem_take he)
    · exact hwords e (hmem e he)

theorem acceptEntriesChecked (h : s.node.Fits) {req : AppendEntriesRequest}
    (hreq : PlacedFrom (req.prevLogIndex + 1) req.entries)
    (hroom : req.prevLogIndex + req.entries.length < 2 ^ 64) :
    ∃ r, s.acceptEntriesChecked req = .ok r ∧ r.1.node.Fits := by
  unfold Locked.acceptEntriesChecked
  split
  · exact ⟨_, rfl, h⟩
  · have hdown := h.keepsLog ((s.keepsLog_setRoleLocked .follower).trans
      (.modify (f := fun n => { n with currentLeader := req.leaderId }) rfl rfl rfl rfl))
    dsimp only
    generalize ((s.setRoleLocked .follower).modify fun n =>
      { n with currentLeader := req.leaderId }) = t at hdown
    obtain ⟨check, hcheck, hprev⟩ := hdown.checkPrevChecked_ok req
    rw [hcheck, ok_bind]
    cases check with
    | some rejection => exact ⟨_, rfl, hdown⟩
    | none =>
        have hcommit : ∀ {t' : Locked}, t'.node.Fits → ∃ r, (do
            let s' ← t'.followCommitChecked req.leaderCommit
            pure (s', ({ term := t'.node.currentTerm, success := true } : AppendEntriesReply))) =
            Except.ok r ∧ r.1.node.Fits := by
          intro t' hfits
          exact bind_pure_ok ⟨_, Locked.followCommitChecked_eq hfits req.leaderCommit,
            hfits.keepsLog (t'.keepsLog_followCommit req.leaderCommit)⟩
        dsimp only
        split
        · exact hcommit hdown
        · rename_i hne
          rw [Locked.mergeEntriesChecked_eq hdown hne hroom, ok_bind]
          exact hcommit (hdown.mergeEntriesLocked hreq hroom (hprev rfl))

theorem appendEntriesChecked (h : s.node.Fits) {req : AppendEntriesRequest}
    (hreq : PlacedFrom (req.prevLogIndex + 1) req.entries)
    (hroom : req.prevLogIndex + req.entries.length < 2 ^ 64) (f : SaveFaults) :
    ∃ r, s.appendEntriesChecked req f = .ok r ∧ r.1.node.Fits := by
  have hobs := h.keepsLog (s.keepsLog_observeRequest req.term f.observe)
  unfold Locked.appendEntriesChecked
  generalize s.observeRequest req.term f.observe = r at hobs ⊢
  obtain ⟨t, err⟩ := r
  cases err with
  | some err => exact ⟨_, rfl, hobs⟩
  | none =>
      exact bind_pure_ok (hobs.acceptEntriesChecked hreq hroom)

/-- **One operation** in a clear state is not stopped and keeps the invariant. -/
theorem performChecked (h : n.Fits) {op : Operation} (hop : op.Valid) (hclear : n.Clear op) :
    ∃ n', n.performChecked op = .ok n' ∧ n'.Fits := by
  have hn : n.lock.node.Fits := h
  cases op with
  | appendEntries req f =>
      exact bind_pure_ok (hn.appendEntriesChecked (hop.placedFrom hclear) hclear f)
  | requestVote req f =>
      refine ⟨_, rfl, ?_⟩
      rw [Locked.requestVoteChecked_eq hn]
      exact hn.keepsLog (Locked.keepsLog_requestVote _ _ _)
  | startElection fails =>
      exact ⟨_, rfl, hn.keepsLog (Locked.keepsLog_startElectionChecked _ _)⟩
  | soloElection e => exact ⟨_, rfl, hn.keepsLog (Locked.keepsLog_soloElectionChecked _ _)⟩
  | handleRequestVoteReply e reply fails =>
      exact ⟨_, rfl, hn.keepsLog (Locked.keepsLog_handleRequestVoteReplyChecked _ _ _ _)⟩
  | broadcastAppendEntries =>
      unfold Node.performChecked
      dsimp only
      split
      · exact ⟨_, rfl, h⟩
      · rename_i hrole
        have hreqs : ∃ reqs, n.buildAppendEntriesRequestsChecked = .ok reqs := by
          by_cases hpeers : n.peers = []
          · unfold Node.buildAppendEntriesRequestsChecked
            rw [hpeers]
            exact ⟨[], rfl⟩
          · exact ⟨_, h.buildAppendEntriesRequestsChecked_eq (hclear (not_not.1 hrole) hpeers)⟩
        exact bind_pure_ok (hreqs.imp fun _ hreqs => ⟨hreqs, h⟩)
  | handleAppendEntriesReply term out reply fails =>
      obtain ⟨r, hr, hk⟩ := Locked.handleAppendEntriesReplyChecked_ok hn term out reply fails
      exact bind_pure_ok ⟨r, hr, hn.keepsLog hk⟩
  | propose command =>
      refine ⟨_, rfl, ?_⟩
      unfold Locked.proposeChecked
      split
      · exact h
      · rename_i hrole
        exact hn.appendLocalChecked (hclear (not_not.1 hrole)) command
  | proposeSync command ch =>
      refine ⟨_, rfl, ?_⟩
      unfold Locked.proposeSyncChecked
      split
      · exact h
      · rename_i hrole
        have happ := hn.appendLocalChecked (hclear (not_not.1 hrole)) command
        exact ⟨⟨happ.inRange.positional, happ.inRange.nonempty, happ.inRange.capacity⟩,
          happ.words⟩
  | getLogStatus =>
      obtain ⟨status, hstatus⟩ := h.getLogStatusChecked_ok
      exact bind_pure_ok ⟨status, hstatus, h⟩
  | streamLogRange fromIndex toIndex =>
      obtain ⟨es, hes⟩ := h.streamChecked_ok hclear (Nat.lt_succ_self (toIndex + 1 - fromIndex)) []
      exact bind_pure_ok ⟨es, hes, h⟩
  | confirmCompaction req =>
      refine bind_pure_ok ⟨_, Locked.confirmCompactionChecked_eq hn req, ?_⟩
      rcases n.lock.confirmCompaction_cases req with heq | ⟨file, heq⟩
      · rw [heq]
        exact hn
      · rw [heq]
        exact hn.compactLocked file
  | pollCompact file =>
      refine bind_pure_ok ⟨_, Locked.pollCompactChecked_eq hn file, ?_⟩
      rcases n.lock.pollCompact_cases file with heq | heq
      · rw [heq]
        exact hn
      · rw [heq]
        exact hn.compactLocked file
  | catchUpFromSnapshot file =>
      exact bind_pure_ok
        ⟨_, Locked.catchUpFromSnapshotChecked_eq _ file, hn.catchUpFromSnapshot hop⟩

end Node.Fits

/-! ## Runs -/

/-- One operation, if it is not stopped. -/
def Node.stepChecked (n : Node) (op : Operation) : Option Node := (n.performChecked op).toOption

/-- A clear run is not stopped. -/
theorem Node.Fits.runChecked {n : Node} (h : n.Fits) {ops : List Operation}
    (hops : ∀ op ∈ ops, op.Valid) (hclear : Runs.Along Node.stepChecked Node.Clear n ops) :
    ∃ n', Runs.exec Node.stepChecked n ops = some n' ∧ n'.Fits := by
  induction ops generalizing n with
  | nil => exact ⟨n, rfl, h⟩
  | cons op ops ih =>
      obtain ⟨t, ht, hfits⟩ := h.performChecked (hops op (List.mem_cons_self ..)) hclear.1
      have hstep : n.stepChecked op = some t := by
        unfold Node.stepChecked
        rw [ht]
        rfl
      obtain ⟨n', hn', hlast⟩ := ih hfits (fun op' h' => hops op' (List.mem_cons_of_mem op h'))
        (hclear.2 t hstep)
      refine ⟨n', ?_, hlast⟩
      rw [Runs.exec, hstep]
      exact hn'

/-- The indices in a data directory are `uint64` values. -/
structure Disk.Words (d : Disk) : Prop where
  log : ∀ e ∈ d.log, e.index < 2 ^ 64
  snapshots : ∀ f ∈ d.snapshots, f.lastIncludedIndex < 2 ^ 64

namespace Disk.WellFormed

variable {d : Disk} (id address : String) (peers : List String) (cap : Nat)

theorem newNodeChecked_eq (h : d.WellFormed) (hwords : d.Words) :
    newNodeChecked id address peers cap d = .ok (newNode id address peers cap d) := by
  unfold newNodeChecked Disk.baseChecked newNode
  cases hl : d.latest.filter (fun f => 0 < f.lastIncludedIndex) with
  | some f =>
      have hpos : 0 < f.lastIncludedIndex := by
        simpa using (Option.filter_eq_some_iff.1 hl).2
      dsimp only
      rw [checkedSub_eq hpos]
      rfl
  | none =>
      dsimp only
      cases hd : d.log with
      | nil => rfl
      | cons e es =>
          obtain ⟨base, hplaced⟩ := h.consecutive
          have he := hplaced 0 e (by rw [hd]; rfl)
          have hlt := hwords.log e (by rw [hd]; exact List.mem_cons_self ..)
          dsimp only
          rw [checkedSub_eq (by omega), ok_bind, word_eq (by omega)]
          rfl

theorem fits_newNode (h : d.WellFormed) (hwords : d.Words) :
    (newNode id address peers cap d).Fits := by
  refine ⟨h.inRange_newNode id address peers cap, ?_⟩
  rw [← Node.restart_newNode id address peers cap d d]
  generalize newNode id address peers cap d = n
  intro e he
  by_cases hf : ∃ f, d.latest = some f ∧ 0 < f.lastIncludedIndex
  · obtain ⟨f, hf, hpos⟩ := hf
    rw [(n.restart_of_latest hf hpos).1] at he
    rcases List.mem_cons.1 he with rfl | he
    · exact hwords.snapshots f (latest_mem hf).1
    · exact hwords.log e (List.mem_filter.1 he).1
  · rw [(n.restart_of_none fun f hd => by
      have := not_and.1 (not_exists.1 hf f) hd
      omega).1] at he
    exact hwords.log e he

end Disk.WellFormed

/-- **No operation panics**: a node built over a well-formed directory takes any sequence of
operations that keeps clear of the largest index without an access out of range, and its log stays
in order.  A leader with a peer may not build requests at the largest index: exactly there it
panics. -/
theorem panic_free (id address : String) (peers : List String) (cap : Nat) (d : Disk)
    (hd : d.WellFormed) (hwords : d.Words) :
    ∃ n₀, newNodeChecked id address peers cap d = .ok n₀ ∧
      ∀ ops : List Operation, (∀ op ∈ ops, op.Valid) →
        Runs.Along Node.stepChecked Node.Clear n₀ ops →
        ∃ n, Runs.exec Node.stepChecked n₀ ops = some n ∧
          (∀ k e, n.log[k]? = some e → e.index = n.logOffset + k + 1) ∧
          (0 < n.logOffset → n.log ≠ []) ∧
          (n.role = .leader → n.peers ≠ [] → (∀ p ∈ n.peers, n.nextIndex.at p < 2 ^ 64) →
            ((∃ n', n.performChecked .broadcastAppendEntries = .ok n') ↔
              n.lastLogIndexLocked + 1 < 2 ^ 64)) := by
  have hfits := hd.fits_newNode id address peers cap hwords
  refine ⟨_, hd.newNodeChecked_eq id address peers cap hwords, fun ops hops hclear => ?_⟩
  obtain ⟨n, hrun, hn⟩ := hfits.runChecked hops hclear
  refine ⟨n, hrun, hn.inRange.positional, hn.inRange.nonempty, fun hrole hpeers hnext => ?_⟩
  rw [← hn.buildAppendEntriesRequestsChecked_iff hpeers hnext]
  unfold Node.performChecked
  dsimp only
  rw [if_neg (not_not.2 hrole)]
  constructor
  · rintro ⟨n', hn'⟩
    cases hreqs : n.buildAppendEntriesRequestsChecked with
    | ok reqs => exact ⟨reqs, rfl⟩
    | error fault =>
        rw [hreqs] at hn'
        cases hn'
  · rintro ⟨reqs, hreqs⟩
    rw [hreqs]
    exact ⟨n, rfl⟩

/-- A directory with a snapshot of index `2` and records from there on. -/
def snapshotTwoDisk : Disk :=
  ⟨some ⟨1, ""⟩, [⟨1, 2, []⟩, ⟨1, 3, [7]⟩], [⟨fun _ => none, 2, 1⟩]⟩

/-- A request that cuts off an entry, an election, a proposal, a broadcast and a compaction. -/
def operationsOnTwo : List Operation :=
  [.appendEntries ⟨2, "b", 1, 1, [⟨1, 2, [6]⟩, ⟨2, 3, [8]⟩], 3⟩ noFaults, .startElection false,
    .handleRequestVoteReply ⟨⟨3, "a", 3, 2⟩, 2, 1, fun _ => .sent⟩ ⟨3, true⟩ false, .propose [9],
    .broadcastAppendEntries, .getLogStatus, .pollCompact ⟨fun _ => none, 3, 2⟩]

theorem panic_free_snapshotTwo : snapshotTwoDisk.WellFormed ∧ snapshotTwoDisk.Words ∧
    ∃ n, Runs.exec Node.stepChecked (newNode "a" "a:1" ["b:1"] 0 snapshotTwoDisk)
        operationsOnTwo = some n ∧
      n.role = .leader ∧ n.logOffset = 2 ∧ n.log = [⟨2, 3, []⟩, ⟨3, 4, [9]⟩] ∧
      (∀ k e, n.log[k]? = some e → e.index = n.logOffset + k + 1) := by
  have hd : snapshotTwoDisk.WellFormed := by
    refine ⟨⟨1, fun k e hk => ?_⟩, fun f hf e he => ?_⟩
    · match k, hk with
      | 0, hk => cases hk; rfl
      | 1, hk => cases hk; rfl
    · cases hf
      cases he
      decide
  have hwords : snapshotTwoDisk.Words := ⟨by decide, by simp [snapshotTwoDisk]⟩
  obtain ⟨n₀, hnew, hops⟩ := panic_free "a" "a:1" ["b:1"] 0 snapshotTwoDisk hd hwords
  obtain rfl : newNode "a" "a:1" ["b:1"] 0 snapshotTwoDisk = n₀ := by
    cases hnew
    rfl
  obtain ⟨n, hrun, hpos, -⟩ := hops operationsOnTwo
    (by
      intro op hop
      simp only [operationsOnTwo, List.mem_cons, List.not_mem_nil, or_false] at hop
      rcases hop with rfl | rfl | rfl | rfl | rfl | rfl | rfl
      · intro k e hk
        match k, hk with
        | 0, hk => cases hk; rfl
        | 1, hk => cases hk; rfl
      all_goals trivial)
    (by decide +kernel)
  have hend : (Runs.exec Node.stepChecked (newNode "a" "a:1" ["b:1"] 0 snapshotTwoDisk)
      operationsOnTwo).any (fun n => decide (n.role = .leader ∧ n.logOffset = 2 ∧
        n.log = [⟨2, 3, []⟩, ⟨3, 4, [9]⟩])) := by decide +kernel
  obtain ⟨n', hrun', hrole, hoff, hlog⟩ := Runs.exists_of_exec _ hend
  obtain rfl := Option.some.inj (hrun.symm.trans hrun')
  exact ⟨hd, hwords, n, hrun, hrole, hoff, hlog, hpos⟩

/-- A fresh node catches up with a snapshot of the largest index and is elected. -/
def electedAtTop : List Operation :=
  [.catchUpFromSnapshot ⟨fun _ => none, 18446744073709551615, 1⟩, .startElection false,
    .handleRequestVoteReply ⟨⟨1, "a", 18446744073709551615, 1⟩, 2, 1, fun _ => .sent⟩ ⟨1, true⟩
      false]

/-- The new leader's first broadcast follows a pointer that is `nil`. -/
theorem broadcast_panics_atTop : Disk.empty.WellFormed ∧ Disk.empty.Words ∧
    (∀ op ∈ electedAtTop ++ [.broadcastAppendEntries], op.Valid) ∧
    newNodeChecked "a" "a:1" ["b:1"] 0 Disk.empty =
      .ok (newNode "a" "a:1" ["b:1"] 0 Disk.empty) ∧
    ∃ n, Runs.exec Node.stepChecked (newNode "a" "a:1" ["b:1"] 0 Disk.empty) electedAtTop =
        some n ∧
      n.role = .leader ∧ n.performChecked .broadcastAppendEntries = .error .nilPointer := by
  refine ⟨Disk.wellFormed_empty, ⟨by simp [Disk.empty], by simp [Disk.empty]⟩, ?_, rfl, ?_⟩
  · intro op hop
    simp only [electedAtTop, List.cons_append, List.nil_append, List.mem_cons, List.not_mem_nil,
      or_false] at hop
    rcases hop with rfl | rfl | rfl | rfl
    · show 18446744073709551615 < 2 ^ 64
      decide
    all_goals trivial
  · have hend : (Runs.exec Node.stepChecked (newNode "a" "a:1" ["b:1"] 0 Disk.empty)
        electedAtTop).any (fun n => decide (n.role = .leader ∧
          n.performChecked .broadcastAppendEntries = .error .nilPointer)) := by decide +kernel
    exact Runs.exists_of_exec _ hend

end B5KvStore
