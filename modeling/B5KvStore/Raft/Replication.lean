import B5KvStore.Raft.Election

/-!
# Replication

The follower's side of `AppendEntries`, the leader's requests and the handling of
their replies, the commit rule, and the two ways of proposing a command.
-/

namespace B5KvStore

/-- `outgoingAppendEntries`. -/
structure OutgoingAppendEntries where
  peer : String
  req : AppendEntriesRequest
  prevIndex : Nat
  numEntries : Nat
  deriving DecidableEq, Repr

namespace Node

/-- The loop of `firstIndexOfTermLocked`, from `idx` down. -/
def firstIndexLoop (log : List LogEntry) (term : Nat) : Nat → Nat
  | 0 => 0
  | idx + 1 =>
      if (log[idx]?.map LogEntry.term) = some term then firstIndexLoop log term idx else idx + 1

/-- `firstIndexOfTermLocked`. -/
def firstIndexOfTermLocked (n : Node) (term : Nat) : Nat :=
  n.logOffset + firstIndexLoop n.log term n.log.length + 1

/-- The loop of `lastIndexOfTermLocked` over the first `i` entries, from the end:
the position it stops at, if it finds the term. -/
def lastIndexLoop (log : List LogEntry) (term : Nat) : Nat → Option Nat
  | 0 => none
  | i + 1 =>
      match log[i]? with
      | none => none
      | some e =>
          if e.term = term then some i
          else if e.term < term then none
          else lastIndexLoop log term i

/-- `lastIndexOfTermLocked`. -/
def lastIndexOfTermLocked (n : Node) (term : Nat) : Nat :=
  match lastIndexLoop n.log term n.log.length with
  | some i => n.logOffset + i + 1
  | none => 0

/-- The consistency check of `AppendEntries`: the rejection, if it fails. -/
def checkPrev (n : Node) (req : AppendEntriesRequest) : Option AppendEntriesReply :=
  if n.logOffset < req.prevLogIndex then
    match n.entryAtLocked req.prevLogIndex with
    | none => some
        { term := n.currentTerm, success := false
          conflictIndex := n.lastLogIndexLocked + 1, conflictTerm := 0 }
    | some entry =>
        if entry.term ≠ req.prevLogTerm then some
          { term := n.currentTerm, success := false
            conflictIndex := n.firstIndexOfTermLocked entry.term, conflictTerm := entry.term }
        else none
  else none

/-- A follower is known to hold the log up to `newMatch`. -/
def recordMatch (n : Node) (peer : String) (newMatch : Nat) : Node :=
  { n with
    matchIndex := if n.matchIndex.at peer < newMatch then n.matchIndex.insert peer newMatch
      else n.matchIndex
    nextIndex := if n.nextIndex.at peer < newMatch + 1 then n.nextIndex.insert peer (newMatch + 1)
      else n.nextIndex }

/-- The request `buildAppendEntriesRequestsLocked` builds for one peer.  Entries
are sent from `next` to the end of the log. -/
def buildAppendEntriesRequest (n : Node) (p : String) : OutgoingAppendEntries :=
  let next := if n.nextIndex.at p ≤ n.logOffset then n.logOffset + 1 else n.nextIndex.at p
  let prevIndex := next - 1
  let prevTerm :=
    if 0 < prevIndex then
      match n.entryAtLocked prevIndex with
      | some e => e.term
      | none => 0
    else 0
  let entries := (List.range' next (n.lastLogIndexLocked + 1 - next)).filterMap n.entryAtLocked
  { peer := p
    req := ⟨n.currentTerm, n.address, prevIndex, prevTerm, entries, n.commitIndex⟩
    prevIndex := prevIndex
    numEntries := entries.length }

/-- `buildAppendEntriesRequestsLocked`. -/
def buildAppendEntriesRequestsLocked (n : Node) : List OutgoingAppendEntries :=
  n.peers.map n.buildAppendEntriesRequest

end Node

/-- The first loop of `mergeEntriesLocked`: entries at or below the offset are
skipped. -/
def skipCompacted (logOffset : Nat) : Nat → List LogEntry → Nat × List LogEntry
  | idx, [] => (idx, [])
  | idx, e :: es => if idx ≤ logOffset then skipCompacted logOffset (idx + 1) es else (idx, e :: es)

namespace Locked

/-- The second loop of `mergeEntriesLocked`: matching entries are left alone, the
first conflict cuts the log off.  What is left over is still to be appended. -/
def mergeLoop (s : Locked) : Nat → List LogEntry → Locked × List LogEntry
  | _, [] => (s, [])
  | idx, e :: es =>
      match s.node.entryAtLocked idx with
      | none => (s, e :: es)
      | some existing =>
          if existing.term ≠ e.term then
            ((s.write [.truncateLogFrom idx]).modify fun n =>
              { n with log := n.log.take (idx - n.logOffset - 1) }, e :: es)
          else mergeLoop s (idx + 1) es

/-- Append entries to the log, on disk first. -/
def appendLog (s : Locked) (es : List LogEntry) : Locked :=
  (s.write (appendLogEntries es)).modify fun n => { n with log := n.log ++ es }

/-- `mergeEntriesLocked`. -/
def mergeEntriesLocked (s : Locked) (prevLogIndex : Nat) (newEntries : List LogEntry) : Locked :=
  let start := skipCompacted s.node.logOffset (prevLogIndex + 1) newEntries
  let merged := s.mergeLoop start.1 start.2
  if merged.2 = [] then merged.1 else merged.1.appendLog merged.2

/-- What an accepted `AppendEntries` does to commit index and state machine. -/
def followCommit (s : Locked) (leaderCommit : Nat) : Locked :=
  if s.node.commitIndex < leaderCommit then
    (s.modify fun n =>
      { n with commitIndex := min64 leaderCommit n.lastLogIndexLocked }).applyCommittedLocked
  else s

/-- `AppendEntries` once the term of the request has been observed. -/
def acceptEntries (s : Locked) (req : AppendEntriesRequest) : Locked × AppendEntriesReply :=
  if req.term < s.node.currentTerm then (s, { term := s.node.currentTerm, success := false })
  else
    let s := (s.setRoleLocked .follower).modify fun n => { n with currentLeader := req.leaderId }
    match s.node.checkPrev req with
    | some rejection => (s, rejection)
    | none =>
        let s := if req.entries = [] then s
          else s.mergeEntriesLocked req.prevLogIndex req.entries
        (s.followCommit req.leaderCommit, { term := s.node.currentTerm, success := true })

/-- `AppendEntries`. -/
def appendEntries (s : Locked) (req : AppendEntriesRequest) (f : SaveFaults) :
    Locked × Except RaftError AppendEntriesReply :=
  match s.observeRequest req.term f.observe with
  | (s, some err) => (s, .error err)
  | (s, none) =>
      let r := s.acceptEntries req
      (r.1, .ok r.2)

/-- `appendLocalLocked`. -/
def appendLocalLocked (s : Locked) (command : List UInt8) : Locked :=
  s.appendLog [⟨s.node.currentTerm, s.node.lastLogIndexLocked + 1, command⟩]

/-- `Propose`: nothing happens at a node that is not the leader. -/
def propose (s : Locked) (command : List UInt8) : Locked :=
  if s.node.role ≠ .leader then s else s.appendLocalLocked command

/-- `ProposeSync` up to the point where it waits on its channel; the index it
waits for and its term, unless the node is not the leader. -/
def proposeSync (s : Locked) (command : List UInt8) (ch : Nat) :
    Locked × Except RaftError (Nat × Nat) :=
  if s.node.role ≠ .leader then (s, .error .notLeader)
  else
    let index := s.node.lastLogIndexLocked + 1
    ((s.appendLocalLocked command).modify fun n => { n with waiters := n.waiters.insert index ch },
      .ok (index, s.node.currentTerm))

/-- How many members, the leader included, hold the log up to `N` as far as the
leader knows. -/
def matchCount (n : Node) (N : Nat) : Nat :=
  1 + (n.matchIndex.entries.filter fun m => N ≤ m.2).length

/-- The loop of `maybeAdvanceCommitIndexLocked`, from `N` down. -/
def advanceLoop (s : Locked) : Nat → Locked
  | 0 => s
  | N + 1 =>
      if s.node.commitIndex < N + 1 then
        if (s.node.entryAtLocked (N + 1)).map LogEntry.term = some s.node.currentTerm ∧
            quorumSize (s.node.peers.length + 1) ≤ matchCount s.node (N + 1) then
          let s := s.modify fun n => { n with commitIndex := N + 1 }
          (s.emit [.advancedCommit s.node]).applyCommittedLocked
        else advanceLoop s N
      else s

/-- `maybeAdvanceCommitIndexLocked`. -/
def maybeAdvanceCommitIndexLocked (s : Locked) : Locked :=
  s.advanceLoop s.node.lastLogIndexLocked

/-- Where `handleAppendEntriesReplyLocked` moves `nextIndex` after a rejection. -/
def backOff (n : Node) (reply : AppendEntriesReply) : Nat :=
  let next :=
    if reply.conflictTerm ≠ 0 then
      let lastIdx := n.lastIndexOfTermLocked reply.conflictTerm
      if 0 < lastIdx then lastIdx + 1 else reply.conflictIndex
    else reply.conflictIndex
  if next < 1 then 1 else next

/-- `handleAppendEntriesReplyLocked`. -/
def handleAppendEntriesReplyLocked (s : Locked) (peer : String) (sentPrevLogIndex : Nat)
    (numEntriesSent : Nat) (reply : AppendEntriesReply) (fails : Bool) : Locked :=
  if s.node.currentTerm < reply.term then (s.observeTermLocked reply.term fails).1
  else if reply.success then
    (s.modify fun n => n.recordMatch peer (sentPrevLogIndex + numEntriesSent))
      |>.maybeAdvanceCommitIndexLocked
  else s.modify fun n => { n with nextIndex := n.nextIndex.insert peer (backOff n reply) }

/-- `sendAppendEntriesAndHandle` from the reply on: the node, and whether the
reply counts as an acknowledgement. -/
def handleAppendEntriesReply (s : Locked) (term : Nat) (r : OutgoingAppendEntries)
    (reply : AppendEntriesReply) (fails : Bool) : Locked × Bool :=
  if s.node.role ≠ .leader ∨ s.node.currentTerm ≠ term then (s, false)
  else (s.handleAppendEntriesReplyLocked r.peer r.prevIndex r.numEntries reply fails,
    reply.term = term ∧ reply.success)

end Locked

end B5KvStore
