import B5KvStore.Raft.Node

/-!
# Elections

`RequestVote`, `startElection` with the handling of its replies, and
`becomeLeaderLocked`.  An `Election` is what the goroutines of one
`startElection` call share: the request they send, and the counter of votes.
-/

namespace B5KvStore

/-- How far one remote call has come.  A lost message leaves it where it is. -/
inductive CallPhase (α : Type) where
  | sent
  | answered (reply : α)
  | finished
  deriving DecidableEq, Repr

/-- What the goroutines of a `startElection` call share. -/
structure Election where
  req : RequestVoteRequest
  quorum : Nat
  votes : Nat
  calls : String → CallPhase RequestVoteReply

/-- `isLogAtLeastAsUpToDate`. -/
def isLogAtLeastAsUpToDate (candTerm candIndex voterTerm voterIndex : Nat) : Bool :=
  if candTerm ≠ voterTerm then voterTerm < candTerm else voterIndex ≤ candIndex

namespace Locked

/-- The first lines of every request handler: a higher term is observed. -/
def observeRequest (s : Locked) (term : Nat) (fails : Bool) : Locked × Option RaftError :=
  if s.node.currentTerm < term then s.observeTermLocked term fails else (s, none)

/-- `RequestVote` once the term of the request has been observed. -/
def castVote (s : Locked) (req : RequestVoteRequest) (fails : Bool) :
    Locked × Except RaftError RequestVoteReply :=
  if req.term < s.node.currentTerm then (s, .ok ⟨s.node.currentTerm, false⟩)
  else if (s.node.votedFor = "" ∨ s.node.votedFor = req.candidateId) ∧
      isLogAtLeastAsUpToDate req.lastLogTerm req.lastLogIndex
        s.node.lastLogTermLocked s.node.lastLogIndexLocked then
    match (s.modify fun n => { n with votedFor := req.candidateId }).persistStateLocked fails with
    | (s, some err) => (s, .error err)
    | (s, none) => (s, .ok ⟨s.node.currentTerm, true⟩)
  else (s, .ok ⟨s.node.currentTerm, false⟩)

/-- `RequestVote`. -/
def requestVote (s : Locked) (req : RequestVoteRequest) (f : SaveFaults) :
    Locked × Except RaftError RequestVoteReply :=
  match s.observeRequest req.term f.observe with
  | (s, some err) => (s, .error err)
  | (s, none) => s.castVote req f.vote

/-- `becomeLeaderLocked`, without the broadcast it starts. -/
def becomeLeaderLocked (s : Locked) : Locked :=
  if s.node.role ≠ .candidate then s
  else
    let s := s.modify fun n =>
      { n with
        role := .leader
        currentLeader := n.address
        nextIndex := n.peers.foldl (fun m p => m.insert p (n.lastLogIndexLocked + 1)) ∅
        matchIndex := n.peers.foldl (fun m p => m.insert p 0) ∅ }
    s.emit [.becameLeader s.node]

/-- `startElection` up to the point where it releases the lock: the election it
starts, if it gets that far.  With a quorum of one there is nobody to ask. -/
def startElection (s : Locked) (fails : Bool) : Locked × Option Election :=
  if s.node.role = .leader then (s, none)
  else
    let s := (s.setRoleLocked .candidate).modify fun n =>
      { n with currentTerm := n.currentTerm + 1, votedFor := n.id }
    match s.persistStateLocked fails with
    | (s, some _) => (s, none)
    | (s, none) =>
        let quorum := quorumSize (s.node.peers.length + 1)
        (s, some
          { req := ⟨s.node.currentTerm, s.node.id, s.node.lastLogIndexLocked,
              s.node.lastLogTermLocked⟩
            quorum := quorum
            votes := 1
            calls := fun p => if p ∈ s.node.peers ∧ 1 < quorum then .sent else .finished })

/-- The second critical section of `startElection`, for a quorum of one. -/
def soloElection (s : Locked) (e : Election) : Locked :=
  if s.node.role = .candidate ∧ s.node.currentTerm = e.req.term then s.becomeLeaderLocked else s

/-- What a goroutine of `startElection` does with the reply it gets: the node,
and the counter of votes. -/
def handleRequestVoteReply (s : Locked) (e : Election) (reply : RequestVoteReply) (fails : Bool) :
    Locked × Nat :=
  if s.node.currentTerm < reply.term then ((s.observeTermLocked reply.term fails).1, e.votes)
  else if s.node.role ≠ .candidate ∨ s.node.currentTerm ≠ e.req.term then (s, e.votes)
  else
    let votes := if reply.voteGranted then e.votes + 1 else e.votes
    (if reply.voteGranted ∧ e.quorum ≤ votes then s.becomeLeaderLocked else s, votes)

end Locked

end B5KvStore
