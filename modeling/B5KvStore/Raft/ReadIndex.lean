import B5KvStore.Raft.Replication

/-!
# The Read-Index handshake

What `FollowerLinearizableRead` and `RequestReadIndex` decide each time they hold
the lock.  The calls themselves, which stretch over several nodes, are part of
the cluster.
-/

namespace B5KvStore

/-- How `FollowerLinearizableRead` goes on after its first look at the node. -/
inductive ReadStart where
  /-- The node is the leader: return `nil`. -/
  | direct
  /-- No leader is known: `ErrReadIndexUnavailable`. -/
  | unavailable
  /-- Ask the leader at this address. -/
  | ask (leaderAddr : String)
  deriving DecidableEq, Repr

namespace Node

/-- The first critical section of `FollowerLinearizableRead`. -/
def startRead (n : Node) : ReadStart :=
  if n.role = .leader then .direct
  else if n.currentLeader = "" then .unavailable
  else .ask n.currentLeader

/-- The first critical section of `RequestReadIndex`: a refusal, or the term and
the commit index it captures. -/
def requestReadIndex (n : Node) : Except ReadIndexReply (Nat × Nat) :=
  if n.role ≠ .leader then .error { ok := false, redirectLeader := n.currentLeader }
  else .ok (n.currentTerm, n.commitIndex)

/-- The first critical section of `confirmLeadershipQuorum`: the round of
requests, unless leadership is gone. -/
def confirmLeadership (n : Node) (term : Nat) : Option (List OutgoingAppendEntries) :=
  if n.role ≠ .leader ∨ n.currentTerm ≠ term then none
  else some n.buildAppendEntriesRequestsLocked

/-- What `RequestReadIndex` answers when leadership could not be confirmed;
`none` is an error of the call. -/
def readIndexFailed (n : Node) (term : Nat) : Option ReadIndexReply :=
  if n.role = .leader ∧ n.currentTerm = term then none
  else some { ok := false, redirectLeader := n.currentLeader }

/-- `FollowerLinearizableRead` on a refusal: the redirect is remembered. -/
def rememberRedirect (n : Node) (reply : ReadIndexReply) : Node :=
  if reply.redirectLeader ≠ "" then { n with currentLeader := reply.redirectLeader } else n

end Node

end B5KvStore
