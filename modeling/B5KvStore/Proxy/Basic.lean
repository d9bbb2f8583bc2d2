import B5KvStore.Proxy.Breaker
import B5KvStore.Raft.Types

/-!
# The client proxy

The proxy keeps the last cluster view that Discovery has given it and one breaker for each
address.  A client call follows redirects from node to node, and every call of a node goes
through the breaker of its address.  The goroutines of the proxy meet at its locks: what a
client call or a refresh is about to do next is a state of its own, and what it does under one
lock is one action.

A breaker is an object.  A call that has looked one up keeps it, even if `Prune` takes it out
of the registry in the meantime.

* `Pb.ClusterView`, `pollOnce` — what Discovery makes of the answers of one poll.
* `Proxy`, `ProxyAction`, `Proxy.step` — the proxy.
* `ProxyEvent` — the calls of nodes that are attempted, and the breakers that trip.
* `Proxy.Routes` — routing does not touch the breakers.
-/

namespace B5KvStore

/-! ## Discovery -/

/-- `pb.ClusterView`, with the addresses of its nodes. -/
structure Pb.ClusterView where
  leaderAddress : String
  followers : List String
  allNodes : List String
  deriving DecidableEq, Repr

/-- The answer of one peer to a poll: its role and its term, unless it did not answer. -/
structure PollResult where
  addr : String
  reply : Option (Role × Nat)
  deriving DecidableEq, Repr

/-- The loop of `PollOnce` over the results, in the order in which they arrive. -/
def pollLoop (view : Pb.ClusterView) (leaderTerm : Option Nat) :
    List PollResult → Pb.ClusterView
  | [] => view
  | ⟨_, none⟩ :: results => pollLoop view leaderTerm results
  | ⟨addr, some (role, term)⟩ :: results =>
      let view := { view with allNodes := view.allNodes ++ [addr] }
      match role with
      | .leader =>
          -- among nodes that claim to lead, the highest term is preferred
          if ∀ t ∈ leaderTerm, t ≤ term then
            pollLoop { view with leaderAddress := addr } (some term) results
          else pollLoop view leaderTerm results
      | .follower => pollLoop { view with followers := view.followers ++ [addr] } leaderTerm results
      | .candidate => pollLoop view leaderTerm results

/-- `PollOnce`: the view is built from scratch. -/
def pollOnce (results : List PollResult) : Pb.ClusterView := pollLoop ⟨"", [], []⟩ none results

/-! ## Calls and replies -/

/-- `WriteOp`. -/
inductive WriteOp where
  | opPut
  | opUpdate
  | opDelete
  deriving DecidableEq, Repr

/-- What a client asks for. -/
inductive ClientCall where
  | write (op : WriteOp) (key value : String)
  | get (key : String)
  deriving DecidableEq, Repr

/-- `pb.WriteReply`. -/
structure WriteReply where
  success : Bool
  commitIndex : Nat := 0
  redirectLeader : String := ""
  deriving DecidableEq, Repr

/-- `pb.GetReply`. -/
structure GetReply where
  ok : Bool
  found : Bool := false
  value : String := ""
  redirectLeader : String := ""
  deriving DecidableEq, Repr

/-- What the call of a node comes back with. -/
inductive RpcResult where
  | write (reply : WriteReply)
  | get (reply : GetReply)
  | error (detail : String)
  deriving DecidableEq, Repr

/-- The breaker counts a call that returns no error as a success. -/
def RpcResult.isSuccessful : RpcResult → Bool
  | .error _ => false
  | .write _ | .get _ => true

/-- `apiError`. -/
structure ApiError where
  status : Nat
  code : String
  message : String
  retryAfter : Nat := 0
  deriving DecidableEq, Repr

def errUnavailable (message : String) (retryAfter : Nat) : ApiError :=
  ⟨503, "unavailable", message, retryAfter⟩

def errNotFound (message : String) : ApiError := { status := 404, code := "not_found", message }

def maxHops : Nat := 3
def defaultRefreshInterval : Nat := 2000
def circuitbreakerRetryAfter : Nat := 2000

/-- What the client gets. -/
inductive ClientResult where
  | wrote (reply : WriteReply)
  | read (reply : GetReply)
  | failed (err : ApiError)
  deriving DecidableEq, Repr

/-! ## The goroutines -/

/-- Why a node is called: `Write` and `leaderPathGet` count their attempts, `Get` asks a
follower first, and `singleHopLeaderGet` asks the leader once. -/
inductive Route where
  | write (attempt : Nat)
  | follower
  | leaderPath (attempt : Nat)
  | singleHop
  deriving DecidableEq, Repr

/-- How far a client call has come. -/
inductive RequestPhase where
  /-- `AllOpen`: these addresses of the view are still to be looked at. -/
  | checking (view : Pb.ClusterView) (addrs : List String)
  /-- `Registry.Call` of an address. -/
  | calling (route : Route) (addr : String)
  /-- `breakerFor` has returned this breaker. -/
  | entering (route : Route) (addr : String) (breaker : Nat)
  /-- The breaker has let the call through, in this generation. -/
  | waiting (route : Route) (addr : String) (breaker generation : Nat)
  /-- `singleHopLeaderGet`. -/
  | falling
  | finished (result : ClientResult)
  deriving DecidableEq, Repr

/-- The address and the breaker of a call that is past `breakerFor`. -/
def RequestPhase.breaker? : RequestPhase → Option (String × Nat)
  | .entering _ addr b | .waiting _ addr b _ => some (addr, b)
  | _ => none

/-- A client call. -/
structure Request where
  call : ClientCall
  phase : RequestPhase
  deriving DecidableEq, Repr

/-- How far a `refreshNow` call has come. -/
inductive RefreshPhase where
  /-- `GetClusterView`. -/
  | fetching
  /-- `Prune` of all addresses but these. -/
  | pruning (live : List String)
  | finished
  deriving DecidableEq, Repr

/-- What can be observed of the calls of nodes. -/
inductive ProxyEvent where
  /-- The breaker of an address has tripped. -/
  | tripped (addr : String) (time : Nat)
  /-- The breaker of an address has let a call through, and the node is called. -/
  | attempted (addr : String) (time : Nat)
  deriving DecidableEq, Repr

/-- `Proxy`, with its breakers, its clock and its goroutines. -/
structure Proxy (lib : Gobreaker) where
  view : Pb.ClusterView
  rrIndex : Nat
  /-- The registry: which breaker belongs to an address. -/
  breakers : List (String × Nat)
  /-- The breakers there have ever been, and their number. -/
  objects : Nat → lib.CircuitBreaker
  fresh : Nat
  now : Nat
  refreshes : List RefreshPhase
  requests : List Request
  events : List ProxyEvent

/-- `NewProxy`. -/
def newProxy (lib : Gobreaker) : Proxy lib where
  view := ⟨"", [], []⟩
  rrIndex := 0
  breakers := []
  objects := fun _ => lib.newCircuitBreaker (breakerSettings "") 0
  fresh := 0
  now := 0
  refreshes := []
  requests := []
  events := []

namespace Proxy

variable {lib : Gobreaker}

/-! ## The registry of breakers -/

/-- A breaker has changed. -/
def setBreaker (p : Proxy lib) (b : Nat) (cb : lib.CircuitBreaker) : Proxy lib :=
  { p with objects := Function.update p.objects b cb }

/-- `breakerFor`. -/
def breakerFor (p : Proxy lib) (addr : String) : Proxy lib × Nat :=
  match p.breakers.lookup addr with
  | some b => (p, b)
  | none =>
      ({ p.setBreaker p.fresh (lib.newCircuitBreaker (breakerSettings addr) p.now) with
          breakers := p.breakers ++ [(addr, p.fresh)]
          fresh := p.fresh + 1 }, p.fresh)

/-- `Registry.State`. -/
def registryState (p : Proxy lib) (addr : String) : Proxy lib × BreakerState :=
  match p.breakers.lookup addr with
  | some b =>
      let r := lib.state (p.objects b) p.now
      (p.setBreaker b r.1, r.2)
  | none => (p, .stateClosed)

/-- `Prune`. -/
def prune (p : Proxy lib) (live : List String) : Proxy lib :=
  { p with breakers := p.breakers.filter fun entry => entry.1 ∈ live }

/-! ## Client calls -/

/-- `asyncRefresh`. -/
def asyncRefresh (p : Proxy lib) : Proxy lib := { p with refreshes := p.refreshes ++ [.fetching] }

/-- `updateLeaderCache`. -/
def updateLeaderCache (p : Proxy lib) (addr : String) : Proxy lib :=
  { p with view := { p.view with leaderAddress := addr } }

/-- The call fails, and a refresh is started. -/
def giveUp (p : Proxy lib) (message : String) (retryAfter : Nat) : Proxy lib × RequestPhase :=
  (p.asyncRefresh, .finished (.failed (errUnavailable message retryAfter)))

/-- The leader is called on this route, if one is known. -/
def callLeader (p : Proxy lib) (route : Route) (addr : String) : Proxy lib × RequestPhase :=
  if addr = "" then p.giveUp "no known leader" defaultRefreshInterval
  else (p, .calling route addr)

/-- `Write` and `Get` once a node of the view is found whose breaker is not open. -/
def dispatch (p : Proxy lib) (view : Pb.ClusterView) : ClientCall → Proxy lib × RequestPhase
  | .write _ _ _ => p.callLeader (.write 1) view.leaderAddress
  | .get _ =>
      match view.followers with
      | [] => p.callLeader (.leaderPath 1) view.leaderAddress
      | f :: fs =>
          -- `pickFollowerRoundRobin`
          ({ p with rrIndex := p.rrIndex + 1 },
            .calling .follower ((f :: fs).getD (p.rrIndex % (f :: fs).length) f))

/-- One round of the loop of `AllOpen`. -/
def checkOpen (p : Proxy lib) (view : Pb.ClusterView) (call : ClientCall) :
    List String → Proxy lib × RequestPhase
  | [] =>
      -- there is nothing to be open in an empty view
      if view.allNodes = [] then p.dispatch view call
      else (p, .finished (.failed (errUnavailable "every known node's circuit breaker is open"
        circuitbreakerRetryAfter)))
  | addr :: addrs =>
      let r := p.registryState addr
      if r.2 = .stateOpen then (r.1, .checking view addrs) else r.1.dispatch view call

/-- The node that was asked names another leader: the next attempt, if there is one. -/
def followRedirect (p : Proxy lib) (redirect unknown : String) (attempt : Nat)
    (next : Nat → Route) : Proxy lib × RequestPhase :=
  if redirect = "" then p.giveUp unknown defaultRefreshInterval
  else
    let p := p.updateLeaderCache redirect
    if attempt + 1 ≤ maxHops then (p, .calling (next (attempt + 1)) redirect)
    else p.giveUp "redirect-hop budget exhausted" defaultRefreshInterval

/-- What an authoritative read returns to the client. -/
def finishGet (p : Proxy lib) (reply : GetReply) : Proxy lib × RequestPhase :=
  if reply.found then (p, .finished (.read reply))
  else (p, .finished (.failed (errNotFound "key not found")))

/-- The call of a node has failed, in the breaker or on the way. -/
def callFailed (p : Proxy lib) (detail : String) : Route → Proxy lib × RequestPhase
  | .follower => (p, .falling)
  | .write _ | .leaderPath _ | .singleHop =>
      p.giveUp ("failed to reach leader: " ++ detail) circuitbreakerRetryAfter

/-- The call of a node has returned. -/
def callReturned (p : Proxy lib) : Route → RpcResult → Proxy lib × RequestPhase
  | .write attempt, .write reply =>
      if reply.success then (p, .finished (.wrote reply))
      else p.followRedirect reply.redirectLeader "target is not leader and no redirect is known"
        attempt .write
  | .leaderPath attempt, .get reply =>
      if reply.ok then p.finishGet reply
      else p.followRedirect reply.redirectLeader "target could not answer authoritatively"
        attempt .leaderPath
  | .follower, .get reply =>
      if reply.ok then p.finishGet reply
      else if reply.redirectLeader = "" then (p, .falling)
      else (p.updateLeaderCache reply.redirectLeader, .falling)
  | .singleHop, .get reply =>
      if reply.ok then p.finishGet reply
      else p.giveUp "leader could not answer authoritatively" defaultRefreshInterval
  | route, .error detail => p.callFailed detail route
  -- the types of the source exclude that a write is answered like a read, or the reverse
  | route, .get _ | route, .write _ => p.callFailed "" route

/-- The breaker is asked, and the node is called if it lets the call through. -/
def enter (p : Proxy lib) (route : Route) (addr : String) (b : Nat) : Proxy lib × RequestPhase :=
  let r := lib.beforeRequest (p.objects b) p.now
  let p := p.setBreaker b r.1
  match r.2 with
  | .ok generation =>
      ({ p with events := p.events ++ [.attempted addr p.now] }, .waiting route addr b generation)
  | .error detail => p.callFailed detail route

/-- The breaker is told the result; when it trips, a refresh is started. -/
def report (p : Proxy lib) (addr : String) (b generation : Nat) (success : Bool) : Proxy lib :=
  let r := lib.afterRequest (p.objects b) generation success p.now
  let p := p.setBreaker b r.1
  if r.2 then asyncRefresh { p with events := p.events ++ [.tripped addr p.now] } else p

/-- A client call goes on. -/
def setPhase (r : Proxy lib × RequestPhase) (k : Nat) : Proxy lib :=
  { r.1 with requests := r.1.requests.modify k fun req => { req with phase := r.2 } }

end Proxy

/-! ## Steps -/

/-- What a client call can do next. -/
inductive RequestAction where
  /-- The next address of `AllOpen`. -/
  | checkOpen
  | breakerFor
  | enter
  /-- The call of a node returns. -/
  | answer (result : RpcResult)
  | fallback
  deriving DecidableEq, Repr

/-- What can happen in the proxy. -/
inductive ProxyAction where
  /-- Time passes. -/
  | elapse (d : Nat)
  /-- A client calls. -/
  | call (c : ClientCall)
  /-- A client call goes on. -/
  | request (k : Nat) (a : RequestAction)
  /-- A scheduled refresh. -/
  | refresh
  /-- Discovery answers a refresh, unless that fails. -/
  | refreshed (k : Nat) (view : Option Pb.ClusterView)
  | prune (k : Nat)
  deriving DecidableEq, Repr

namespace Proxy

variable {lib : Gobreaker}

/-- One step of a client call in this phase. -/
def proceed (p : Proxy lib) (call : ClientCall) : RequestAction → RequestPhase →
    Option (Proxy lib × RequestPhase)
  | .checkOpen, .checking view addrs => some (p.checkOpen view call addrs)
  | .breakerFor, .calling route addr =>
      some ((p.breakerFor addr).1, .entering route addr (p.breakerFor addr).2)
  | .enter, .entering route addr b => some (p.enter route addr b)
  | .answer result, .waiting route addr b generation =>
      some ((p.report addr b generation result.isSuccessful).callReturned route result)
  | .fallback, .falling => some (p.callLeader .singleHop p.view.leaderAddress)
  | _, _ => none

/-- One step, if it is possible. -/
def step (p : Proxy lib) : ProxyAction → Option (Proxy lib)
  | .elapse d => some { p with now := p.now + d }
  | .call c =>
      some { p with requests := p.requests ++ [⟨c, .checking p.view p.view.allNodes⟩] }
  | .request k a => do
      let req ← p.requests[k]?
      let r ← p.proceed req.call a req.phase
      some (setPhase r k)
  | .refresh => some p.asyncRefresh
  | .refreshed k view => do
      let phase ← p.refreshes[k]?
      guard (phase = .fetching)
      match view with
      -- the stale view is kept
      | none => some { p with refreshes := p.refreshes.set k .finished }
      | some view => some { p with
          view := view
          refreshes := p.refreshes.set k (.pruning view.allNodes) }
  | .prune k => do
      let phase ← p.refreshes[k]?
      match phase with
      | .pruning live => some { p.prune live with refreshes := p.refreshes.set k .finished }
      | _ => none

end Proxy

/-! ## Routing -/

/-- The registry, the breakers, the clock and the record of calls are as before, and the call
is not past a breaker. -/
structure Proxy.Routes {lib : Gobreaker} (p : Proxy lib) (r : Proxy lib × RequestPhase) : Prop where
  breakers : r.1.breakers = p.breakers
  objects : r.1.objects = p.objects
  fresh : r.1.fresh = p.fresh
  now : r.1.now = p.now
  requests : r.1.requests = p.requests
  events : r.1.events = p.events
  phase : r.2.breaker? = none

namespace Proxy

variable {lib : Gobreaker} (p : Proxy lib)

theorem objects_setBreaker_self (b : Nat) (cb : lib.CircuitBreaker) :
    (p.setBreaker b cb).objects b = cb := Function.update_self ..

theorem objects_setBreaker_of_ne {b b' : Nat} (h : b' ≠ b) (cb : lib.CircuitBreaker) :
    (p.setBreaker b cb).objects b' = p.objects b' := Function.update_of_ne h ..

theorem routes_stay {phase : RequestPhase} (h : phase.breaker? = none) : p.Routes (p, phase) :=
  ⟨rfl, rfl, rfl, rfl, rfl, rfl, h⟩

theorem routes_giveUp (message : String) (retryAfter : Nat) :
    p.Routes (p.giveUp message retryAfter) := ⟨rfl, rfl, rfl, rfl, rfl, rfl, rfl⟩

theorem routes_callLeader (route : Route) (addr : String) : p.Routes (p.callLeader route addr) := by
  unfold callLeader
  split
  · exact p.routes_giveUp _ _
  · exact p.routes_stay rfl

theorem routes_dispatch (view : Pb.ClusterView) (call : ClientCall) :
    p.Routes (p.dispatch view call) := by
  cases call with
  | write op key value => exact p.routes_callLeader _ _
  | get key =>
      unfold dispatch
      dsimp only
      split
      · exact p.routes_callLeader _ _
      · exact ⟨rfl, rfl, rfl, rfl, rfl, rfl, rfl⟩

theorem routes_followRedirect (redirect unknown : String) (attempt : Nat) (next : Nat → Route) :
    p.Routes (p.followRedirect redirect unknown attempt next) := by
  unfold followRedirect
  split
  · exact p.routes_giveUp _ _
  · dsimp only
    split <;> exact ⟨rfl, rfl, rfl, rfl, rfl, rfl, rfl⟩

theorem routes_finishGet (reply : GetReply) : p.Routes (p.finishGet reply) := by
  unfold finishGet
  split <;> exact p.routes_stay rfl

theorem routes_callFailed (detail : String) (route : Route) :
    p.Routes (p.callFailed detail route) := by
  cases route with
  | follower => exact p.routes_stay rfl
  | _ => exact p.routes_giveUp _ _

theorem routes_callReturned (route : Route) (result : RpcResult) :
    p.Routes (p.callReturned route result) := by
  unfold callReturned
  split
  · split
    · exact p.routes_stay rfl
    · exact p.routes_followRedirect _ _ _ _
  · split
    · exact p.routes_finishGet _
    · exact p.routes_followRedirect _ _ _ _
  · split
    · exact p.routes_finishGet _
    · split
      · exact p.routes_stay rfl
      · exact ⟨rfl, rfl, rfl, rfl, rfl, rfl, rfl⟩
  · split
    · exact p.routes_finishGet _
    · exact p.routes_giveUp _ _
  all_goals exact p.routes_callFailed _ _

end Proxy

end B5KvStore
