import B5KvStore.Server.Basic

/-!
# The store behind the proxy

Clients call the proxy, the proxy calls the servers of the nodes, and the servers hand their calls
to the cluster.  A client call may take several calls of nodes: a write follows redirects, a read
falls back on the leader.  What the proxy sends may arrive late, also when nobody waits for the
answer any more, or not at all.

* `Gateway`, `Gateway.step` — clients, proxy, servers and cluster.
* `Proxy.Proceeds` — how a client call goes on.
* `KVCall.Continues`, `Servers.continues_step` — how the call of a server goes on.
-/

namespace B5KvStore

/-! ## Calls of nodes -/

/-- The proxy has called a node: for this client call, at this address.  Once it has arrived, it is
this call of the servers. -/
structure Rpc where
  request : Nat
  server : String
  call : Option Nat
  deriving DecidableEq, Repr

/-- A client call: when it was made, which call of a node it waits for, and when it was
answered. -/
structure Client where
  invoked : Nat
  awaiting : Option Nat
  answered : Option Nat
  deriving DecidableEq, Repr

/-- The servers with the cluster, the proxy, and what is between them. -/
structure Gateway (lib : Gobreaker) where
  servers : Servers
  proxy : Proxy lib
  rpcs : List Rpc
  clients : List Client

inductive GatewayAction where
  /-- Something happens in the servers or the cluster. -/
  | servers (a : ServersAction)
  /-- Something happens in the proxy. -/
  | proxy (a : ProxyAction)
  /-- A call of a node arrives. -/
  | deliver (i : Nat)
  /-- The reply to a call of a node arrives, and the proxy is still waiting for it. -/
  | reply (i : Nat)

/-- The step is a call that comes in. -/
def ServersAction.isReceive : ServersAction → Bool
  | .receive _ _ => true
  | _ => false

/-- The step is the reply of a node. -/
def ProxyAction.isReply : ProxyAction → Bool
  | .request _ (.answer (.write _)) | .request _ (.answer (.get _)) => true
  | _ => false

/-- The reply of a server. -/
def KVCall.reply? (x : KVCall) : Option RpcResult :=
  match x.stage with
  | .returned _ reply => some reply
  | _ => none

/-- The node that is called. -/
def RequestPhase.called? : RequestPhase → Option String
  | .waiting _ addr _ _ => some addr
  | _ => none

/-- The client call has gone on to this phase. -/
def Client.goOn (clock rpc : Nat) (client : Client) : RequestPhase → Client
  | .waiting _ _ _ _ => { client with awaiting := some rpc }
  | .finished _ => { client with awaiting := none, answered := some clock }
  | _ => { client with awaiting := none }

/-- Time passes. -/
def Servers.tick (s : Servers) : Servers := { s with clock := s.clock + 1 }

namespace Gateway

variable {lib : Gobreaker}

/-- Nothing is under way. -/
def init (lib : Gobreaker) (c : Config) : Gateway lib := ⟨.init c, newProxy lib, [], []⟩

/-- A client call has gone on to this phase, and may have called a node. -/
def goOn (s : Gateway lib) (k : Nat) (p : Proxy lib) (phase : RequestPhase) : Gateway lib where
  servers := s.servers.tick
  proxy := p
  rpcs := s.rpcs ++ (phase.called?.map fun addr => ⟨k, addr, none⟩).toList
  clients := s.clients.modify k fun client => client.goOn s.servers.clock s.rpcs.length phase

/-- The proxy takes a step. -/
def stepProxy (s : Gateway lib) (a : ProxyAction) : Option (Gateway lib) := do
  let p ← s.proxy.step a
  match a with
  | .call _ => some { s with
      servers := s.servers.tick
      proxy := p
      clients := s.clients ++ [⟨s.servers.clock, none, none⟩] }
  | .request k _ => do
      let req ← p.requests[k]?
      some (s.goOn k p req.phase)
  | _ => some { s with servers := s.servers.tick, proxy := p }

/-- One step, if it is possible. -/
def step (c : Config) (marshal : Marshal) (s : Gateway lib) : GatewayAction → Option (Gateway lib)
  | .servers a => do
      guard (a.isReceive = false)
      let servers ← s.servers.step c marshal a
      some { s with servers := servers }
  | .proxy a => do
      guard (a.isReply = false)
      s.stepProxy a
  | .deliver i => do
      let rpc ← s.rpcs[i]?
      guard (rpc.call = none)
      let req ← s.proxy.requests[rpc.request]?
      let servers ← s.servers.step c marshal (.receive rpc.server req.call)
      some { s with
        servers := servers
        rpcs := s.rpcs.set i { rpc with call := some s.servers.calls.length } }
  | .reply i => do
      let rpc ← s.rpcs[i]?
      let client ← s.clients[rpc.request]?
      guard (client.awaiting = some i)
      let j ← rpc.call
      let x ← s.servers.calls[j]?
      let reply ← x.reply?
      s.stepProxy (.request rpc.request (.answer reply))

end Gateway

/-! ## A client call goes on -/

def ClientCall.isWrite : ClientCall → Bool
  | .write _ _ _ => true
  | .get _ => false

def Route.isWrite : Route → Bool
  | .write _ => true
  | .follower | .leaderPath _ | .singleHop => false

/-- The client is told to try again. -/
def ClientResult.Unavailable (result : ClientResult) : Prop :=
  ∃ message retryAfter, result = .failed (errUnavailable message retryAfter)

/-- What becomes of a client call when it goes on. -/
inductive Proxy.Proceeds (call : ClientCall) : RequestAction → RequestPhase → RequestPhase → Prop
  /-- The next address is looked at. -/
  | look (view : Pb.ClusterView) (addrs addrs' : List String) :
      Proceeds call .checkOpen (.checking view addrs) (.checking view addrs')
  | choose (view : Pb.ClusterView) (addrs : List String) (route : Route) (addr : String)
      (hroute : route.isWrite = call.isWrite) :
      Proceeds call .checkOpen (.checking view addrs) (.calling route addr)
  | lookUp (route : Route) (addr : String) (b : Nat) :
      Proceeds call .breakerFor (.calling route addr) (.entering route addr b)
  /-- The breaker lets the call through. -/
  | enter (route : Route) (addr : String) (b generation : Nat) :
      Proceeds call .enter (.entering route addr b) (.waiting route addr b generation)
  /-- The follower is not to be reached, or cannot answer. -/
  | blocked (addr : String) (b : Nat) :
      Proceeds call .enter (.entering .follower addr b) .falling
  | fall (addr : String) (b generation : Nat) (result : RpcResult) :
      Proceeds call (.answer result) (.waiting .follower addr b generation) .falling
  | fallback (addr : String) : Proceeds call .fallback .falling (.calling .singleHop addr)
  | giveUp (a : RequestAction) (phase : RequestPhase) (result : ClientResult)
      (hphase : ∀ r, phase ≠ .finished r) (hresult : result.Unavailable) :
      Proceeds call a phase (.finished result)
  | wrote (m : Nat) (addr : String) (b generation : Nat) (reply : WriteReply)
      (hok : reply.success = true) :
      Proceeds call (.answer (.write reply)) (.waiting (.write m) addr b generation)
        (.finished (.wrote reply))
  | read (route : Route) (addr : String) (b generation : Nat) (reply : GetReply)
      (hok : reply.ok = true) (hfound : reply.found = true) :
      Proceeds call (.answer (.get reply)) (.waiting route addr b generation)
        (.finished (.read reply))
  | notFound (route : Route) (addr : String) (b generation : Nat) (reply : GetReply)
      (hok : reply.ok = true) (hfound : reply.found = false) :
      Proceeds call (.answer (.get reply)) (.waiting route addr b generation)
        (.finished (.failed (errNotFound "key not found")))
  /-- A node names another leader. -/
  | redirectWrite (m : Nat) (addr : String) (b generation : Nat) (reply : WriteReply)
      (hno : reply.success = false) (hknown : reply.redirectLeader ≠ "") (hm : m + 1 ≤ maxHops) :
      Proceeds call (.answer (.write reply)) (.waiting (.write m) addr b generation)
        (.calling (.write (m + 1)) reply.redirectLeader)
  | redirectRead (m : Nat) (addr : String) (b generation : Nat) (reply : GetReply) :
      Proceeds call (.answer (.get reply)) (.waiting (.leaderPath m) addr b generation)
        (.calling (.leaderPath (m + 1)) reply.redirectLeader)

namespace Proxy

variable {lib : Gobreaker} {p : Proxy lib} {call : ClientCall} {a : RequestAction}
  {phase : RequestPhase}

theorem proceeds_giveUp (hphase : ∀ r, phase ≠ .finished r) (message : String) (retryAfter : Nat) :
    Proceeds call a phase (p.giveUp message retryAfter).2 :=
  .giveUp a phase _ hphase ⟨message, retryAfter, rfl⟩

theorem proceeds_callLeader (route : Route) (addr : String) (hphase : ∀ r, phase ≠ .finished r)
    (h : Proceeds call a phase (.calling route addr)) :
    Proceeds call a phase (p.callLeader route addr).2 := by
  unfold callLeader
  split
  · exact proceeds_giveUp hphase _ _
  · exact h

theorem proceeds_dispatch (view : Pb.ClusterView) (addrs : List String) :
    Proceeds call .checkOpen (.checking view addrs) (p.dispatch view call).2 := by
  cases call with
  | write op key value => exact proceeds_callLeader _ _ nofun (.choose _ _ _ _ rfl)
  | get key =>
      unfold dispatch
      dsimp only
      split
      · exact proceeds_callLeader _ _ nofun (.choose _ _ _ _ rfl)
      · exact .choose _ _ _ _ rfl

theorem proceeds_callFailed (detail : String) {route : Route} (hphase : ∀ r, phase ≠ .finished r)
    (hfall : route = .follower → Proceeds call a phase .falling) :
    Proceeds call a phase (p.callFailed detail route).2 := by
  cases route with
  | follower => exact hfall rfl
  | _ => exact proceeds_giveUp hphase _ _

theorem proceeds_finishGet (route : Route) (addr : String) (b generation : Nat) {reply : GetReply}
    (hok : reply.ok = true) : Proceeds call (.answer (.get reply))
      (.waiting route addr b generation) (p.finishGet reply).2 := by
  unfold finishGet
  split
  · exact .read route addr b generation reply hok ‹_›
  · exact .notFound route addr b generation reply hok (Bool.eq_false_of_not_eq_true ‹_›)

theorem proceeds_followRedirect (redirect unknown : String) (m : Nat) (next : Nat → Route)
    (hphase : ∀ r, phase ≠ .finished r)
    (h : redirect ≠ "" → m + 1 ≤ maxHops →
      Proceeds call a phase (.calling (next (m + 1)) redirect)) :
    Proceeds call a phase (p.followRedirect redirect unknown m next).2 := by
  unfold followRedirect
  split
  · exact proceeds_giveUp hphase _ _
  · dsimp only
    split
    · exact h ‹_› ‹_›
    · exact proceeds_giveUp hphase _ _

theorem proceeds_callReturned (route : Route) (addr : String) (b generation : Nat)
    (result : RpcResult) : Proceeds call (.answer result) (.waiting route addr b generation)
      (p.callReturned route result).2 := by
  have hfailed : ∀ detail, Proceeds call (.answer result) (.waiting route addr b generation)
      (p.callFailed detail route).2 := fun detail => by
    refine proceeds_callFailed detail nofun fun hroute => ?_
    subst hroute
    exact .fall addr b generation result
  unfold callReturned
  split
  · split
    · exact .wrote _ _ _ _ _ ‹_›
    · rename_i hno
      exact proceeds_followRedirect _ _ _ _ nofun fun hknown hm =>
        .redirectWrite _ _ _ _ _ (Bool.eq_false_of_not_eq_true hno) hknown hm
  · split
    · exact proceeds_finishGet _ _ _ _ ‹_›
    · exact proceeds_followRedirect _ _ _ _ nofun fun _ _ => .redirectRead _ _ _ _ _
  · split
    · exact proceeds_finishGet _ _ _ _ ‹_›
    · split <;> exact .fall _ _ _ _
  · split
    · exact proceeds_finishGet _ _ _ _ ‹_›
    · exact proceeds_giveUp (by simp) _ _
  all_goals exact hfailed _

/-- **How a client call goes on.** -/
theorem proceed_proceeds {r : Proxy lib × RequestPhase} (h : p.proceed call a phase = some r) :
    Proceeds call a phase r.2 := by
  unfold proceed at h
  split at h
  · rename_i view addrs
    obtain rfl := Option.some.inj h
    cases addrs with
    | nil =>
        dsimp only [checkOpen]
        split
        · exact proceeds_dispatch view []
        · exact .giveUp _ _ _ (fun _ h => nomatch h) ⟨_, _, rfl⟩
    | cons addr addrs =>
        dsimp only [checkOpen]
        split
        · exact .look view _ _
        · exact proceeds_dispatch view _
  · obtain rfl := Option.some.inj h
    exact .lookUp _ _ _
  · rename_i route addr b
    obtain rfl := Option.some.inj h
    unfold enter
    dsimp only
    split
    · exact .enter _ _ _ _
    · refine proceeds_callFailed _ nofun fun hroute => ?_
      subst hroute
      exact .blocked addr b
  · obtain rfl := Option.some.inj h
    exact proceeds_callReturned _ _ _ _ _
  · obtain rfl := Option.some.inj h
    exact proceeds_callLeader _ _ nofun (.fallback _)
  · exact absurd h (by simp)

end Proxy

/-! ## A call of the servers goes on -/

/-- The same call, and nothing more happens to it once it has been answered. -/
structure KVCall.Continues (x x' : KVCall) : Prop where
  request : x'.request = x.request
  invoked : x'.invoked = x.invoked
  replied : x.reply? ≠ none → x' = x

section

variable {c : Config} {marshal : Marshal} {s s' : Servers} {x x' : KVCall} {act : ServersAction}

theorem KVCall.Continues.refl (x : KVCall) : x.Continues x := ⟨rfl, rfl, fun _ => rfl⟩

theorem KVCall.Move.continues {act? : Option Action} (h : x.Move marshal s x' act?) :
    x.Continues x' := by
  have hreply : ∀ {stage}, x.stage = stage → (∀ time reply, stage ≠ .returned time reply) →
      x.reply? ≠ none → x' = x := by
    intro stage hstage hno hsome
    refine absurd ?_ hsome
    unfold KVCall.reply?
    split
    · rename_i time reply hret
      exact absurd (hstage.symm.trans hret) (hno time reply)
    · rfl
  cases h with
  | unencoded detail hstage => exact ⟨rfl, rfl, hreply hstage nofun⟩
  | accept payload hstage => exact ⟨rfl, rfl, hreply hstage nofun⟩
  | refuse payload hstage => exact ⟨rfl, rfl, hreply hstage nofun⟩
  | crash payload k hstage => exact ⟨rfl, rfl, hreply hstage nofun⟩
  | returns k call outcome hstage =>
      have hsame : (x.outcome s.clock call.index outcome).request = x.request ∧
          (x.outcome s.clock call.index outcome).invoked = x.invoked := by
        unfold KVCall.outcome
        split <;> exact ⟨rfl, rfl⟩
      exact ⟨hsame.1, hsame.2, hreply hstage nofun⟩
  | cancel k hstage => exact ⟨rfl, rfl, hreply hstage nofun⟩
  | lead hstage =>
      rcases hstage with ⟨hstage, -⟩ | hstage
      · exact ⟨rfl, rfl, hreply hstage nofun⟩
      · exact ⟨rfl, rfl, hreply hstage nofun⟩
  | follow hstage => exact ⟨rfl, rfl, hreply hstage nofun⟩
  | noLeader hstage => exact ⟨rfl, rfl, hreply hstage nofun⟩
  | ask leader hstage => exact ⟨rfl, rfl, hreply hstage nofun⟩
  | readDone r call k hstage => exact ⟨rfl, rfl, hreply hstage nofun⟩
  | readFailed r hstage => exact ⟨rfl, rfl, hreply hstage nofun⟩
  | value key hstage => exact ⟨rfl, rfl, hreply hstage nofun⟩
  | redirect leader hstage => exact ⟨rfl, rfl, hreply hstage nofun⟩

/-- The calls before and after a step that is not a call coming in. -/
structure Servers.Continues (s s' : Servers) : Prop where
  clock : s.clock ≤ s'.clock
  length : s'.calls.length = s.calls.length
  calls : ∀ (j : Nat) (x : KVCall), s.calls[j]? = some x →
    ∃ x', s'.calls[j]? = some x' ∧ x.Continues x'

theorem Servers.Continues.tick (s : Servers) : s.Continues s.tick :=
  ⟨Nat.le_succ _, rfl, fun _ x hx => ⟨x, hx, .refl x⟩⟩

theorem Servers.continues_setCall {j : Nat} (hj : s.calls[j]? = some x) (hx : x.Continues x')
    (cl : Cluster) : s.Continues (s.setCall j x' cl) := by
  refine ⟨Nat.le_succ _, List.length_set, fun i y hy => ?_⟩
  by_cases hi : j = i
  · subst hi
    obtain rfl := Option.some.inj (hj.symm.trans hy)
    exact ⟨x', List.getElem?_set_self (List.getElem?_eq_some_iff.1 hj).1, hx⟩
  · exact ⟨y, (List.getElem?_set_ne hi).trans hy, .refl y⟩

theorem Servers.continues_step (hnew : s.Unproposed) (hact : act.isReceive = false)
    (hs : s.step c marshal act = some s') : s.Continues s' := by
  have hhandle : ∀ {r}, s.moved marshal act = some r →
      ∀ cl, s.Continues (s.setCall r.1 r.2.2.1 cl) := by
    intro r hr cl
    obtain ⟨hj, -, hmove⟩ := Servers.moved_move hnew hr
    exact Servers.continues_setCall hj hmove.continues cl
  cases act with
  | cluster b =>
      simp only [Servers.step] at hs
      split at hs
      · obtain ⟨cl, -, rfl⟩ := Option.map_eq_some_iff.1 hs
        exact ⟨Nat.le_succ _, rfl, fun _ x hx => ⟨x, hx, .refl x⟩⟩
      · exact absurd hs (by simp)
  | receive p request => exact absurd hact (by simp [ServersAction.isReceive])
  | handle i =>
      simp only [Servers.step, Option.bind_eq_bind, Option.bind_eq_some_iff] at hs
      obtain ⟨r, hr, cl, -, hs⟩ := hs
      obtain rfl := Option.some.inj hs
      exact hhandle hr cl
  | timeout i =>
      simp only [Servers.step, Option.bind_eq_bind, Option.bind_eq_some_iff] at hs
      obtain ⟨r, hr, cl, -, hs⟩ := hs
      obtain rfl := Option.some.inj hs
      exact hhandle hr cl
  | crash i k =>
      simp only [Servers.step, Option.bind_eq_bind, Option.bind_eq_some_iff] at hs
      obtain ⟨r, hr, cl, -, hs⟩ := hs
      obtain rfl := Option.some.inj hs
      exact hhandle hr cl

end

end B5KvStore
