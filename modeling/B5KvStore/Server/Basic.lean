import B5KvStore.Cluster.Provenance
import B5KvStore.Cluster.StateMachine
import B5KvStore.Cluster.WriteOrder
import B5KvStore.Proxy.AtMostOnce

/-!
# The key-value servers

Every consensus node offers `KVService` to clients.  A write is proposed and answered once it is
committed; a read is answered from the map of the node, at once if the node is the leader and
after a `FollowerLinearizableRead` otherwise.  A handler is not one critical section: it looks at
the node, waits, and looks again, and anything may happen in between.

How a command becomes bytes is a parameter, `marshal`: `proto.Marshal`, which may fail.

* `KVCall` — one call of `Get`, `Put`, `Update` or `Delete`, with how far its handler has come.
* `Servers.step` — the handlers, and the cluster they run in.
* `KVCall.Move`, `Servers.stepView` — what a step can do to a call.
-/

namespace B5KvStore

/-! ## Calls -/

/-- The command of a write. -/
def ClientCall.command? : ClientCall → Option KVCommand
  | .write op key value => some (op.command key value)
  | .get _ => none

/-- A command as bytes, or the text of the error. -/
abbrev Marshal := KVCommand → Except String (List UInt8)

/-- The bytes of the write that is asked for. -/
def ClientCall.Payload (marshal : Marshal) (request : ClientCall) (payload : List UInt8) : Prop :=
  ∃ cmd, request.command? = some cmd ∧ marshal cmd = .ok payload

/-- How far the handler of a call has come. -/
inductive KVStage where
  | entered
  /-- `ProposeSync` is waiting, as this proposal of the cluster. -/
  | proposed (k : Nat)
  /-- `Status` did not report the leader; `FollowerLinearizableRead` comes next. -/
  | following
  /-- `FollowerLinearizableRead` is this read of the cluster. -/
  | reading (r : Nat)
  /-- The map is read next. -/
  | confirmed
  /-- The call is turned down; `LeaderAddress` comes next. -/
  | redirecting
  | returned (time : Nat) (reply : RpcResult)
  deriving DecidableEq, Repr

/-- A call of `KVService`.  `startedAt` is the length of the history when it came in, `entry` the
entry that was appended for it, and `seen` the value of `lastApplied` when the map was read. -/
structure KVCall where
  server : String
  epoch : Nat
  request : ClientCall
  invoked : Nat
  startedAt : Nat
  stage : KVStage
  entry : Option LogEntry
  seen : Nat
  deriving DecidableEq, Repr

/-- The cluster, the calls of its servers, and a clock that counts steps. -/
structure Servers where
  cluster : Cluster
  calls : List KVCall
  clock : Nat

inductive ServersAction where
  /-- Something happens in the cluster that is no part of a handler. -/
  | cluster (a : Action)
  /-- A call comes in. -/
  | receive (p : String) (request : ClientCall)
  /-- The handler of a call goes on. -/
  | handle (j : Nat)
  /-- The timeout of a write ends. -/
  | timeout (j : Nat)
  /-- The process crashes while it appends the entry of a write, after `k` disk writes. -/
  | crash (j k : Nat)

/-- The call whose handler goes on. -/
def ServersAction.call? : ServersAction → Option Nat
  | .handle j | .timeout j | .crash j _ => some j
  | .cluster _ | .receive _ _ => none

/-- The critical sections that are no part of a handler of `KVService`. -/
def Op.internal : Op → Bool
  | .propose _ _ | .proposeSync _ _ | .proposeReturn _ | .proposeCancel _ | .startRead _
  | .getStatus _ | .getValue _ _ => false
  | _ => true

def Action.internal : Action → Bool
  | .run op | .crashDuring op _ => op.internal
  | .crash _ | .publish _ => true

namespace KVCall

/-- The section of `ProposeSync` that appends the entry. -/
def proposeSync (x : KVCall) (payload : List UInt8) : Op := .proposeSync x.server payload

/-- What `ProposeSync` makes of the call. -/
def propose (s : Cluster) (payload : List UInt8) (x : KVCall) : KVCall :=
  match ((s.hosts x.server).node.lock.proposeSync payload s.proposals.length).2 with
  | .ok (index, term) =>
      { x with stage := .proposed s.proposals.length, entry := some ⟨term, index, payload⟩ }
  | .error _ => { x with stage := .redirecting }

/-- What `write` makes of the outcome of `ProposeSync`. -/
def outcome (time index : Nat) (x : KVCall) : Option RaftError → KVCall
  | none => { x with stage := .returned time (.write { success := true, commitIndex := index }) }
  | some .notLeader | some .leadershipLost => { x with stage := .redirecting }
  | some .saveState => { x with stage := .returned time (.error "save state") }

/-- The reply that names the leader. -/
def redirect (leader : String) : ClientCall → RpcResult
  | .write _ _ _ => .write { success := false, redirectLeader := leader }
  | .get _ => .get { ok := false, redirectLeader := leader }

/-- The reply to a read. -/
def getReply (v : Option String) : RpcResult :=
  .get { ok := true, found := v.isSome, value := v.getD "" }

end KVCall

namespace Servers

/-- Nothing is under way. -/
def init (c : Config) : Servers := ⟨c.init, [], 0⟩

/-- A handler goes on. -/
def setCall (s : Servers) (j : Nat) (x : KVCall) (cluster : Cluster) : Servers :=
  ⟨cluster, s.calls.set j x, s.clock + 1⟩

variable (c : Config) (marshal : Marshal)

/-- The next section of a handler: the call afterwards, and what it does in the cluster. -/
def next (s : Servers) (x : KVCall) : Option (KVCall × Option Action) :=
  let h := s.cluster.hosts x.server
  match x.stage, x.request with
  | .entered, .write op key value =>
      match marshal (op.command key value) with
      | .ok payload => some (x.propose s.cluster payload, some (.run (x.proposeSync payload)))
      | .error detail => some ({ x with stage := .returned s.clock (.error detail) }, none)
  | .entered, .get _ =>
      some ({ x with stage := if h.node.role = .leader then .confirmed else .following }, none)
  | .proposed k, _ => do
      let call ← s.cluster.proposals[k]?
      let outcome ← call.chan
      some (x.outcome s.clock call.index outcome, some (.run (.proposeReturn k)))
  | .following, _ =>
      match h.node.startRead with
      | .direct => some ({ x with stage := .confirmed }, none)
      | .unavailable => some ({ x with stage := .redirecting }, none)
      | .ask _ => some ({ x with stage := .reading s.cluster.reads.length },
          some (.run (.startRead x.server)))
  | .reading r, _ => do
      let call ← s.cluster.reads[r]?
      match call.phase with
      | .done _ => some ({ x with stage := .confirmed }, none)
      | .unavailable => some ({ x with stage := .redirecting }, none)
      | _ => none
  | .confirmed, .get key =>
      some ({ x with
        stage := .returned s.clock (KVCall.getReply (h.kv key)), seen := h.node.lastApplied }, none)
  | .redirecting, request =>
      some ({ x with
        stage := .returned s.clock (KVCall.redirect h.node.currentLeader request) }, none)
  | _, _ => none

/-- What the handler of a call does when its time is up. -/
def cancel (s : Servers) (x : KVCall) : Option (KVCall × Option Action) :=
  match x.stage with
  | .proposed k =>
      some ({ x with stage := .returned s.clock (.error "context deadline exceeded") },
        some (.run (.proposeCancel k)))
  | _ => none

/-- The process crashes while it appends the entry.  The entry is there if the record had been
written. -/
def crashed (s : Servers) (k : Nat) (x : KVCall) : Option (KVCall × Option Action) :=
  match x.stage, x.request with
  | .entered, .write op key value =>
      match marshal (op.command key value) with
      | .ok payload =>
          some ({ x with
              entry := if 0 < k then (x.propose s.cluster payload).entry else none },
            some (.crashDuring (x.proposeSync payload) k))
      | .error _ => none
  | _, _ => none

/-- What the handler of a call does in a step. -/
def attempt (s : Servers) (x : KVCall) : ServersAction → Option (KVCall × Option Action)
  | .handle _ => s.next marshal x
  | .timeout _ => s.cancel x
  | .crash _ k => s.crashed marshal k x
  | .cluster _ | .receive _ _ => none

/-- The call that a step moves on, with what becomes of it and of the cluster.  Handlers of a
process that has been restarted are gone. -/
def moved (s : Servers) (act : ServersAction) : Option (Nat × KVCall × KVCall × Option Action) := do
  let j ← act.call?
  let x ← s.calls[j]?
  guard (x.epoch = (s.cluster.hosts x.server).epoch)
  let m ← s.attempt marshal x act
  some (j, x, m)

/-- What a step does in the cluster. -/
def clusterAction? (s : Servers) : ServersAction → Option Action
  | .cluster a => some a
  | act => (s.moved marshal act).bind fun m => m.2.2.2

/-- The cluster takes a step, or stays as it is. -/
def stepCluster (c : Config) (s : Cluster) : Option Action → Option Cluster
  | none => some s
  | some a => B5KvStore.step c s a

/-- One step, if it is possible. -/
def step (s : Servers) : ServersAction → Option Servers
  | .cluster a =>
      if a.internal then
        (B5KvStore.step c s.cluster a).map fun cluster => ⟨cluster, s.calls, s.clock + 1⟩
      else none
  | .receive p request =>
      if p ∈ c.addrs then
        some ⟨s.cluster, s.calls ++ [⟨p, (s.cluster.hosts p).epoch, request, s.clock,
          s.cluster.history.length, .entered, none, 0⟩], s.clock + 1⟩
      else none
  | act => do
      let (j, _, x', a) ← s.moved marshal act
      let cluster ← stepCluster c s.cluster a
      some (s.setCall j x' cluster)

end Servers

/-! ## What a step can do -/

/-- What one step of a handler makes of its call, and what it does in the cluster. -/
inductive KVCall.Move (marshal : Marshal) (s : Servers) (x : KVCall) :
    KVCall → Option Action → Prop
  /-- The command cannot be written as bytes. -/
  | unencoded (detail : String) (hstage : x.stage = .entered) :
      Move marshal s x { x with stage := .returned s.clock (.error detail) } none
  /-- The leader appends an entry. -/
  | accept (payload : List UInt8) (hstage : x.stage = .entered)
      (hpayload : x.request.Payload marshal payload)
      (hrole : (s.cluster.hosts x.server).node.role = .leader) :
      Move marshal s x { x with
        stage := .proposed s.cluster.proposals.length
        entry := some ⟨(s.cluster.hosts x.server).node.currentTerm,
          (s.cluster.hosts x.server).node.lastLogIndexLocked + 1, payload⟩ }
        (some (.run (x.proposeSync payload)))
  | refuse (payload : List UInt8) (hstage : x.stage = .entered)
      (hpayload : x.request.Payload marshal payload)
      (hrole : (s.cluster.hosts x.server).node.role ≠ .leader) :
      Move marshal s x { x with stage := .redirecting } (some (.run (x.proposeSync payload)))
  | crash (payload : List UInt8) (k : Nat) (hstage : x.stage = .entered)
      (hpayload : x.request.Payload marshal payload) (e : Option LogEntry)
      (he : e = none ∨ (s.cluster.hosts x.server).node.role = .leader ∧
        e = some ⟨(s.cluster.hosts x.server).node.currentTerm,
          (s.cluster.hosts x.server).node.lastLogIndexLocked + 1, payload⟩)
      (hcreated : created s.cluster (.crashDuring (x.proposeSync payload) k) = e) :
      Move marshal s x { x with entry := e } (some (.crashDuring (x.proposeSync payload) k))
  /-- `ProposeSync` returns. -/
  | returns (k : Nat) (call : Proposal) (outcome : Option RaftError)
      (hstage : x.stage = .proposed k) (hk : s.cluster.proposals[k]? = some call)
      (hchan : call.chan = some outcome) :
      Move marshal s x (x.outcome s.clock call.index outcome) (some (.run (.proposeReturn k)))
  | cancel (k : Nat) (hstage : x.stage = .proposed k) :
      Move marshal s x { x with stage := .returned s.clock (.error "context deadline exceeded") }
        (some (.run (.proposeCancel k)))
  /-- A leader lets a read through. -/
  | lead (hstage : x.stage = .entered ∧ x.request.command? = none ∨ x.stage = .following)
      (hrole : (s.cluster.hosts x.server).node.role = .leader) :
      Move marshal s x { x with stage := .confirmed } none
  | follow (hstage : x.stage = .entered) (hget : x.request.command? = none) :
      Move marshal s x { x with stage := .following } none
  | noLeader (hstage : x.stage = .following) :
      Move marshal s x { x with stage := .redirecting } none
  | ask (leader : String) (hstage : x.stage = .following)
      (hask : (s.cluster.hosts x.server).node.startRead = .ask leader) :
      Move marshal s x { x with stage := .reading s.cluster.reads.length }
        (some (.run (.startRead x.server)))
  /-- `FollowerLinearizableRead` returns. -/
  | readDone (r : Nat) (call : ReadCall) (k : Nat) (hstage : x.stage = .reading r)
      (hr : s.cluster.reads[r]? = some call) (hdone : call.phase = .done k) :
      Move marshal s x { x with stage := .confirmed } none
  | readFailed (r : Nat) (hstage : x.stage = .reading r) :
      Move marshal s x { x with stage := .redirecting } none
  /-- The map is read. -/
  | value (key : String) (hstage : x.stage = .confirmed) (hget : x.request = .get key) :
      Move marshal s x { x with
        stage := .returned s.clock (KVCall.getReply ((s.cluster.hosts x.server).kv key))
        seen := (s.cluster.hosts x.server).node.lastApplied } none
  | redirect (leader : String) (hstage : x.stage = .redirecting) :
      Move marshal s x { x with stage := .returned s.clock (KVCall.redirect leader x.request) } none

section

variable {marshal : Marshal} {s s' : Servers} {x x' : KVCall} {a : Option Action}

theorem KVCall.propose_of_leader {cl : Cluster} {payload : List UInt8}
    (h : (cl.hosts x.server).node.role = .leader) :
    x.propose cl payload = { x with
      stage := .proposed cl.proposals.length
      entry := some ⟨(cl.hosts x.server).node.currentTerm,
        (cl.hosts x.server).node.lastLogIndexLocked + 1, payload⟩ } := by
  have hsync : ∀ command ch, ((cl.hosts x.server).node.lock.proposeSync command ch).2 =
      .ok ((cl.hosts x.server).node.lastLogIndexLocked + 1,
        (cl.hosts x.server).node.currentTerm) := by
    intro command ch
    simp [Locked.proposeSync, Node.lock, h]
  unfold KVCall.propose
  rw [hsync]

theorem KVCall.propose_of_ne {cl : Cluster} {payload : List UInt8}
    (h : (cl.hosts x.server).node.role ≠ .leader) :
    x.propose cl payload = { x with stage := .redirecting } := by
  have hsync : ∀ command ch, ((cl.hosts x.server).node.lock.proposeSync command ch).2 =
      .error .notLeader := by
    intro command ch
    simp [Locked.proposeSync, Node.lock, h]
  unfold KVCall.propose
  rw [hsync]

theorem Servers.next_move (h : s.next marshal x = some (x', a)) : x.Move marshal s x' a := by
  obtain ⟨server, epoch, request, invoked, startedAt, stage, entry, seen⟩ := x
  cases stage with
  | entered =>
      cases request with
      | write op key value =>
          simp only [Servers.next] at h
          split at h <;> obtain ⟨rfl, rfl⟩ := Prod.mk.inj (Option.some.inj h)
          · rename_i payload hok
            by_cases hrole : (s.cluster.hosts server).node.role = .leader
            · rw [KVCall.propose_of_leader hrole]
              exact .accept payload rfl ⟨_, rfl, hok⟩ hrole
            · rw [KVCall.propose_of_ne hrole]
              exact .refuse payload rfl ⟨_, rfl, hok⟩ hrole
          · exact .unencoded _ rfl
      | get key =>
          obtain ⟨rfl, rfl⟩ := Prod.mk.inj (Option.some.inj h)
          by_cases hrole : (s.cluster.hosts server).node.role = .leader
          · rw [if_pos hrole]
            exact .lead (.inl ⟨rfl, rfl⟩) hrole
          · rw [if_neg hrole]
            exact .follow rfl rfl
  | proposed k =>
      simp only [Servers.next, Option.bind_eq_bind, Option.bind_eq_some_iff] at h
      obtain ⟨call, hk, outcome, hchan, hx⟩ := h
      obtain ⟨rfl, rfl⟩ := Prod.mk.inj (Option.some.inj hx)
      exact .returns k call outcome rfl hk hchan
  | following =>
      simp only [Servers.next] at h
      split at h <;> obtain ⟨rfl, rfl⟩ := Prod.mk.inj (Option.some.inj h)
      · rename_i hd
        refine .lead (.inr rfl) ?_
        by_contra hrole
        simp only [Node.startRead, hrole, if_false] at hd
        split at hd <;> exact absurd hd (by simp)
      · exact .noLeader rfl
      · rename_i leader hask
        exact .ask leader rfl hask
  | reading r =>
      simp only [Servers.next, Option.bind_eq_bind, Option.bind_eq_some_iff] at h
      obtain ⟨call, hr, h⟩ := h
      split at h
      · rename_i k hdone
        obtain ⟨rfl, rfl⟩ := Prod.mk.inj (Option.some.inj h)
        exact .readDone r call k rfl hr hdone
      · obtain ⟨rfl, rfl⟩ := Prod.mk.inj (Option.some.inj h)
        exact .readFailed r rfl
      · exact absurd h (by simp)
  | confirmed =>
      cases request with
      | write op key value => exact absurd h (by simp [Servers.next])
      | get key =>
          obtain ⟨rfl, rfl⟩ := Prod.mk.inj (Option.some.inj h)
          exact .value key rfl rfl
  | redirecting =>
      obtain ⟨rfl, rfl⟩ := Prod.mk.inj (Option.some.inj h)
      exact .redirect _ rfl
  | returned time reply => exact absurd h (by simp [Servers.next])

theorem Servers.cancel_move (h : s.cancel x = some (x', a)) : x.Move marshal s x' a := by
  unfold Servers.cancel at h
  split at h
  · rename_i k hstage
    obtain ⟨rfl, rfl⟩ := Prod.mk.inj (Option.some.inj h)
    exact .cancel k hstage
  · exact absurd h (by simp)

theorem Servers.crashed_move {k : Nat} (hnone : x.stage = .entered → x.entry = none)
    (h : s.crashed marshal k x = some (x', a)) : x.Move marshal s x' a := by
  unfold Servers.crashed at h
  split at h
  · rename_i op key value hstage hreq
    split at h
    case h_2 => exact absurd h (by simp)
    rename_i payload hok
    obtain ⟨rfl, rfl⟩ := Prod.mk.inj (Option.some.inj h)
    refine .crash payload k hstage ⟨_, by rw [hreq]; rfl, hok⟩ _ ?_ ?_
    all_goals
      by_cases hk : 0 < k
      · by_cases hrole : (s.cluster.hosts x.server).node.role = .leader
        · simp [hk, hrole, KVCall.propose_of_leader hrole, created, KVCall.proposeSync, Op.creates]
        · simp [hk, hrole, KVCall.propose_of_ne hrole, created, KVCall.proposeSync, Op.creates,
            hnone hstage]
      · simp [hk, created]
  · exact absurd h (by simp)

/-- **What one step can do**: the cluster goes on, a call comes in, or a handler goes on. -/
inductive Servers.StepView (c : Config) (marshal : Marshal) (s : Servers) (act : ServersAction) :
    Servers → Prop
  | cluster (a : Action) (cl : Cluster) (hact : s.clusterAction? marshal act = some a)
      (hinternal : a.internal = true) (hs : B5KvStore.step c s.cluster a = some cl) :
      StepView c marshal s act ⟨cl, s.calls, s.clock + 1⟩
  | receive (p : String) (request : ClientCall) (hp : p ∈ c.addrs) :
      StepView c marshal s act ⟨s.cluster, s.calls ++ [⟨p, (s.cluster.hosts p).epoch, request,
        s.clock, s.cluster.history.length, .entered, none, 0⟩], s.clock + 1⟩
  | handle (j : Nat) (x x' : KVCall) (a : Option Action) (cl : Cluster)
      (hmoved : s.moved marshal act = some (j, x, x', a)) (hj : s.calls[j]? = some x)
      (hepoch : x.epoch = (s.cluster.hosts x.server).epoch) (hmove : x.Move marshal s x' a)
      (hact : s.clusterAction? marshal act = a) (hs : Servers.stepCluster c s.cluster a = some cl) :
      StepView c marshal s act (s.setCall j x' cl)

/-- No entry has been appended for a call whose handler has just been entered. -/
def Servers.Unproposed (s : Servers) : Prop :=
  ∀ x ∈ s.calls, x.epoch = (s.cluster.hosts x.server).epoch → x.stage = .entered → x.entry = none

theorem Servers.moved_move {act : ServersAction} {j : Nat} (hnew : s.Unproposed)
    (h : s.moved marshal act = some (j, x, x', a)) :
    s.calls[j]? = some x ∧ x.epoch = (s.cluster.hosts x.server).epoch ∧ x.Move marshal s x' a := by
  simp only [Servers.moved, Option.bind_eq_bind, Option.bind_eq_some_iff, guard_eq_some,
    exists_const, Option.some.injEq, Prod.mk.injEq] at h
  obtain ⟨j', hj', y, hy, hepoch, m, hm, rfl, rfl, rfl⟩ := h
  refine ⟨hy, hepoch, ?_⟩
  cases act with
  | cluster b => exact absurd hm (by simp [Servers.attempt])
  | receive p request => exact absurd hm (by simp [Servers.attempt])
  | handle i => exact Servers.next_move hm
  | timeout i => exact Servers.cancel_move hm
  | crash i k => exact Servers.crashed_move (hnew y (List.mem_of_getElem? hy) hepoch) hm

theorem Servers.stepView {c : Config} {act : ServersAction} (hnew : s.Unproposed)
    (hs : s.step c marshal act = some s') : s.StepView c marshal act s' := by
  have hhandle : ∀ {r}, s.moved marshal act = some r → ∀ {cl},
      Servers.stepCluster c s.cluster r.2.2.2 = some cl →
      s.clusterAction? marshal act = r.2.2.2 →
      s.StepView c marshal act (s.setCall r.1 r.2.2.1 cl) := by
    intro r hr cl hcl hact
    obtain ⟨hj, hepoch, hmove⟩ := Servers.moved_move hnew hr
    exact .handle r.1 r.2.1 r.2.2.1 r.2.2.2 cl hr hj hepoch hmove hact hcl
  cases act with
  | cluster b =>
      simp only [Servers.step] at hs
      split at hs
      · obtain ⟨cl, hcl, rfl⟩ := Option.map_eq_some_iff.1 hs
        exact .cluster b cl rfl ‹_› hcl
      · exact absurd hs (by simp)
  | receive p request =>
      simp only [Servers.step] at hs
      split at hs
      · rename_i hok
        obtain rfl := Option.some.inj hs
        exact .receive p request hok
      · exact absurd hs (by simp)
  | handle i =>
      simp only [Servers.step, Option.bind_eq_bind, Option.bind_eq_some_iff] at hs
      obtain ⟨r, hr, cl, hcl, hs⟩ := hs
      obtain rfl := Option.some.inj hs
      exact hhandle hr hcl (by simp [Servers.clusterAction?, hr])
  | timeout i =>
      simp only [Servers.step, Option.bind_eq_bind, Option.bind_eq_some_iff] at hs
      obtain ⟨r, hr, cl, hcl, hs⟩ := hs
      obtain rfl := Option.some.inj hs
      exact hhandle hr hcl (by simp [Servers.clusterAction?, hr])
  | crash i k =>
      simp only [Servers.step, Option.bind_eq_bind, Option.bind_eq_some_iff] at hs
      obtain ⟨r, hr, cl, hcl, hs⟩ := hs
      obtain rfl := Option.some.inj hs
      exact hhandle hr hcl (by simp [Servers.clusterAction?, hr])

end

end B5KvStore
