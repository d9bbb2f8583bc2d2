import B5KvStore.Cluster.Applied
import B5KvStore.Proxy.Basic

/-!
# Client writes are applied at most once

The cluster behind the proxy.  A write that the proxy sends to a node is proposed there, and
`Server.write` answers with the index it was committed at, or with the leader the node knows.
A leader that is deposed answers like a node that was never asked, although the entry it has
appended may still be committed: the proxy sends the command again.

* `WriteCall`, `Service.step` — the calls of `Server.write`, and the cluster and the proxy
  around them.
* `Service.Tracked` — one client call has one call of `Server.write` that may be accepted.
* `write_applied_once` — as long as no accepted write is redirected, one client call
  contributes one entry.
-/

namespace B5KvStore

variable {lib : Gobreaker}

/-! ## Writes under way -/

/-- The command that the write RPC of an operation proposes. -/
def WriteOp.command (key value : String) : WriteOp → KVCommand
  | .opPut => ⟨.put, key, value⟩
  | .opUpdate => ⟨.update, key, value⟩
  | .opDelete => ⟨.delete, key, ""⟩

/-- How far a call of `Server.write` has come. -/
inductive WritePhase where
  /-- On its way to the node. -/
  | sent
  /-- `ProposeSync` is waiting, as this proposal of the cluster. -/
  | proposed (k : Nat)
  /-- `ErrNotLeader` or `ErrLeadershipLost`; the leader's address is looked up next. -/
  | refused (epoch : Nat)
  /-- The reply is on its way back. -/
  | answered (reply : WriteReply)
  /-- The call fails, or its process is gone. -/
  | failed
  deriving DecidableEq, Repr

/-- The reply under way. -/
def WritePhase.reply? : WritePhase → Option WriteReply
  | .answered reply => some reply
  | _ => none

/-- A call of `Server.write`: the client call and the attempt it belongs to, the node and the
command, and the entry the node has appended for it. -/
structure WriteCall where
  request : Nat
  attempt : Nat
  server : String
  command : List UInt8
  phase : WritePhase
  accepted : Option LogEntry
  deriving DecidableEq, Repr

/-- The cluster, the proxy and the writes between them. -/
structure Service (lib : Gobreaker) where
  cluster : Cluster
  proxy : Proxy lib
  writes : List WriteCall

inductive ServiceAction where
  /-- Something happens in the cluster. -/
  | cluster (a : Action)
  /-- Something happens in the proxy. -/
  | proxy (a : ProxyAction)
  /-- `ProposeSync`, up to the point where it waits. -/
  | serve (j : Nat)
  /-- The process crashes in that section, after `k` disk writes. -/
  | crashServe (j k : Nat)
  /-- `ProposeSync` returns. -/
  | proposeReturn (j : Nat)
  /-- The timeout of the call ends. -/
  | proposeCancel (j : Nat)
  /-- `LeaderAddress`, for the reply. -/
  | leaderAddress (j : Nat)
  /-- The reply reaches the proxy. -/
  | reply (j : Nat)

/-- The proxy has called the node of a write: the call of `Server.write`. -/
def Proxy.writeCall (marshal : KVCommand → List UInt8) (p : Proxy lib) :
    ProxyAction → Option WriteCall
  | .request k .enter => do
      let req ← p.requests[k]?
      match req.call, req.phase with
      | .write op key value, .waiting (.write attempt) addr _ _ =>
          some ⟨k, attempt, addr, marshal (op.command key value), .sent, none⟩
      | _, _ => none
  | _ => none

/-- The proxy's step is the answer of a node to a write. -/
def ProxyAction.isWriteReply : ProxyAction → Bool
  | .request _ (.answer (.write _)) => true
  | _ => false

/-- The attempt of a write whose answer the client call is waiting for. -/
def RequestPhase.awaited? : RequestPhase → Option Nat
  | .waiting (.write attempt) _ _ _ => some attempt
  | _ => none

/-- What `ProposeSync` makes of the call. -/
def WriteCall.propose (s : Cluster) (w : WriteCall) : WriteCall :=
  match ((s.hosts w.server).node.lock.proposeSync w.command s.proposals.length).2 with
  | .ok (index, term) =>
      { w with phase := .proposed s.proposals.length, accepted := some ⟨term, index, w.command⟩ }
  | .error _ => { w with phase := .refused (s.hosts w.server).epoch }

/-- What `write` makes of the outcome of `ProposeSync`. -/
def WriteCall.outcome (epoch index : Nat) (w : WriteCall) : Option RaftError → WriteCall
  | none => { w with phase := .answered { success := true, commitIndex := index } }
  | some .notLeader | some .leadershipLost => { w with phase := .refused epoch }
  | some .saveState => { w with phase := .failed }

/-- The reply of a node that cannot say that the write is committed. -/
def WriteCall.redirect (leader : String) (w : WriteCall) : WriteCall :=
  { w with phase := .answered { success := false, redirectLeader := leader } }

namespace Service

/-- Nothing is under way. -/
def init (lib : Gobreaker) (c : Config) : Service lib := ⟨c.init, newProxy lib, []⟩

/-- A call of `Server.write` goes on. -/
def setWrite (s : Service lib) (j : Nat) (w : WriteCall) (cluster : Cluster) : Service lib :=
  { s with cluster := cluster, writes := s.writes.set j w }

/-- One step, if it is possible. -/
def step (c : Config) (marshal : KVCommand → List UInt8) (s : Service lib) :
    ServiceAction → Option (Service lib)
  | .cluster a => (B5KvStore.step c s.cluster a).map fun cluster => { s with cluster := cluster }
  | .proxy a => do
      guard (a.isWriteReply = false)
      let p ← s.proxy.step a
      some { s with proxy := p, writes := s.writes ++ (p.writeCall marshal a).toList }
  | .serve j => do
      let w ← s.writes[j]?
      guard (w.phase = .sent)
      let cluster ← B5KvStore.step c s.cluster (.run (.proposeSync w.server w.command))
      some (s.setWrite j (w.propose s.cluster) cluster)
  | .crashServe j k => do
      let w ← s.writes[j]?
      guard (w.phase = .sent)
      let cluster ← B5KvStore.step c s.cluster (.crashDuring (.proposeSync w.server w.command) k)
      some (s.setWrite j { w.propose s.cluster with phase := .failed } cluster)
  | .proposeReturn j => do
      let w ← s.writes[j]?
      match w.phase with
      | .proposed k =>
          let call ← s.cluster.proposals[k]?
          let outcome ← call.chan
          let cluster ← B5KvStore.step c s.cluster (.run (.proposeReturn k))
          some (s.setWrite j (w.outcome call.epoch call.index outcome) cluster)
      | _ => none
  | .proposeCancel j => do
      let w ← s.writes[j]?
      match w.phase with
      | .proposed k =>
          let cluster ← B5KvStore.step c s.cluster (.run (.proposeCancel k))
          some (s.setWrite j { w with phase := .failed } cluster)
      | _ => none
  | .leaderAddress j => do
      let w ← s.writes[j]?
      guard (w.phase = .refused (s.cluster.hosts w.server).epoch)
      some (s.setWrite j (w.redirect (s.cluster.hosts w.server).node.currentLeader) s.cluster)
  | .reply j => do
      let w ← s.writes[j]?
      let reply ← w.phase.reply?
      let req ← s.proxy.requests[w.request]?
      guard (req.phase.awaited? = some w.attempt)
      let p ← s.proxy.step (.request w.request (.answer (.write reply)))
      some { s with proxy := p }

/-- A reply to a write that was accepted reports success, or it names no leader, or the proxy
has no attempt left. -/
def Safe (s : Service lib) : ServiceAction → Prop
  | .reply j => ∀ w ∈ s.writes[j]?, w.accepted ≠ none → ∀ reply ∈ w.phase.reply?,
      reply.success = true ∨ reply.redirectLeader = "" ∨ maxHops ≤ w.attempt
  | _ => True

instance decidableSafe (s : Service lib) : (a : ServiceAction) → Decidable (s.Safe a)
  | .reply j => inferInstanceAs (Decidable (∀ w ∈ s.writes[j]?, w.accepted ≠ none →
      ∀ reply ∈ w.phase.reply?,
        reply.success = true ∨ reply.redirectLeader = "" ∨ maxHops ≤ w.attempt))
  | .cluster _ | .proxy _ | .serve _ | .crashServe _ _ | .proposeReturn _ | .proposeCancel _
  | .leaderAddress _ => instDecidableTrue

/-- Snapshots are used safely in the cluster, and no disk write fails. -/
def ClusterSafe (s : Service lib) : ServiceAction → Prop
  | .cluster a => B5KvStore.Safe s.cluster a
  | _ => True

/-- The message is the entry that some node has appended for this client call, and some node
has applied it. -/
def AppliedFor (s : Service lib) (r : Nat) (msg : ApplyMsg) : Prop :=
  (∃ w ∈ s.writes, w.request = r ∧ w.accepted = some ⟨msg.term, msg.index, msg.command⟩) ∧
    ∃ p epoch, msg ∈ s.cluster.appliedBy p epoch

end Service

/-! ## Client calls and their writes -/

/-- The call has been accepted or may still be. -/
def WriteCall.Open (w : WriteCall) : Prop := w.phase = .sent ∨ w.accepted ≠ none

/-- The writes a client call in this phase can have: those of earlier attempts have come to
nothing. -/
def RequestPhase.Tracks : RequestPhase → WriteCall → Prop
  | .calling (.write m) _, w | .entering (.write m) _ _, w => w.attempt < m ∧ ¬ w.Open
  | .waiting (.write m) _ _ _, w => w.attempt ≤ m ∧ (w.attempt < m → ¬ w.Open)
  | .finished _, _ => True
  | _, _ => False

/-- **The invariant.**  A client call has at most one write that has been accepted or may
still be. -/
structure Service.Tracked (s : Service lib) : Prop where
  tracks : ∀ w ∈ s.writes, ∃ req ∈ s.proxy.requests[w.request]?, req.phase.Tracks w
  distinct : ∀ {i j : Nat} {w w' : WriteCall}, s.writes[i]? = some w → s.writes[j]? = some w' →
    w.request = w'.request → w.attempt = w'.attempt → i = j
  once : ∀ {i j : Nat} {w w' : WriteCall}, s.writes[i]? = some w → s.writes[j]? = some w' →
    w.request = w'.request → w.Open → w'.Open → i = j

/-- A call that goes on stays as it was, as far as the client call is concerned. -/
structure WriteCall.Continues (w w' : WriteCall) : Prop where
  request : w'.request = w.request
  attempt : w'.attempt = w.attempt
  opens : w'.Open → w.Open

namespace WriteCall

theorem Continues.refl (w : WriteCall) : w.Continues w := ⟨rfl, rfl, id⟩

/-- A call that is still on its way may do anything. -/
theorem continues_propose {w : WriteCall} (h : w.phase = .sent) (s : Cluster) :
    w.Continues (w.propose s) := by
  unfold propose
  split <;> exact ⟨rfl, rfl, fun _ => .inl h⟩

theorem continues_crash {w : WriteCall} (h : w.phase = .sent) (s : Cluster) :
    w.Continues { w.propose s with phase := .failed } :=
  ⟨(continues_propose h s).request, (continues_propose h s).attempt, fun _ => .inl h⟩

/-- Later phases accept nothing. -/
theorem continues_setPhase (w : WriteCall) {phase : WritePhase} (h : phase ≠ .sent) :
    w.Continues { w with phase := phase } :=
  ⟨rfl, rfl, fun ho => ho.elim (fun hsent => absurd hsent h) .inr⟩

theorem continues_outcome (w : WriteCall) (epoch index : Nat) (outcome : Option RaftError) :
    w.Continues (w.outcome epoch index outcome) := by
  unfold WriteCall.outcome
  split <;> exact w.continues_setPhase (by simp)

theorem continues_redirect (w : WriteCall) (leader : String) : w.Continues (w.redirect leader) :=
  w.continues_setPhase (by simp)

end WriteCall

namespace RequestPhase.Tracks

variable {phase : RequestPhase} {w : WriteCall} {p : Proxy lib} {r : Proxy lib × RequestPhase}

theorem mono {w' : WriteCall} (h : phase.Tracks w) (hw : w.Continues w') : phase.Tracks w' := by
  unfold Tracks at h ⊢
  split at h
  · exact ⟨hw.attempt ▸ h.1, fun ho => h.2 (hw.opens ho)⟩
  · exact ⟨hw.attempt ▸ h.1, fun ho => h.2 (hw.opens ho)⟩
  · exact ⟨hw.attempt ▸ h.1, fun hlt ho => h.2 (hw.attempt ▸ hlt) (hw.opens ho)⟩
  · trivial
  · exact h

/-- Every step of a client call but the reply to a write keeps its writes. -/
theorem proceed (h : phase.Tracks w) {call : ClientCall} {a : RequestAction}
    (ha : ∀ reply, a ≠ .answer (.write reply)) (hr : p.proceed call a phase = some r) :
    r.2.Tracks w := by
  unfold Proxy.proceed at hr
  split at hr
  · exact absurd h id
  · rename_i route addr
    cases hr
    cases route with
    | write m => exact h
    | _ => exact absurd h id
  · rename_i route addr b
    cases hr
    cases route with
    | write m =>
        unfold Proxy.enter
        dsimp only
        split
        · exact ⟨Nat.le_of_lt h.1, fun _ => h.2⟩
        · trivial
    | _ => exact absurd h id
  · rename_i result route addr b generation
    cases hr
    cases route with
    | write m =>
        cases result with
        | write reply => exact absurd rfl (ha reply)
        | get reply => trivial
        | error detail => trivial
    | _ => exact absurd h id
  · exact absurd h id
  · cases hr

/-- A node is called for a new attempt when the earlier ones have come to nothing. -/
theorem of_enter (h : phase.Tracks w) {call : ClientCall} {m : Nat} {addr : String}
    {b generation : Nat} (hr : p.proceed call .enter phase = some r)
    (hphase : r.2 = .waiting (.write m) addr b generation) : w.attempt < m ∧ ¬ w.Open := by
  cases phase with
  | entering route addr' b' =>
      cases hr
      cases route with
      | write m' =>
          unfold Proxy.enter at hphase
          dsimp only at hphase
          split at hphase
          · cases hphase
            exact h
          · cases hphase
      | _ => exact absurd h id
  | _ => cases hr

/-- A reply that is followed to another node must not leave an accepted write behind. -/
theorem reply {m : Nat} {addr : String} {b generation : Nat}
    (h : (RequestPhase.waiting (.write m) addr b generation).Tracks w) {reply : WriteReply}
    (hok : w.Open → reply.success = true ∨ reply.redirectLeader = "" ∨ maxHops ≤ m) :
    (p.callReturned (.write m) (.write reply)).2.Tracks w := by
  dsimp only [Proxy.callReturned]
  split
  · trivial
  · rename_i hsuccess
    unfold Proxy.followRedirect
    split
    · trivial
    · rename_i hredirect
      dsimp only
      split
      · rename_i hhops
        refine ⟨Nat.lt_succ_of_le h.1, fun ho => ?_⟩
        rcases hok ho with hs | hs | hs
        · exact hsuccess hs
        · exact hredirect hs
        · omega
      · trivial

end RequestPhase.Tracks

/-! ## Steps of the proxy -/

namespace Proxy

variable {p p' : Proxy lib}

theorem requests_proceed {call : ClientCall} {a : RequestAction} {phase : RequestPhase}
    {r : Proxy lib × RequestPhase} (hr : p.proceed call a phase = some r) :
    r.1.requests = p.requests := by
  have hreport : ∀ addr b generation success,
      (p.report addr b generation success).requests = p.requests := by
    intro addr b generation success
    unfold report
    dsimp only
    split <;> rfl
  have hstate : ∀ addr, (p.registryState addr).1.requests = p.requests := by
    intro addr
    unfold registryState
    split <;> rfl
  unfold proceed at hr
  split at hr
  · rename_i view addrs
    cases hr
    cases addrs with
    | nil =>
        dsimp only [checkOpen]
        split
        · exact (p.routes_dispatch _ _).requests
        · rfl
    | cons addr addrs =>
        dsimp only [checkOpen]
        split
        · exact hstate addr
        · exact ((p.registryState addr).1.routes_dispatch _ _).requests.trans (hstate addr)
  · cases hr
    unfold breakerFor
    split <;> rfl
  · cases hr
    unfold enter
    dsimp only
    split
    · rfl
    · exact (routes_callFailed _ _ _).requests
  · cases hr
    exact (routes_callReturned _ _ _).requests.trans (hreport ..)
  · cases hr
    exact (p.routes_callLeader _ _).requests
  · cases hr

theorem getElem?_setPhase {r : Proxy lib × RequestPhase} (hr : r.1.requests = p.requests) {k : Nat}
    {req : Request} (hreq : p.requests[k]? = some req) (i : Nat) :
    (setPhase r k).requests[i]? =
      if k = i then some { req with phase := r.2 } else p.requests[i]? := by
  unfold setPhase
  rw [List.getElem?_modify, hr]
  split
  · rename_i h
    rw [← h, hreq]
    rfl
  · exact Option.map_id'

/-- A step of the proxy other than the reply to a write keeps the writes of every client
call. -/
theorem tracks_step {a : ProxyAction} (ha : a.isWriteReply = false) (hs : p.step a = some p')
    {i : Nat} {req : Request} (hreq : p.requests[i]? = some req) {w : WriteCall}
    (hw : req.phase.Tracks w) : ∃ req' ∈ p'.requests[i]?, req'.phase.Tracks w := by
  cases a with
  | elapse d =>
      cases hs
      exact ⟨req, hreq, hw⟩
  | call c =>
      cases hs
      have hi : i < p.requests.length := (List.getElem?_eq_some_iff.1 hreq).1
      exact ⟨req, (List.getElem?_append_left hi).trans hreq, hw⟩
  | request k a =>
      obtain ⟨old, hold, hs⟩ := Option.bind_eq_some_iff.1 hs
      obtain ⟨r, hr, hs⟩ := Option.bind_eq_some_iff.1 hs
      cases hs
      rw [getElem?_setPhase (requests_proceed hr) hold]
      split
      · rename_i hk
        subst hk
        cases hold.symm.trans hreq
        refine ⟨_, rfl, hw.proceed (fun reply h => ?_) hr⟩
        subst h
        cases ha
      · exact ⟨req, hreq, hw⟩
  | refresh =>
      cases hs
      exact ⟨req, hreq, hw⟩
  | refreshed k view =>
      obtain ⟨phase, -, hs⟩ := Option.bind_eq_some_iff.1 hs
      obtain ⟨-, -, hs⟩ := Option.bind_eq_some_iff.1 hs
      cases view <;> cases hs <;> exact ⟨req, hreq, hw⟩
  | prune k =>
      obtain ⟨phase, hphase, hs⟩ := Option.bind_eq_some_iff.1 hs
      cases phase <;> cases hs
      exact ⟨req, hreq, hw⟩

/-- A write that the proxy sends belongs to a client call without an open write. -/
theorem writeCall_tracks {marshal : KVCommand → List UInt8} {a : ProxyAction}
    (hs : p.step a = some p') {w : WriteCall} (hw : p'.writeCall marshal a = some w) :
    (∀ req ∈ p.requests[w.request]?, ∀ w', req.phase.Tracks w' →
      w'.attempt < w.attempt ∧ ¬ w'.Open) ∧
    ∃ req' ∈ p'.requests[w.request]?, req'.phase.Tracks w := by
  unfold writeCall at hw
  split at hw
  · rename_i k
    obtain ⟨req', hreq', hw⟩ := Option.bind_eq_some_iff.1 hw
    split at hw
    · rename_i op key value attempt addr b generation hcall hphase
      cases hw
      refine ⟨fun req hreq w' hw' => ?_, req', hreq', ?_⟩
      · obtain ⟨old, hold, hs⟩ := Option.bind_eq_some_iff.1 hs
        obtain ⟨r, hr, hs⟩ := Option.bind_eq_some_iff.1 hs
        cases hs
        cases hold.symm.trans hreq
        rw [getElem?_setPhase (requests_proceed hr) hold, if_pos rfl] at hreq'
        cases hreq'
        exact hw'.of_enter hr hphase
      · rw [hphase]
        exact ⟨Nat.le_refl _, fun h => absurd h (Nat.lt_irrefl _)⟩
    · cases hw
  · cases hw

end Proxy

/-! ## Runs of the service -/

namespace Service.Tracked

variable {s s' : Service lib} {c : Config} {marshal : KVCommand → List UInt8}

theorem init (lib : Gobreaker) (c : Config) : (Service.init lib c).Tracked where
  tracks _ h := absurd h List.not_mem_nil
  distinct h := absurd h (by simp [Service.init])
  once h := absurd h (by simp [Service.init])

theorem cluster (h : s.Tracked) (cluster : Cluster) :
    ({ s with cluster := cluster } : Service lib).Tracked :=
  ⟨h.tracks, h.distinct, h.once⟩

/-- The proxy goes on and keeps the writes of every client call. -/
theorem proxy (h : s.Tracked) {p : Proxy lib}
    (hp : ∀ w ∈ s.writes, ∀ req, s.proxy.requests[w.request]? = some req → req.phase.Tracks w →
      ∃ req' ∈ p.requests[w.request]?, req'.phase.Tracks w) :
    ({ s with proxy := p } : Service lib).Tracked where
  tracks w hw := by
    obtain ⟨req, hreq, htracks⟩ := h.tracks w hw
    exact hp w hw req hreq htracks
  distinct := h.distinct
  once := h.once

/-- A call of `Server.write` goes on. -/
theorem setWrite (h : s.Tracked) {j : Nat} {w w' : WriteCall} (hj : s.writes[j]? = some w)
    (hw : w.Continues w') (cluster : Cluster) : (s.setWrite j w' cluster).Tracked := by
  have hget : ∀ {i : Nat} {v}, (s.writes.set j w')[i]? = some v →
      ∃ v₀ : WriteCall, s.writes[i]? = some v₀ ∧ v₀.Continues v := by
    intro i v hv
    by_cases hi : j = i
    · subst hi
      have hlt : j < s.writes.length := (List.getElem?_eq_some_iff.1 hj).1
      rw [List.getElem?_set_self hlt] at hv
      cases hv
      exact ⟨w, hj, hw⟩
    · rw [List.getElem?_set_ne hi] at hv
      exact ⟨v, hv, .refl v⟩
  refine ⟨fun v hv => ?_, fun hv hv' hreq hatt => ?_, fun hv hv' hreq ho ho' => ?_⟩
  · obtain ⟨i, hi⟩ := List.mem_iff_getElem?.1 hv
    obtain ⟨v₀, hv₀, hc⟩ := hget hi
    obtain ⟨req, hreq, htracks⟩ := h.tracks v₀ (List.mem_of_getElem? hv₀)
    exact ⟨req, hc.request ▸ hreq, htracks.mono hc⟩
  · obtain ⟨v₀, hv₀, hc⟩ := hget hv
    obtain ⟨v₀', hv₀', hc'⟩ := hget hv'
    exact h.distinct hv₀ hv₀' (hc.request ▸ hc'.request ▸ hreq) (hc.attempt ▸ hc'.attempt ▸ hatt)
  · obtain ⟨v₀, hv₀, hc⟩ := hget hv
    obtain ⟨v₀', hv₀', hc'⟩ := hget hv'
    exact h.once hv₀ hv₀' (hc.request ▸ hc'.request ▸ hreq) (hc.opens ho) (hc'.opens ho')

/-- A client call without an open write sends one. -/
theorem append (h : s.Tracked) {w : WriteCall}
    (hearlier : ∀ v ∈ s.writes, v.request = w.request → v.attempt < w.attempt ∧ ¬ v.Open)
    (hw : ∃ req ∈ s.proxy.requests[w.request]?, req.phase.Tracks w) :
    ({ s with writes := s.writes ++ [w] } : Service lib).Tracked := by
  have hget : ∀ {i : Nat} {v}, (s.writes ++ [w])[i]? = some v →
      s.writes[i]? = some v ∨ (i = s.writes.length ∧ v = w) := by
    intro i v hv
    rcases Nat.lt_or_ge i s.writes.length with hi | hi
    · rw [List.getElem?_append_left hi] at hv
      exact .inl hv
    · rw [List.getElem?_append_right hi] at hv
      obtain ⟨hlt, rfl⟩ := List.getElem?_eq_some_iff.1 hv
      simp only [List.length_singleton] at hlt
      exact .inr ⟨by omega, by simp⟩
  refine ⟨fun v hv => ?_, fun {i j v v'} hv hv' hreq hatt => ?_,
    fun {i j v v'} hv hv' hreq ho ho' => ?_⟩
  · rcases List.mem_append.1 hv with hv | hv
    · exact h.tracks v hv
    · exact List.mem_singleton.1 hv ▸ hw
  · rcases hget hv with hold | ⟨hi, rfl⟩ <;> rcases hget hv' with hold' | ⟨hj, rfl⟩
    · exact h.distinct hold hold' hreq hatt
    · exact absurd hatt (Nat.ne_of_lt (hearlier v (List.mem_of_getElem? hold) hreq).1)
    · exact absurd hatt.symm (Nat.ne_of_lt (hearlier v' (List.mem_of_getElem? hold') hreq.symm).1)
    · exact hi.trans hj.symm
  · rcases hget hv with hold | ⟨hi, rfl⟩ <;> rcases hget hv' with hold' | ⟨hj, rfl⟩
    · exact h.once hold hold' hreq ho ho'
    · exact absurd ho (hearlier v (List.mem_of_getElem? hold) hreq).2
    · exact absurd ho' (hearlier v' (List.mem_of_getElem? hold') hreq.symm).2
    · exact hi.trans hj.symm

/-- A reply reaches the client call that waits for it. -/
theorem reply (h : s.Tracked) {j : Nat} {w : WriteCall} (hj : s.writes[j]? = some w)
    {answer : WriteReply} {req : Request} (hreq : s.proxy.requests[w.request]? = some req)
    (hawait : req.phase.awaited? = some w.attempt)
    (hok : w.accepted ≠ none →
      answer.success = true ∨ answer.redirectLeader = "" ∨ maxHops ≤ w.attempt)
    (hphase : w.phase ≠ .sent) {p : Proxy lib}
    (hs : s.proxy.step (.request w.request (.answer (.write answer))) = some p) :
    ({ s with proxy := p } : Service lib).Tracked := by
  obtain ⟨req', hreq', hs⟩ := Option.bind_eq_some_iff.1 hs
  obtain ⟨r, hr, hs⟩ := Option.bind_eq_some_iff.1 hs
  cases hs
  cases hreq.symm.trans hreq'
  refine h.proxy fun v hv req₀ hreq₀ htracks => ?_
  rw [Proxy.getElem?_setPhase (Proxy.requests_proceed hr) hreq]
  split
  · rename_i hk
    rw [← hk, hreq] at hreq₀
    cases hreq₀
    refine ⟨_, rfl, ?_⟩
    obtain ⟨call, phase⟩ := req
    unfold RequestPhase.awaited? at hawait
    dsimp only at hawait hr htracks
    split at hawait
    · rename_i m addr b generation
      cases hawait
      cases hr
      refine htracks.reply fun ho => hok ?_
      -- the only write of this attempt is the one that is answered
      have hatt : v.attempt = w.attempt :=
        Nat.le_antisymm htracks.1 (Nat.le_of_not_lt fun hlt => htracks.2 hlt ho)
      obtain ⟨i, hi⟩ := List.mem_iff_getElem?.1 hv
      have hij := h.distinct hi hj hk.symm hatt
      rw [hij, hj] at hi
      cases hi
      exact ho.resolve_left hphase
    · cases hawait
  · exact ⟨req₀, hreq₀, htracks⟩

/-- **Every safe step keeps the invariant.** -/
theorem step (h : s.Tracked) {a : ServiceAction} (hsafe : s.Safe a)
    (hs : s.step c marshal a = some s') : s'.Tracked := by
  cases a with
  | cluster a =>
      obtain ⟨cl, -, rfl⟩ := Option.map_eq_some_iff.1 hs
      exact h.cluster cl
  | proxy a =>
      obtain ⟨_, hguard, hs⟩ := Option.bind_eq_some_iff.1 hs
      obtain ⟨p, hp, hs⟩ := Option.bind_eq_some_iff.1 hs
      cases hs
      have ha : a.isWriteReply = false := guard_eq_some.1 hguard
      have hproxy : ({ s with proxy := p } : Service lib).Tracked :=
        h.proxy fun w hw req hreq htracks => Proxy.tracks_step ha hp hreq htracks
      cases hw : p.writeCall marshal a with
      | none => exact (List.append_nil s.writes).symm ▸ hproxy
      | some w =>
          obtain ⟨hearlier, hnew⟩ := Proxy.writeCall_tracks hp hw
          refine hproxy.append (fun v hv hreq => ?_) hnew
          obtain ⟨req, hreq₀, htracks⟩ := h.tracks v hv
          exact hearlier req (hreq ▸ hreq₀) v htracks
  | serve j =>
      obtain ⟨w, hw, hs⟩ := Option.bind_eq_some_iff.1 hs
      obtain ⟨_, hguard, hs⟩ := Option.bind_eq_some_iff.1 hs
      obtain ⟨cl, -, hs⟩ := Option.bind_eq_some_iff.1 hs
      cases hs
      exact h.setWrite hw (WriteCall.continues_propose (guard_eq_some.1 hguard) _) cl
  | crashServe j k =>
      obtain ⟨w, hw, hs⟩ := Option.bind_eq_some_iff.1 hs
      obtain ⟨_, hguard, hs⟩ := Option.bind_eq_some_iff.1 hs
      obtain ⟨cl, -, hs⟩ := Option.bind_eq_some_iff.1 hs
      cases hs
      exact h.setWrite hw (WriteCall.continues_crash (guard_eq_some.1 hguard) _) cl
  | proposeReturn j =>
      obtain ⟨w, hw, hs⟩ := Option.bind_eq_some_iff.1 hs
      split at hs
      · obtain ⟨call, -, hs⟩ := Option.bind_eq_some_iff.1 hs
        obtain ⟨outcome, -, hs⟩ := Option.bind_eq_some_iff.1 hs
        obtain ⟨cl, -, hs⟩ := Option.bind_eq_some_iff.1 hs
        cases hs
        exact h.setWrite hw (w.continues_outcome _ _ _) cl
      · cases hs
  | proposeCancel j =>
      obtain ⟨w, hw, hs⟩ := Option.bind_eq_some_iff.1 hs
      split at hs
      · obtain ⟨cl, -, hs⟩ := Option.bind_eq_some_iff.1 hs
        cases hs
        exact h.setWrite hw (w.continues_setPhase (by simp)) cl
      · cases hs
  | leaderAddress j =>
      obtain ⟨w, hw, hs⟩ := Option.bind_eq_some_iff.1 hs
      obtain ⟨-, -, hs⟩ := Option.bind_eq_some_iff.1 hs
      cases hs
      exact h.setWrite hw (w.continues_redirect _) s.cluster
  | reply j =>
      obtain ⟨w, hw, hs⟩ := Option.bind_eq_some_iff.1 hs
      obtain ⟨answer, hanswer, hs⟩ := Option.bind_eq_some_iff.1 hs
      obtain ⟨req, hreq, hs⟩ := Option.bind_eq_some_iff.1 hs
      obtain ⟨_, hguard, hs⟩ := Option.bind_eq_some_iff.1 hs
      obtain ⟨p, hp, hs⟩ := Option.bind_eq_some_iff.1 hs
      cases hs
      refine h.reply hw hreq (guard_eq_some.1 hguard)
        (fun hacc => hsafe w hw hacc answer hanswer) (fun hsent => ?_) hp
      rw [hsent] at hanswer
      cases hanswer

end Service.Tracked

/-- Two entries that were appended for one client call are the same. -/
theorem Service.Tracked.accepted_unique {s : Service lib} (h : s.Tracked) {w w' : WriteCall}
    (hw : w ∈ s.writes) (hw' : w' ∈ s.writes) (hr : w.request = w'.request) {e e' : LogEntry}
    (he : w.accepted = some e) (he' : w'.accepted = some e') : e = e' := by
  obtain ⟨i, hi⟩ := List.mem_iff_getElem?.1 hw
  obtain ⟨j, hj⟩ := List.mem_iff_getElem?.1 hw'
  have hij := h.once hi hj hr (.inr (by simp [he])) (.inr (by simp [he']))
  rw [hij, hj] at hi
  cases hi
  rw [he] at he'
  exact Option.some.inj he'

/-- A step of the service is at most one step of the cluster. -/
theorem Service.cluster_step {c : Config} {marshal : KVCommand → List UInt8} {s s' : Service lib}
    {a : ServiceAction} (hsafe : s.ClusterSafe a) (hs : s.step c marshal a = some s') :
    s'.cluster = s.cluster ∨
      ∃ act, B5KvStore.Safe s.cluster act ∧ B5KvStore.step c s.cluster act = some s'.cluster := by
  cases a with
  | cluster a =>
      obtain ⟨cl, hcl, rfl⟩ := Option.map_eq_some_iff.1 hs
      exact .inr ⟨a, hsafe, hcl⟩
  | proxy a =>
      obtain ⟨_, -, hs⟩ := Option.bind_eq_some_iff.1 hs
      obtain ⟨p, -, hs⟩ := Option.bind_eq_some_iff.1 hs
      cases hs
      exact .inl rfl
  | serve j =>
      obtain ⟨w, -, hs⟩ := Option.bind_eq_some_iff.1 hs
      obtain ⟨_, -, hs⟩ := Option.bind_eq_some_iff.1 hs
      obtain ⟨cl, hcl, hs⟩ := Option.bind_eq_some_iff.1 hs
      cases hs
      refine .inr ⟨_, ?_, hcl⟩
      exact ⟨trivial, trivial⟩
  | crashServe j k =>
      obtain ⟨w, -, hs⟩ := Option.bind_eq_some_iff.1 hs
      obtain ⟨_, -, hs⟩ := Option.bind_eq_some_iff.1 hs
      obtain ⟨cl, hcl, hs⟩ := Option.bind_eq_some_iff.1 hs
      cases hs
      refine .inr ⟨_, ?_, hcl⟩
      exact ⟨trivial, trivial⟩
  | proposeReturn j =>
      obtain ⟨w, -, hs⟩ := Option.bind_eq_some_iff.1 hs
      split at hs
      · obtain ⟨call, -, hs⟩ := Option.bind_eq_some_iff.1 hs
        obtain ⟨outcome, -, hs⟩ := Option.bind_eq_some_iff.1 hs
        obtain ⟨cl, hcl, hs⟩ := Option.bind_eq_some_iff.1 hs
        cases hs
        refine .inr ⟨_, ?_, hcl⟩
        exact ⟨trivial, trivial⟩
      · cases hs
  | proposeCancel j =>
      obtain ⟨w, -, hs⟩ := Option.bind_eq_some_iff.1 hs
      split at hs
      · obtain ⟨cl, hcl, hs⟩ := Option.bind_eq_some_iff.1 hs
        cases hs
        refine .inr ⟨_, ?_, hcl⟩
        exact ⟨trivial, trivial⟩
      · cases hs
  | leaderAddress j =>
      obtain ⟨w, -, hs⟩ := Option.bind_eq_some_iff.1 hs
      obtain ⟨_, -, hs⟩ := Option.bind_eq_some_iff.1 hs
      cases hs
      exact .inl rfl
  | reply j =>
      obtain ⟨w, -, hs⟩ := Option.bind_eq_some_iff.1 hs
      obtain ⟨answer, -, hs⟩ := Option.bind_eq_some_iff.1 hs
      obtain ⟨req, -, hs⟩ := Option.bind_eq_some_iff.1 hs
      obtain ⟨_, -, hs⟩ := Option.bind_eq_some_iff.1 hs
      obtain ⟨p, -, hs⟩ := Option.bind_eq_some_iff.1 hs
      cases hs
      exact .inl rfl

/-- The cluster of a service applies in order. -/
theorem Service.orderly {c : Config} {marshal : KVCommand → List UInt8} {as : List ServiceAction}
    {s : Service lib}
    (hsafe : Runs.Along (Service.step c marshal) Service.ClusterSafe (init lib c) as)
    (hrun : Runs.exec (Service.step c marshal) (init lib c) as = some s) : Orderly c s.cluster := by
  have hinv : (∃ a, ClusterView c a s.cluster) ∧ Orderly c s.cluster := by
    refine Runs.invariant (I := fun s => (∃ a, ClusterView c a s.cluster) ∧ Orderly c s.cluster) ?_
      ⟨⟨_, .init c⟩, .init c⟩ hsafe hrun
    rintro s a s' ⟨⟨m, hview⟩, hord⟩ hok hs
    rcases Service.cluster_step hok hs with hsame | ⟨act, hact, hs⟩
    · rw [hsame]
      exact ⟨⟨m, hview⟩, hord⟩
    · obtain ⟨p, m', -, hview'⟩ := hview.step hact hs
      exact ⟨⟨m', hview'⟩, hord.step hview hact hs⟩
  exact hinv.2

/-- **Client writes are applied at most once.**  When every reply to an accepted write reports
success, names no leader or is the last one the proxy follows, one client call contributes at
most one entry to what is applied anywhere; and if snapshots are used safely, no process
applies it twice. -/
theorem write_applied_once (lib : Gobreaker) (c : Config) (marshal : KVCommand → List UInt8)
    (as : List ServiceAction) (s : Service lib) (r : Nat)
    (hsafe : Runs.Along (Service.step c marshal) Service.Safe (Service.init lib c) as)
    (hrun : Runs.exec (Service.step c marshal) (Service.init lib c) as = some s) :
    (∀ msg msg', s.AppliedFor r msg → s.AppliedFor r msg' → msg = msg') ∧
    (Runs.Along (Service.step c marshal) Service.ClusterSafe (Service.init lib c) as →
      ∀ p ∈ c.addrs, ∀ (epoch i j : Nat) (msg msg'), (s.cluster.appliedBy p epoch)[i]? = some msg →
        (s.cluster.appliedBy p epoch)[j]? = some msg' → s.AppliedFor r msg →
        s.AppliedFor r msg' → i = j) := by
  have htracked := Runs.invariant (fun s a s' (h : s.Tracked) hok hs => h.step hok hs)
    (Service.Tracked.init lib c) hsafe hrun
  have honce : ∀ msg msg', s.AppliedFor r msg → s.AppliedFor r msg' → msg = msg' := by
    rintro ⟨index, term, command⟩ ⟨index', term', command'⟩ ⟨⟨w, hw, hr, hacc⟩, -⟩
      ⟨⟨w', hw', hr', hacc'⟩, -⟩
    have heq := htracked.accepted_unique hw hw' (hr.trans hr'.symm) hacc hacc'
    cases heq
    rfl
  refine ⟨honce, fun hcluster p hp epoch i j msg msg' hi hj h h' => ?_⟩
  obtain rfl := honce msg msg' h h'
  have hord := (Service.orderly hcluster hrun).order p hp epoch
  obtain ⟨hilt, hieq⟩ := List.getElem?_eq_some_iff.1 hi
  obtain ⟨hjlt, hjeq⟩ := List.getElem?_eq_some_iff.1 hj
  have hlt := List.pairwise_iff_getElem.1 hord
  rcases Nat.lt_trichotomy i j with hij | hij | hij
  · have := hlt i j hilt hjlt hij
    rw [hieq, hjeq] at this
    exact absurd this (Nat.lt_irrefl _)
  · exact hij
  · have := hlt j i hjlt hilt hij
    rw [hieq, hjeq] at this
    exact absurd this (Nat.lt_irrefl _)

/-! ## Examples -/

/-- The bytes of a command that puts a value of one character. -/
def marshalPut (cmd : KVCommand) : List UInt8 :=
  [0x12, 1] ++ cmd.key.toList.map (fun ch => UInt8.ofNat ch.toNat) ++ [0x1a, 1] ++
    cmd.value.toList.map (fun ch => UInt8.ofNat ch.toNat)

/-- `a` is elected, the proxy learns of it, and a client writes `x = 1`: `a` appends the entry
and sends it to `b`. -/
def firstWrite : List ServiceAction :=
  (winElection "a" "b" 0).map .cluster ++
    [.proxy .refresh, .proxy (.refreshed 0 (some ⟨"a", ["b", "c"], ["a", "b", "c"]⟩)),
      .proxy (.call (.write .opPut "x" "1")), .proxy (.request 0 .checkOpen),
      .proxy (.request 0 .breakerFor), .proxy (.request 0 .enter), .serve 0,
      .cluster (.run (.broadcastAppendEntries "a")),
      .cluster (.run (.appendEntries 0 "b" noFaults))]

/-- `b` answers in time, and the write is committed. -/
def writeCommitted : List ServiceAction :=
  firstWrite ++ [.cluster (.run (.appendEntriesReply 0 "b" false)), .proposeReturn 0, .reply 0]

theorem write_applied_once_writeCommitted : ∃ s,
    Runs.exec (Service.step trio marshalPut) (.init gobreaker trio) writeCommitted = some s ∧
    s.AppliedFor 0 ⟨1, 1, putBytes 120 49⟩ ∧
    ∀ msg, s.AppliedFor 0 msg → msg = ⟨1, 1, putBytes 120 49⟩ := by
  have hsafe : Runs.Along (Service.step trio marshalPut) Service.Safe (Service.init gobreaker trio)
      writeCommitted := by
    decide +kernel
  obtain ⟨s, hrun, hw, happlied⟩ := Runs.exists_of_exec
    (fun s : Service gobreaker => (∃ w ∈ s.writes, w.request = 0 ∧
        w.accepted = some ⟨1, 1, putBytes 120 49⟩) ∧
      ⟨1, 1, putBytes 120 49⟩ ∈ s.cluster.appliedBy "a" 0)
    (by decide +kernel : (Runs.exec (Service.step trio marshalPut) (Service.init gobreaker trio)
      writeCommitted).any _ = true)
  have hfirst : s.AppliedFor 0 ⟨1, 1, putBytes 120 49⟩ := ⟨hw, "a", 0, happlied⟩
  have honce := (write_applied_once gobreaker trio marshalPut writeCommitted s 0 hsafe hrun).1
  exact ⟨s, hrun, hfirst, fun msg hmsg => honce msg _ hmsg hfirst⟩

/-- Before the answer of `b` arrives, `b` itself is elected, and `a` learns of it.  Another
client puts `x = 2`; the proxy follows the redirect of `a` and sends `x = 1` again. -/
def writeRedirected : List ServiceAction :=
  firstWrite ++ (winElection "b" "c" 1).map .cluster ++
    [.cluster (.run (.broadcastAppendEntries "b")),
      .cluster (.run (.appendEntries 1 "a" noFaults)), .proposeReturn 0, .leaderAddress 0,
      .reply 0, .cluster (.run (.propose "b" (putBytes 120 50))),
      .proxy (.request 0 .breakerFor), .proxy (.request 0 .enter), .serve 1] ++
    (replicate "b" "c" 2 ++ replicate "b" "c" 3).map .cluster

/-- One client call is applied twice: the value `1` is back after `x = 2`. -/
theorem write_applied_twice : ∃ s,
    Runs.exec (Service.step trio marshalPut) (.init gobreaker trio) writeRedirected = some s ∧
    s.AppliedFor 0 ⟨1, 1, putBytes 120 49⟩ ∧ s.AppliedFor 0 ⟨3, 2, putBytes 120 49⟩ ∧
    s.cluster.appliedBy "b" 0 =
      [⟨1, 1, putBytes 120 49⟩, ⟨2, 2, putBytes 120 50⟩, ⟨3, 2, putBytes 120 49⟩] ∧
    (s.cluster.hosts "b").kv "x" = some "1" := by
  obtain ⟨s, hrun, hw, hw', happlied, hkv⟩ := Runs.exists_of_exec
    (fun s : Service gobreaker =>
      (∃ w ∈ s.writes, w.request = 0 ∧ w.accepted = some ⟨1, 1, putBytes 120 49⟩) ∧
      (∃ w ∈ s.writes, w.request = 0 ∧ w.accepted = some ⟨2, 3, putBytes 120 49⟩) ∧
      s.cluster.appliedBy "b" 0 =
        [⟨1, 1, putBytes 120 49⟩, ⟨2, 2, putBytes 120 50⟩, ⟨3, 2, putBytes 120 49⟩] ∧
      (s.cluster.hosts "b").kv "x" = some "1")
    (by decide +kernel : (Runs.exec (Service.step trio marshalPut) (Service.init gobreaker trio)
      writeRedirected).any _ = true)
  refine ⟨s, hrun, ⟨hw, "b", 0, ?_⟩, ⟨hw', "b", 0, ?_⟩, happlied, hkv⟩ <;> simp [happlied]

end B5KvStore
