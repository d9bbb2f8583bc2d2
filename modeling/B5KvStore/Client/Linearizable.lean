import B5KvStore.Client.Gateway
import B5KvStore.Lib.Forwarding
import B5KvStore.Server.Linearizable

/-!
# Clients of the proxy see one map

A client call takes effect through the calls of nodes that the proxy makes for it.  At most one of
them is a write that can take effect, as long as no write that a leader has accepted is sent to
another node; and what the client is told is what one of them has returned.  So the linearizability
of the servers is that of the proxy.

* `Gateway.history` — the client calls as their callers see them.
* `Gateway.ClientView` — what holds of one client call.
* `Gateway.Inv` — what holds of all of them together.
* `proxy_linearizable`.
-/

namespace B5KvStore

open Linearizability (Call Linearizable Forwards)

variable {lib : Gobreaker}

/-! ## What the clients see -/

/-- What a client learns; nothing if it is told to try again. -/
def ClientResult.result? : ClientResult → Option KVResult
  | .wrote reply => some (.wrote reply.commitIndex)
  | .read reply => some (.value (some reply.value))
  | .failed err => if err = errNotFound "key not found" then some (.value none) else none

/-- How a client call has ended. -/
def Client.outcome (client : Client) : RequestPhase → Linearizability.Outcome KVResult
  | .finished result =>
      match client.answered, result.result? with
      | some time, some r => .returned time r
      | _, _ => .pending
  | _ => .pending

/-- The client calls. -/
def Gateway.history (s : Gateway lib) : List (Call ClientCall KVResult) :=
  List.zipWith (fun req client => ⟨req.call, client.invoked, client.outcome req.phase⟩)
    s.proxy.requests s.clients

/-- The client call waits for the last attempt of a write, if for one. -/
def RequestPhase.LastAttempt (phase : RequestPhase) : Prop := ∀ m ∈ phase.awaited?, maxHops ≤ m

/-- The reply to a write. -/
def RpcResult.write? : RpcResult → Option WriteReply
  | .write reply => some reply
  | .get _ | .error _ => none

/-- A write for which an entry was appended is not sent to another node: the reply reports
success, or names no leader, or the proxy has no attempt left. -/
def Gateway.Settled (s : Gateway lib) : GatewayAction → Prop
  | .reply i => ∀ rpc ∈ s.rpcs[i]?, ∀ j ∈ rpc.call, ∀ x ∈ s.servers.calls[j]?, x.entry ≠ none →
      ∀ req ∈ s.proxy.requests[rpc.request]?, ∀ r ∈ x.reply?.bind RpcResult.write?,
        r.success = true ∨ r.redirectLeader = "" ∨ req.phase.LastAttempt
  | .servers _ | .proxy _ | .deliver _ => True

instance RequestPhase.decidableLastAttempt (phase : RequestPhase) :
    Decidable phase.LastAttempt :=
  inferInstanceAs (Decidable (∀ m ∈ phase.awaited?, maxHops ≤ m))

instance Gateway.decidableSettled (s : Gateway lib) :
    (act : GatewayAction) → Decidable (s.Settled act)
  | .reply i => inferInstanceAs (Decidable (∀ rpc ∈ s.rpcs[i]?, ∀ j ∈ rpc.call,
      ∀ x ∈ s.servers.calls[j]?, x.entry ≠ none → ∀ req ∈ s.proxy.requests[rpc.request]?,
        ∀ r ∈ x.reply?.bind RpcResult.write?,
          r.success = true ∨ r.redirectLeader = "" ∨ req.phase.LastAttempt))
  | .servers _ | .proxy _ | .deliver _ => instDecidableTrue

/-- What is asked of a step. -/
structure Gateway.Sound (c : Config) (marshal : Marshal) (s : Gateway lib) (act : GatewayAction) :
    Prop where
  servers : ∀ a, act = .servers a → s.servers.Sound c marshal a
  settled : s.Settled act

/-! ## One client call -/

/-- The routes of writes are for writes. -/
def RequestPhase.Suits (call : ClientCall) : RequestPhase → Prop
  | .calling route _ | .entering route _ _ | .waiting route _ _ _ => route.isWrite = call.isWrite
  | .falling => call.isWrite = false
  | .checking _ _ | .finished _ => True

/-- The call of a node has been turned down, without an effect. -/
def Gateway.Closed (s : Gateway lib) (rpc : Rpc) : Prop :=
  ∃ j x, rpc.call = some j ∧ s.servers.calls[j]? = some x ∧ x.result = .failed

/-- A call of a node for the client call `k` has returned this result by then. -/
def Gateway.Returned (s : Gateway lib) (k time : Nat) (r : KVResult) : Prop :=
  ∃ (i j : Nat) (rpc : Rpc) (x : KVCall) (t : Nat), s.rpcs[i]? = some rpc ∧ rpc.request = k ∧
    rpc.call = some j ∧ s.servers.calls[j]? = some x ∧ x.result = .returned t r ∧ t ≤ time

/-- **One client call**, and the calls of nodes made for it. -/
structure Gateway.ClientView (s : Gateway lib) (k : Nat) (req : Request) (client : Client) :
    Prop where
  invoked : client.invoked ≤ s.servers.clock
  suits : req.phase.Suits req.call
  awaits : ∀ i, client.awaiting = some i → req.phase.called? ≠ none
  result : ∀ result r, req.phase = .finished result → result.result? = some r →
    ∃ time, client.answered = some time ∧ s.Returned k time r
  /-- A write that is not answered yet waits for the one call of a node that may take effect. -/
  idle : req.call.isWrite = true → (∀ result, req.phase ≠ .finished result) →
    ∀ (i : Nat) (rpc : Rpc), s.rpcs[i]? = some rpc → rpc.request = k → client.awaiting ≠ some i →
      s.Closed rpc
  once : req.call.isWrite = true → ∀ (i i' : Nat) (rpc rpc' : Rpc), s.rpcs[i]? = some rpc →
    s.rpcs[i']? = some rpc' → rpc.request = k → rpc'.request = k → i ≠ i' →
    s.Closed rpc ∨ s.Closed rpc'

/-- What a step may do, as far as the client call `k` is concerned, when it is not that call that
goes on. -/
structure Gateway.Keeps (s s' : Gateway lib) (k : Nat) : Prop where
  clock : s.servers.clock ≤ s'.servers.clock
  old : ∀ (i : Nat) (rpc : Rpc), s.rpcs[i]? = some rpc → rpc.request = k →
    ∃ rpc', s'.rpcs[i]? = some rpc' ∧ rpc'.request = k ∧ ∀ j, rpc.call = some j →
      rpc'.call = some j
  new : ∀ (i : Nat) (rpc' : Rpc), s'.rpcs[i]? = some rpc' → rpc'.request = k →
    ∃ rpc, s.rpcs[i]? = some rpc ∧ rpc.request = k ∧ ∀ j, rpc.call = some j → rpc'.call = some j
  calls : ∀ (j : Nat) (x : KVCall), s.servers.calls[j]? = some x → x.reply? ≠ none →
    s'.servers.calls[j]? = some x

section

variable {s s' : Gateway lib} {k : Nat} {req : Request} {client : Client} {x : KVCall}
  {rpc rpc' : Rpc}

/-- Only an answer tells how a call has ended. -/
theorem KVCall.reply?_of_result (h : x.result ≠ .pending) : x.reply? ≠ none := by
  unfold KVCall.result at h
  unfold KVCall.reply?
  cases hstage : x.stage with
  | returned time reply => simp
  | _ => simp [hstage] at h

theorem Gateway.Closed.mono (h : s.Closed rpc)
    (hcalls : ∀ (j : Nat) (x : KVCall), s.servers.calls[j]? = some x → x.reply? ≠ none →
      s'.servers.calls[j]? = some x) (hrpc : ∀ j, rpc.call = some j → rpc'.call = some j) :
    s'.Closed rpc' := by
  obtain ⟨j, x, hj, hx, hres⟩ := h
  exact ⟨j, x, hrpc j hj, hcalls j x hx (KVCall.reply?_of_result (by rw [hres]; nofun)), hres⟩

theorem Gateway.Keeps.returned (h : s.Keeps s' k) {time : Nat} {r : KVResult}
    (hr : s.Returned k time r) : s'.Returned k time r := by
  obtain ⟨i, j, rpc, x, t, hi, hk, hj, hx, hres, ht⟩ := hr
  obtain ⟨rpc', hi', hk', hj'⟩ := h.old i rpc hi hk
  exact ⟨i, j, rpc', x, t, hi', hk', hj' j hj,
    h.calls j x hx (KVCall.reply?_of_result (by rw [hres]; nofun)), hres, ht⟩

theorem Gateway.ClientView.mono (h : s.ClientView k req client) (hk : s.Keeps s' k) :
    s'.ClientView k req client where
  invoked := h.invoked.trans hk.clock
  suits := h.suits
  awaits := h.awaits
  result result r hphase hr := by
    obtain ⟨time, htime, hret⟩ := h.result result r hphase hr
    exact ⟨time, htime, hk.returned hret⟩
  idle hwrite hopen i rpc' hi hreq hawait := by
    obtain ⟨rpc, hi₀, hreq₀, hcall⟩ := hk.new i rpc' hi hreq
    exact (h.idle hwrite hopen i rpc hi₀ hreq₀ hawait).mono hk.calls hcall
  once hwrite i i' rpc₁ rpc₂ hi hi' hreq hreq' hne := by
    obtain ⟨rpc, hi₀, hreq₀, hcall⟩ := hk.new i rpc₁ hi hreq
    obtain ⟨rpc', hi₀', hreq₀', hcall'⟩ := hk.new i' rpc₂ hi' hreq'
    exact (h.once hwrite i i' rpc rpc' hi₀ hi₀' hreq₀ hreq₀' hne).imp
      (fun hc => hc.mono hk.calls hcall) (fun hc => hc.mono hk.calls hcall')

/-! ## A client call goes on -/

/-- The call of a node that the client call waits for has come back with this result. -/
def Gateway.Answers (s : Gateway lib) (k : Nat) (req : Request) (client : Client)
    (result : RpcResult) : Prop :=
  ∃ (i j : Nat) (rpc : Rpc) (x : KVCall) (t : Nat), client.awaiting = some i ∧
    s.rpcs[i]? = some rpc ∧ rpc.request = k ∧ rpc.call = some j ∧ s.servers.calls[j]? = some x ∧
    x.stage = .returned t result ∧ t ≤ s.servers.clock ∧ (x.entry ≠ none → ∀ r, result = .write r →
      r.success = true ∨ r.redirectLeader = "" ∨ req.phase.LastAttempt)

theorem Gateway.Answers.returned {result : RpcResult} {r : KVResult}
    (h : s.Answers k req client result)
    (hres : ∀ x : KVCall, ∀ t, x.stage = .returned t result → x.result = .returned t r) :
    s.Returned k s.servers.clock r := by
  obtain ⟨i, j, rpc, x, t, -, hi, hk, hj, hx, hstage, ht, -⟩ := h
  exact ⟨i, j, rpc, x, t, hi, hk, hj, hx, hres x t hstage, ht⟩

theorem ClientResult.Unavailable.result? {result : ClientResult} (h : result.Unavailable) :
    result.result? = none := by
  obtain ⟨message, retryAfter, rfl⟩ := h
  have hne : errUnavailable message retryAfter ≠ errNotFound "key not found" := by
    simp [errUnavailable, errNotFound]
  simp [ClientResult.result?, hne]

theorem Gateway.rpcs_goOn {p : Proxy lib} {phase : RequestPhase} (h : phase.called? = none) :
    (s.goOn k p phase).rpcs = s.rpcs := by
  unfold Gateway.goOn
  rw [h]
  exact List.append_nil _

/-- While nothing is waited for, no call of a node for a write can take effect. -/
theorem Gateway.ClientView.all_closed (h : s.ClientView k req client)
    (hcalled : req.phase.called? = none) (hopen : ∀ result, req.phase ≠ .finished result)
    (hwrite : req.call.isWrite = true) (i : Nat) (rpc : Rpc) (hi : s.rpcs[i]? = some rpc)
    (hreq : rpc.request = k) : s.Closed rpc :=
  h.idle hwrite hopen i rpc hi hreq fun hawait => h.awaits i hawait hcalled

/-- The client call calls a node. -/
theorem Gateway.ClientView.enter (h : s.ClientView k req client) {route : Route} {addr : String}
    {b generation : Nat} (hphase : req.phase = .entering route addr b) (p : Proxy lib) :
    (s.goOn k p (.waiting route addr b generation)).ClientView k
      { req with phase := .waiting route addr b generation }
      (client.goOn s.servers.clock s.rpcs.length (.waiting route addr b generation)) := by
  have hsuits := h.suits
  rw [hphase] at hsuits
  have hclosed : ∀ {i : Nat} {rpc : Rpc}, req.call.isWrite = true →
      (s.rpcs ++ [⟨k, addr, none⟩])[i]? = some rpc → rpc.request = k → i ≠ s.rpcs.length →
      s.Closed rpc := by
    intro i rpc hwrite hi hreq hne
    have hlt : i < s.rpcs.length := by
      have := (List.getElem?_eq_some_iff.1 hi).1
      rw [List.length_append, List.length_singleton] at this
      omega
    rw [List.getElem?_append_left hlt] at hi
    exact h.all_closed (by rw [hphase]; rfl) (by rw [hphase]; nofun) hwrite i rpc hi hreq
  refine ⟨h.invoked.trans (Nat.le_succ _), hsuits, fun i _ => by simp [RequestPhase.called?],
    nofun, fun hwrite _ i rpc hi hreq hawait => ?_,
    fun hwrite i i' rpc rpc' hi hi' hreq hreq' hne => ?_⟩
  · exact hclosed hwrite hi hreq fun heq => hawait (heq ▸ rfl)
  · by_cases hlast : i = s.rpcs.length
    · exact Or.inr (hclosed hwrite hi' hreq' fun heq => hne (hlast.trans heq.symm))
    · exact Or.inl (hclosed hwrite hi hreq hlast)

/-- The client call goes on without calling a node. -/
theorem Gateway.ClientView.of_quiet (h : s.ClientView k req client) (phase : RequestPhase)
    (hcalled : phase.called? = none) (hsuits : phase.Suits req.call)
    (hresult : ∀ result r, phase = .finished result → result.result? = some r →
      s.Returned k s.servers.clock r)
    (hidle : req.call.isWrite = true → (∀ result, phase ≠ .finished result) →
      ∀ (i : Nat) (rpc : Rpc), s.rpcs[i]? = some rpc → rpc.request = k → s.Closed rpc)
    (p : Proxy lib) :
    (s.goOn k p phase).ClientView k { req with phase := phase }
      (client.goOn s.servers.clock s.rpcs.length phase) := by
  have hrpcs : (s.goOn k p phase).rpcs = s.rpcs := Gateway.rpcs_goOn hcalled
  have hawait : (client.goOn s.servers.clock s.rpcs.length phase).awaiting = none := by
    cases phase with
    | waiting route addr b generation => exact absurd hcalled (by simp [RequestPhase.called?])
    | _ => rfl
  have hinvoked : (client.goOn s.servers.clock s.rpcs.length phase).invoked = client.invoked := by
    cases phase <;> rfl
  refine ⟨by rw [hinvoked]; exact h.invoked.trans (Nat.le_succ _), hsuits,
    fun i hi => absurd (hawait.symm.trans hi) (by simp), fun result r hphase hr => ?_,
    fun hwrite hopen i rpc hi hreq _ => ?_, fun hwrite i i' rpc rpc' hi hi' => ?_⟩
  · subst hphase
    obtain ⟨i, j, rpc, x, t, hi, hrest⟩ := hresult result r rfl hr
    exact ⟨s.servers.clock, rfl, i, j, rpc, x, t, hrpcs ▸ hi, hrest⟩
  · exact hidle hwrite hopen i rpc (hrpcs ▸ hi) hreq
  · exact h.once hwrite i i' rpc rpc' (hrpcs ▸ hi) (hrpcs ▸ hi')

/-- **The client call goes on.** -/
theorem Gateway.ClientView.proceed (h : s.ClientView k req client) {a : RequestAction}
    {phase : RequestPhase} (hproc : Proxy.Proceeds req.call a req.phase phase)
    (hans : ∀ result, a = .answer result → (∃ d, result = .error d) ∨ s.Answers k req client result)
    (p : Proxy lib) : (s.goOn k p phase).ClientView k { req with phase := phase }
      (client.goOn s.servers.clock s.rpcs.length phase) := by
  have hsuits := h.suits
  have hwrote : ∀ reply, a = .answer (.write reply) → s.Answers k req client (.write reply) :=
    fun reply ha => (hans _ ha).resolve_left fun ⟨d, hd⟩ => nomatch hd
  have hread : ∀ reply, a = .answer (.get reply) → s.Answers k req client (.get reply) :=
    fun reply ha => (hans _ ha).resolve_left fun ⟨d, hd⟩ => nomatch hd
  have hclosed := h.all_closed
  generalize hphase : req.phase = phase₀ at hproc
  rw [hphase] at hsuits hclosed
  cases hproc with
  | look view addrs addrs' =>
      exact h.of_quiet (.checking view addrs') rfl trivial nofun
        (fun hw _ => hclosed rfl nofun hw) p
  | choose view addrs route addr hroute =>
      exact h.of_quiet (.calling route addr) rfl hroute nofun (fun hw _ => hclosed rfl nofun hw) p
  | lookUp route addr b =>
      exact h.of_quiet (.entering route addr b) rfl hsuits nofun
        (fun hw _ => hclosed rfl nofun hw) p
  | enter route addr b generation => exact h.enter hphase p
  | blocked addr b =>
      exact h.of_quiet .falling rfl hsuits.symm nofun (fun hw _ => hclosed rfl nofun hw) p
  | fall addr b generation result =>
      exact h.of_quiet .falling rfl hsuits.symm nofun (fun hw => absurd (hsuits.trans hw) nofun) p
  | fallback addr =>
      exact h.of_quiet (.calling .singleHop addr) rfl hsuits.symm nofun
        (fun hw => absurd (hsuits.symm.trans hw) nofun) p
  | giveUp _ _ result _ hresult =>
      refine h.of_quiet (.finished result) rfl trivial (fun result' r heq hr => ?_)
        (fun _ hopen => absurd rfl (hopen result)) p
      obtain rfl := RequestPhase.finished.inj heq
      exact absurd (hresult.result?.symm.trans hr) nofun
  | wrote m addr b generation reply hok =>
      refine h.of_quiet (.finished (.wrote reply)) rfl trivial (fun result r heq hr => ?_)
        (fun _ hopen => absurd rfl (hopen _)) p
      obtain rfl := RequestPhase.finished.inj heq
      obtain rfl := Option.some.inj hr
      refine (hwrote reply rfl).returned fun x t hstage => ?_
      simp [KVCall.result, hstage, hok]
  | read route addr b generation reply hok hfound =>
      refine h.of_quiet (.finished (.read reply)) rfl trivial (fun result r heq hr => ?_)
        (fun _ hopen => absurd rfl (hopen _)) p
      obtain rfl := RequestPhase.finished.inj heq
      obtain rfl := Option.some.inj hr
      refine (hread reply rfl).returned fun x t hstage => ?_
      simp [KVCall.result, hstage, hok, hfound]
  | notFound route addr b generation reply hok hfound =>
      refine h.of_quiet (.finished (.failed (errNotFound "key not found"))) rfl trivial
        (fun result r heq hr => ?_) (fun _ hopen => absurd rfl (hopen _)) p
      obtain rfl := RequestPhase.finished.inj heq
      obtain rfl := Option.some.inj hr
      refine (hread reply rfl).returned fun x t hstage => ?_
      simp [KVCall.result, hstage, hok, hfound]
  | redirectWrite m addr b generation reply hno hknown hm =>
      refine h.of_quiet (.calling (.write (m + 1)) reply.redirectLeader) rfl hsuits nofun
        (fun hw _ i rpc hi hreq => ?_) p
      obtain ⟨i₀, j, rpc₀, x, t, hawait, hi₀, -, hj, hx, hstage, -, hlast⟩ := hwrote reply rfl
      by_cases heq : i₀ = i
      · -- the one that was redirected, for which no entry was appended
        subst heq
        obtain rfl := Option.some.inj (hi.symm.trans hi₀)
        have hentry : x.entry = none := by
          by_contra hsome
          rcases hlast hsome reply rfl with hok | hnone | hattempt
          · exact absurd (hok.symm.trans hno) nofun
          · exact hknown hnone
          · have := hattempt m (by rw [hphase]; rfl)
            omega
        exact ⟨j, x, hj, hx, by simp [KVCall.result, KVCall.unanswered, hstage, hno, hentry]⟩
      · refine h.idle hw (by rw [hphase]; nofun) i rpc hi hreq fun hi' => heq ?_
        exact Option.some.inj (hawait.symm.trans hi')
  | redirectRead m addr b generation reply =>
      exact h.of_quiet (.calling (.leaderPath (m + 1)) reply.redirectLeader) rfl hsuits nofun
        (fun hw => absurd (hsuits.trans hw) nofun) p

end

/-! ## All client calls -/

/-- **All client calls together.** -/
structure Gateway.Inv (c : Config) (marshal : Marshal) (s : Gateway lib) : Prop where
  servers : ∃ a, Servers.Inv c marshal a s.servers
  paired : s.clients.length = s.proxy.requests.length
  clients : ∀ (k : Nat) (req : Request) (client : Client), s.proxy.requests[k]? = some req →
    s.clients[k]? = some client → s.ClientView k req client
  made : ∀ (i : Nat) (rpc : Rpc), s.rpcs[i]? = some rpc → rpc.request < s.clients.length
  /-- The servers handle what the clients have asked for. -/
  calls : ∀ (i j : Nat) (rpc : Rpc), s.rpcs[i]? = some rpc → rpc.call = some j →
    ∃ x req client, s.servers.calls[j]? = some x ∧ s.proxy.requests[rpc.request]? = some req ∧
      s.clients[rpc.request]? = some client ∧ x.request = req.call ∧ client.invoked ≤ x.invoked
  arrived : ∀ (j : Nat) (x : KVCall), s.servers.calls[j]? = some x →
    ∃ (i : Nat) (rpc : Rpc), s.rpcs[i]? = some rpc ∧ rpc.call = some j
  distinct : ∀ (i i' j : Nat) (rpc rpc' : Rpc), s.rpcs[i]? = some rpc → s.rpcs[i']? = some rpc' →
    rpc.call = some j → rpc'.call = some j → i = i'

namespace Gateway.Inv

variable {c : Config} {marshal : Marshal} {s s' : Gateway lib}

theorem init (lib : Gobreaker) (c : Config) (marshal : Marshal) : Inv c marshal (.init lib c) where
  servers := ⟨_, .init c marshal⟩
  paired := rfl
  clients k req client hreq := absurd hreq (by simp [Gateway.init, newProxy])
  made i rpc hi := absurd hi (by simp [Gateway.init])
  calls i j rpc hi := absurd hi (by simp [Gateway.init])
  arrived j x hx := absurd hx (by simp [Gateway.init, Servers.init])
  distinct i i' j rpc rpc' hi := absurd hi (by simp [Gateway.init])

/-- The servers go on. -/
theorem of_servers (h : Inv c marshal s) {sv : Servers} (hcont : s.servers.Continues sv)
    (hsv : ∃ a, Servers.Inv c marshal a sv) : Inv c marshal { s with servers := sv } := by
  have hkeeps : ∀ k, s.Keeps { s with servers := sv } k := fun k =>
    ⟨hcont.clock, fun i rpc hi hk => ⟨rpc, hi, hk, fun _ hj => hj⟩,
      fun i rpc hi hk => ⟨rpc, hi, hk, fun _ hj => hj⟩, fun j x hx hreply => by
        obtain ⟨x', hx', hc⟩ := hcont.calls j x hx
        rw [hc.replied hreply] at hx'
        exact hx'⟩
  refine ⟨hsv, h.paired, fun k req client hreq hclient => ?_, h.made, fun i j rpc hi hj => ?_,
    fun j x hx => ?_, h.distinct⟩
  · exact (h.clients k req client hreq hclient).mono (hkeeps k)
  · obtain ⟨x, req, client, hx, hreq, hclient, hop, hle⟩ := h.calls i j rpc hi hj
    obtain ⟨x', hx', hc⟩ := hcont.calls j x hx
    exact ⟨x', req, client, hx', hreq, hclient, hc.request.trans hop, hc.invoked ▸ hle⟩
  · have hlt := (List.getElem?_eq_some_iff.1 hx).1
    exact h.arrived j _ (List.getElem?_eq_getElem (hcont.length ▸ hlt))

theorem tick (h : Inv c marshal s) : Inv c marshal { s with servers := s.servers.tick } := by
  obtain ⟨a, ha⟩ := h.servers
  refine h.of_servers (.tick _) ⟨a, ha.serving, fun x hx => ?_, ha.sorted, ha.distinct, ha.order,
    ha.origin⟩
  exact (ha.calls x hx).later (Nat.le_succ _)

/-- A call of a node arrives. -/
theorem deliver (h : Inv c marshal s) {i : Nat} {rpc : Rpc} (hi : s.rpcs[i]? = some rpc)
    (hcall : rpc.call = none) {req : Request} (hreq : s.proxy.requests[rpc.request]? = some req)
    {sv : Servers} (hs : s.servers.step c marshal (.receive rpc.server req.call) = some sv) :
    Inv c marshal { s with
      servers := sv
      rpcs := s.rpcs.set i { rpc with call := some s.servers.calls.length } } := by
  obtain ⟨a, ha⟩ := h.servers
  simp only [Servers.step] at hs
  split at hs
  case isFalse => exact absurd hs (by simp)
  rename_i hok
  obtain rfl := Option.some.inj hs
  have hrpc : ∀ {i' : Nat} {rpc' : Rpc},
      (s.rpcs.set i { rpc with call := some s.servers.calls.length })[i']? = some rpc' →
      i' = i ∧ rpc' = { rpc with call := some s.servers.calls.length } ∨
        s.rpcs[i']? = some rpc' := by
    intro i' rpc' hi'
    by_cases heq : i = i'
    · subst heq
      rw [List.getElem?_set_self (List.getElem?_eq_some_iff.1 hi).1] at hi'
      exact Or.inl ⟨rfl, (Option.some.inj hi').symm⟩
    · rw [List.getElem?_set_ne heq] at hi'
      exact Or.inr hi'
  have hold : ∀ {i' : Nat} {rpc' : Rpc}, s.rpcs[i']? = some rpc' → rpc'.call ≠ none →
      (s.rpcs.set i { rpc with call := some s.servers.calls.length })[i']? = some rpc' := by
    intro i' rpc' hi' hne
    rw [List.getElem?_set_ne]
    · exact hi'
    · rintro rfl
      obtain rfl := Option.some.inj (hi.symm.trans hi')
      exact hne hcall
  have hset := List.getElem?_set_self (a := { rpc with call := some s.servers.calls.length })
    (List.getElem?_eq_some_iff.1 hi).1
  have hlt : rpc.request < s.clients.length := h.made i rpc hi
  refine ⟨⟨a, ha.receive hok⟩, h.paired, fun k req' client hreq' hclient => ?_,
    fun i' rpc' hi' => ?_, fun i' j rpc' hi' hj => ?_, fun j x hx => ?_,
    fun i₁ i₂ j rpc₁ rpc₂ hi₁ hi₂ hj₁ hj₂ => ?_⟩
  · refine (h.clients k req' client hreq' hclient).mono ⟨Nat.le_succ _, fun i' rpc' hi' hk => ?_,
      fun i' rpc' hi' hk => ?_, fun j x hx _ => ?_⟩
    · by_cases hnone : rpc'.call = none
      · by_cases heq : i = i'
        · subst heq
          obtain rfl := Option.some.inj (hi.symm.trans hi')
          exact ⟨_, hset, hk, fun j hj => absurd (hnone.symm.trans hj) (by simp)⟩
        · exact ⟨rpc', (List.getElem?_set_ne heq).trans hi', hk, fun _ hj => hj⟩
      · exact ⟨rpc', hold hi' hnone, hk, fun _ hj => hj⟩
    · rcases hrpc hi' with ⟨rfl, rfl⟩ | hi'
      · exact ⟨rpc, hi, hk, fun j hj => absurd (hcall.symm.trans hj) (by simp)⟩
      · exact ⟨rpc', hi', hk, fun _ hj => hj⟩
    · exact (List.getElem?_append_left (List.getElem?_eq_some_iff.1 hx).1).trans hx
  · rcases hrpc hi' with ⟨-, rfl⟩ | hi'
    · exact hlt
    · exact h.made i' rpc' hi'
  · rcases hrpc hi' with ⟨-, rfl⟩ | hi'
    · obtain rfl := Option.some.inj hj
      have hclient := List.getElem?_eq_getElem hlt
      exact ⟨_, req, _, List.getElem?_concat_length .., hreq, hclient, rfl,
        (h.clients _ req _ hreq hclient).invoked⟩
    · obtain ⟨x, req', client, hx, hrest⟩ := h.calls i' j rpc' hi' hj
      exact ⟨x, req', client,
        (List.getElem?_append_left (List.getElem?_eq_some_iff.1 hx).1).trans hx, hrest⟩
  · by_cases hj : j < s.servers.calls.length
    · obtain ⟨i', rpc', hi', hj'⟩ := h.arrived j _ (List.getElem?_eq_getElem hj)
      exact ⟨i', rpc', hold hi' (by simp [hj']), hj'⟩
    · have hlen := (List.getElem?_eq_some_iff.1 hx).1
      rw [List.length_append, List.length_singleton] at hlen
      obtain rfl : j = s.servers.calls.length := by omega
      exact ⟨i, _, hset, rfl⟩
  · -- no call of the servers had the position that the new one gets
    have hnone : ∀ {i' : Nat} {rpc' : Rpc}, s.rpcs[i']? = some rpc' →
        rpc'.call ≠ some s.servers.calls.length := by
      intro i' rpc' hi' hj'
      obtain ⟨x, -, -, hx, -⟩ := h.calls i' _ rpc' hi' hj'
      exact absurd (List.getElem?_eq_some_iff.1 hx).1 (lt_irrefl _)
    rcases hrpc hi₁ with ⟨heq₁, rfl⟩ | hold₁
    · obtain rfl := Option.some.inj hj₁
      rcases hrpc hi₂ with ⟨heq₂, -⟩ | hold₂
      · exact heq₁.trans heq₂.symm
      · exact absurd hj₂ (hnone hold₂)
    · rcases hrpc hi₂ with ⟨-, rfl⟩ | hold₂
      · obtain rfl := Option.some.inj hj₂
        exact absurd hj₁ (hnone hold₁)
      · exact h.distinct i₁ i₂ j rpc₁ rpc₂ hold₁ hold₂ hj₁ hj₂

/-- A client calls the proxy. -/
theorem call (h : Inv c marshal s) {call : ClientCall} {p : Proxy lib} {phase : RequestPhase}
    (hp : p.requests = s.proxy.requests ++ [⟨call, phase⟩]) (hsuits : phase.Suits call)
    (hopen : ∀ result, phase ≠ .finished result) :
    Inv c marshal { s with
      servers := s.servers.tick
      proxy := p
      clients := s.clients ++ [⟨s.servers.clock, none, none⟩] } := by
  have hreq : ∀ {k : Nat} {req}, s.proxy.requests[k]? = some req → p.requests[k]? = some req := by
    intro k req hk
    rw [hp]
    exact (List.getElem?_append_left (List.getElem?_eq_some_iff.1 hk).1).trans hk
  have hclient : ∀ {k : Nat} {client}, s.clients[k]? = some client →
      (s.clients ++ [⟨s.servers.clock, none, none⟩])[k]? = some client := fun hk =>
    (List.getElem?_append_left (List.getElem?_eq_some_iff.1 hk).1).trans hk
  refine ⟨h.tick.servers, by rw [hp, List.length_append, List.length_append, h.paired]; rfl,
    fun k req client hk hk' => ?_, fun i rpc hi => ?_, fun i j rpc hi hj => ?_, h.arrived,
    h.distinct⟩
  · rw [hp] at hk
    by_cases hlt : k < s.proxy.requests.length
    · rw [List.getElem?_append_left hlt] at hk
      rw [List.getElem?_append_left (h.paired ▸ hlt)] at hk'
      exact (h.clients k req client hk hk').mono ⟨Nat.le_succ _,
        fun i rpc hi hr => ⟨rpc, hi, hr, fun _ hj => hj⟩,
        fun i rpc hi hr => ⟨rpc, hi, hr, fun _ hj => hj⟩, fun j x hx _ => hx⟩
    · -- nothing has been called for the new one
      have hlen := (List.getElem?_eq_some_iff.1 hk).1
      rw [List.length_append, List.length_singleton] at hlen
      obtain rfl : k = s.proxy.requests.length := by omega
      rw [List.getElem?_concat_length, Option.some.injEq] at hk
      rw [← h.paired, List.getElem?_concat_length, Option.some.injEq] at hk'
      subst hk hk'
      have hnone : ∀ {i : Nat} {rpc : Rpc}, s.rpcs[i]? = some rpc →
          rpc.request ≠ s.proxy.requests.length := fun hi heq =>
        absurd (h.made _ _ hi) (by rw [heq, h.paired]; exact lt_irrefl _)
      exact ⟨Nat.le_succ _, hsuits, nofun, fun result r hphase => absurd hphase (hopen result),
        fun _ _ i rpc hi hr => absurd hr (hnone hi),
        fun _ i i' rpc rpc' hi _ hr => absurd hr (hnone hi)⟩
  · have := h.made i rpc hi
    rw [List.length_append]
    omega
  · obtain ⟨x, req, client, hx, hr, hcl, hrest⟩ := h.calls i j rpc hi hj
    exact ⟨x, req, client, hx, hreq hr, hclient hcl, hrest⟩

/-- A client call goes on. -/
theorem goOn (h : Inv c marshal s) {k : Nat} {a : RequestAction} {p : Proxy lib} {req : Request}
    {phase : RequestPhase} (hreq : s.proxy.requests[k]? = some req)
    (hp : p.requests = s.proxy.requests.modify k fun req => { req with phase := phase })
    (hproc : Proxy.Proceeds req.call a req.phase phase)
    (hans : ∀ client, s.clients[k]? = some client → ∀ result, a = .answer result →
      (∃ d, result = .error d) ∨ s.Answers k req client result) :
    Inv c marshal (s.goOn k p phase) := by
  have hrequests : ∀ i : Nat, p.requests[i]? =
      if k = i then some { req with phase := phase } else s.proxy.requests[i]? := by
    intro i
    rw [hp, List.getElem?_modify]
    split
    · rename_i hk
      rw [← hk, hreq]
      rfl
    · exact Option.map_id'
  have hclients : ∀ i : Nat, (s.goOn k p phase).clients[i]? = if k = i then
      s.clients[i]?.map (fun client => client.goOn s.servers.clock s.rpcs.length phase)
      else s.clients[i]? := by
    intro i
    unfold Gateway.goOn
    dsimp only
    rw [List.getElem?_modify]
    split
    · rfl
    · exact Option.map_id'
  -- what has been called before, and what is called now
  have hrpc : ∀ {i : Nat} {rpc : Rpc}, (s.goOn k p phase).rpcs[i]? = some rpc →
      s.rpcs[i]? = some rpc ∨ i = s.rpcs.length ∧ rpc.request = k ∧ rpc.call = none := by
    intro i rpc hi
    unfold Gateway.goOn at hi
    dsimp only at hi
    by_cases hlt : i < s.rpcs.length
    · rw [List.getElem?_append_left hlt] at hi
      exact Or.inl hi
    · cases hcalled : phase.called? with
      | none =>
          rw [hcalled, Option.map_none, Option.toList_none, List.append_nil] at hi
          exact Or.inl hi
      | some addr =>
          rw [hcalled, Option.map_some, Option.toList_some] at hi
          have hlast := (List.getElem?_eq_some_iff.1 hi).1
          rw [List.length_append, List.length_singleton] at hlast
          obtain rfl : i = s.rpcs.length := by omega
          rw [List.getElem?_concat_length, Option.some.injEq] at hi
          subst hi
          exact Or.inr ⟨rfl, rfl, rfl⟩
  have hold : ∀ {i : Nat} {rpc : Rpc}, s.rpcs[i]? = some rpc →
      (s.goOn k p phase).rpcs[i]? = some rpc := fun hi =>
    (List.getElem?_append_left (List.getElem?_eq_some_iff.1 hi).1).trans hi
  have hinvoked : ∀ client : Client,
      (client.goOn s.servers.clock s.rpcs.length phase).invoked = client.invoked := by
    intro client
    cases phase <;> rfl
  have hlen : (s.goOn k p phase).clients.length = s.clients.length := List.length_modify ..
  refine ⟨h.tick.servers, ?_, fun i req' client hi hi' => ?_, fun i rpc hi => ?_,
    fun i j rpc hi hj => ?_, fun j x hx => ?_, fun i i' j rpc rpc' hi hi' hj hj' => ?_⟩
  · rw [hlen, h.paired]
    exact (congrArg List.length hp).symm ▸ (List.length_modify ..).symm
  · rw [hclients] at hi'
    rw [show (s.goOn k p phase).proxy.requests[i]? = _ from hrequests i] at hi
    split at hi
    · rename_i hk
      subst hk
      rw [if_pos rfl] at hi'
      obtain ⟨client₀, hclient, rfl⟩ := Option.map_eq_some_iff.1 hi'
      obtain rfl := Option.some.inj hi
      exact (h.clients k req client₀ hreq hclient).proceed hproc (hans client₀ hclient) p
    · rename_i hk
      rw [if_neg hk] at hi'
      refine (h.clients i req' client hi hi').mono ⟨Nat.le_succ _,
        fun l rpc hl hr => ⟨rpc, hold hl, hr, fun _ hj => hj⟩, fun l rpc hl hr => ?_,
        fun j x hx _ => hx⟩
      rcases hrpc hl with hl | ⟨-, hnew, -⟩
      · exact ⟨rpc, hl, hr, fun _ hj => hj⟩
      · exact absurd (hnew.symm.trans hr) hk
  · rw [hlen]
    rcases hrpc hi with hi | ⟨-, hnew, -⟩
    · exact h.made i rpc hi
    · rw [hnew, h.paired]
      exact (List.getElem?_eq_some_iff.1 hreq).1
  · rcases hrpc hi with hi | ⟨-, -, hnone⟩
    · obtain ⟨x, req₀, client₀, hx, hr, hcl, hop, hle⟩ := h.calls i j rpc hi hj
      rw [hclients, show (s.goOn k p phase).proxy.requests[rpc.request]? = _ from hrequests _]
      by_cases hk : k = rpc.request
      · rw [if_pos hk, if_pos hk, hcl]
        rw [← hk, hreq] at hr
        obtain rfl := Option.some.inj hr
        exact ⟨x, _, _, hx, rfl, rfl, hop, (hinvoked client₀).symm ▸ hle⟩
      · rw [if_neg hk, if_neg hk]
        exact ⟨x, req₀, client₀, hx, hr, hcl, hop, hle⟩
    · exact absurd (hnone.symm.trans hj) nofun
  · obtain ⟨i, rpc, hi, hj⟩ := h.arrived j x hx
    exact ⟨i, rpc, hold hi, hj⟩
  · rcases hrpc hi with hi | ⟨-, -, hnone⟩
    · rcases hrpc hi' with hi' | ⟨-, -, hnone⟩
      · exact h.distinct i i' j rpc rpc' hi hi' hj hj'
      · exact absurd (hnone.symm.trans hj') nofun
    · exact absurd (hnone.symm.trans hj) nofun

theorem of_proxy (h : Inv c marshal s) {p : Proxy lib} (hp : p.requests = s.proxy.requests) :
    Inv c marshal { s with proxy := p } := by
  refine ⟨h.servers, by rw [hp]; exact h.paired, fun k req client hk hk' => ?_, h.made,
    fun i j rpc hi hj => ?_, h.arrived, h.distinct⟩
  · rw [hp] at hk
    exact (h.clients k req client hk hk').mono ⟨le_refl _,
      fun i rpc hi hr => ⟨rpc, hi, hr, fun _ hj => hj⟩,
      fun i rpc hi hr => ⟨rpc, hi, hr, fun _ hj => hj⟩, fun j x hx _ => hx⟩
  · rw [hp]
    exact h.calls i j rpc hi hj

/-- The proxy takes a step. -/
theorem stepProxy (h : Inv c marshal s) {a : ProxyAction} (hs : s.stepProxy a = some s')
    (hans : ∀ k result, a = .request k (.answer result) → ∀ req client,
      s.proxy.requests[k]? = some req → s.clients[k]? = some client →
      (∃ d, result = .error d) ∨ s.Answers k req client result) : Inv c marshal s' := by
  obtain ⟨p, hp, hs⟩ := Option.bind_eq_some_iff.1 hs
  cases a with
  | elapse d =>
      obtain rfl := Option.some.inj hp
      obtain rfl := Option.some.inj hs
      exact h.tick.of_proxy rfl
  | call call =>
      obtain rfl := Option.some.inj hp
      obtain rfl := Option.some.inj hs
      exact h.call rfl trivial nofun
  | request k b =>
      obtain ⟨req, hreq, hp⟩ := Option.bind_eq_some_iff.1 hp
      obtain ⟨r, hr, hp⟩ := Option.bind_eq_some_iff.1 hp
      obtain rfl := Option.some.inj hp
      have hsame := Proxy.requests_proceed hr
      obtain ⟨req', hreq', hs⟩ := Option.bind_eq_some_iff.1 hs
      obtain rfl := Option.some.inj hs
      rw [Proxy.getElem?_setPhase hsame hreq, if_pos rfl] at hreq'
      obtain rfl := Option.some.inj hreq'
      refine h.goOn hreq ?_ (Proxy.proceed_proceeds hr) fun client hclient result hb => ?_
      · unfold Proxy.setPhase
        rw [← hsame]
      · exact hans k result (by rw [hb]) req client hreq hclient
  | refresh =>
      obtain rfl := Option.some.inj hp
      obtain rfl := Option.some.inj hs
      exact h.tick.of_proxy rfl
  | refreshed k view =>
      obtain ⟨phase, -, hp⟩ := Option.bind_eq_some_iff.1 hp
      obtain ⟨-, -, hp⟩ := Option.bind_eq_some_iff.1 hp
      obtain rfl := Option.some.inj hs
      cases view <;> cases hp <;> exact h.tick.of_proxy rfl
  | prune k =>
      obtain ⟨phase, -, hp⟩ := Option.bind_eq_some_iff.1 hp
      obtain rfl := Option.some.inj hs
      cases phase <;> cases hp
      exact h.tick.of_proxy rfl

/-- **Every sound step keeps the invariant.** -/
theorem step (h : Inv c marshal s) {act : GatewayAction} (hok : s.Sound c marshal act)
    (hs : s.step c marshal act = some s') : Inv c marshal s' := by
  obtain ⟨a₀, ha₀⟩ := h.servers
  cases act with
  | servers a =>
      obtain ⟨_, hguard, hs⟩ := Option.bind_eq_some_iff.1 hs
      obtain ⟨sv, hsv, hs⟩ := Option.bind_eq_some_iff.1 hs
      obtain rfl := Option.some.inj hs
      exact h.of_servers (Servers.continues_step ha₀.unproposed (guard_eq_some.1 hguard) hsv)
        (ha₀.step (hok.servers a rfl) hsv)
  | proxy a =>
      obtain ⟨_, hguard, hs⟩ := Option.bind_eq_some_iff.1 hs
      refine h.stepProxy hs fun k result ha req client _ _ => Or.inl ?_
      have hreply := guard_eq_some.1 hguard
      subst ha
      cases result with
      | error d => exact ⟨d, rfl⟩
      | write reply => exact absurd hreply nofun
      | get reply => exact absurd hreply nofun
  | deliver i =>
      obtain ⟨rpc, hi, hs⟩ := Option.bind_eq_some_iff.1 hs
      obtain ⟨_, hguard, hs⟩ := Option.bind_eq_some_iff.1 hs
      obtain ⟨req, hreq, hs⟩ := Option.bind_eq_some_iff.1 hs
      obtain ⟨sv, hsv, hs⟩ := Option.bind_eq_some_iff.1 hs
      obtain rfl := Option.some.inj hs
      exact h.deliver hi (guard_eq_some.1 hguard) hreq hsv
  | reply i =>
      obtain ⟨rpc, hi, hs⟩ := Option.bind_eq_some_iff.1 hs
      obtain ⟨client, hclient, hs⟩ := Option.bind_eq_some_iff.1 hs
      obtain ⟨_, hguard, hs⟩ := Option.bind_eq_some_iff.1 hs
      obtain ⟨j, hj, hs⟩ := Option.bind_eq_some_iff.1 hs
      obtain ⟨x, hx, hs⟩ := Option.bind_eq_some_iff.1 hs
      obtain ⟨reply, hreply, hs⟩ := Option.bind_eq_some_iff.1 hs
      refine h.stepProxy hs fun k result ha req client' hreq hclient' => Or.inr ?_
      obtain ⟨rfl, hb⟩ := ProxyAction.request.inj ha
      obtain rfl := RequestAction.answer.inj hb
      obtain rfl := Option.some.inj (hclient.symm.trans hclient')
      obtain ⟨t, hstage⟩ : ∃ t, x.stage = .returned t reply := by
        unfold KVCall.reply? at hreply
        split at hreply
        · rename_i t reply' hstage
          obtain rfl := Option.some.inj hreply
          exact ⟨t, hstage⟩
        · exact absurd hreply nofun
      have hstands := (ha₀.calls x (List.mem_of_getElem? hx)).stands
      unfold KVCall.Stands at hstands
      rw [hstage] at hstands
      refine ⟨i, j, rpc, x, t, guard_eq_some.1 hguard, hi, rfl, hj, hx, hstage, hstands.2.1.le,
        fun hentry r hr => ?_⟩
      exact hok.settled rpc hi j hj x hx hentry req hreq r (by rw [hreply, hr]; rfl)

end Gateway.Inv

/-! ## On behalf of the clients -/

/-- For whom the call of the servers at this position is made. -/
def Gateway.owner (s : Gateway lib) (j : Nat) : Nat :=
  ((s.rpcs.find? fun rpc => rpc.call = some j).map Rpc.request).getD 0

section

variable {c : Config} {marshal : Marshal} {s : Gateway lib} {k : Nat}

theorem Gateway.Inv.owner_eq (h : s.Inv c marshal) {i j : Nat} {rpc : Rpc}
    (hi : s.rpcs[i]? = some rpc) (hj : rpc.call = some j) : s.owner j = rpc.request := by
  unfold Gateway.owner
  cases hfind : s.rpcs.find? fun rpc => rpc.call = some j with
  | none =>
      have hno := List.find?_eq_none.1 hfind rpc (List.mem_of_getElem? hi)
      exact absurd hj (by simpa using hno)
  | some rpc' =>
      obtain ⟨i', hi'⟩ := List.mem_iff_getElem?.1 (List.mem_of_find?_eq_some hfind)
      have hj' : rpc'.call = some j := by simpa using List.find?_some hfind
      obtain rfl := h.distinct i i' j rpc rpc' hi hi' hj hj'
      obtain rfl := Option.some.inj (hi.symm.trans hi')
      rfl

theorem Gateway.getElem?_history {req : Request} {client : Client}
    (hreq : s.proxy.requests[k]? = some req) (hclient : s.clients[k]? = some client) :
    s.history[k]? = some ⟨req.call, client.invoked, client.outcome req.phase⟩ := by
  unfold Gateway.history
  rw [List.getElem?_zipWith, hreq, hclient]

theorem Client.outcome_ne_failed (client : Client) (phase : RequestPhase) :
    client.outcome phase ≠ .failed := by
  unfold Client.outcome
  split
  · split <;> nofun
  · nofun

theorem Gateway.of_getElem?_history {x : Call ClientCall KVResult} (hx : s.history[k]? = some x) :
    ∃ req client, s.proxy.requests[k]? = some req ∧ s.clients[k]? = some client ∧
      x = ⟨req.call, client.invoked, client.outcome req.phase⟩ := by
  unfold Gateway.history at hx
  rw [List.getElem?_zipWith] at hx
  split at hx
  · rename_i req client hreq hclient
    exact ⟨req, client, hreq, hclient, (Option.some.inj hx).symm⟩
  · exact absurd hx nofun

theorem Client.of_outcome {client : Client} {phase : RequestPhase} {t : Nat} {r : KVResult}
    (h : client.outcome phase = .returned t r) : ∃ result, phase = .finished result ∧
      client.answered = some t ∧ result.result? = some r := by
  unfold Client.outcome at h
  split at h
  · rename_i result
    split at h
    · rename_i time r' htime hresult
      obtain ⟨rfl, rfl⟩ := Linearizability.Outcome.returned.inj h
      exact ⟨result, rfl, htime, hresult⟩
    · exact absurd h nofun
  · exact absurd h nofun

/-- **The proxy calls the servers on behalf of its clients.** -/
theorem Gateway.Inv.forwards (h : s.Inv c marshal) :
    Forwards kvSpec s.history (s.servers.calls.map KVCall.call) s.owner := by
  have hcalls : ∀ {j : Nat} {y : Call ClientCall KVResult},
      (s.servers.calls.map KVCall.call)[j]? = some y →
      ∃ x, s.servers.calls[j]? = some x ∧ x.call = y := by
    intro j y hy
    rw [List.getElem?_map] at hy
    exact Option.map_eq_some_iff.1 hy
  refine ⟨fun j y hy _ => ?_, fun k x t r hx hr => ?_, fun j j' y y' hy hy' howner hok hok' => ?_⟩
  · obtain ⟨x, hx, rfl⟩ := hcalls hy
    obtain ⟨i, rpc, hi, hj⟩ := h.arrived j x hx
    obtain ⟨x', req, client, hx', hreq, hclient, hop, hle⟩ := h.calls i j rpc hi hj
    obtain rfl := Option.some.inj (hx.symm.trans hx')
    rw [h.owner_eq hi hj]
    exact ⟨_, Gateway.getElem?_history hreq hclient, hop.symm, hle, client.outcome_ne_failed _⟩
  · obtain ⟨req, client, hreq, hclient, rfl⟩ := Gateway.of_getElem?_history hx
    obtain ⟨result, hphase, htime, hresult⟩ := Client.of_outcome hr
    obtain ⟨time', htime', i, j, rpc, x, t', hi, hk, hj, hx, hres, hle⟩ :=
      (h.clients k req client hreq hclient).result result r hphase hresult
    obtain rfl := Option.some.inj (htime.symm.trans htime')
    exact ⟨j, x.call, t', by rw [List.getElem?_map, hx]; rfl, (h.owner_eq hi hj).trans hk, hres,
      hle⟩
  · obtain ⟨x, hx, rfl⟩ := hcalls hy
    obtain ⟨x', hx', rfl⟩ := hcalls hy'
    obtain ⟨i, rpc, hi, hj⟩ := h.arrived j x hx
    obtain ⟨i', rpc', hi', hj'⟩ := h.arrived j' x' hx'
    rw [h.owner_eq hi hj, h.owner_eq hi' hj'] at howner
    obtain ⟨z, req, client, hz, hreq, hclient, hop, -⟩ := h.calls i j rpc hi hj
    obtain rfl := Option.some.inj (hx.symm.trans hz)
    by_cases heq : i = i'
    · subst heq
      obtain rfl := Option.some.inj (hi.symm.trans hi')
      exact Or.inl (Option.some.inj (hj.symm.trans hj'))
    · -- two calls of nodes for one client: reads, or one of them has no effect
      have hfailed : ∀ {rpc : Rpc} {j : Nat} {x : KVCall}, s.Closed rpc → rpc.call = some j →
          s.servers.calls[j]? = some x → x.result = .failed := by
        rintro rpc j x ⟨j', x', hj', hx', hres⟩ hj hx
        obtain rfl := Option.some.inj (hj.symm.trans hj')
        obtain rfl := Option.some.inj (hx.symm.trans hx')
        exact hres
      right
      show ∀ m, (kvSpec m x.request).1 = m
      rw [hop]
      cases hcall : req.call with
      | get key => exact fun _ => rfl
      | write op key value =>
          rcases (h.clients _ req client hreq hclient).once (by rw [hcall]; rfl) i i' rpc rpc'
            hi hi' rfl howner.symm heq with hc | hc
          · exact absurd (hfailed hc hj hx) hok
          · exact absurd (hfailed hc hj' hx') hok'

end

/-- **The store is linearizable for the clients of the proxy**, whatever its breakers do and
whatever views of the cluster it is given, if nodes read commands as they were written, in every
run in which the servers are used as in `Servers.Sound` and no write that a leader has accepted is
sent to another node: the client calls that were answered, together with some that were not, could
have been made one after the other, against one map. -/
theorem proxy_linearizable (lib : Gobreaker) (c : Config) (marshal : Marshal)
    (as : List GatewayAction) (s : Gateway lib) (hcodec : c.ReadsBack marshal)
    (hok : Runs.Along (Gateway.step c marshal) (Gateway.Sound c marshal) (.init lib c) as)
    (hrun : Runs.exec (Gateway.step c marshal) (.init lib c) as = some s) :
    Linearizable kvSpec (KVMap.new, 0) s.history := by
  have hinv : s.Inv c marshal := Runs.invariant (I := Gateway.Inv c marshal)
    (fun _ _ _ h hok hs => h.step hok hs) (.init lib c marshal) hok hrun
  obtain ⟨a, ha⟩ := hinv.servers
  exact hinv.forwards.linearizable (ha.linearizable hcodec)

/-- What is asked of a step that involves no snapshot, as far as it can be computed. -/
def Gateway.Checked (c : Config) (marshal : Marshal) (s : Gateway lib) (act : GatewayAction) :
    Prop :=
  (match act with
    | .servers a => s.servers.Checked c marshal a
    | .proxy _ | .deliver _ | .reply _ => True) ∧ s.Settled act

instance Gateway.decidableChecked (c : Config) (marshal : Marshal) (s : Gateway lib) :
    (act : GatewayAction) → Decidable (s.Checked c marshal act)
  | .servers a =>
      inferInstanceAs (Decidable (s.servers.Checked c marshal a ∧ s.Settled (.servers a)))
  | .proxy a => inferInstanceAs (Decidable (True ∧ s.Settled (.proxy a)))
  | .deliver i => inferInstanceAs (Decidable (True ∧ s.Settled (.deliver i)))
  | .reply i => inferInstanceAs (Decidable (True ∧ s.Settled (.reply i)))

theorem Gateway.Checked.sound {c : Config} {marshal : Marshal} {s : Gateway lib}
    {act : GatewayAction} (h : s.Checked c marshal act) : s.Sound c marshal act where
  servers a ha := by
    subst ha
    exact h.1.sound
  settled := h.2

/-- The steps of the proxy for one client call, up to the call of a node. -/
def reachNode (k : Nat) (call : ClientCall) : List GatewayAction :=
  [.proxy (.call call), .proxy (.request k .checkOpen), .proxy (.request k .breakerFor),
    .proxy (.request k .enter), .deliver k]

/-- A client writes through the proxy, at the leader `a`, and another one reads, at the follower
`b`. -/
def putThenGet : List GatewayAction :=
  (winElection "a" "b" 0).map (.servers ∘ .cluster) ++
  [.proxy .refresh, .proxy (.refreshed 0 (some ⟨"a", ["b", "c"], ["a", "b", "c"]⟩))] ++
  reachNode 0 (.write .opPut "x" "1") ++ [.servers (.handle 0)] ++
  (replicate "a" "b" 0).map (.servers ∘ .cluster) ++ [.servers (.handle 0), .reply 0] ++
  reachNode 1 (.get "x") ++ [.servers (.handle 1), .servers (.handle 1)] ++
  [.run (.requestReadIndex 0), .run (.confirmLeadership 0),
    .run (.appendEntries 1 "b" noFaults), .run (.appendEntriesReply 1 "b" false),
    .run (.readIndexReply 0), .run (.readApplied 0)].map (.servers ∘ .cluster) ++
  [.servers (.handle 1), .servers (.handle 1), .reply 1]

theorem proxy_linearizable_putThenGet : ∃ s,
    Runs.exec (Gateway.step kvTrio marshalShort) (.init gobreaker kvTrio) putThenGet = some s ∧
    s.proxy.requests.map Request.phase = [.finished (.wrote { success := true, commitIndex := 1 }),
      .finished (.read { ok := true, found := true, value := "1" })] ∧
    Linearizable kvSpec (KVMap.new, 0) s.history := by
  have hok : Runs.Along (Gateway.step kvTrio marshalShort) (Gateway.Checked kvTrio marshalShort)
      (.init gobreaker kvTrio) putThenGet := by decide +kernel
  have hend : (Runs.exec (Gateway.step kvTrio marshalShort) (.init gobreaker kvTrio)
      putThenGet).any (fun s => decide (s.proxy.requests.map Request.phase =
        [.finished (.wrote { success := true, commitIndex := 1 }),
          .finished (.read { ok := true, found := true, value := "1" })])) := by decide +kernel
  obtain ⟨s, hrun, hphases⟩ := Runs.exists_of_exec _ hend
  exact ⟨s, hrun, hphases, proxy_linearizable gobreaker kvTrio marshalShort putThenGet s
    kvTrio_readsBack (hok.imp fun _ _ h => h.sound) hrun⟩

end B5KvStore
