import B5KvStore.Cluster.Replicas
import B5KvStore.Server.Basic

/-!
# What the calls of the servers rely on

A call relies on the cluster around it: a write on the entry its leader has appended, a read on
the commit index it was given and on the map being the work of that many commands.

* `Serving` — the cluster, with the entries its leaders have created.
* `Servers.Sound` — what is asked of a step.
* `KVCall.View` — what holds of one call, stage by stage.
-/

namespace B5KvStore

open ReplicatedLog (CommittedAt Extends)

section

variable {c : Config} {C C' : Set LogEntry} {a a' : Model} {s s' : Cluster} {act : Action}

/-! ## The cluster -/

/-- What is known of a cluster whose leaders have created the entries of `C`. -/
structure Serving (c : Config) (C : Set LogEntry) (a : Model) (s : Cluster) : Prop where
  view : ClusterView c a s
  promises : Promises c a s
  attested : Attested c a s
  reads : ReadsCover c a s
  replayed : Replayed c a s
  traced : Traced C c s
  origin : ∀ ev ∈ s.history, ∀ n, ev.what = .advancedCommit n → n.From C

namespace Serving

theorem init (c : Config) : Serving c ∅ .init c.init where
  view := .init c
  promises := .init c
  attested := .init c
  reads := .init c
  replayed := .init c
  traced := .init c
  origin := by simp [Config.init]

theorem mono (h : Serving c C a s) (hC : C ⊆ C') : Serving c C' a s :=
  { h with
    traced := h.traced.mono hC
    origin := fun ev hev n hwhat => (h.origin ev hev n hwhat).mono hC }

/-- Every entry that is committed was created by a leader. -/
theorem created_of_committed (h : Serving c C a s) {i : Nat} {e : LogEntry}
    (he : CommittedAt a i e) : e ∈ C := by
  obtain ⟨ev, hev, n, hwhat, -, hanchor, hi⟩ := h.view.commits i e he
  unfold Node.entryAtLocked at hi
  split at hi
  · exact absurd hi (by simp)
  · refine h.origin ev hev n hwhat _ e hi ?_
    unfold Node.anchorIndex at hanchor
    split at hanchor
    · exact Or.inl ‹_›
    · exact Or.inr (by omega)

theorem step (h : Serving c C a s) (hok : Safe s act) (hconf : ConfirmedReads s act)
    (hcorrect : CorrectSnapshots c s act) (hquiet : Undisturbed c s act)
    (hs : B5KvStore.step c s act = some s') :
    ∃ a', Extends a a' ∧ Serving c (C ∪ {e | created s act = some e}) a' s' := by
  obtain ⟨a', hx, hv', hp'⟩ := h.promises.step h.view hok hs
  obtain ⟨b, hb, hrep⟩ := h.replayed.step h.view hok hcorrect hquiet hs
  have htr := h.traced.step h.view hok hs
  refine ⟨a', hx, hv', hp', h.attested.step h.promises h.view hx hok hs,
    h.reads.step h.attested h.view hv' hx hok hconf hs, hrep.transfer hb hv', htr, ?_⟩
  intro ev hev n hwhat
  have hold : ev ∈ s.history → n.From (C ∪ {e | created s act = some e}) := fun hmem =>
    (h.origin ev hmem n hwhat).mono Set.subset_union_left
  cases stepView hs with
  | run op o ho =>
      have heff := exec_effect ho
      rw [Cluster.history_finish, heff.same_rest.2, List.mem_append, List.mem_map] at hev
      rcases hev with hev | ⟨x, hx', rfl⟩
      · exact hold hev
      · -- the node that is reported has the log the section leaves behind
        dsimp only at hwhat
        have hhost := h.view.host_of_event heff hx' (by rw [hwhat]; simp)
        have hfrom := htr.nodes o.host hhost
        rw [Cluster.node_finish] at hfrom
        rw [hwhat] at hx'
        cases heff.reported _ hx' with
        | routine _ _ hr => exact absurd hr id
        | advancedCommit _ hm =>
            rw [hm] at hfrom
            exact hfrom
  | crash q _ => exact hold hev
  | crashDuring op o k ho => exact hold hev
  | publish file => exact hold hev

end Serving

/-! ## What the cluster keeps for a call -/

/-- A process that does not lead a term it was elected in never leads it again. -/
theorem ClusterView.retired_step (h : ClusterView c a s) (hok : Safe s act)
    (hs : B5KvStore.step c s act = some s') {l : String} (hl : l ∈ c.addrs) {T : Nat}
    {L : List LogEntry} (hled : a.led T = some (l, L))
    (hnot : ¬ ((s.hosts l).node.role = .leader ∧ (s.hosts l).node.currentTerm = T)) :
    ¬ ((s'.hosts l).node.role = .leader ∧ (s'.hosts l).node.currentTerm = T) := by
  rintro ⟨hrole, hterm⟩
  -- it would know any number of entries to be committed
  have hknows : (s.hosts l).node.KnowsIn T ((s'.hosts l).node.commitIndex + 1) :=
    fun hrole hterm => absurd ⟨hrole, hterm⟩ hnot
  exact absurd (h.knowsIn_step hok hs hl hled hknows hrole hterm) (by omega)

/-- A leader accepts a command. -/
theorem step_proposeSync {p : String} {command : List UInt8}
    (hs : step c s (.run (.proposeSync p command)) = some s')
    (hrole : (s.hosts p).node.role = .leader) :
    ∃ call, s'.proposals[s.proposals.length]? = some call ∧ call.entry =
      ⟨(s.hosts p).node.currentTerm, (s.hosts p).node.lastLogIndexLocked + 1, command⟩ := by
  have hsync : ∀ ch, ((s.hosts p).node.lock.proposeSync command ch).2 =
      .ok ((s.hosts p).node.lastLogIndexLocked + 1, (s.hosts p).node.currentTerm) := by
    intro ch
    simp [Locked.proposeSync, Node.lock, hrole]
  simp only [step, exec, Option.map_eq_some_iff, Option.bind_eq_bind, Option.bind_eq_some_iff,
    guard_eq_some, exists_const, Option.some.injEq, hsync] at hs
  obtain ⟨o, ⟨-, rfl⟩, rfl⟩ := hs
  rw [Cluster.proposals_finish]
  obtain ⟨call, hk, hsame⟩ := SameCalls.stays rfl
    ((s.hosts p).node.lock.proposeSync command s.proposals.length).1.events
    (List.getElem?_concat_length (l := s.proposals) (a := ⟨p, (s.hosts p).epoch,
      (s.hosts p).node.lastLogIndexLocked + 1, (s.hosts p).node.currentTerm, command, none, false⟩))
  exact ⟨call, hk, hsame.entry⟩

/-- A follower asks the leader for a read index. -/
theorem step_startRead {p leader : String} (hs : step c s (.run (.startRead p)) = some s')
    (hask : (s.hosts p).node.startRead = .ask leader) :
    s'.reads[s.reads.length]? =
      some ⟨p, (s.hosts p).epoch, leader, s.history.length, .asking⟩ := by
  simp only [step, exec, hask, look, Option.map_eq_some_iff, Option.bind_eq_bind,
    Option.bind_eq_some_iff, guard_eq_some, exists_const, Option.some.injEq] at hs
  obtain ⟨o, ⟨-, rfl⟩, rfl⟩ := hs
  exact List.getElem?_concat_length ..

end

/-! ## What is asked of a step -/

namespace Servers

variable (c : Config) (marshal : Marshal)

/-- The read that a leader lets through on its own word. -/
def letThrough? (s : Servers) (act : ServersAction) : Option KVCall := do
  let (_, x, x', _) ← s.moved marshal act
  guard (x'.stage = .confirmed ∧ (x.stage = .entered ∨ x.stage = .following))
  some x

/-- The read that is answered from the map. -/
def readsMap? (s : Servers) (act : ServersAction) : Option KVCall := do
  let (_, x, _, _) ← s.moved marshal act
  guard (x.stage = .confirmed)
  some x

/-- What is asked of a step.  In the cluster no disk write fails, snapshots are committed, cover
the log of the node that catches up to them and hold the work of the committed commands, nothing
is applied between `Restore` and the update of the node, and read indices are captured by leaders
that have nothing of an earlier term left to commit.  A leader that lets a read through on its own
word is one of these, and is not past its term; and no map is read between `Restore` and the
update of the node. -/
structure Sound (s : Servers) (act : ServersAction) : Prop where
  safe : ∀ a ∈ s.clusterAction? marshal act, Safe s.cluster a
  confirmed : ∀ a ∈ s.clusterAction? marshal act, ConfirmedReads s.cluster a
  correct : ∀ a ∈ s.clusterAction? marshal act, CorrectSnapshots c s.cluster a
  undisturbed : ∀ a ∈ s.clusterAction? marshal act, Undisturbed c s.cluster a
  leads : ∀ x ∈ s.letThrough? marshal act, (s.cluster.hosts x.server).node.OwnAbove ∧
    ¬ c.Deposed s.cluster (s.cluster.hosts x.server).node.currentTerm
  settled : ∀ x ∈ s.readsMap? marshal act, (s.cluster.hosts x.server).poll.restored? = none

/-- The entries that leaders have appended for calls. -/
def entries (s : Servers) : Set LogEntry := {e | ∃ x ∈ s.calls, x.entry = some e}

end Servers

/-! ## One call -/

section

variable {c : Config} {marshal : Marshal} {C C' : Set LogEntry} {a a' : Model} {s s' : Cluster}
  {act : Action} {x : KVCall} {n n' : Nat}

/-- A leader has appended the entry for the request.  It is in the log of that leader, or the
leader does not lead any more. -/
structure ClientCall.Owns (c : Config) (marshal : Marshal) (a : Model) (s : Cluster)
    (request : ClientCall) (e : LogEntry) : Prop where
  command : request.Payload marshal e.command
  leader : ∃ l L, l ∈ c.addrs ∧ a.led e.term = some (l, L) ∧ (L[e.index - 1]? = some e ∨
    ¬ ((s.hosts l).node.role = .leader ∧ (s.hosts l).node.currentTerm = e.term))

/-- A reply that reports success is right. -/
def KVCall.Replied (c : Config) (a : Model) (s : Cluster) (x : KVCall) : RpcResult → Prop
  | .write r => r.success = true → ∃ e, x.entry = some e ∧ CommittedAt a r.commitIndex e
  | .get r => r.ok = true → ∃ key kv, x.request = .get key ∧ StateAt c a x.seen kv ∧
      r.found = (kv key).isSome ∧ r.value = (kv key).getD "" ∧
      s.CoversCommitted x.startedAt x.seen
  | .error _ => True

/-- What a call can rely on, stage by stage. -/
def KVCall.Stands (c : Config) (a : Model) (s : Cluster) (clock : Nat) (x : KVCall) : Prop :=
  match x.stage with
  | .entered => x.epoch = (s.hosts x.server).epoch → x.entry = none
  | .proposed k => ∃ call, s.proposals[k]? = some call ∧ x.entry = some call.entry
  | .following => x.request.command? = none
  | .reading r => x.request.command? = none ∧ ∃ call, s.reads[r]? = some call ∧
      call.reader = x.server ∧ x.startedAt ≤ call.startedAt ∧ ∀ k, call.phase = .done k →
        x.epoch = (s.hosts x.server).epoch → k ≤ (s.hosts x.server).node.lastApplied
  | .confirmed => x.request.command? = none ∧ (x.epoch = (s.hosts x.server).epoch →
      s.CoversCommitted x.startedAt (s.hosts x.server).node.lastApplied)
  | .redirecting => True
  | .returned time reply => x.invoked < time ∧ time < clock ∧ x.Replied c a s reply

/-- What holds of a call. -/
structure KVCall.View (c : Config) (marshal : Marshal) (a : Model) (s : Cluster) (clock : Nat)
    (x : KVCall) : Prop where
  server : x.server ∈ c.addrs
  epoch : x.epoch ≤ (s.hosts x.server).epoch
  started : x.startedAt ≤ s.history.length
  invoked : x.invoked < clock
  entry : ∀ e, x.entry = some e → x.request.Owns c marshal a s e
  stands : x.Stands c a s clock

theorem ClientCall.Owns.step {request : ClientCall} {e : LogEntry}
    (h : request.Owns c marshal a s e) (hv : ClusterView c a s) (hx : Extends a a')
    (hok : Safe s act) (hs : B5KvStore.step c s act = some s') : request.Owns c marshal a' s' e := by
  obtain ⟨l, L, hl, hled, hin⟩ := h.leader
  refine ⟨h.command, ?_⟩
  obtain ⟨L', hled', hle, htake⟩ := hx.led_take hled (le_refl L.length)
  refine ⟨l, L', hl, hled', ?_⟩
  rcases hin with hin | hnot
  · left
    rw [List.take_length] at htake
    have hlt := (List.getElem?_eq_some_iff.1 hin).1
    rw [← htake, List.getElem?_take_of_lt hlt] at hin
    exact hin
  · exact Or.inr (hv.retired_step hok hs hl hled hnot)

theorem Cluster.CoversCommitted.mono {start start' k k' : Nat} (h : s.CoversCommitted start k)
    (hhist : s.history <+: s'.history) (hlen : start ≤ s.history.length) (hstart : start' ≤ start)
    (hk : k ≤ k') : s'.CoversCommitted start' k' := by
  intro i hi
  refine (h i (hi.mono ?_)).trans hk
  rw [← ReplicatedLog.take_eq_of_isPrefix hhist hlen]
  exact List.take_prefix_take_left hstart

theorem KVCall.Replied.mono {reply : RpcResult} (h : x.Replied c a s reply) (hx : Extends a a')
    (hhist : s.history <+: s'.history) (hstart : x.startedAt ≤ s.history.length) :
    x.Replied c a' s' reply := by
  cases reply with
  | write r =>
      intro hr
      obtain ⟨e, he, hcom⟩ := h hr
      exact ⟨e, he, hcom.mono hx⟩
  | get r =>
      intro hr
      obtain ⟨key, kv, hreq, hstate, hfound, hvalue, hcov⟩ := h hr
      exact ⟨key, kv, hreq, hstate.mono hx, hfound, hvalue,
        hcov.mono hhist hstart (le_refl _) (le_refl _)⟩
  | error detail => trivial

/-- A read that is done now was done before, or is done in this step. -/
theorem ReadStep.done {r k : Nat} {call : ReadCall} {ph : ReadPhase}
    (h : ReadStep c s s' act r call ph) (hph : ph = .done k) :
    call.phase = .done k ∨ k = (s.hosts call.reader).node.lastApplied := by
  cases h with
  | stay hrounds => exact Or.inl hph
  | heard k' b p y hk hopen hy hrounds => exact Or.inl hph
  | counted k' b out reply ph hk hout hread hans hterm hack hrounds =>
      cases hack with
      | count epoch term readIndex m hcall => exact absurd hph (by simp)
      | grant epoch term readIndex m hcall hq => exact absurd hph (by simp)
  | moved op ph hact hmove hrounds =>
      cases hmove with
      | applied readIndex hcall hle =>
          exact Or.inr (ReadPhase.done.inj hph).symm
      | capture r hop hk hcall hl hrole => exact absurd hph (by simp)
      | alone epoch term readIndex hcall hpeers => exact absurd hph (by simp)
      | refuse reply hno => exact absurd hph (by simp)
      | reply reply hcall hyes => exact absurd hph (by simp)
      | unavailable => exact absurd hph (by simp)
  | confirms b epoch T readIndex hcall hread hleader hterm hcalls hrounds =>
      exact absurd hph (by simp)

/-- **One step of the cluster**, for a call that is not concerned by it. -/
theorem KVCall.View.step (h : x.View c marshal a s n) (hserv : Serving c C a s) (hx : Extends a a')
    (hok : Safe s act) (hs : B5KvStore.step c s act = some s') (hn : n ≤ n') :
    x.View c marshal a' s' n' := by
  have hepoch := step_epoch hs x.server
  have hhist := step_history hs
  -- as long as the process of the call runs, what it has applied only grows
  have hle : x.epoch = (s'.hosts x.server).epoch → x.epoch = (s.hosts x.server).epoch ∧
      (s.hosts x.server).node.lastApplied ≤ (s'.hosts x.server).node.lastApplied := by
    intro heq
    have hcur := h.epoch
    have hsame : (s'.hosts x.server).epoch = (s.hosts x.server).epoch := by omega
    exact ⟨heq.trans hsame, hserv.view.progress hok hs h.server hsame⟩
  refine ⟨h.server, h.epoch.trans hepoch, h.started.trans hhist.length_le,
    Nat.lt_of_lt_of_le h.invoked hn,
    fun e he => (h.entry e he).step hserv.view hx hok hs, ?_⟩
  have hst := h.stands
  unfold KVCall.Stands at hst ⊢
  split at hst
  · exact fun heq => hst (hle heq).1
  · rename_i k hk
    obtain ⟨call, hcall, hentry⟩ := hst
    obtain ⟨call', hcall', hsame⟩ :=
      step_call_stays (hserv.promises.waited hserv.view) hs hcall
    exact ⟨call', hcall', by rw [hentry, hsame.entry]⟩
  · exact hst
  · rename_i r hr
    obtain ⟨hget, call, hcall, hreader, hstart, hdone⟩ := hst
    obtain ⟨ph, hcall', hstep⟩ := step_read hs hcall
    refine ⟨hget, _, hcall', hreader, hstart, fun k hk heq => ?_⟩
    obtain ⟨heq', hgrow⟩ := hle heq
    rcases hstep.done hk with hold | rfl
    · exact (hdone k hold heq').trans hgrow
    · rw [hreader]
      exact hgrow
  · obtain ⟨hget, hcov⟩ := hst
    refine ⟨hget, fun heq => ?_⟩
    exact (hcov (hle heq).1).mono hhist h.started (le_refl _) (hle heq).2
  · trivial
  · obtain ⟨hinv, htime, hrep⟩ := hst
    exact ⟨hinv, Nat.lt_of_lt_of_le htime hn, hrep.mono hx hhist h.started⟩

/-- Time passes. -/
theorem KVCall.View.later (h : x.View c marshal a s n) (hn : n ≤ n') : x.View c marshal a s n' := by
  refine ⟨h.server, h.epoch, h.started, Nat.lt_of_lt_of_le h.invoked hn, h.entry, ?_⟩
  have hst := h.stands
  unfold KVCall.Stands at hst ⊢
  split at hst <;> first | exact hst | exact ⟨hst.1, Nat.lt_of_lt_of_le hst.2.1 hn, hst.2.2⟩

/-- When a call reports success, and which commands it knows to be committed then. -/
def KVCall.mark? (x : KVCall) : Option (Nat × Nat) :=
  match x.stage with
  | .returned time (.write r) => if r.success then some (time, r.commitIndex) else none
  | .returned time (.get r) => if r.ok then some (time, x.seen) else none
  | _ => none

theorem KVCall.View.committed (h : x.View c marshal a s n) (hv : ClusterView c a s) {time m : Nat}
    (hmark : x.mark? = some (time, m)) :
    x.invoked < time ∧ time < n ∧ (m = 0 ∨ Announced s.history m) := by
  have hst := h.stands
  unfold KVCall.mark? at hmark
  unfold KVCall.Stands at hst
  split at hmark
  · rename_i t r hstage
    rw [hstage] at hst
    obtain ⟨hinv, htime, hrep⟩ := hst
    split at hmark
    · obtain ⟨rfl, rfl⟩ := Prod.mk.inj (Option.some.inj hmark)
      obtain ⟨e, -, hcom⟩ := hrep ‹_›
      exact ⟨hinv, htime, Or.inr ((hv.announced_iff hcom.pos).2 ⟨e, hcom⟩)⟩
    · exact absurd hmark (by simp)
  · rename_i t r hstage
    rw [hstage] at hst
    obtain ⟨hinv, htime, hrep⟩ := hst
    split at hmark
    · obtain ⟨rfl, rfl⟩ := Prod.mk.inj (Option.some.inj hmark)
      obtain ⟨key, kv, -, ⟨C, hlen, hC, -⟩, -⟩ := hrep ‹_›
      refine ⟨hinv, htime, (Nat.eq_zero_or_pos x.seen).imp_right fun hpos => ?_⟩
      obtain ⟨e, he⟩ : ∃ e, C[x.seen - 1]? = some e :=
        ⟨_, List.getElem?_eq_getElem (by omega)⟩
      have hcom := hC _ e he
      rw [Nat.sub_add_cancel hpos] at hcom
      exact (hv.announced_iff hpos).2 ⟨e, hcom⟩
    · exact absurd hmark (by simp)
  · exact absurd hmark (by simp)

/-! ## One step of a handler -/

/-- The entry of a leader that has accepted a command. -/
theorem Serving.owns_of_accepted (hserv : Serving c C a s) {request : ClientCall} {k : Nat}
    {call : Proposal} (hk : s.proposals[k]? = some call)
    (hcall : request.Payload marshal call.command) :
    request.Owns c marshal a s call.entry := by
  have hmem := List.mem_of_getElem? hk
  obtain ⟨-, L, hled, hL⟩ := hserv.promises.calls call hmem
  exact ⟨hcall, call.leader, L, hserv.attested.members call hmem, hled, Or.inl hL⟩

/-- The entry of a leader that has crashed. -/
theorem Serving.owns_of_crashed (hserv : Serving c C a s) (hx : Extends a a') {p : String}
    (hp : p ∈ c.addrs) (hrole : (s.hosts p).node.role = .leader)
    (hfollows : (s'.hosts p).node.role ≠ .leader) {request : ClientCall} {payload : List UInt8}
    (hpayload : request.Payload marshal payload) (i : Nat) :
    request.Owns c marshal a' s' ⟨(s.hosts p).node.currentTerm, i, payload⟩ := by
  have hn := hserv.view.nodes p hp
  have hled := hn.led hserv.view.reach hrole
  rw [hn.term] at hled
  obtain ⟨L', hled', -⟩ := hx.led_take hled (le_refl _)
  exact ⟨hpayload, p, L', hp, hled', Or.inr fun h => hfollows h.1⟩

/-- A process that has crashed in the middle of a section is a new one, and does not lead. -/
theorem step_crashDuring_proposeSync {p : String} {command : List UInt8} {k : Nat}
    (hs : step c s (.crashDuring (.proposeSync p command) k) = some s') :
    (s'.hosts p).epoch = (s.hosts p).epoch + 1 ∧ (s'.hosts p).node.role ≠ .leader := by
  simp only [step, exec, Option.map_eq_some_iff, Option.bind_eq_bind, Option.bind_eq_some_iff,
    guard_eq_some, exists_const, Option.some.injEq] at hs
  obtain ⟨o, ⟨-, rfl⟩, rfl⟩ := hs
  rw [Cluster.hosts_restart]
  exact ⟨rfl, by simp [Config.boot, Config.newNode, newNode]⟩

/-- A leader that has caught up and is not past its term has applied whatever was committed. -/
theorem Serving.covers_of_leader (hserv : Serving c C a s) {p : String} (hp : p ∈ c.addrs)
    (hrole : (s.hosts p).node.role = .leader) (hown : (s.hosts p).node.OwnAbove)
    (hlast : ¬ c.Deposed s (s.hosts p).node.currentTerm) (start : Nat) :
    s.CoversCommitted start (s.hosts p).node.lastApplied := by
  intro i hi
  rw [(hserv.view.nodes p hp).applied]
  refine hserv.reads.informed.le_commitIndex hserv.view hp hrole hown (fun T l L hled => ?_)
    (hi.mono (List.take_prefix ..))
  by_contra hlt
  exact hlast (hserv.view.deposed hled (Nat.lt_of_not_le hlt))

variable {sv : Servers} {x' : KVCall} {act? : Option Action}

/-- **One step of a handler** keeps what holds of its call, given that it holds after the step of
the cluster that belongs to it. -/
theorem KVCall.Move.view (hmove : x.Move marshal sv x' act?)
    (hold : x.View c marshal a sv.cluster sv.clock)
    (h : x.View c marshal a' s' (sv.clock + 1))
    (hepoch : x.epoch = (sv.cluster.hosts x.server).epoch)
    (hserv : Serving c C a sv.cluster) (hserv' : Serving c C' a' s') (hx : Extends a a')
    (hs : Servers.stepCluster c sv.cluster act? = some s')
    (hleads : x'.stage = .confirmed → x.stage = .entered ∨ x.stage = .following →
      (sv.cluster.hosts x.server).node.OwnAbove ∧
        ¬ c.Deposed sv.cluster (sv.cluster.hosts x.server).node.currentTerm)
    (hidle : x.stage = .confirmed → (sv.cluster.hosts x.server).poll.restored? = none) :
    x'.View c marshal a' s' (sv.clock + 1) := by
  have hst := h.stands
  unfold KVCall.Stands at hst
  -- the parts of the view that no handler touches
  have hnext : ∀ {stage : KVStage} {entry : Option LogEntry} {seen : Nat},
      (∀ e, entry = some e → x.request.Owns c marshal a' s' e) →
      ({ x with stage := stage, entry := entry, seen := seen } : KVCall).Stands c a' s'
        (sv.clock + 1) →
      ({ x with stage := stage, entry := entry, seen := seen } : KVCall).View c marshal a' s'
        (sv.clock + 1) := fun hentry hstands =>
    ⟨h.server, h.epoch, h.started, h.invoked, hentry, hstands⟩
  have hdone : ∀ {reply : RpcResult}, x.Replied c a' s' reply →
      ({ x with stage := .returned sv.clock reply } : KVCall).View c marshal a' s' (sv.clock + 1) :=
    fun {reply} hrep => hnext h.entry ⟨hold.invoked, Nat.lt_succ_self _, by
      cases reply <;> exact hrep⟩
  cases hmove with
  | unencoded detail hstage => exact hdone trivial
  | accept payload hstage hpayload hrole =>
      obtain ⟨call, hk, hentry⟩ := step_proposeSync hs hrole
      have hcom : call.command = payload := congrArg LogEntry.command hentry
      refine hnext (fun e he => ?_) ⟨call, hk, by rw [hentry]⟩
      obtain rfl := Option.some.inj he
      rw [← hentry]
      exact hserv'.owns_of_accepted hk (hcom ▸ hpayload)
  | refuse payload hstage hpayload hrole => exact hnext h.entry trivial
  | crash payload k hstage hpayload e he hcreated =>
      obtain ⟨hnew, hfollows⟩ := step_crashDuring_proposeSync hs
      refine hnext (fun e' he' => ?_) ?_
      · rcases he with rfl | ⟨hrole, rfl⟩
        · exact absurd he' (by simp)
        · obtain rfl := Option.some.inj he'
          exact hserv.owns_of_crashed hx h.server hrole hfollows hpayload _
      · -- the process of the call is gone
        have hgone : x.epoch ≠ (s'.hosts x.server).epoch := by omega
        unfold KVCall.Stands
        dsimp only
        rw [hstage]
        exact fun heq => absurd heq hgone
  | returns k call outcome hstage hk hchan =>
      cases outcome with
      | none =>
          have holdst := hold.stands
          unfold KVCall.Stands at holdst
          rw [hstage] at holdst
          obtain ⟨call', hk', hentry⟩ := holdst
          rw [hk, Option.some.injEq] at hk'
          subst hk'
          refine hdone fun _ => ⟨call.entry, hentry, ?_⟩
          exact (hserv.promises.told call (List.mem_of_getElem? hk) hchan).mono hx
      | some err =>
          cases err with
          | notLeader => exact hnext h.entry trivial
          | leadershipLost => exact hnext h.entry trivial
          | saveState => exact hdone trivial
  | cancel k hstage => exact hdone trivial
  | lead hstage hrole =>
      obtain rfl : sv.cluster = s' := Option.some.inj hs
      obtain ⟨hown, hlast⟩ := hleads rfl (hstage.imp_left And.left)
      refine hnext h.entry ⟨?_, fun _ =>
        hserv'.covers_of_leader h.server hrole hown hlast x.startedAt⟩
      rcases hstage with ⟨-, hget⟩ | hfol
      · exact hget
      · rw [hfol] at hst
        exact hst
  | follow hstage hget => exact hnext h.entry hget
  | noLeader hstage => exact hnext h.entry trivial
  | ask leader hstage hask =>
      have hread := step_startRead hs hask
      rw [hstage] at hst
      refine hnext h.entry ⟨hst, _, hread, rfl, hold.started, fun k hk => ?_⟩
      exact absurd hk (by simp)
  | readDone r call k hstage hr hphase =>
      obtain rfl : sv.cluster = s' := Option.some.inj hs
      rw [hstage] at hst
      obtain ⟨hget, call', hr', hreader, hstart, hle⟩ := hst
      rw [hr, Option.some.injEq] at hr'
      subst hr'
      refine hnext h.entry ⟨hget, fun heq => ?_⟩
      have hprom := hserv'.reads.promises r call hr
      rw [hphase] at hprom
      exact hprom.covers.mono (List.prefix_refl _)
        (hserv'.reads.current.started call (List.mem_of_getElem? hr)) hstart (hle k hphase heq)
  | readFailed r hstage => exact hnext h.entry trivial
  | value key hstage hget =>
      obtain rfl : sv.cluster = s' := Option.some.inj hs
      rw [hstage] at hst
      refine hnext h.entry ⟨hold.invoked, Nat.lt_succ_self _, fun _ => ?_⟩
      exact ⟨key, _, hget, (hserv'.replayed.hosts x.server h.server).state (hidle hstage), rfl, rfl,
        hst.2 hepoch⟩
  | redirect leader hstage =>
      refine hdone ?_
      unfold KVCall.redirect
      split
      · exact fun hr => absurd hr (by simp)
      · exact fun hr => absurd hr (by simp)

end

end B5KvStore
