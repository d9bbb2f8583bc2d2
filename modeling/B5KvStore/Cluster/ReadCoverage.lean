import B5KvStore.Cluster.FollowerReads
import B5KvStore.Cluster.Reports

/-!
# Reads cover everything that was committed

A read that starts after another one has returned must not show an older state, so it is not
enough that it covers what has been acknowledged to writers: it has to cover whatever anybody
knew to be committed when it started.  The argument for follower reads (`ReadView`) goes through
with the commits of that time in the place of the acknowledgements.

* `Announced` — some leader has declared the index committed.
* `Informed` — whoever did so knows it while it leads.
* `Informed.le_commitIndex` — so does a later leader that has nothing of an earlier term left.
* `ReadStep` — what one step of the cluster does to one read.
* `ReadsCover` — every read will cover what was announced before it started.
-/

namespace B5KvStore

open ReplicatedLog (CommittedAt Extends)

/-- Some leader has declared the index committed. -/
def Announced (h : List Event) (i : Nat) : Prop :=
  ∃ ev ∈ h, ∃ n, ev.what = .advancedCommit n ∧ i ≤ n.commitIndex

theorem Announced.mono {h h' : List Event} {i : Nat} (hi : Announced h i) (hsub : h <+: h') :
    Announced h' i := by
  obtain ⟨ev, hev, hrest⟩ := hi
  exact ⟨ev, hsub.subset hev, hrest⟩

theorem Announced.le {h : List Event} {i j : Nat} (hi : Announced h i) (hj : j ≤ i) :
    Announced h j := by
  obtain ⟨ev, hev, n, hwhat, hle⟩ := hi
  exact ⟨ev, hev, n, hwhat, hj.trans hle⟩

variable {c : Config} {a a' : Model} {s s' : Cluster} {act : Action} {op : Op} {o : Outcome}

/-- What has been announced is what is committed. -/
theorem ClusterView.announced_iff (h : ClusterView c a s) {i : Nat} (hi : 0 < i) :
    Announced s.history i ↔ ∃ e, CommittedAt a i e := by
  constructor
  · rintro ⟨ev, hev, n, hwhat, hle⟩
    have hview := h.history ev hev
    rw [hwhat] at hview
    obtain ⟨hcom, L, m, hled, hm, hmL, -⟩ := hview
    exact ⟨_, n.currentTerm, n.commitIndex, ev.host, L, hcom, hi, hle, hled,
      List.getElem?_eq_getElem (by omega)⟩
  · rintro ⟨e, he⟩
    obtain ⟨ev, hev, n, hwhat, hle, -⟩ := h.commits i e he
    exact ⟨ev, hev, n, hwhat, hle⟩

/-- Only members report anything but the return of a call. -/
theorem ClusterView.host_of_event (h : ClusterView c a s) (heff : Effect c s op o) {x : NodeEvent}
    (hx : x ∈ o.result.events) (hret : ∀ i outcome, x ≠ .returned i outcome) :
    o.host ∈ c.addrs := by
  cases heff with
  | startElection p fails hp => exact hp
  | soloElection k call hk hepoch hq =>
      exact (h.elections call (List.mem_of_getElem? hk)).1.member
  | requestVote k call peer f hk hp hsent => exact hp
  | requestVoteReply k call peer fails reply hk hepoch hans =>
      exact (h.elections call (List.mem_of_getElem? hk)).1.member
  | broadcast op p read s' hp hrole hs' hcalls => exact hp
  | appendEntries k b out peer f hk hout hpeer hp hsent => exact hp
  | appendEntriesReply k b out peer fails reply s' hk hout hfind hpeer hepoch hans hs' hcalls =>
      exact (h.broadcasts b (List.mem_of_getElem? hk)).member
  | propose p command hp => exact hp
  | proposeSync p command hp s' hs' hcalls => exact hp
  | idle op p r s' hr hs' hop hcalls hidle =>
      cases hr with
      | look => exact absurd hx List.not_mem_nil
      | returned i outcome => exact absurd (List.mem_singleton.1 hx) (hret i outcome)
      | waiters i => exact absurd hx List.not_mem_nil
      | leader l => exact absurd hx List.not_mem_nil
  | confirmCompaction p req hp => exact hp
  | pollWait op p ph hp hop hfrom hph hpos hph' hfetch => exact hp
  | pollWriteFile p file hp hpoll => exact hp
  | pollRewriteLog p file hp hpoll => exact hp
  | pollRestore p file hp hpoll => exact hp
  | pollAdopt p file hp hpoll => exact hp
  | pollCompact p file hp hpoll => exact hp

/-! ## Whoever has committed something knows it -/

/-- Who has declared an index committed is a member, and knows it for as long as it leads. -/
structure Informed (c : Config) (s : Cluster) : Prop where
  member : ∀ ev ∈ s.history, ∀ n, ev.what = .advancedCommit n → ev.host ∈ c.addrs
  knows : ∀ ev ∈ s.history, ∀ n, ev.what = .advancedCommit n →
    (s.hosts ev.host).node.KnowsIn n.currentTerm n.commitIndex

namespace Informed

theorem init (c : Config) : Informed c c.init where
  member := by simp [Config.init]
  knows := by simp [Config.init]

/-- What is known stays known. -/
theorem still (h : Informed c s) (hv : ClusterView c a s) (hok : Safe s act)
    (hs : B5KvStore.step c s act = some s') : ∀ ev ∈ s.history, ∀ n,
      ev.what = .advancedCommit n →
      (s'.hosts ev.host).node.KnowsIn n.currentTerm n.commitIndex := by
  intro ev hev n hwhat
  have hview := hv.history ev hev
  rw [hwhat] at hview
  obtain ⟨-, L, m, hled, -⟩ := hview
  exact hv.knowsIn_step hok hs (h.member ev hev n hwhat) hled (h.knows ev hev n hwhat)

/-- **One step.** -/
theorem step (h : Informed c s) (hv : ClusterView c a s) (hok : Safe s act)
    (hs : B5KvStore.step c s act = some s') : Informed c s' := by
  have hold := h.still hv hok hs
  cases stepView hs with
  | run op o ho =>
      have heff := exec_effect ho
      -- the events of the step are the last ones
      have hcases : ∀ ev ∈ (o.around.finish c o.host o.result).history, ev ∈ s.history ∨
          ev.host = o.host ∧ ev.what ∈ o.result.events := by
        intro ev hev
        rw [Cluster.history_finish, heff.same_rest.2, List.mem_append, List.mem_map] at hev
        rcases hev with hev | ⟨x, hx, rfl⟩
        · exact Or.inl hev
        · exact Or.inr ⟨rfl, hx⟩
      refine ⟨fun ev hev n hwhat => ?_, fun ev hev n hwhat => ?_⟩
      · rcases hcases ev hev with hev | ⟨hhost, hx⟩
        · exact h.member ev hev n hwhat
        · rw [hhost]
          exact hv.host_of_event heff hx (by rw [hwhat]; simp)
      · rcases hcases ev hev with hev | ⟨hhost, hx⟩
        · exact hold ev hev n hwhat
        · rw [hwhat] at hx
          intro _ _
          rw [hhost, Cluster.node_finish]
          cases heff.reported _ hx with
          | routine _ _ hr => exact absurd hr id
          | advancedCommit _ hm =>
              rw [hm]
  | crash q _ => exact ⟨h.member, hold⟩
  | crashDuring op o k ho => exact ⟨h.member, hold⟩
  | publish file => exact ⟨h.member, hold⟩

/-- **A leader knows everything that is committed** unless it holds an entry of an earlier term
above its commit index, or somebody has been elected since. -/
theorem le_commitIndex (h : Informed c s) (hv : ClusterView c a s) {p : String}
    (hp : p ∈ c.addrs) (hrole : (s.hosts p).node.role = .leader)
    (hown : (s.hosts p).node.OwnAbove)
    (hlast : ∀ T l L, a.led T = some (l, L) → T ≤ (s.hosts p).node.currentTerm) {i : Nat}
    (hi : Announced s.history i) : i ≤ (s.hosts p).node.commitIndex := by
  obtain ⟨ev, hev, n, hwhat, hle⟩ := hi
  have hview := hv.history ev hev
  rw [hwhat] at hview
  obtain ⟨hcom, L, m, hled, hm, hmL, -⟩ := hview
  have hn := hv.nodes p hp
  have hledp := hn.led hv.reach hrole
  rw [hn.term] at hledp
  by_contra hlt
  rcases Nat.lt_or_eq_of_le (hlast _ _ _ hled) with hT | hT
  · -- the entry is in the leader's log, but it is too old for what the leader has left
    have hhold := hv.reach.inv.commit_complete hcom hled hledp hT.le
    obtain ⟨e, he⟩ : ∃ e, L[i - 1]? = some e := ⟨_, List.getElem?_eq_getElem (by omega)⟩
    rw [← ReplicatedLog.getElem?_eq_of_take_eq hhold (by omega)] at he
    have hanchor := hn.anchorIndex_le
    have hterm := hown.term (by omega) ((hn.entryAtLocked (show _ < i by omega)).trans he)
    rw [ReplicatedLog.getElem?_eq_of_take_eq hhold (by omega)] at he
    have hold := hv.reach.inv.logs.led_le _ _ _ hled e (List.mem_of_getElem? he)
    omega
  · rw [hT, hledp] at hled
    obtain ⟨hhost, -⟩ := Prod.mk.inj (Option.some.inj hled)
    have hknow := h.knows ev hev n hwhat
    rw [← hhost] at hknow
    have := hknow hrole hT.symm
    omega

end Informed

/-! ## One read at a time -/

/-- The index covers what had been announced when a read started. -/
def Cluster.CoversCommitted (s : Cluster) (start readIndex : Nat) : Prop :=
  ∀ i, Announced (s.history.take start) i → i ≤ readIndex

/-- What a step of the cluster does to one read and to the round that confirms it. -/
inductive ReadStep (c : Config) (s s' : Cluster) (act : Action) (r : Nat) (call : ReadCall) :
    ReadPhase → Prop
  | stay (hrounds : SameRounds r s.broadcasts s'.broadcasts) :
      ReadStep c s s' act r call call.phase
  /-- A call of some round is answered, or its reply is taken up. -/
  | heard (k : Nat) (b : Broadcast) (p : String) (x : CallPhase AppendEntriesReply)
      (hk : s.broadcasts[k]? = some b) (hopen : b.calls p ≠ .finished)
      (hx : ∀ reply, x = .answered reply →
        p ∈ c.addrs ∧ (s'.hosts p).node.currentTerm = reply.term)
      (hrounds : s'.broadcasts = s.broadcasts.set k
        { b with calls := Function.update b.calls p x }) :
      ReadStep c s s' act r call call.phase
  /-- A reply of the read's own round is counted. -/
  | counted (k : Nat) (b : Broadcast) (out : OutgoingAppendEntries) (reply : AppendEntriesReply)
      (ph : ReadPhase) (hk : s.broadcasts[k]? = some b) (hout : out ∈ b.reqs)
      (hread : b.read = some r) (hans : b.calls out.peer = .answered reply)
      (hterm : reply.term = b.term) (hack : AckMove c call ph)
      (hrounds : s'.broadcasts = s.broadcasts.set k
        { b with calls := Function.update b.calls out.peer .finished }) :
      ReadStep c s s' act r call ph
  | moved (op : Op) (ph : ReadPhase) (hact : act = .run op) (hmove : ReadMove c s call op ph)
      (hrounds : s'.broadcasts = s.broadcasts) : ReadStep c s s' act r call ph
  | confirms (b : Broadcast) (epoch T readIndex : Nat)
      (hph : call.phase = .captured epoch T readIndex) (hread : b.read = some r)
      (hleader : b.leader = call.leader) (hterm : b.term = T) (hcalls : b.calls = fun _ => .sent)
      (hrounds : s'.broadcasts = s.broadcasts ++ [b]) :
      ReadStep c s s' act r call (.confirming epoch T readIndex 1)

section

variable {r : Nat} {call : ReadCall}

/-- Changing one read leaves the others alone. -/
theorem getElem?_modify_phase {reads : List ReadCall} (hk : reads[r]? = some call) (r' : Nat)
    (ph : ReadPhase) : (reads.modify r' fun call => { call with phase := ph })[r]? =
      some { call with phase := if r' = r then ph else call.phase } := by
  by_cases hr : r' = r
  · subst hr
    rw [List.getElem?_modify_eq, hk, if_pos rfl]
    rfl
  · rw [List.getElem?_modify_ne _ _ hr, hk, if_neg hr]

theorem replyPhase_answered {α : Type} {res : Except RaftError α} {reply : α}
    (h : replyPhase res = .answered reply) : res = .ok reply := by
  cases res with
  | error e => exact absurd h (by simp [replyPhase])
  | ok reply' => rw [CallPhase.answered.inj h]

/-- **One step, one read.** -/
theorem step_read (hs : step c s act = some s') (hk : s.reads[r]? = some call) :
    ∃ ph, s'.reads[r]? = some { call with phase := ph } ∧ ReadStep c s s' act r call ph := by
  have hsame : s'.reads = s.reads → SameRounds r s.broadcasts s'.broadcasts →
      ∃ ph, s'.reads[r]? = some { call with phase := ph } ∧ ReadStep c s s' act r call ph :=
    fun hreads hrounds => ⟨call.phase, by rw [hreads]; exact hk, .stay hrounds⟩
  have hquiet : s'.reads = s.reads → s'.broadcasts = s.broadcasts →
      ∃ ph, s'.reads[r]? = some { call with phase := ph } ∧ ReadStep c s s' act r call ph :=
    fun hreads hrounds => hsame hreads (by rw [hrounds]; exact fun _ _ _ => Iff.rfl)
  cases stepView hs with
  | run op o ho =>
      cases exec_reads ho with
      | same hreads hrounds => exact hquiet hreads hrounds
      | round b hb hreads hrounds =>
          exact hsame hreads (hrounds ▸ sameRounds_append (by rw [hb]; simp))
      | answer k b req f hb hp hsent hres hreads hrounds =>
          refine ⟨call.phase, (congrArg (·[r]?) hreads).trans hk,
            .heard k b o.host _ hb (by rw [hsent]; simp) (fun reply hreply => ⟨hp, ?_⟩) hrounds⟩
          rw [Cluster.node_finish, hres, Locked.term_appendEntries (replyPhase_answered hreply)]
      | take k b out reply hb hout hans haround =>
          have hopen : b.calls out.peer ≠ .finished := by rw [hans]; simp
          generalize o.around = s₁ at haround ⊢
          rcases haround with rfl | ⟨r', hread, hterm, rfl⟩
          · exact ⟨call.phase, hk, .heard k b out.peer .finished hb hopen (by simp) rfl⟩
          · rcases Cluster.ackRead_cases (s.setBroadcast k { b with
                calls := Function.update b.calls out.peer .finished }) c r' b.epoch with
              heq | ⟨call', ph, hcall', hack, heq⟩
            · rw [heq]
              exact ⟨call.phase, hk, .heard k b out.peer .finished hb hopen (by simp) rfl⟩
            · rw [heq]
              refine ⟨_, getElem?_modify_phase hk r' ph, ?_⟩
              by_cases hr : r' = r
              · subst hr
                obtain rfl : call' = call := Option.some.inj (hcall'.symm.trans hk)
                rw [if_pos rfl]
                exact .counted k b out reply ph hb hout hread hans hterm hack rfl
              · rw [if_neg hr]
                exact .heard k b out.peer .finished hb hopen (by simp) rfl
      | start call' hph hstart hreads hrounds =>
          refine ⟨call.phase, ?_, .stay (hrounds ▸ fun _ _ _ => Iff.rfl)⟩
          refine (congrArg (·[r]?) hreads).trans ?_
          rw [List.getElem?_append_left (List.getElem?_eq_some_iff.1 hk).1]
          exact hk
      | move r' call' ph hk' hmove haround =>
          generalize o.around = s₁ at haround ⊢
          subst haround
          refine ⟨_, getElem?_modify_phase hk r' ph, ?_⟩
          by_cases hr : r' = r
          · subst hr
            obtain rfl : call' = call := Option.some.inj (hk'.symm.trans hk)
            rw [if_pos rfl]
            exact .moved op ph rfl hmove rfl
          · rw [if_neg hr]
            exact .stay fun _ _ _ => Iff.rfl
      | confirm r' call' epoch T readIndex reqs hk' hph hterm haround =>
          generalize o.around = s₁ at haround ⊢
          subst haround
          refine ⟨_, getElem?_modify_phase hk r' _, ?_⟩
          by_cases hr : r' = r
          · subst hr
            obtain rfl : call' = call := Option.some.inj (hk'.symm.trans hk)
            rw [if_pos rfl]
            exact .confirms _ epoch T readIndex hph rfl rfl hterm rfl rfl
          · rw [if_neg hr]
            exact .stay (sameRounds_append (by simpa using hr))
  | crash q _ => exact hquiet rfl rfl
  | crashDuring op o k ho => exact hquiet rfl rfl
  | publish file => exact hquiet rfl rfl

/-- A read that was not there before has just started. -/
theorem step_new_read (hs : step c s act = some s') (hk : s'.reads[r]? = some call)
    (hr : s.reads.length ≤ r) :
    call.phase = .asking ∧ call.startedAt = s.history.length ∧ s'.broadcasts = s.broadcasts := by
  have hlt := (List.getElem?_eq_some_iff.1 hk).1
  have hsame : s'.reads.length = s.reads.length → call.phase = .asking ∧
      call.startedAt = s.history.length ∧ s'.broadcasts = s.broadcasts := fun h => by omega
  cases stepView hs with
  | run op o ho =>
      cases exec_reads ho with
      | same hreads hrounds => exact hsame (congrArg List.length hreads)
      | round b hb hreads hrounds => exact hsame (congrArg List.length hreads)
      | answer k b req f hb hp hsent hres hreads hrounds =>
          exact hsame (congrArg List.length hreads)
      | take k b out reply hb hout hans haround =>
          refine hsame ?_
          generalize o.around = s₁ at haround ⊢
          rcases haround with rfl | ⟨r', hread, hterm, rfl⟩
          · rfl
          · rcases Cluster.ackRead_cases (s.setBroadcast k { b with
                calls := Function.update b.calls out.peer .finished }) c r' b.epoch with
              heq | ⟨call', ph, hcall', hack, heq⟩
            · rw [heq]
              rfl
            · rw [heq]
              exact List.length_modify ..
      | start call' hph hstart hreads hrounds =>
          have hk' : (s.reads ++ [call'])[r]? = some call := (congrArg (·[r]?) hreads).symm.trans hk
          rw [List.getElem?_append_right hr] at hk'
          obtain rfl : call' = call := List.mem_singleton.1 (List.mem_of_getElem? hk') |>.symm
          exact ⟨hph, hstart, hrounds⟩
      | move r' call' ph hk' hmove haround =>
          refine hsame ?_
          generalize o.around = s₁ at haround ⊢
          subst haround
          exact List.length_modify ..
      | confirm r' call' epoch T readIndex reqs hk' hph hterm haround =>
          refine hsame ?_
          generalize o.around = s₁ at haround ⊢
          subst haround
          exact List.length_modify ..
  | crash q _ => exact hsame rfl
  | crashDuring op o k ho => exact hsame rfl
  | publish file => exact hsame rfl

end

/-! ## What a read will cover -/

/-- A commit, in the form of an acknowledgement. -/
def Event.owed? (ev : Event) : Option Event :=
  match ev.what with
  | .advancedCommit n => some { ev with what := .returned n.commitIndex none }
  | _ => none

/-- What had been announced after `start` events, in the place of what had been acknowledged. -/
def Cluster.owing (s : Cluster) (start : Nat) : Cluster :=
  { s with history := (s.history.take start).filterMap Event.owed? }

section

variable {r start T readIndex : Nat} {l : String} {call : ReadCall} {ph : ReadPhase}

theorem Cluster.covers_owing :
    (s.owing start).Covers (s.owing start).history.length readIndex ↔
      s.CoversCommitted start readIndex := by
  unfold Cluster.Covers Cluster.CoversCommitted
  rw [List.take_length]
  constructor
  · rintro h i ⟨ev, hev, n, hwhat, hle⟩
    refine hle.trans (h n.commitIndex ⟨{ ev with what := .returned n.commitIndex none }, ?_, rfl⟩)
    exact List.mem_filterMap.2 ⟨ev, hev, by simp [Event.owed?, hwhat]⟩
  · rintro h i ⟨ev, hev, hwhat⟩
    obtain ⟨ev₀, hev₀, howed⟩ := List.mem_filterMap.1 hev
    unfold Event.owed? at howed
    split at howed
    · rename_i n hn
      obtain rfl := Option.some.inj howed
      obtain ⟨rfl, -⟩ := NodeEvent.returned.inj hwhat
      exact h _ ⟨ev₀, hev₀, n, hn, le_refl _⟩
    · exact absurd howed (by simp)

/-- What the read can rely on, phase by phase, so that it will cover what had been announced. -/
def ReadPromise (c : Config) (a : Model) (s : Cluster) (r : Nat) (l : String) (start : Nat)
    (ph : ReadPhase) : Prop :=
  ReadView c a (s.owing start) r l (s.owing start).history.length ph

/-- **The capture.** -/
theorem Informed.sure (h : Informed c s) (hv : ClusterView c a s) (hl : l ∈ c.addrs)
    (hrole : (s.hosts l).node.role = .leader) (hown : (s.hosts l).node.OwnAbove) :
    s.CoversCommitted start (s.hosts l).node.commitIndex ∨
      ∃ S, Overtaken c a (s.hosts l).node.currentTerm l S := by
  by_cases hlast : ∀ T l' L, a.led T = some (l', L) → T ≤ (s.hosts l).node.currentTerm
  · exact Or.inl fun i hi => h.le_commitIndex hv hl hrole hown hlast (hi.mono (List.take_prefix ..))
  · obtain ⟨T, l', L, hled, hlt⟩ : ∃ T l' L, a.led T = some (l', L) ∧
        (s.hosts l).node.currentTerm < T := by
      simpa using hlast
    refine Or.inr ⟨{w | (s.hosts l).node.currentTerm < a.term w}, ?_, fun w hw => hw, ?_⟩
    · refine c.quorums.mono ?_ (hv.reach.inv.elections.led_won T l' L hled).2.2
      rintro w ⟨F, hb⟩
      exact hlt.trans_le (hv.reach.inv.elections.vote_le _ hb)
    · rw [Set.mem_ofPred_eq, (hv.nodes _ hl).term]
      exact lt_irrefl _

namespace ReadPromise

/-- How the read goes on by itself. -/
theorem move (h : ReadPromise c a s r call.leader start call.phase) (hin : Informed c s)
    (hv : ClusterView c a s) (hconf : ConfirmedReads s (.run op))
    (hmove : ReadMove c s call op ph) : ReadPromise c a s r call.leader start ph := by
  unfold ReadPromise at h ⊢
  cases hmove with
  | capture r₀ hop hk₀ hph hl hrole =>
      subst hop
      rw [hph] at h
      cases h with
      | asking hnew =>
          refine .captured _ _ _ hnew hl ?_
          exact (hin.sure hv hl hrole (hconf call hk₀ hrole)).imp_left Cluster.covers_owing.2
  | alone epoch T readIndex hph hpeers =>
      rw [hph] at h
      obtain ⟨-, hl, hsure⟩ := h.sure_of_captured
      refine .granted _ (hsure.resolve_right ?_)
      rintro ⟨S, hS⟩
      exact hS.no_quorum hl List.nodup_nil (by simp) (by simp) (by rw [hpeers]; decide)
  | refuse reply hno => exact .refused reply hno
  | reply reply hph hyes =>
      rw [hph] at h
      cases h with
      | refused _ hno => exact absurd hyes (by rw [hno reply rfl]; decide)
      | granted _ hcov => exact .waiting _ hcov
  | applied readIndex hph hle =>
      rw [hph] at h
      cases h with
      | waiting _ hcov => exact .done _ fun i hi => (hcov i hi).trans hle
  | unavailable => exact .unavailable

/-- A round starts that is to confirm the read. -/
theorem confirms (h : ReadPromise c a s r call.leader start call.phase)
    {b : Broadcast} {epoch : Nat} (hph : call.phase = .captured epoch T readIndex)
    (hread : b.read = some r) (hleader : b.leader = call.leader) (hterm : b.term = T)
    (hcalls : b.calls = fun _ => .sent) (hx : Extends a a')
    (hhist : (s'.owing start).history = (s.owing start).history)
    (hrounds : s'.broadcasts = s.broadcasts ++ [b]) :
    ReadPromise c a' s' r call.leader start (.confirming epoch T readIndex 1) := by
  unfold ReadPromise at h ⊢
  rw [hph] at h
  obtain ⟨hnew, hl, hsure⟩ := h.sure_of_captured
  refine .confirming epoch T readIndex s.broadcasts.length b [] hl
    ⟨?_, hread, ?_, hleader, hterm, List.nodup_nil, by simp, ?_⟩
  · exact (congrArg (·[s.broadcasts.length]?) hrounds).trans List.getElem?_concat_length
  · intro k' b' hk' hread'
    replace hk' : (s.broadcasts ++ [b])[k']? = some b' := hrounds ▸ hk'
    by_contra hne
    have hlt : k' < s.broadcasts.length := by
      have := (List.getElem?_eq_some_iff.1 hk').1
      rw [List.length_append, List.length_singleton] at this
      omega
    rw [List.getElem?_append_left hlt] at hk'
    exact hnew b' (List.mem_of_getElem? hk') hread'
  · rw [hhist]
    refine hsure.imp (fun hcov => hcov.same (by rw [hhist])) ?_
    rintro ⟨S, hS⟩
    refine ⟨S, hS.mono hx, by simp, fun w reply hw => ?_⟩
    rw [hcalls] at hw
    exact absurd hw (by simp)

/-- A reply of the read's own round is counted. -/
theorem counted (h : ReadPromise c a s r call.leader start call.phase) (hv : ClusterView c a s)
    (hx : Extends a a') (hhist : (s'.owing start).history = (s.owing start).history) {k : Nat}
    {b : Broadcast} {out : OutgoingAppendEntries} {reply : AppendEntriesReply}
    (hk : s.broadcasts[k]? = some b) (hout : out ∈ b.reqs) (hread : b.read = some r)
    (hans : b.calls out.peer = .answered reply) (hterm : reply.term = b.term)
    (hack : AckMove c call ph)
    (hrounds : s'.broadcasts = s.broadcasts.set k
      { b with calls := Function.update b.calls out.peer .finished }) :
    ReadPromise c a' s' r call.leader start ph := by
  unfold ReadPromise at h ⊢
  rw [hhist]
  have hcounted : ∀ {epoch T readIndex n}, call.phase = .confirming epoch T readIndex n →
      call.leader ∈ c.addrs ∧ ∃ acks b', n = acks.length ∧
        Confirming c a' (s'.owing start) r call.leader (s.owing start).history.length T readIndex k
          b' acks := by
    intro epoch T readIndex n hph
    rw [hph] at h
    cases h with
    | confirming _ _ _ k₀ b₀ acks hl hconf =>
        obtain rfl := hconf.only k b hk hread
        obtain rfl : b = b₀ := Option.some.inj (hk.symm.trans hconf.round)
        have hpeer := ((hv.broadcasts b (List.mem_of_getElem? hk)).sent out hout).2.2.2.2
        exact ⟨hl, out.peer :: acks, _, rfl, hconf.count hx (by rw [hhist]) hans
          (hterm.trans hconf.term) (hconf.leader ▸ hpeer) hrounds⟩
  cases hack with
  | count epoch T readIndex n hph =>
      obtain ⟨hl, acks, b', hn, hcount⟩ := hcounted hph
      rw [hn]
      exact .confirming epoch T readIndex k b' acks hl hcount
  | grant epoch T readIndex n hph hq =>
      obtain ⟨hl, acks, b', hn, hcount⟩ := hcounted hph
      exact .granted _ (hcount.covers hl (by omega))

/-- **One step.** -/
theorem step (h : ReadPromise c a s r call.leader start call.phase) (hin : Informed c s)
    (hv : ClusterView c a s) (hv' : ClusterView c a' s') (hx : Extends a a')
    (hconf : ConfirmedReads s act) (hhist : s'.history.take start = s.history.take start)
    (hstep : ReadStep c s s' act r call ph) : ReadPromise c a' s' r call.leader start ph := by
  have howe : (s'.owing start).history = (s.owing start).history := by
    unfold Cluster.owing
    rw [hhist]
  have htake : (s'.owing start).history.take (s.owing start).history.length =
      (s.owing start).history.take (s.owing start).history.length := by rw [howe]
  cases hstep with
  | stay hrounds =>
      unfold ReadPromise at h ⊢
      rw [howe]
      exact h.same hx htake hrounds
  | heard k b p x hk hopen hnew hrounds =>
      unfold ReadPromise at h ⊢
      rw [howe]
      refine h.update hx htake hk hopen (fun reply hreply => ?_) hrounds
      obtain ⟨hp, hterm⟩ := hnew reply hreply
      rw [(hv'.nodes p hp).term, hterm]
  | counted k b out reply ph hk hout hread hans hterm hack hrounds =>
      exact h.counted hv hx howe hk hout hread hans hterm hack hrounds
  | moved op ph hact hmove hrounds =>
      subst hact
      have hmoved := h.move hin hv hconf hmove
      unfold ReadPromise at hmoved ⊢
      rw [howe]
      refine hmoved.same hx htake ?_
      intro k b _
      exact iff_of_eq (congrArg (fun bs : List Broadcast => bs[k]? = some b) hrounds)
  | confirms b epoch T readIndex hph hread hleader hterm hcalls hrounds =>
      exact h.confirms hph hread hleader hterm hcalls hx howe hrounds

/-- A read that has returned covers what it had to. -/
theorem covers {k : Nat} (h : ReadPromise c a s r l start (.done k)) :
    s.CoversCommitted start k := by
  cases h with
  | done _ hcov => exact Cluster.covers_owing.1 hcov

end ReadPromise

/-- **Every read will cover** what had been announced when it started. -/
structure ReadsCover (c : Config) (a : Model) (s : Cluster) : Prop where
  current : ReadsCurrent c a s
  informed : Informed c s
  promises : ∀ r call, s.reads[r]? = some call →
    ReadPromise c a s r call.leader call.startedAt call.phase

namespace ReadsCover

theorem init (c : Config) : ReadsCover c .init c.init where
  current := .init c
  informed := .init c
  promises := by simp [Config.init]

/-- **One step.** -/
theorem step (h : ReadsCover c a s) (hat : Attested c a s) (hv : ClusterView c a s)
    (hv' : ClusterView c a' s') (hx : Extends a a') (hok : Safe s act)
    (hconf : ConfirmedReads s act) (hs : B5KvStore.step c s act = some s') :
    ReadsCover c a' s' := by
  refine ⟨h.current.step hat hv hv' hx hconf hs, h.informed.step hv hok hs, ?_⟩
  intro r call' hcall'
  by_cases hr : r < s.reads.length
  · obtain ⟨call, hcall⟩ : ∃ call, s.reads[r]? = some call := ⟨_, List.getElem?_eq_getElem hr⟩
    obtain ⟨ph, hph, hstep⟩ := step_read hs hcall
    obtain rfl := Option.some.inj (hcall'.symm.trans hph)
    exact (h.promises r call hcall).step h.informed hv hv' hx hconf
      (h.current.take_eq (step_history hs) hcall) hstep
  · obtain ⟨hph, -, hrounds⟩ := step_new_read hs hcall' (Nat.le_of_not_lt hr)
    rw [hph]
    refine .asking fun b hb hread => hr ?_
    exact h.current.known b (hrounds ▸ hb) r hread

end ReadsCover

end

end B5KvStore
