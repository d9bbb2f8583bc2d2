import B5KvStore.Cluster.Acknowledged
import B5KvStore.Cluster.AppendOnly
import B5KvStore.Cluster.Applied

/-!
# Reads at a leader

`Server.Get` asks the node for its role and, at a leader, reads the map at once.  Whether the
map reflects every write that was acknowledged before depends on two things the node does not
check: that nobody has been elected since, and that its own commit index has caught up with
what earlier leaders have committed.

* `Attested` — a leader of the term a write was acknowledged in knows the write to be committed.
* `Attested.le_commitIndex` — so does a later leader that has nothing of an earlier term left.
* `leader_reads_current` — reads under that condition.
-/

namespace B5KvStore

open ReplicatedLog (CommittedAt Extends)

/-! ## Who knows what has been acknowledged -/

/-- A `ProposeSync` call has returned `nil` for the index. -/
def Returned (h : List Event) (i : Nat) : Prop := ∃ ev ∈ h, ev.what = .returned i none

/-- As the leader of term `T`, the node knows the index to be committed. -/
def Node.KnowsIn (n : Node) (T i : Nat) : Prop :=
  n.role = .leader → n.currentTerm = T → i ≤ n.commitIndex

/-- What has been acknowledged is committed, and whoever led its term knows that while it
leads. -/
structure Attested (c : Config) (a : Model) (s : Cluster) : Prop where
  members : ∀ call ∈ s.proposals, call.leader ∈ c.addrs
  told : ∀ call ∈ s.proposals, call.chan = some none →
    (s.hosts call.leader).node.KnowsIn call.term call.index
  returned : ∀ i, Returned s.history i → ∃ e l L, CommittedAt a i e ∧ l ∈ c.addrs ∧
    a.led e.term = some (l, L) ∧ (s.hosts l).node.KnowsIn e.term i

section

variable {c : Config} {a a' : Model} {s s' : Cluster} {act : Action} {p l : String}

/-- A leader that stays in its term does not forget, and nobody leads a term twice. -/
theorem ClusterView.knowsIn_step (h : ClusterView c a s) (hok : Safe s act)
    (hs : B5KvStore.step c s act = some s') (hl : l ∈ c.addrs) {T i : Nat} {L : List LogEntry}
    (hled : a.led T = some (l, L)) (hk : (s.hosts l).node.KnowsIn T i) :
    (s'.hosts l).node.KnowsIn T i := by
  intro hrole' hterm'
  cases hostStep hs l with
  | other hnode hdisk hepoch hpoll =>
      rw [hnode] at hrole' hterm' ⊢
      exact hk hrole' hterm'
  | own op o ha heff hhost hnode hdisk hepoch hpoll =>
      have hle := h.progress hok hs hl hepoch
      obtain ⟨q, a', hm, h'⟩ := h.step hok hs
      have hcommit : (s.hosts l).node.commitIndex ≤ (s'.hosts l).node.commitIndex := by
        rw [← (h.nodes l hl).applied, ← (h'.nodes l hl).applied]
        exact hle
      have hfol := heff.follows
      rw [hhost, ← hnode] at hfol
      rcases hfol with ⟨-, hnot⟩ | ⟨hterm, hrole | hrole | ⟨hcand, -⟩⟩
      · exact absurd hrole' hnot
      · exact (hk (hrole ▸ hrole') (hterm ▸ hterm')).trans hcommit
      · rw [hrole'] at hrole
        exact absurd hrole (by simp)
      · -- a candidate does not run for a term it has already led
        have hn := h.nodes l hl
        refine absurd ?_ (h.reach.inv.elections.candidate_not_led l (by rw [hn.role, hcand]; rfl) L)
        rw [hn.term, ← hterm, hterm']
        exact hled
  | restart ws hh =>
      rw [hh] at hrole'
      exact absurd hrole' (by simp [Config.boot, Config.newNode, newNode])

namespace Attested

theorem init (c : Config) : Attested c .init c.init where
  members := by simp [Config.init]
  told := by simp [Config.init]
  returned i h := by
    obtain ⟨ev, hev, -⟩ := h
    exact absurd hev (by simp [Config.init])

/-- What a call has been told stays known. -/
theorem knows (h : Attested c a s) (hp : Promises c a s) (hv : ClusterView c a s)
    (hok : Safe s act) (hs : B5KvStore.step c s act = some s') :
    ∀ call ∈ s.proposals, call.chan = some none →
      (s'.hosts call.leader).node.KnowsIn call.term call.index := by
  intro call hcall hchan
  obtain ⟨-, L, hled, -⟩ := hp.calls call hcall
  exact hv.knowsIn_step hok hs (h.members call hcall) hled (h.told call hcall hchan)

/-- So does what has been acknowledged. -/
theorem still (h : Attested c a s) (hv : ClusterView c a s) (hx : Extends a a')
    (hok : Safe s act) (hs : B5KvStore.step c s act = some s') {i : Nat}
    (hi : Returned s.history i) : ∃ e l L, CommittedAt a' i e ∧ l ∈ c.addrs ∧
      a'.led e.term = some (l, L) ∧ (s'.hosts l).node.KnowsIn e.term i := by
  obtain ⟨e, l, L, hcom, hl, hled, hk⟩ := h.returned i hi
  obtain ⟨L', hled', -⟩ := hx.led _ l L hled
  exact ⟨e, l, L', hcom.mono hx, hl, hled', hv.knowsIn_step hok hs hl hled hk⟩

/-- No call is told anything. -/
theorem of_same (h : Attested c a s) (hp : Promises c a s) (hv : ClusterView c a s)
    (hx : Extends a a') (hok : Safe s act) (hs : B5KvStore.step c s act = some s')
    (hcalls : s'.proposals = s.proposals) (hhist : s'.history = s.history) : Attested c a' s' where
  members := by rw [hcalls]; exact h.members
  told := by rw [hcalls]; exact h.knows hp hv hok hs
  returned i hi := h.still hv hx hok hs (hhist ▸ hi)

/-- A critical section that makes no call: a leader tells `nil` only what it knows. -/
theorem finish (h : Attested c a s) (hp : Promises c a s) (hv : ClusterView c a s)
    (hx : Extends a a') {op : Op} {o : Outcome} (hok : Safe s (.run op)) (he : Effect c s op o)
    (hs : B5KvStore.step c s (.run op) = some (o.around.finish c o.host o.result))
    (hcalls : SameCalls s.proposals o.around.proposals) (hw : Settles s o.host o.result) :
    Attested c a' (o.around.finish c o.host o.result) := by
  have hknows := h.knows hp hv hok hs
  refine ⟨fun call' hcall' => ?_, fun call' hcall' hchan' => ?_, fun i hi => ?_⟩
  · obtain ⟨k, hk'⟩ := List.getElem?_of_mem hcall'
    obtain ⟨call, hk, hsame, -⟩ := hcalls.notifyAll hk'
    rw [hsame.leader]
    exact h.members call (List.mem_of_getElem? hk)
  · obtain ⟨k, hk'⟩ := List.getElem?_of_mem hcall'
    obtain ⟨call, hk, hsame, hchan⟩ := hcalls.notifyAll hk'
    rw [hsame.leader, hsame.term, hsame.index]
    rcases hchan with hchan | ⟨outcome, hmem, hout⟩
    · exact hknows call (List.mem_of_getElem? hk) (hchan.symm.trans hchan')
    · rw [hchan', Option.some.injEq] at hout
      subst hout
      rcases hw with hw | ⟨call₀, -, outcome, -, hr⟩
      · rcases hw.told _ hmem with hq | ⟨ch, i, heq, hi, hle, -⟩
        · exact absurd hq id
        · obtain ⟨rfl, -⟩ := NodeEvent.notified.inj heq
          obtain ⟨-, -, call₀, hk₀, hleader, rfl, -⟩ := hp.waiting o.host i k hi
          obtain rfl : call = call₀ := Option.some.inj (hk.symm.trans hk₀)
          intro _ _
          rw [hleader, Cluster.node_finish]
          exact hle
      · rw [hr] at hmem
        exact absurd hmem (by simp [Node.lock])
  · obtain ⟨ev, hev, hwhat⟩ := hi
    rw [Cluster.history_finish, he.same_rest.2, List.mem_append, List.mem_map] at hev
    rcases hev with hev | ⟨x, hxmem, rfl⟩
    · exact h.still hv hx hok hs ⟨ev, hev, hwhat⟩
    · obtain rfl : x = .returned i none := hwhat
      rcases hw with hw | ⟨call, hcall, outcome, hchan, hr⟩
      · rcases hw.told _ hxmem with hq | ⟨ch, i, heq, -⟩
        · exact absurd hq id
        · exact absurd heq (by simp)
      · rw [hr] at hxmem
        obtain ⟨rfl, rfl⟩ : i = call.index ∧ none = outcome := by simpa [Node.lock] using hxmem
        obtain ⟨-, L, hled, -⟩ := hp.calls call hcall
        obtain ⟨L', hled', -⟩ := hx.led _ _ L hled
        exact ⟨call.entry, call.leader, L', (hp.told call hcall hchan).mono hx,
          h.members call hcall, hled', hknows call hcall hchan⟩

/-- **One step.** -/
theorem step (h : Attested c a s) (hp : Promises c a s) (hv : ClusterView c a s)
    (hx : Extends a a') (hok : Safe s act) (hs : B5KvStore.step c s act = some s') :
    Attested c a' s' := by
  cases stepView hs with
  | run op o ho =>
      have heff := exec_effect ho
      rcases heff.calls (hp.waited hv o.host) with ⟨hcalls, hw⟩ | ⟨command, hmem, -, hres, hcalls⟩
      · exact h.finish hp hv hx hok heff hs hcalls hw
      · have hcalls' : (o.around.finish c o.host o.result).proposals = s.proposals ++
            [⟨o.host, (s.hosts o.host).epoch, (s.hosts o.host).node.lastLogIndexLocked + 1,
              (s.hosts o.host).node.currentTerm, command, none, false⟩] := by
          rw [Cluster.proposals_finish, hres, hcalls]
          rfl
        have hhist : (o.around.finish c o.host o.result).history = s.history := by
          rw [Cluster.history_finish, hres, heff.same_rest.2]
          exact List.append_nil _
        refine ⟨?_, ?_, fun i hi => h.still hv hx hok hs (hhist ▸ hi)⟩
        · rw [hcalls']
          intro call hcall
          rcases List.mem_append.1 hcall with hcall | hcall
          · exact h.members call hcall
          · rw [List.mem_singleton.1 hcall]
            exact hmem
        · rw [hcalls']
          intro call hcall hchan
          rcases List.mem_append.1 hcall with hcall | hcall
          · exact h.knows hp hv hok hs call hcall hchan
          · rw [List.mem_singleton.1 hcall] at hchan
            exact absurd hchan (by simp)
  | crash q _ => exact h.of_same hp hv hx hok hs rfl rfl
  | crashDuring op o k ho => exact h.of_same hp hv hx hok hs rfl rfl
  | publish file => exact h.of_same hp hv hx hok hs rfl rfl

end Attested

/-! ## A leader that is up to date -/

/-- Above its commit index, the node holds entries of its own term only. -/
def Node.OwnAbove (n : Node) : Prop :=
  ∀ e ∈ n.log.drop (n.commitIndex - n.logOffset), e.term = n.currentTerm

/-- A quorum of the members is in a term later than `T`. -/
def Config.Deposed (c : Config) (s : Cluster) (T : Nat) : Prop :=
  quorumSize c.addrs.length ≤ (c.addrs.filter fun q => T < (s.hosts q).node.currentTerm).length

instance Node.decidableOwnAbove (n : Node) : Decidable n.OwnAbove :=
  inferInstanceAs (Decidable (∀ e ∈ _, _))

instance Config.decidableDeposed (c : Config) (s : Cluster) (T : Nat) : Decidable (c.Deposed s T) :=
  inferInstanceAs (Decidable (_ ≤ _))

theorem Node.OwnAbove.term {n : Node} (h : n.OwnAbove) {i : Nat} {e : LogEntry}
    (hi : n.commitIndex < i) (he : n.entryAtLocked i = some e) : e.term = n.currentTerm := by
  unfold Node.entryAtLocked at he
  split at he
  · exact absurd he (by simp)
  · rename_i hin
    refine h e (List.mem_of_getElem? (i := i - n.logOffset - 1 - (n.commitIndex - n.logOffset)) ?_)
    rw [List.getElem?_drop, ← he]
    congr 1
    omega

/-- Whoever has been elected for a later term was voted for by a quorum that is there. -/
theorem ClusterView.deposed (h : ClusterView c a s) {T T' : Nat} {L : List LogEntry}
    (hled : a.led T' = some (l, L)) (hT : T < T') : c.Deposed s T := by
  obtain ⟨-, -, W, hW, hcard, hvoted⟩ := h.reach.inv.elections.led_won T' l L hled
  have hsub : W ⊆ (c.addrs.filter fun q => T < (s.hosts q).node.currentTerm).toFinset := by
    intro w hw
    have hmem := List.mem_toFinset.1 (hW hw)
    obtain ⟨F, hb⟩ := hvoted w hw
    have hle := h.reach.inv.elections.vote_le _ hb
    rw [List.mem_toFinset, List.mem_filter, decide_eq_true_eq]
    dsimp only at hle
    rw [(h.nodes w hmem).term] at hle
    exact ⟨hmem, by omega⟩
  have hlen := (Finset.card_le_card hsub).trans (List.toFinset_card_le _)
  rw [List.toFinset_card_of_nodup c.nodup] at hcard
  unfold Config.Deposed quorumSize
  omega

/-- **A leader knows every acknowledged write** unless it holds an entry of an earlier term
above its commit index, or somebody has been elected since. -/
theorem Attested.le_commitIndex (h : Attested c a s) (hv : ClusterView c a s) (hp : p ∈ c.addrs)
    (hrole : (s.hosts p).node.role = .leader) (hown : (s.hosts p).node.OwnAbove)
    (hlast : ∀ T l L, a.led T = some (l, L) → T ≤ (s.hosts p).node.currentTerm) {i : Nat}
    (hi : Returned s.history i) : i ≤ (s.hosts p).node.commitIndex := by
  obtain ⟨e, l, L, ⟨T, N, l', L', hcom, hpos, hN, hled', he⟩, hl, hled, hk⟩ := h.returned i hi
  have hn := hv.nodes p hp
  have hledp := hn.led hv.reach hrole
  rw [hn.term] at hledp
  by_contra hlt
  -- the entry is in the leader's log, above its commit index
  have hhold := hv.reach.inv.commit_complete hcom hled' hledp (hlast T l' L' hled')
  rw [← ReplicatedLog.getElem?_eq_of_take_eq hhold (by omega)] at he
  have hanchor := hn.anchorIndex_le
  have hentry := (hn.entryAtLocked (show _ < i by omega)).trans he
  have hterm := hown.term (by omega) hentry
  rw [hterm, hledp] at hled
  obtain ⟨rfl, -⟩ := Prod.mk.inj (Option.some.inj hled)
  exact hlt (hk hrole hterm.symm)

/-! ## Reads -/

theorem Cluster.gets_ackRead (s : Cluster) (c : Config) (r epoch : Nat) :
    (s.ackRead c r epoch).gets = s.gets := by
  unfold Cluster.ackRead
  grind [Cluster.setRead]

/-- What an operation does to the reads that leaders serve. -/
inductive GetsEffect (c : Config) (s : Cluster) (op : Op) : List GetCall → Prop
  | same : GetsEffect c s op s.gets
  | status (p : String) (hop : op = .getStatus p) (hp : p ∈ c.addrs)
      (hrole : (s.hosts p).node.role = .leader) :
      GetsEffect c s op (s.gets ++
        [⟨p, (s.hosts p).epoch, s.history.length, (s.hosts p).node.currentTerm, none⟩])
  | value (k : Nat) (g : GetCall) (v : Option String) (hk : s.gets[k]? = some g)
      (hepoch : g.epoch = (s.hosts g.server).epoch) :
      GetsEffect c s op (s.gets.set k
        { g with served := some (v, (s.hosts g.server).node.lastApplied) })

theorem exec_gets {op : Op} {o : Outcome} (h : exec c s op = some o) :
    GetsEffect c s op o.around.gets := by
  cases op with
  | getStatus p =>
      simp only [exec, Option.bind_eq_bind, Option.bind_eq_some_iff, guard_eq_some, exists_const,
        look_eq_some] at h
      obtain ⟨⟨hp, hrole⟩, rfl⟩ := h
      exact .status p rfl hp hrole
  | getValue k key =>
      simp only [exec, Option.bind_eq_bind, Option.bind_eq_some_iff, guard_eq_some, exists_const,
        look_eq_some] at h
      obtain ⟨g, hk, ⟨hepoch, -⟩, rfl⟩ := h
      exact .value k g _ hk hepoch
  | _ =>
      have : o.around.gets = s.gets := by
        simp only [exec, Option.bind_eq_bind, Option.bind_eq_some_iff, guard_eq_some, exists_const,
          look_eq_some, Option.some.injEq] at h
        grind [look, Option.bind_eq_some_iff, Cluster.setHost, Cluster.setPoll, Cluster.setElection,
          Cluster.setBroadcast, Cluster.setProposal, Cluster.setRead, Cluster.send,
          Cluster.gets_ackRead]
      rw [this]
      exact .same

theorem step_gets (hs : step c s act = some s') :
    s'.gets = s.gets ∨ ∃ op, act = .run op ∧ GetsEffect c s op s'.gets := by
  cases stepView hs with
  | run op o ho =>
      exact Or.inr ⟨op, rfl, exec_gets ho⟩
  | crash q _ => exact Or.inl rfl
  | crashDuring op o k ho => exact Or.inl rfl
  | publish file => exact Or.inl rfl

/-- The process whose `Status` a step of `Server.Get` reads. -/
def Action.status? : Action → Option String
  | .run (.getStatus p) => some p
  | _ => none

/-- Whenever `Status` reports a leader to `Server.Get`, the leader has nothing of an earlier term
left to commit, and fewer than a quorum of the members are in a later term. -/
def ConfirmedGets (c : Config) (s : Cluster) (act : Action) : Prop :=
  ∀ p ∈ act.status?, (s.hosts p).node.OwnAbove ∧ ¬ c.Deposed s (s.hosts p).node.currentTerm

instance ConfirmedGets.decidable (c : Config) (s : Cluster) (act : Action) :
    Decidable (ConfirmedGets c s act) :=
  inferInstanceAs (Decidable (∀ p ∈ act.status?,
    (s.hosts p).node.OwnAbove ∧ ¬ c.Deposed s (s.hosts p).node.currentTerm))

instance Returned.decidable (h : List Event) (i : Nat) : Decidable (Returned h i) :=
  inferInstanceAs (Decidable (∃ ev ∈ h, ev.what = .returned i none))

/-- A read at a leader: while it is under way the server has applied what had been
acknowledged when it started, and once it has been served the server had. -/
structure GetCall.Current (c : Config) (s : Cluster) (g : GetCall) : Prop where
  server : g.server ∈ c.addrs
  started : g.startedAt ≤ s.history.length
  epoch : g.epoch ≤ (s.hosts g.server).epoch
  pending : g.epoch = (s.hosts g.server).epoch →
    ∀ i, Returned (s.history.take g.startedAt) i → i ≤ (s.hosts g.server).node.lastApplied
  served : ∀ v k, g.served = some (v, k) →
    ∀ i, Returned (s.history.take g.startedAt) i → i ≤ k

namespace GetCall.Current

variable {g : GetCall}

theorem step (h : g.Current c s) (hv : ClusterView c a s) (hok : Safe s act)
    (hs : B5KvStore.step c s act = some s') : g.Current c s' := by
  have hepoch := step_epoch hs g.server
  have hhist := step_history hs
  have htake := ReplicatedLog.take_eq_of_isPrefix hhist h.started
  refine ⟨h.server, h.started.trans hhist.length_le, h.epoch.trans hepoch, ?_, ?_⟩
  · rw [htake]
    intro heq i hi
    have hle := h.epoch
    have hsame : (s'.hosts g.server).epoch = (s.hosts g.server).epoch := by omega
    exact (h.pending (heq.trans hsame) i hi).trans (hv.progress hok hs h.server hsame)
  · rw [htake]
    exact h.served

/-- The map is read. -/
theorem serve (h : g.Current c s) (hepoch : g.epoch = (s.hosts g.server).epoch)
    (v : Option String) :
    { g with served := some (v, (s.hosts g.server).node.lastApplied) }.Current c s := by
  refine ⟨h.server, h.started, h.epoch, h.pending, fun v' k hk i hi => ?_⟩
  obtain ⟨-, rfl⟩ := Prod.mk.inj (Option.some.inj hk)
  exact h.pending hepoch i hi

/-- A read starts at a leader that knows what has been acknowledged. -/
theorem status (hat : Attested c a s) (hv : ClusterView c a s) (hp : p ∈ c.addrs)
    (hrole : (s.hosts p).node.role = .leader) (hown : (s.hosts p).node.OwnAbove)
    (hlast : ¬ c.Deposed s (s.hosts p).node.currentTerm) :
    GetCall.Current c s
      ⟨p, (s.hosts p).epoch, s.history.length, (s.hosts p).node.currentTerm, none⟩ := by
  refine ⟨hp, le_refl _, le_refl _, fun _ i hi => ?_, fun v k hk => absurd hk (by simp)⟩
  rw [List.take_length] at hi
  rw [(hv.nodes p hp).applied]
  refine hat.le_commitIndex hv hp hrole hown (fun T l L hled => ?_) hi
  by_contra hlt
  exact hlast (hv.deposed hled (Nat.lt_of_not_le hlt))

end GetCall.Current

/-- **One step** of reads at leaders. -/
theorem gets_current_step (h : ∀ g ∈ s.gets, g.Current c s) (hat : Attested c a s)
    (hv : ClusterView c a s) (hok : Safe s act) (hconf : ConfirmedGets c s act)
    (hs : step c s act = some s') : ∀ g ∈ s'.gets, g.Current c s' := by
  intro g hg
  rcases step_gets hs with hsame | ⟨op, rfl, hgets⟩
  · exact (h g (hsame ▸ hg)).step hv hok hs
  · generalize s'.gets = gs at hg hgets
    cases hgets with
    | same => exact (h g hg).step hv hok hs
    | status p hop hp hrole =>
        subst hop
        rcases List.mem_append.1 hg with hg | hg
        · exact (h g hg).step hv hok hs
        · rw [List.mem_singleton.1 hg]
          obtain ⟨hown, hlast⟩ := hconf p rfl
          exact (GetCall.Current.status hat hv hp hrole hown hlast).step hv hok hs
    | value k g₀ v hk hepoch =>
        rcases List.mem_or_eq_of_mem_set hg with hg | rfl
        · exact (h g hg).step hv hok hs
        · exact ((h g₀ (List.mem_of_getElem? hk)).serve hepoch v).step hv hok hs

end

/-- **Reads at a leader** find every write that was acknowledged before they started, in every
run without snapshots in which `Status` reports a leader to `Server.Get` only when that leader
has nothing of an earlier term left to commit and is not past its term. -/
theorem leader_reads_current (c : Config) (as : List Action) (s : Cluster)
    (hplain : ∀ act ∈ as, act.Plain) (hconf : Runs.Along (step c) (ConfirmedGets c) c.init as)
    (hrun : run c c.init as = some s) (g : GetCall) (hg : g ∈ s.gets) (v : Option String) (k : Nat)
    (hserved : g.served = some (v, k)) (i : Nat) (hi : Returned (s.history.take g.startedAt) i) :
    i ≤ k := by
  have hok : Runs.Along (step c) (fun s act => Safe s act ∧ ConfirmedGets c s act) c.init as :=
    Runs.Along.and (.of_forall fun act hact s => (hplain act hact).safe s) hconf
  obtain ⟨a, -, -, -, h⟩ : ∃ a, ClusterView c a s ∧ Promises c a s ∧ Attested c a s ∧
      ∀ g ∈ s.gets, g.Current c s := by
    refine Runs.invariant (I := fun s => ∃ a, ClusterView c a s ∧ Promises c a s ∧
      Attested c a s ∧ ∀ g ∈ s.gets, g.Current c s) ?_
      ⟨_, .init c, .init c, .init c, by simp [Config.init]⟩ hok (run_eq_exec c c.init as ▸ hrun)
    rintro s act s' ⟨a, hv, hp, hat, h⟩ ⟨hsafe, hgets⟩ hs
    obtain ⟨a', hx, hv', hp'⟩ := hp.step hv hsafe hs
    exact ⟨a', hv', hp', hat.step hp hv hx hsafe hs, gets_current_step h hat hv hsafe hgets hs⟩
  exact (h g hg).served v k hserved i hi

/-- `a` leads term `1`, commits a write with `b`, acknowledges it and then serves a read. -/
def readAfterWrite : List Action :=
  winElection "a" "b" 0 ++ [.run (.proposeSync "a" (putBytes 120 49))] ++ replicate "a" "b" 0 ++
    [.run (.proposeReturn 0), .run (.getStatus "a"), .run (.getValue 0 "x")]

theorem leader_reads_current_readAfterWrite : ∃ s g k, run trio trio.init readAfterWrite = some s ∧
    g ∈ s.gets ∧ g.served = some (some "1", k) ∧ Returned (s.history.take g.startedAt) 1 ∧
    1 ≤ k := by
  obtain ⟨s, hrun, hgets, hret⟩ := exists_of_run
    (fun s => s.gets = [⟨"a", 0, 5, 1, some (some "1", 1)⟩] ∧ Returned (s.history.take 5) 1)
    (by decide +kernel : (run trio trio.init readAfterWrite).any _ = true)
  have hg : ⟨"a", 0, 5, 1, some (some "1", 1)⟩ ∈ s.gets := by rw [hgets]; simp
  exact ⟨s, _, 1, hrun, hg, rfl, hret, leader_reads_current trio readAfterWrite s (by decide)
    (by decide +kernel) hrun _ hg (some "1") 1 rfl 1 hret⟩

/-- `b` is elected while `a` still takes itself for the leader, and acknowledges a write that it
commits with `c`; then `a` serves a read. -/
def readAtDeposed : List Action :=
  winElection "a" "b" 0 ++ winElection "b" "c" 1 ++
    [.run (.proposeSync "b" (putBytes 120 49))] ++ replicate "b" "c" 0 ++
    [.run (.proposeReturn 0), .run (.getStatus "a"), .run (.getValue 0 "x")]

/-- The read does not find the write. -/
theorem leader_read_stale : ∃ s g, run trio trio.init readAtDeposed = some s ∧
    (∀ act ∈ readAtDeposed, act.Plain) ∧ g ∈ s.gets ∧ g.server = "a" ∧
    g.served = some (none, 0) ∧ Returned (s.history.take g.startedAt) 1 := by
  obtain ⟨s, hrun, hgets, hret⟩ := exists_of_run
    (fun s => s.gets = [⟨"a", 0, 6, 1, some (none, 0)⟩] ∧ Returned (s.history.take 6) 1)
    (by decide +kernel : (run trio trio.init readAtDeposed).any _ = true)
  exact ⟨s, ⟨"a", 0, 6, 1, some (none, 0)⟩, hrun, by decide, by rw [hgets]; simp, rfl, rfl, hret⟩

end B5KvStore
