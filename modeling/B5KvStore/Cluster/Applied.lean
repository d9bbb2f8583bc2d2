import B5KvStore.Cluster.Simulation

/-!
# What a process applies

With snapshots used safely, a process applies the entries of its log one after the other: what
it has applied since it was started has increasing indices.  Without snapshots it applies the
indices `1, 2, 3, …`.

* `Cluster.appliedBy` — what a process has applied between two restarts.
* `ClusterView.applies` — what one step adds to it.
* `Orderly` — indices increase; `Orderly.run` for whole runs.
* `Action.Plain`, `Snapshotless` — runs without snapshots.
-/

namespace B5KvStore

/-- The messages a process has passed to `ApplyFn`. -/
def Cluster.appliedBy (s : Cluster) (p : String) (epoch : Nat) : List ApplyMsg :=
  s.history.filterMap fun ev => if ev.host = p ∧ ev.epoch = epoch then ev.what.msg? else none

theorem Cluster.mem_appliedBy {s : Cluster} {p : String} {epoch : Nat} {msg : ApplyMsg} :
    msg ∈ s.appliedBy p epoch ↔ ⟨p, epoch, .applied msg⟩ ∈ s.history := by
  unfold Cluster.appliedBy
  refine ⟨fun h => ?_, fun h => List.mem_filterMap.2 ⟨_, h, if_pos ⟨rfl, rfl⟩⟩⟩
  obtain ⟨⟨host, ep, what⟩, hev, hmsg⟩ := List.mem_filterMap.1 h
  split at hmsg
  · rename_i hh
    obtain ⟨rfl, rfl⟩ := hh
    cases what with
    | applied m =>
        cases hmsg
        exact hev
    | _ => cases hmsg
  · cases hmsg

/-- Entries of a log have the indices of their positions. -/
theorem Placed.index_slice {F : List LogEntry} (h : Placed F) (lo : Nat) {hi : Nat}
    (hhi : hi ≤ F.length) :
    (((F.take hi).drop lo).map LogEntry.msg).map ApplyMsg.index =
      List.range' (lo + 1) (hi - lo) := by
  refine List.ext_getElem? fun i => ?_
  rw [List.getElem?_map, List.getElem?_map, List.getElem?_drop, List.getElem?_take]
  by_cases hi' : i < hi - lo
  · obtain ⟨e, he⟩ : ∃ e, F[lo + i]? = some e := ⟨_, List.getElem?_eq_getElem (by omega)⟩
    have hidx := h (lo + i) e he
    rw [if_pos (by omega), List.getElem?_range' hi', he]
    simp only [Option.map_some, LogEntry.msg, Option.some.injEq]
    omega
  · rw [if_neg (by omega), List.getElem?_eq_none (by rw [List.length_range']; omega)]
    rfl

theorem Cluster.appliedBy_finish (s : Cluster) (c : Config) (p : String) (r : Locked) (q : String)
    (epoch : Nat) : (s.finish c p r).appliedBy q epoch = s.appliedBy q epoch ++
      if p = q ∧ (s.hosts p).epoch = epoch then r.events.filterMap NodeEvent.msg? else [] := by
  unfold Cluster.appliedBy
  rw [Cluster.history_finish, List.filterMap_append, List.filterMap_map]
  congr 1
  split
  · rename_i h
    exact congrArg (fun f => List.filterMap f r.events) (funext fun e => if_pos h)
  · rename_i h
    refine List.filterMap_eq_nil_iff.2 fun e _ => ?_
    exact if_neg h

/-- What a step of the cluster makes of what process `p` has applied. -/
inductive HostApplies (c : Config) (s s' : Cluster) (act : Action) (p : String) : Prop
  /-- The process goes on, and applies the entries from `lo` on. -/
  | more (F : List LogEntry) (lo : Nat) (hF : Placed F)
      (hepoch : (s'.hosts p).epoch = (s.hosts p).epoch)
      (hle : (s.hosts p).node.lastApplied ≤ lo) (hlo : lo ≤ (s'.hosts p).node.lastApplied)
      (hlen : (s'.hosts p).node.lastApplied ≤ F.length)
      (hadopt : (∀ q, act ≠ .run (.pollAdopt q)) → lo = (s.hosts p).node.lastApplied)
      (hmore : ∀ epoch, s'.appliedBy p epoch = s.appliedBy p epoch ++
        if (s.hosts p).epoch = epoch then
          ((F.take (s'.hosts p).node.lastApplied).drop lo).map LogEntry.msg
        else [])
  /-- The process is started again. -/
  | restart (d : Disk) (hboot : s'.hosts p = c.boot p d ((s.hosts p).epoch + 1))
      (hsame : ∀ epoch, s'.appliedBy p epoch = s.appliedBy p epoch)

section

variable {c : Config} {a : Model} {s s' : Cluster} {p : String}

theorem ClusterView.applied_le (h : ClusterView c a s) (hp : p ∈ c.addrs) :
    (s.hosts p).node.lastApplied ≤ (a.log p).length := by
  have hn := h.nodes p hp
  rw [hn.applied]
  exact hn.known.1

theorem HostApplies.same (h : ClusterView c a s) (hp : p ∈ c.addrs) {act : Action}
    (hnode : (s'.hosts p).node = (s.hosts p).node)
    (hepoch : (s'.hosts p).epoch = (s.hosts p).epoch)
    (hsame : ∀ epoch, s'.appliedBy p epoch = s.appliedBy p epoch) : HostApplies c s s' act p := by
  refine .more (a.log p) (s.hosts p).node.lastApplied (placed_log h.reach p) hepoch (le_refl _)
    (by rw [hnode]) (by rw [hnode]; exact h.applied_le hp) (fun _ => rfl) fun epoch => ?_
  rw [hsame epoch, hnode, List.drop_eq_nil_of_le (List.length_take_le _ _)]
  simp

/-- **One step.** -/
theorem ClusterView.applies (h : ClusterView c a s) {act : Action} (hok : Safe s act)
    (hs : B5KvStore.step c s act = some s') (hp : p ∈ c.addrs) : HostApplies c s s' act p := by
  have hrestart : ∀ (q : String) (ws : List DiskWrite),
      HostApplies c s (s.restart c q ws) act p := by
    intro q ws
    by_cases hq : p = q
    · subst hq
      exact .restart ((s.hosts p).disk.applyAll ws) (Cluster.hosts_restart ..) fun _ => rfl
    · have hsame := Cluster.hosts_restart_of_ne s c q ws hq
      exact .same h hp (by rw [hsame]) (by rw [hsame]) fun _ => rfl
  cases stepView hs with
  | run op o ho =>
      have heff := exec_effect ho
      obtain ⟨lo, a', hsec⟩ := h.effect heff hok.1 hok.2
      have hold : ∀ epoch, o.around.appliedBy p epoch = s.appliedBy p epoch := fun epoch => by
        unfold Cluster.appliedBy
        rw [heff.same_rest.2]
      by_cases hq : p = o.host
      · subst hq
        have hm := hsec.member hp
        have hr := h.reach.steps hsec.moves
        refine .more (a'.log o.host) lo (placed_log hr _) (heff.epoch_finish _) (hsec.le hp)
          (by rw [Cluster.node_finish]; exact hm.le) ?_ (fun hadopt => ?_) fun epoch => ?_
        · rw [Cluster.node_finish, hm.node.applied]
          exact hm.node.known.1
        · exact hsec.applied fun q hq => hadopt q (by rw [hq])
        · rw [Cluster.appliedBy_finish, hold, Cluster.node_finish, hm.applied,
            (heff.same o.host).2.2.1]
          simp only [true_and]
      · have hsame := heff.hosts_finish_other hq
        refine .same h hp (by rw [hsame]) (by rw [hsame]) fun epoch => ?_
        rw [Cluster.appliedBy_finish, hold, if_neg fun hh => hq hh.1.symm, List.append_nil]
  | crash q _ => exact hrestart q []
  | crashDuring op o k _ => exact hrestart o.host _
  | publish file => exact .same h hp rfl rfl fun _ => rfl

end

/-! ## Increasing indices -/

/-- Each process applies increasing indices, and none of them is above `lastApplied`. -/
structure Orderly (c : Config) (s : Cluster) : Prop where
  past : ∀ ev ∈ s.history, ev.epoch ≤ (s.hosts ev.host).epoch
  order : ∀ p ∈ c.addrs, ∀ epoch, (s.appliedBy p epoch).Pairwise fun m m' => m.index < m'.index
  below : ∀ p ∈ c.addrs, ∀ msg ∈ s.appliedBy p (s.hosts p).epoch,
    msg.index ≤ (s.hosts p).node.lastApplied

namespace Orderly

variable {c : Config} {a : Model} {s s' : Cluster}

theorem init (c : Config) : Orderly c c.init where
  past _ h := absurd h List.not_mem_nil
  order _ _ _ := .nil
  below _ _ _ h := absurd h List.not_mem_nil

/-- A process that has just been started has applied nothing. -/
theorem appliedBy_next (h : Orderly c s) (p : String) :
    s.appliedBy p ((s.hosts p).epoch + 1) = [] := by
  refine List.filterMap_eq_nil_iff.2 fun ev hev => if_neg ?_
  rintro ⟨rfl, hep⟩
  have := h.past ev hev
  omega

theorem past_step (h : ∀ ev ∈ s.history, ev.epoch ≤ (s.hosts ev.host).epoch) {act : Action}
    (hs : B5KvStore.step c s act = some s') :
    ∀ ev ∈ s'.history, ev.epoch ≤ (s'.hosts ev.host).epoch := by
  have hgrows : ∀ p, (s.hosts p).epoch ≤ (s'.hosts p).epoch := fun p => by
    cases hostStep hs p with
    | other hnode hdisk hepoch hpoll => exact hepoch.ge
    | own op o ha heff hp hnode hdisk hepoch hpoll => exact hepoch.ge
    | restart ws hh =>
        rw [hh]
        exact Nat.le_succ _
  have hold : ∀ ev ∈ s.history, ev.epoch ≤ (s'.hosts ev.host).epoch := fun ev hev =>
    (h ev hev).trans (hgrows ev.host)
  cases stepView hs with
  | run op o ho =>
      have heff := exec_effect ho
      intro ev hev
      rw [Cluster.history_finish] at hev
      rcases List.mem_append.1 hev with hev | hev
      · rw [heff.same_rest.2] at hev
        exact hold ev hev
      · obtain ⟨e, -, rfl⟩ := List.mem_map.1 hev
        rw [(heff.same o.host).2.2.1]
        exact hgrows o.host
  | crash q _ => exact hold
  | crashDuring op o k _ => exact hold
  | publish file => exact hold

/-- **Safe steps** keep the order. -/
theorem step (h : Orderly c s) (hview : ClusterView c a s) {act : Action} (hok : Safe s act)
    (hs : B5KvStore.step c s act = some s') : Orderly c s' := by
  refine ⟨past_step h.past hs, fun p hp epoch => ?_, fun p hp msg hmsg => ?_⟩
  · cases hview.applies hok hs hp with
    | more F lo hF hepoch hle hlo hlen hadopt hmore =>
        rw [hmore epoch]
        split
        · rename_i hep
          subst hep
          have hidx := hF.index_slice lo hlen
          refine List.pairwise_append.2 ⟨h.order p hp _, ?_, fun m hm m' hm' => ?_⟩
          · rw [← List.pairwise_map, hidx]
            exact List.pairwise_lt_range' ..
          · have hlt : m'.index ∈ List.range' (lo + 1) ((s'.hosts p).node.lastApplied - lo) :=
              hidx ▸ List.mem_map_of_mem hm'
            have hbelow := h.below p hp m hm
            have := (List.mem_range'_1.1 hlt).1
            omega
        · rw [List.append_nil]
          exact h.order p hp epoch
    | restart d hboot hsame' =>
        rw [hsame' epoch]
        exact h.order p hp epoch
  · cases hview.applies hok hs hp with
    | more F lo hF hepoch hle hlo hlen hadopt hmore =>
        rw [hepoch, hmore, if_pos rfl] at hmsg
        rcases List.mem_append.1 hmsg with hmsg | hmsg
        · exact (h.below p hp msg hmsg).trans (hle.trans hlo)
        · have hlt : msg.index ∈ List.range' (lo + 1) ((s'.hosts p).node.lastApplied - lo) :=
            hF.index_slice lo hlen ▸ List.mem_map_of_mem hmsg
          have := (List.mem_range'_1.1 hlt).2
          omega
    | restart d hboot hsame' =>
        rw [hboot, hsame'] at hmsg
        rw [show (c.boot p d ((s.hosts p).epoch + 1)).epoch = (s.hosts p).epoch + 1 from rfl,
          h.appliedBy_next p] at hmsg
        exact absurd hmsg List.not_mem_nil

end Orderly

/-! ## Runs without snapshots -/

/-- Nothing about the action has to do with snapshots. -/
def Action.SnapshotFree : Action → Prop
  | .run op | .crashDuring op _ => op.snapshotting = false
  | .crash _ => True
  | .publish _ => False

instance Action.decidableSnapshotFree : (a : Action) → Decidable a.SnapshotFree
  | .run op | .crashDuring op _ => inferInstanceAs (Decidable (op.snapshotting = false))
  | .crash _ => instDecidableTrue
  | .publish _ => instDecidableFalse

/-- Nothing about the action has to do with snapshots, and no `SaveState` call fails. -/
def Action.Plain : Action → Prop
  | .run op | .crashDuring op _ => op.NoFaults ∧ op.snapshotting = false
  | .crash _ => True
  | .publish _ => False

instance : (a : Action) → Decidable a.Plain
  | .run op | .crashDuring op _ =>
      inferInstanceAs (Decidable (op.NoFaults ∧ op.snapshotting = false))
  | .crash _ => instDecidableTrue
  | .publish _ => instDecidableFalse

theorem Action.Plain.snapshotFree {a : Action} (h : a.Plain) : a.SnapshotFree := by
  cases a with
  | run op => exact h.2
  | crash p => trivial
  | crashDuring op k => exact h.2
  | publish file => exact h

theorem Op.safeSnapshots_of_plain {op : Op} (h : op.snapshotting = false) (s : Cluster) :
    op.SafeSnapshots s := by
  cases op <;> trivial

theorem Action.Plain.safe {a : Action} (h : a.Plain) (s : Cluster) : Safe s a := by
  cases a with
  | run op => exact ⟨h.1, op.safeSnapshots_of_plain h.2 s⟩
  | crash p => exact ⟨trivial, trivial⟩
  | crashDuring op k => exact ⟨h.1, op.safeSnapshots_of_plain h.2 s⟩
  | publish file => exact absurd h id

/-- No process has a snapshot. -/
def Snapshotless (s : Cluster) : Prop :=
  ∀ p, (s.hosts p).node.currentSnapshotPath = none ∧ (s.hosts p).disk.snapshots = []

theorem Effect.keepsFiles {c : Config} {s : Cluster} {op : Op} {o : Outcome} (h : Effect c s op o)
    (hop : op.snapshotting = false) : KeepsFiles (s.hosts o.host).node.lock o.result := by
  cases h with
  | startElection p fails hp => exact (Locked.keepsLog_startElection _ _).keepsFiles
  | soloElection k call hk hepoch hq => exact (Locked.keepsLog_soloElection _ _).keepsFiles
  | requestVote k call peer f hk hp hsent => exact (Locked.keepsLog_requestVote _ _ _).keepsFiles
  | requestVoteReply k call peer fails reply hk hepoch hans =>
      exact (Locked.keepsLog_handleRequestVoteReply _ _ _ _).keepsFiles
  | broadcast op p read s' hp hrole hs' hcalls => exact .refl _
  | appendEntries k b out peer f hk hout hpeer hp hsent =>
      exact Locked.keepsFiles_appendEntries _ _ _
  | appendEntriesReply k b out peer fails reply s' hk hout hfind hpeer hepoch hans hs' hcalls =>
      exact (Locked.keepsLog_handleAppendEntriesReply _ _ _ _ _).keepsFiles
  | propose p command hp => exact Locked.keepsFiles_propose _ _
  | proposeSync p command hp s' hs' hcalls => exact Locked.keepsFiles_proposeSync _ _ _
  | idle op p r s' hr hs' hop hcalls hret => exact (keepsLog_idle hr).keepsFiles
  | pollWait op p ph hp hop' hfrom hph hpos hph' hfetch => exact .refl _
  | _ => cases hop

namespace Snapshotless

variable {c : Config} {s s' : Cluster}

theorem init (c : Config) : Snapshotless c.init := fun _ => ⟨rfl, rfl⟩

/-- A process started without a snapshot has none. -/
theorem boot (p : String) {d : Disk} (hd : d.snapshots = []) (epoch : Nat) :
    (c.boot p d epoch).node.currentSnapshotPath = none := by
  have hlatest : d.latest = none := by
    unfold Disk.latest
    rw [hd]
    rfl
  unfold Config.boot Config.newNode newNode
  rw [hlatest]
  cases d.log <;> rfl

theorem restart (h : Snapshotless s) (q : String) {ws : List DiskWrite}
    (hws : ∀ w ∈ ws, w.KeepsFiles) : Snapshotless (s.restart c q ws) := by
  intro p
  by_cases hp : p = q
  · subst hp
    have hfiles : ((s.hosts p).disk.applyAll ws).snapshots = [] :=
      (Disk.snapshots_applyAll hws _).trans (h p).2
    rw [Cluster.hosts_restart]
    exact ⟨boot p hfiles _, hfiles⟩
  · rw [Cluster.hosts_restart_of_ne _ _ _ _ hp]
    exact h p

theorem step (h : Snapshotless s) {a : Action} (ha : a.SnapshotFree)
    (hs : B5KvStore.step c s a = some s') : Snapshotless s' := by
  cases stepView hs with
  | run op o ho =>
      have heff := exec_effect ho
      intro p
      by_cases hp : p = o.host
      · subst hp
        have hk := heff.keepsFiles ha
        obtain ⟨ws, hws, hkeeps⟩ := hk.writes
        rw [Cluster.node_finish, heff.disk_finish, hk.path, hws]
        exact ⟨(h o.host).1, (Disk.snapshots_applyAll hkeeps _).trans (h o.host).2⟩
      · rw [heff.hosts_finish_other hp]
        exact h p
  | crash q _ => exact h.restart q (by simp)
  | crashDuring op o k ho =>
      obtain ⟨ws, hws, hkeeps⟩ := ((exec_effect ho).keepsFiles ha).writes
      refine h.restart o.host fun w hw => hkeeps w ?_
      rw [hws] at hw
      exact List.mem_of_mem_take hw
  | publish file => exact absurd ha id

end Snapshotless

end B5KvStore
