import B5KvStore.Raft.Restart
import B5KvStore.Cluster.AppendOnly
import B5KvStore.Cluster.Applied

/-!
# Whole logs

Without snapshots every node holds its log from index 1 on, in memory and on disk, at every
moment a crash can come, and every entry carries the term of a leader.  None of it depends on
`state.json`, so it survives `SaveState` calls that fail.

* `Whole` — a critical section and its directory.
* `WholeLogs` — a cluster.
* `WholeLogs.step` — every step without snapshots.
-/

namespace B5KvStore

/-- A log from index 1 on, with entries of terms in which there were leaders. -/
structure WholeLog (es : List LogEntry) : Prop where
  placed : PlacedFrom 1 es
  terms : ∀ e ∈ es, 0 < e.term

namespace WholeLog

variable {es es' : List LogEntry}

theorem nil : WholeLog [] := ⟨.nil 1, by simp⟩

theorem take (h : WholeLog es) (k : Nat) : WholeLog (es.take k) :=
  ⟨h.placed.take k, fun e he => h.terms e (List.mem_of_mem_take he)⟩

theorem append (h : WholeLog es) (hplaced : PlacedFrom (es.length + 1) es')
    (hterms : ∀ e ∈ es', 0 < e.term) : WholeLog (es ++ es') := by
  refine ⟨h.placed.append (Nat.add_comm 1 _ ▸ hplaced), fun e he => ?_⟩
  rcases List.mem_append.1 he with he | he
  · exact h.terms e he
  · exact hterms e he

theorem filter_lt (h : WholeLog es) (idx : Nat) :
    es.filter (·.index < idx) = es.take (idx - 1) := by
  have hplaced : Placed es := fun i e hi => (h.placed i e hi).trans (Nat.add_comm 1 i)
  rcases Nat.eq_zero_or_pos idx with rfl | hpos
  · simp
  · obtain ⟨k, rfl⟩ : ∃ k, idx = k + 1 := ⟨idx - 1, by omega⟩
    exact hplaced.filter_lt

end WholeLog

/-- A critical section on a directory whose log is whole after each of its writes. -/
structure Whole (d : Disk) (s : Locked) : Prop where
  offset : s.node.logOffset = 0
  log : (d.applyAll s.writes).log = s.node.log
  disk : ∀ k, WholeLog (d.applyAll (s.writes.take k)).log

namespace Whole

variable {d : Disk} {s s' : Locked}

theorem node (h : Whole d s) : WholeLog s.node.log := by
  have := h.disk s.writes.length
  rwa [List.take_length, h.log] at this

theorem lastLogIndexLocked (h : Whole d s) : s.node.lastLogIndexLocked = s.node.log.length := by
  unfold Node.lastLogIndexLocked
  rw [h.offset, Nat.zero_add]

/-- More writes. -/
theorem write (h : Whole d s) {ws : List DiskWrite} (hws : s'.writes = s.writes ++ ws)
    (hoff : s'.node.logOffset = 0) (hlog : ((d.applyAll s.writes).applyAll ws).log = s'.node.log)
    (hdisk : ∀ k, WholeLog ((d.applyAll s.writes).applyAll (ws.take k)).log) : Whole d s' := by
  refine ⟨hoff, by rw [hws, Disk.applyAll_append]; exact hlog, fun k => ?_⟩
  rw [hws, List.take_append]
  rcases Nat.lt_or_ge k s.writes.length with hlt | hge
  · rw [show k - s.writes.length = 0 by omega, List.take_zero, List.append_nil]
    exact h.disk k
  · rw [List.take_of_length_le hge, Disk.applyAll_append]
    exact hdisk _

theorem keepsLog (h : Whole d s) (hk : KeepsLog s s') : Whole d s' := by
  obtain ⟨ws, hws, hkeep⟩ := hk.writes
  have hsame : ∀ {ws' : List DiskWrite}, (∀ w ∈ ws', w.KeepsLog) →
      ((d.applyAll s.writes).applyAll ws').log = s.node.log :=
    fun h' => (Disk.log_applyAll h' _).1.trans h.log
  refine h.write hws (hk.logOffset.trans h.offset) ((hsame hkeep).trans hk.log.symm) fun k => ?_
  rw [hsame fun w hw => hkeep w (List.mem_of_mem_take hw)]
  exact h.node

theorem appendLog (h : Whole d s) {es : List LogEntry}
    (hplaced : PlacedFrom (s.node.lastLogIndexLocked + 1) es) (hterms : ∀ e ∈ es, 0 < e.term) :
    Whole d (s.appendLog es) := by
  rw [h.lastLogIndexLocked] at hplaced
  have hdisk : ∀ es', ((d.applyAll s.writes).applyAll (appendLogEntries es')).log =
      s.node.log ++ es' := fun es' => by rw [applyAll_appendLogEntries, h.log]
  refine h.write rfl h.offset (hdisk es) fun k => ?_
  rw [show (appendLogEntries es).take k = appendLogEntries (es.take k) by
    simp [appendLogEntries, List.map_take], hdisk]
  exact h.node.append (hplaced.take k) fun e he => hterms e (List.mem_of_mem_take he)

theorem cut (h : Whole d s) (idx : Nat) :
    Whole d ((s.write [.truncateLogFrom idx]).modify fun n =>
      { n with log := n.log.take (idx - n.logOffset - 1) }) := by
  have hcut : ((d.applyAll s.writes).apply (.truncateLogFrom idx)).log =
      s.node.log.take (idx - s.node.logOffset - 1) := by
    rw [h.offset, Nat.sub_zero, ← h.node.filter_lt idx, ← h.log]
    rfl
  refine h.write rfl h.offset hcut fun k => ?_
  cases k with
  | zero =>
      rw [List.take_zero, Disk.applyAll_nil, h.log]
      exact h.node
  | succ k =>
      rw [List.take_succ_cons, List.take_nil, Disk.applyAll_singleton, hcut]
      exact h.node.take _

/-- A leader appends an entry of its term. -/
theorem appendLocalLocked (h : Whole d s) (hterm : 0 < s.node.currentTerm) (command : List UInt8) :
    Whole d (s.appendLocalLocked command) := by
  refine h.appendLog ((PlacedFrom.nil _).cons rfl) fun e he => ?_
  rw [List.mem_singleton.1 he]
  exact hterm

theorem mergeEntriesLocked (h : Whole d s) {prev : Nat} {es : List LogEntry}
    (hplaced : PlacedFrom (prev + 1) es) (hterms : ∀ e ∈ es, 0 < e.term)
    (hprev : prev ≤ s.node.lastLogIndexLocked) : Whole d (s.mergeEntriesLocked prev es) := by
  rcases s.mergeEntriesLocked_cases hplaced hprev with heq | ⟨rest, hrest, hmem, heq⟩ |
    ⟨idx, rest, hoff, hle, hrest, -, hmem, -, heq⟩
  · rw [heq]
    exact h
  · rw [heq]
    exact h.appendLog hrest fun e he => hterms e (hmem e he)
  · rw [heq]
    refine (h.cut idx).appendLog ?_ fun e he => hterms e (hmem e he)
    rwa [Locked.node_modify, Locked.node_write, s.node.lastLogIndexLocked_cut hoff hle]

/-- **`AppendEntries`.** -/
theorem appendEntries (h : Whole d s) {req : AppendEntriesRequest}
    (hplaced : PlacedFrom (req.prevLogIndex + 1) req.entries)
    (hterms : ∀ e ∈ req.entries, 0 < e.term) (f : SaveFaults) :
    Whole d (s.appendEntries req f).1 := by
  have hobs := h.keepsLog (s.keepsLog_observeRequest req.term f.observe)
  unfold Locked.appendEntries
  generalize s.observeRequest req.term f.observe = r at hobs ⊢
  obtain ⟨r, err⟩ := r
  cases err with
  | some err => exact hobs
  | none =>
      dsimp only at hobs ⊢
      unfold Locked.acceptEntries
      split
      · exact hobs
      · have hdown := hobs.keepsLog ((r.keepsLog_setRoleLocked .follower).trans
          (.modify (f := fun n => { n with currentLeader := req.leaderId }) rfl rfl rfl rfl))
        generalize ((r.setRoleLocked .follower).modify fun n =>
          { n with currentLeader := req.leaderId }) = t at hdown
        dsimp only
        cases hcheck : t.node.checkPrev req with
        | some rejection => exact hdown
        | none =>
            dsimp only
            rw [Locked.ite_mergeEntriesLocked]
            exact (hdown.mergeEntriesLocked hplaced hterms
              (t.node.prev_le_of_checkPrev hcheck)).keepsLog (Locked.keepsLog_followCommit _ _)

end Whole

/-! ## The cluster -/

/-- Node and directory hold the same log, and only a follower can be in term 0. -/
structure Host.Whole (h : Host) : Prop where
  offset : h.node.logOffset = 0
  log : h.disk.log = h.node.log
  whole : WholeLog h.node.log
  term : h.node.role ≠ .follower → 0 < h.node.currentTerm

/-- What every process and every request holds. -/
structure WholeLogs (s : Cluster) : Prop where
  files : Snapshotless s
  hosts : ∀ p, (s.hosts p).Whole
  requests : ∀ b ∈ s.broadcasts, ∀ out ∈ b.reqs,
    PlacedFrom (out.req.prevLogIndex + 1) out.req.entries ∧ ∀ e ∈ out.req.entries, 0 < e.term

theorem Host.Whole.lock {h : Host} (hh : h.Whole) : B5KvStore.Whole h.disk h.node.lock where
  offset := hh.offset
  log := hh.log
  disk k := by
    rw [show h.node.lock.writes = [] from rfl, List.take_nil, Disk.applyAll_nil, hh.log]
    exact hh.whole

/-- Terms and roles keep followers apart. -/
theorem Node.Follows.term_pos {n n' : Node} (h : n.Follows n')
    (hn : n.role ≠ .follower → 0 < n.currentTerm) (hn' : n'.role ≠ .follower) :
    0 < n'.currentTerm := by
  rcases h with ⟨hlt, -⟩ | ⟨heq, hrole | hrole | ⟨hrole, -⟩⟩
  · omega
  · rw [heq]
    exact hn (hrole ▸ hn')
  · exact absurd hrole hn'
  · rw [heq]
    exact hn (by rw [hrole]; decide)

/-- A process started on a directory with a whole log. -/
theorem Host.Whole.boot (c : Config) (p : String) {d : Disk} (hd : WholeLog d.log)
    (hfiles : d.snapshots = []) (epoch : Nat) : (c.boot p d epoch).Whole := by
  have hlatest : d.latest = none := by
    unfold Disk.latest
    rw [hfiles]
    rfl
  have hnode : (c.boot p d epoch).node.log = d.log ∧ (c.boot p d epoch).node.logOffset = 0 := by
    unfold Config.boot Config.newNode newNode
    rw [hlatest]
    cases hlog : d.log with
    | nil => exact ⟨rfl, rfl⟩
    | cons e es =>
        rw [hlog] at hd
        have hfirst : e.index = 1 := hd.placed 0 e rfl
        exact ⟨rfl, by simp [hfirst]⟩
  exact ⟨hnode.2, hnode.1.symm, hnode.1.symm ▸ hd, fun h => absurd rfl h⟩

namespace WholeLogs

variable {c : Config} {s s' : Cluster} {op : Op} {o : Outcome}

theorem init (c : Config) : WholeLogs c.init :=
  ⟨.init c, fun p => .boot c p .nil rfl 0, by simp [Config.init]⟩

/-- **One critical section.** -/
theorem section_whole (h : WholeLogs s) (heff : Effect c s op o) (hop : op.snapshotting = false) :
    Whole (s.hosts o.host).disk o.result := by
  have hlock := (h.hosts o.host).lock
  have hlead : (s.hosts o.host).node.role = .leader → 0 < (s.hosts o.host).node.currentTerm :=
    fun hl => (h.hosts o.host).term (by rw [hl]; decide)
  cases heff with
  | startElection p fails hp => exact hlock.keepsLog (Locked.keepsLog_startElection _ _)
  | soloElection k call hk hepoch hq => exact hlock.keepsLog (Locked.keepsLog_soloElection _ _)
  | requestVote k call peer f hk hp hsent =>
      exact hlock.keepsLog (Locked.keepsLog_requestVote _ _ _)
  | requestVoteReply k call peer fails reply hk hepoch hans =>
      exact hlock.keepsLog (Locked.keepsLog_handleRequestVoteReply _ _ _ _)
  | broadcast op p read s' hp hrole hs' hcalls => exact hlock
  | appendEntries k b out peer f hk hout hpeer hp hsent =>
      obtain ⟨hplaced, hterms⟩ := h.requests b (List.mem_of_getElem? hk) out hout
      exact hlock.appendEntries hplaced hterms f
  | appendEntriesReply k b out peer fails reply s' hk hout hfind hpeer hepoch hans hs' hcalls =>
      exact hlock.keepsLog (Locked.keepsLog_handleAppendEntriesReply _ _ _ _ _)
  | propose p command hp =>
      dsimp only
      unfold Locked.propose
      split
      · exact hlock
      · rename_i hl
        exact hlock.appendLocalLocked (hlead (not_not.1 hl)) command
  | proposeSync p command hp s' hs' hcalls =>
      dsimp only
      unfold Locked.proposeSync
      split
      · exact hlock
      · rename_i hl
        dsimp only
        exact (hlock.appendLocalLocked (hlead (not_not.1 hl)) command).keepsLog
          (.modify rfl rfl rfl rfl)
  | idle op p r s' hr hs' hop hcalls hret => exact hlock.keepsLog (keepsLog_idle hr)
  | pollWait op p ph hp hop' hfrom hph hpos hph' hfetch => exact hlock
  | _ => cases hop

/-- The requests of a leader carry entries of its log. -/
theorem request (h : WholeLogs s) (p : String) {out : OutgoingAppendEntries}
    (hout : out ∈ (s.hosts p).node.buildAppendEntriesRequestsLocked) :
    PlacedFrom (out.req.prevLogIndex + 1) out.req.entries ∧ ∀ e ∈ out.req.entries, 0 < e.term := by
  obtain ⟨q, -, rfl⟩ := List.mem_map.1 hout
  have hnode := h.hosts p
  refine ⟨Node.Positional.placed_request ((Node.positional_iff _).2 ?_) q, fun e he => ?_⟩
  · rw [hnode.offset]
    exact hnode.whole.placed
  · obtain ⟨i, -, hi⟩ := List.mem_filterMap.1 he
    unfold Node.entryAtLocked at hi
    split at hi
    · exact absurd hi (by simp)
    · exact hnode.whole.terms e (List.mem_of_getElem? hi)

/-- **One step without snapshots.** -/
theorem step (h : WholeLogs s) {a : Action} (ha : a.SnapshotFree)
    (hs : B5KvStore.step c s a = some s') : WholeLogs s' := by
  have hfiles' := h.files.step ha hs
  have hrestart : ∀ (q : String) (ws : List DiskWrite),
      WholeLog ((s.hosts q).disk.applyAll ws).log → Snapshotless (s.restart c q ws) →
      WholeLogs (s.restart c q ws) := by
    intro q ws hws hfiles
    refine ⟨hfiles, fun p => ?_, h.requests⟩
    have hp := (hfiles p).2
    by_cases hq : p = q
    · subst hq
      rw [Cluster.hosts_restart] at hp ⊢
      exact .boot c p hws hp _
    · rw [Cluster.hosts_restart_of_ne _ _ _ _ hq]
      exact h.hosts p
  cases stepView hs with
  | run op o ho =>
      have heff := exec_effect ho
      have hwhole := h.section_whole heff ha
      refine ⟨hfiles', fun p => ?_, fun b hb => ?_⟩
      · by_cases hp : p = o.host
        · subst hp
          rw [Cluster.hosts_finish, (heff.same o.host).2.1]
          exact ⟨hwhole.offset, hwhole.log, hwhole.node, heff.follows.term_pos (h.hosts _).term⟩
        · rw [heff.hosts_finish_other hp]
          exact h.hosts p
      · cases heff.round hb with
        | old b₀ calls hb₀ heq hcalls =>
            subst heq
            exact h.requests b₀ hb₀
        | new read hrole hres heq =>
            subst heq
            exact fun out hout => h.request o.host hout
  | crash q _ =>
      refine hrestart q [] ?_ hfiles'
      rw [Disk.applyAll_nil, (h.hosts q).log]
      exact (h.hosts q).whole
  | crashDuring op o k ho =>
      exact hrestart o.host _ ((h.section_whole (exec_effect ho) ha).disk k) hfiles'
  | publish file => exact absurd ha id

end WholeLogs

end B5KvStore
