import B5KvStore.Raft.Recovery

/-!
# Memory and data directory in step

A node that agrees with its data directory still does so after it has appended to its
log, cut it off above the anchor, or compacted it, and a crash in the middle of such
a section leaves a directory from which a log in order is rebuilt.

* `Recovered.append`, `Recovered.cut`, `Recovered.compact` — the changes of the log.
* `Saves` — term and vote, as long as every `SaveState` call succeeds.
* `Kept` — memory and directory along one critical section.
* `Kept.acceptEntries`, `Kept.propose`, `Kept.compactLocked` — the handlers.
-/

namespace B5KvStore

/-- What is rebuilt from the directory is a log in order. -/
def Disk.Rebuilds (d : Disk) : Prop := ∀ n : Node, (n.restart d).Positional

/-- Entries below an index are what comes before it. -/
theorem Node.Positional.filter_lt {n : Node} (h : n.Positional) (idx : Nat) :
    n.log.filter (fun e => e.index < idx) = n.log.take (idx - n.logOffset - 1) := by
  conv_lhs => rw [← List.take_append_drop (idx - n.logOffset - 1) n.log]
  rw [List.filter_append]
  have h1 : (n.log.take (idx - n.logOffset - 1)).filter (fun e => e.index < idx) =
      n.log.take (idx - n.logOffset - 1) := by
    rw [List.filter_eq_self]
    intro e he
    obtain ⟨k, hk⟩ := List.mem_iff_getElem?.1 he
    rw [List.getElem?_take] at hk
    split at hk
    · have := h k e hk
      simp
      omega
    · exact absurd hk (by simp)
  have h2 : (n.log.drop (idx - n.logOffset - 1)).filter (fun e => e.index < idx) = [] := by
    rw [List.filter_eq_nil_iff]
    intro e he
    obtain ⟨k, hk⟩ := List.mem_iff_getElem?.1 he
    rw [List.getElem?_drop] at hk
    have := h _ e hk
    simp
    omega
  rw [h1, h2, List.append_nil]

/-! ## Directories -/

section Directories

variable {n n' : Node} {d d' : Disk} {file : File}

/-- What is rebuilt of the log depends on `log.dat` and the snapshots only. -/
theorem restart_congr (n n' : Node) (hlog : d'.log = d.log) (hsnap : d'.snapshots = d.snapshots) :
    (n'.restart d').log = (n.restart d).log ∧
    (n'.restart d').logOffset = (n.restart d).logOffset ∧
    (n'.restart d').currentSnapshotPath = (n.restart d).currentSnapshotPath := by
  have hlatest : d'.latest = d.latest := by
    unfold Disk.latest
    rw [hsnap]
  unfold Node.restart newNode
  rw [hlatest, hlog]
  exact ⟨rfl, rfl, rfl⟩

theorem Disk.Rebuilds.congr (h : d.Rebuilds) (hlog : d'.log = d.log)
    (hsnap : d'.snapshots = d.snapshots) : d'.Rebuilds := by
  intro n
  obtain ⟨h1, h2, -⟩ := restart_congr n n hlog hsnap
  unfold Node.Positional
  rw [h1, h2]
  exact h n

theorem Recovered.rebuilds (h : Recovered n d) : d.Rebuilds := by
  intro n'
  obtain ⟨h1, h2, -⟩ := restart_congr n n' (rfl : d.log = d.log) rfl
  unfold Node.Positional
  rw [h1, h2, h.same.log, h.same.logOffset]
  exact h.positional

theorem Disk.Rebuilds.recovered (h : d.Rebuilds) (n : Node) : Recovered (n.restart d) d :=
  ⟨⟨rfl, rfl, rfl, rfl⟩, rfl, h n⟩

theorem Recovered.loadState (h : Recovered n d) : d.loadState = (n.currentTerm, n.votedFor) :=
  Prod.ext h.same.currentTerm h.same.votedFor

/-- The log of one and the term of the other. -/
theorem Recovered.congr (h : Recovered n d) (hlog : d'.log = d.log)
    (hsnap : d'.snapshots = d.snapshots) (hnlog : n'.log = n.log)
    (hnoff : n'.logOffset = n.logOffset) (hnpath : n'.currentSnapshotPath = n.currentSnapshotPath)
    (hload : d'.loadState = (n'.currentTerm, n'.votedFor)) : Recovered n' d' := by
  obtain ⟨h1, h2, h3⟩ := restart_congr n n' hlog hsnap
  refine ⟨⟨congrArg Prod.fst hload, congrArg Prod.snd hload, ?_, ?_⟩, ?_, ?_⟩
  · rw [h2, h.same.logOffset, hnoff]
  · rw [h1, h.same.log, hnlog]
  · rw [h3, h.path, hnpath]
  · unfold Node.Positional
    rw [hnlog, hnoff]
    exact h.positional

/-- A directory with a snapshot, as it is rebuilt. -/
theorem Holds.recovered {es : List LogEntry} {d₀ : Disk} (h : Holds d₀ d file es)
    (hpos : 0 < file.lastIncludedIndex) (hes : PlacedFrom (file.lastIncludedIndex + 1) es)
    (hlog : n.log = file.anchor :: es) (hoff : n.logOffset = file.lastIncludedIndex - 1)
    (hpath : n.currentSnapshotPath = some file.lastIncludedIndex)
    (hload : d.loadState = (n.currentTerm, n.votedFor)) : Recovered n d := by
  obtain ⟨-, hroff, hrpath⟩ := n.restart_of_latest h.latest hpos
  refine ⟨⟨congrArg Prod.fst hload, congrArg Prod.snd hload, ?_, ?_⟩, ?_, ?_⟩
  · rw [hroff, hoff]
  · rw [h.log_restart hpos, hlog]
  · rw [hrpath, hpath]
  · rw [n.positional_iff, hlog, hoff, Nat.sub_add_cancel hpos]
    exact hes.cons rfl

theorem Holds.rebuilds {es : List LogEntry} {d₀ : Disk} (h : Holds d₀ d file es)
    (hpos : 0 < file.lastIncludedIndex) (hes : PlacedFrom (file.lastIncludedIndex + 1) es) :
    d.Rebuilds := by
  intro n
  obtain ⟨-, hroff, -⟩ := n.restart_of_latest h.latest hpos
  rw [Node.positional_iff, h.log_restart hpos, hroff, Nat.sub_add_cancel hpos]
  exact hes.cons rfl

/-- A node without a snapshot holds `log.dat` as it is; one with a snapshot has the
anchor in front of what follows it there. -/
theorem Recovered.cases (h : Recovered n d) :
    (n.log = d.log ∧ n.currentSnapshotPath = none ∧
      n.logOffset = (d.log.head?.map LogEntry.index).getD 0 - 1 ∧
      ∀ f, d.latest = some f → f.lastIncludedIndex = 0) ∨
    ∃ f, d.latest = some f ∧ 0 < f.lastIncludedIndex ∧
      n.log = f.anchor :: d.log.filter (fun e => f.lastIncludedIndex < e.index) ∧
      n.logOffset = f.lastIncludedIndex - 1 ∧
      n.currentSnapshotPath = some f.lastIncludedIndex := by
  by_cases hf : ∃ f, d.latest = some f ∧ 0 < f.lastIncludedIndex
  · obtain ⟨f, hf, hpos⟩ := hf
    obtain ⟨hlog, hoff, hpath⟩ := n.restart_of_latest hf hpos
    exact Or.inr ⟨f, hf, hpos, h.same.log ▸ hlog, h.same.logOffset ▸ hoff, h.path ▸ hpath⟩
  · have hz : ∀ f, d.latest = some f → f.lastIncludedIndex = 0 := by
      intro f hd
      have := not_and.1 (not_exists.1 hf f) hd
      omega
    obtain ⟨hlog, hpath, hoff⟩ := n.restart_of_none hz
    exact Or.inl ⟨h.same.log ▸ hlog, h.path ▸ hpath, h.same.logOffset ▸ hoff, hz⟩

/-- A node without a snapshot, as it is rebuilt. -/
theorem recovered_of_none (hz : ∀ f, d.latest = some f → f.lastIncludedIndex = 0)
    (hlog : n.log = d.log) (hpath : n.currentSnapshotPath = none)
    (hoff : n.logOffset = (d.log.head?.map LogEntry.index).getD 0 - 1) (hpos : n.Positional)
    (hload : d.loadState = (n.currentTerm, n.votedFor)) : Recovered n d := by
  obtain ⟨hrlog, hrpath, hroff⟩ := n.restart_of_none hz
  exact ⟨⟨congrArg Prod.fst hload, congrArg Prod.snd hload, hroff.trans hoff.symm,
    hrlog.trans hlog.symm⟩, hrpath.trans hpath.symm, hpos⟩

theorem applyAll_appendLogEntries (d : Disk) (es : List LogEntry) :
    d.applyAll (appendLogEntries es) = { d with log := d.log ++ es } := by
  induction es generalizing d with
  | nil => simp [appendLogEntries]
  | cons e es ih =>
      rw [show d.applyAll (appendLogEntries (e :: es)) =
        (d.apply (.appendRecord e)).applyAll (appendLogEntries es) from rfl, ih]
      simp [Disk.apply]

/-- Entries are appended in memory and to `log.dat`. -/
theorem Recovered.append (h : Recovered n d) {es : List LogEntry}
    (hes : PlacedFrom (n.lastLogIndexLocked + 1) es) :
    Recovered { n with log := n.log ++ es } (d.applyAll (appendLogEntries es)) := by
  rw [applyAll_appendLogEntries]
  have hplaced : PlacedFrom (n.logOffset + 1) (n.log ++ es) := by
    refine ((n.positional_iff).1 h.positional).append ?_
    rw [Nat.add_right_comm]
    exact hes
  rcases h.cases with ⟨hlog, hpath, hoff, hz⟩ | ⟨f, hf, hpos, hlog, hoff, hpath⟩
  · refine recovered_of_none (d := { d with log := d.log ++ es }) hz (by rw [hlog]) hpath ?_
      ((Node.positional_iff _).2 hplaced) h.loadState
    dsimp only
    rw [hoff]
    -- the first record decides the offset; an empty log starts at index 1
    cases hd : d.log with
    | cons e l => rfl
    | nil =>
        cases es with
        | nil => rfl
        | cons e l =>
            have := hes 0 e rfl
            have hlast : n.lastLogIndexLocked = 0 := by
              unfold Node.lastLogIndexLocked
              rw [hoff, hlog, hd]
              rfl
            simp [this, hlast]
  · have hlast : f.lastIncludedIndex ≤ n.lastLogIndexLocked := by
      unfold Node.lastLogIndexLocked
      rw [hlog, hoff, List.length_cons]
      omega
    have hfilter : es.filter (fun e => f.lastIncludedIndex < e.index) = es := by
      rw [List.filter_eq_self]
      intro e he
      have := hes.lt_of_mem he
      simp
      omega
    have hholds : Holds d { d with log := d.log ++ es } f
        (d.log.filter (fun e => f.lastIncludedIndex < e.index) ++ es) :=
      ⟨hf, by rw [List.filter_append, hfilter], rfl⟩
    refine hholds.recovered hpos ?_ (by simp [hlog]) hoff hpath h.loadState
    have hdrop := hplaced.drop 1
    rw [hlog, List.cons_append, List.drop_succ_cons, List.drop_zero, hoff] at hdrop
    rwa [show f.lastIncludedIndex - 1 + 1 + 1 = f.lastIncludedIndex + 1 by omega] at hdrop

/-- The log is cut off above the anchor, in memory and on disk. -/
theorem Recovered.cut (h : Recovered n d) {idx : Nat} (hidx : n.anchorIndex < idx) :
    Recovered { n with log := n.log.take (idx - n.logOffset - 1) }
      (d.apply (.truncateLogFrom idx)) := by
  have hplaced : PlacedFrom (n.logOffset + 1) (n.log.take (idx - n.logOffset - 1)) :=
    ((n.positional_iff).1 h.positional).take _
  have hfilter := h.positional.filter_lt idx
  rcases h.cases with ⟨hlog, hpath, hoff, hz⟩ | ⟨f, hf, hpos, hlog, hoff, hpath⟩
  · refine recovered_of_none (d := d.apply (.truncateLogFrom idx)) hz ?_ hpath ?_
      ((Node.positional_iff _).2 hplaced) h.loadState
    · dsimp only [Disk.apply]
      rw [← hfilter, hlog]
    · dsimp only [Disk.apply]
      rw [← hlog, hfilter]
      cases htake : n.log.take (idx - n.logOffset - 1) with
      | cons e l =>
          have := hplaced 0 e (by rw [htake]; rfl)
          simp [this]
      | nil =>
          -- an offset without a snapshot file has come from a record, which is below `idx`
          rcases Nat.eq_zero_or_pos n.logOffset with h0 | hpos
          · simp [h0]
          · have hanchor : n.anchorIndex = n.logOffset + 1 := by
              unfold Node.anchorIndex
              rw [if_neg (by omega)]
            rcases List.take_eq_nil_iff.1 htake with hm | hnil
            · omega
            · rw [hlog] at hnil
              rw [hoff, hnil]
  · have hle : f.lastIncludedIndex < idx := (h.latest_le hf).trans_lt hidx
    have hkeep : decide (f.anchor.index < idx) = true := decide_eq_true hle
    have hholds : Holds d (d.apply (.truncateLogFrom idx)) f
        ((d.log.filter (fun e => f.lastIncludedIndex < e.index)).filter
          (fun e => e.index < idx)) := by
      refine ⟨hf, ?_, rfl⟩
      dsimp only [Disk.apply]
      rw [List.filter_filter, List.filter_filter]
      congr 1
      funext e
      exact Bool.and_comm _ _
    have hcons : n.log.take (idx - n.logOffset - 1) = f.anchor ::
        (d.log.filter (fun e => f.lastIncludedIndex < e.index)).filter (fun e => e.index < idx) := by
      rw [← hfilter, hlog, List.filter_cons, if_pos hkeep]
    refine hholds.recovered hpos ?_ hcons hoff hpath h.loadState
    have hdrop := hplaced.drop 1
    rw [hcons, List.drop_succ_cons, List.drop_zero, hoff] at hdrop
    rwa [show f.lastIncludedIndex - 1 + 1 + 1 = f.lastIncludedIndex + 1 by omega] at hdrop

theorem Recovered.placed_drop (h : Recovered n d) (hpos : 0 < file.lastIncludedIndex)
    (hA : n.anchorIndex ≤ file.lastIncludedIndex) :
    PlacedFrom (file.lastIncludedIndex + 1) (n.log.drop (file.lastIncludedIndex - n.logOffset)) := by
  have hoff := Recovered.offset_lt hA hpos
  have hdrop := ((n.positional_iff).1 h.positional).drop (file.lastIncludedIndex - n.logOffset)
  rwa [show n.logOffset + 1 + (file.lastIncludedIndex - n.logOffset) =
    file.lastIncludedIndex + 1 by omega] at hdrop

end Directories

/-! ## Term and vote -/

/-- Term and vote of the node are on disk. -/
def Saves (d : Disk) (s : Locked) : Prop :=
  (d.applyAll s.writes).loadState = (s.node.currentTerm, s.node.votedFor)

namespace Saves

variable {d : Disk} {s s' : Locked}

theorem keepsVote (h : Saves d s) (hk : KeepsVote s s') : Saves d s' := by
  obtain ⟨ws, hws, hkeep⟩ := hk.writes
  have hstate : ((d.applyAll s.writes).applyAll ws).state = (d.applyAll s.writes).state :=
    Disk.state_applyAll hkeep _
  unfold Saves at h ⊢
  rw [hws, Disk.applyAll_append, hk.currentTerm, hk.votedFor, ← h]
  unfold Disk.loadState
  rw [hstate]

theorem persistStateLocked (s : Locked) : Saves d (s.persistStateLocked false).1 := by
  unfold Saves Locked.persistStateLocked
  rw [if_neg (by simp), Locked.writes_write, Disk.applyAll_append]
  rfl

theorem observeTermLocked (h : Saves d s) (T : Nat) : Saves d (s.observeTermLocked T false).1 := by
  unfold Locked.observeTermLocked
  split
  · exact h
  · exact persistStateLocked _

theorem observeRequest (h : Saves d s) (T : Nat) : Saves d (s.observeRequest T false).1 := by
  unfold Locked.observeRequest
  split
  · exact h.observeTermLocked T
  · exact h

theorem castVote (h : Saves d s) (req : RequestVoteRequest) :
    Saves d (s.castVote req false).1 := by
  unfold Locked.castVote
  split
  · exact h
  · split
    · exact persistStateLocked (s.modify fun n => { n with votedFor := req.candidateId })
    · exact h

theorem requestVote (h : Saves d s) (req : RequestVoteRequest) :
    Saves d (s.requestVote req noFaults).1 := by
  have hobs := h.observeRequest req.term
  unfold Locked.requestVote
  rw [show noFaults.observe = false from rfl, show noFaults.vote = false from rfl]
  split
  · rename_i r err heq
    rw [heq] at hobs
    exact hobs
  · rename_i r heq
    rw [heq] at hobs
    exact hobs.castVote req

theorem becomeLeaderLocked (h : Saves d s) : Saves d s.becomeLeaderLocked := by
  unfold Locked.becomeLeaderLocked
  split
  · exact h
  · exact h

theorem startElection (h : Saves d s) : Saves d (s.startElection false).1 := by
  unfold Locked.startElection
  split
  · exact h
  · exact persistStateLocked ((s.setRoleLocked .candidate).modify fun n =>
      { n with currentTerm := n.currentTerm + 1, votedFor := n.id })

theorem soloElection (h : Saves d s) (e : Election) : Saves d (s.soloElection e) := by
  unfold Locked.soloElection
  split
  · exact h.becomeLeaderLocked
  · exact h

theorem handleRequestVoteReply (h : Saves d s) (e : Election) (reply : RequestVoteReply) :
    Saves d (s.handleRequestVoteReply e reply false).1 := by
  unfold Locked.handleRequestVoteReply
  split
  · exact h.observeTermLocked _
  · split
    · exact h
    · dsimp only
      generalize (if reply.voteGranted = true then e.votes + 1 else e.votes) = votes
      split
      · exact h.becomeLeaderLocked
      · exact h

end Saves

/-! ## One critical section -/

/-- The node is what its directory rebuilds, and after a crash between two writes of
the critical section a log in order is rebuilt. -/
structure Kept (d : Disk) (s : Locked) : Prop where
  node : Recovered s.node (d.applyAll s.writes)
  crash : ∀ k, (d.applyAll (s.writes.take k)).Rebuilds

namespace Kept

variable {n : Node} {d : Disk} {s s' : Locked} {file : File}

theorem lock (h : Recovered n d) : Kept d n.lock :=
  ⟨h, fun k => by rw [show n.lock.writes = [] from rfl, List.take_nil]; exact h.rebuilds⟩

theorem saves (h : Kept d s) : Saves d s := h.node.loadState

/-- More writes. -/
theorem write (h : Kept d s) {ws : List DiskWrite} (hws : s'.writes = s.writes ++ ws)
    (hnode : Recovered s'.node ((d.applyAll s.writes).applyAll ws))
    (hcrash : ∀ k, ((d.applyAll s.writes).applyAll (ws.take k)).Rebuilds) : Kept d s' := by
  refine ⟨by rw [hws, Disk.applyAll_append]; exact hnode, fun k => ?_⟩
  rw [hws, List.take_append]
  rcases Nat.lt_or_ge k s.writes.length with hlt | hge
  · rw [show k - s.writes.length = 0 by omega, List.take_zero, List.append_nil]
    exact h.crash k
  · rw [List.take_of_length_le hge, Disk.applyAll_append]
    exact hcrash _

/-- Anything that leaves the log alone and saves term and vote. -/
theorem keepsLog (h : Kept d s) (hk : KeepsLog s s') (hs : Saves d s') : Kept d s' := by
  obtain ⟨ws, hws, hkeep⟩ := hk.writes
  obtain ⟨hlog, hsnap⟩ := Disk.log_applyAll hkeep (d.applyAll s.writes)
  refine h.write hws ?_ fun k => ?_
  · refine h.node.congr hlog hsnap hk.log hk.logOffset hk.path ?_
    rw [← Disk.applyAll_append, ← hws]
    exact hs
  · obtain ⟨hlog, hsnap⟩ := Disk.log_applyAll
      (fun w hw => hkeep w (List.mem_of_mem_take hw)) (d.applyAll s.writes)
    exact h.node.rebuilds.congr hlog hsnap

theorem keeps (h : Kept d s) (hk : KeepsLog s s') (hv : KeepsVote s s') : Kept d s' :=
  h.keepsLog hk (h.saves.keepsVote hv)

theorem appendLog (h : Kept d s) {es : List LogEntry}
    (hes : PlacedFrom (s.node.lastLogIndexLocked + 1) es) : Kept d (s.appendLog es) := by
  refine h.write rfl (h.node.append hes) fun k => ?_
  have htake : (appendLogEntries es).take k = appendLogEntries (es.take k) := by
    simp [appendLogEntries, List.map_take]
  rw [htake]
  exact (h.node.append (hes.take k)).rebuilds

theorem cut (h : Kept d s) {idx : Nat} (hidx : s.node.anchorIndex < idx) :
    Kept d ((s.write [.truncateLogFrom idx]).modify fun n =>
      { n with log := n.log.take (idx - n.logOffset - 1) }) := by
  refine h.write rfl (h.node.cut hidx) fun k => ?_
  cases k with
  | zero => exact h.node.rebuilds
  | succ k =>
      rw [List.take_succ_cons, List.take_nil]
      exact (h.node.cut hidx).rebuilds

theorem propose (h : Kept d s) (command : List UInt8) : Kept d (s.propose command) := by
  unfold Locked.propose
  split
  · exact h
  · exact h.appendLog ((PlacedFrom.nil _).cons rfl)

theorem proposeSync (h : Kept d s) (command : List UInt8) (ch : Nat) :
    Kept d (s.proposeSync command ch).1 := by
  unfold Locked.proposeSync
  split
  · exact h
  · have happend : Kept d (s.appendLocalLocked command) :=
      h.appendLog ((PlacedFrom.nil _).cons rfl)
    dsimp only
    exact happend.keeps (.modify rfl rfl rfl rfl) (.modify rfl rfl rfl rfl rfl (Or.inl rfl))

/-- The snapshot compacts the log above its anchor. -/
theorem compactLocked (h : Recovered n d) : Kept d (n.lock.compactLocked file).1 := by
  cases he : n.entryAtLocked file.lastIncludedIndex with
  | none =>
      have heq : (n.lock.compactLocked file).1 = n.lock := by
        unfold Locked.compactLocked
        rw [show n.lock.node = n from rfl, he]
      rw [heq]
      exact .lock h
  | some e =>
      have hoff : n.logOffset < file.lastIncludedIndex := by
        unfold Node.entryAtLocked at he
        split at he
        · exact absurd he (by simp)
        · omega
      have hpos : 0 < file.lastIncludedIndex := by omega
      have hA : n.anchorIndex ≤ file.lastIncludedIndex := h.anchorIndex_le.trans (by omega)
      have hholds := h.holds_compact hA
      have hes := h.placed_drop hpos hA
      have hnode : (n.lock.compactLocked file).1.node = { n with
          currentSnapshotPath := some file.lastIncludedIndex
          logOffset := file.lastIncludedIndex - 1
          log := file.anchor :: n.log.drop (file.lastIncludedIndex - n.logOffset) } := by
        unfold Locked.compactLocked
        rw [show n.lock.node = n from rfl, he]
        dsimp only
        rw [Locked.replaceSnapshotFileLocked_eq]
        rfl
      refine ⟨?_, fun k => ?_⟩
      · rw [hnode, Locked.writes_compactLocked he]
        have hall := hholds (superseded n file.lastIncludedIndex ++ [DiskWrite.rewriteLog
          (file.anchor :: n.log.drop (file.lastIncludedIndex - n.logOffset))]).length
        rw [List.take_length] at hall
        refine hall.recovered hpos hes rfl rfl rfl ?_
        rw [← h.loadState]
        unfold Disk.loadState
        rw [hall.state]
      · rw [Locked.writes_compactLocked he]
        cases k with
        | zero => exact h.rebuilds
        | succ k => exact (hholds k).rebuilds hpos hes

theorem confirmCompaction (h : Recovered n d) (req : CompactionAck) :
    Kept d (n.lock.confirmCompaction req).1 := by
  unfold Locked.confirmCompaction
  split
  · exact .lock h
  · split
    · exact .lock h
    · split
      · exact .lock h
      · split
        · exact .lock h
        · exact .compactLocked h

theorem pollCompact (h : Recovered n d) : Kept d (n.lock.pollCompact file) := by
  unfold Locked.pollCompact
  split
  · exact .compactLocked h
  · exact .lock h

end Kept

/-! ## Accepting entries -/

/-- What the request carries for the anchor's index has the anchor's term. -/
def Node.AnchorAgrees (n : Node) (req : AppendEntriesRequest) : Prop :=
  ∀ e ∈ req.entries, e.index = n.anchorIndex →
    (n.entryAtLocked n.anchorIndex).map LogEntry.term = some e.term

/-- What is left after skipping is still in order, and starts right above the offset
unless nothing was skipped. -/
theorem skipCompacted_placed (off : Nat) {idx : Nat} {es : List LogEntry}
    (h : PlacedFrom idx es) :
    PlacedFrom (skipCompacted off idx es).1 (skipCompacted off idx es).2 ∧
    (∀ e ∈ (skipCompacted off idx es).2, e ∈ es) ∧
    ((skipCompacted off idx es).2 ≠ [] → off < (skipCompacted off idx es).1 ∧
      ((skipCompacted off idx es).1 = idx ∨ (skipCompacted off idx es).1 = off + 1)) := by
  induction es generalizing idx with
  | nil => exact ⟨h, fun _ h => h, fun hne => absurd rfl hne⟩
  | cons e es ih =>
      unfold skipCompacted
      split
      · have htail : PlacedFrom (idx + 1) es := h.drop 1
        obtain ⟨hplaced, hmem, hstart⟩ := ih htail
        refine ⟨hplaced, fun e he => List.mem_cons_of_mem _ (hmem e he), fun hne => ?_⟩
        obtain ⟨hlt, hcase⟩ := hstart hne
        exact ⟨hlt, by omega⟩
      · rename_i hgt
        exact ⟨h, fun _ h => h, fun _ => ⟨not_le.1 hgt, Or.inl rfl⟩⟩

/-- The previous entry of an accepted request is there, or below the offset. -/
theorem Node.prev_le_of_checkPrev (n : Node) {req : AppendEntriesRequest}
    (h : n.checkPrev req = none) : req.prevLogIndex ≤ n.lastLogIndexLocked := by
  unfold Node.checkPrev at h
  split at h
  · split at h
    · exact absurd h (by simp)
    · rename_i entry hentry
      exact (Node.inside_of_entryAtLocked hentry).2
  · unfold Node.lastLogIndexLocked
    omega

/-- The last index of a log that was cut off. -/
theorem Node.lastLogIndexLocked_cut (n : Node) {idx : Nat} (hoff : n.logOffset < idx)
    (hle : idx ≤ n.lastLogIndexLocked) :
    ({ n with log := n.log.take (idx - n.logOffset - 1) } : Node).lastLogIndexLocked + 1 = idx := by
  unfold Node.lastLogIndexLocked at hle ⊢
  rw [List.length_take]
  dsimp only
  omega

/-- **What merging does to a log**: nothing, or the entries that are missing are appended,
or the log is cut off at the first conflict before they are. -/
theorem Locked.mergeEntriesLocked_cases (s : Locked) {prev : Nat} {es : List LogEntry}
    (hes : PlacedFrom (prev + 1) es) (hprev : prev ≤ s.node.lastLogIndexLocked) :
    s.mergeEntriesLocked prev es = s ∨
    (∃ rest, PlacedFrom (s.node.lastLogIndexLocked + 1) rest ∧ (∀ e ∈ rest, e ∈ es) ∧
      s.mergeEntriesLocked prev es = s.appendLog rest) ∨
    ∃ idx rest, s.node.logOffset < idx ∧ idx ≤ s.node.lastLogIndexLocked ∧
      PlacedFrom idx rest ∧ rest ≠ [] ∧ (∀ e ∈ rest, e ∈ es) ∧
      (∃ e ∈ es, e.index = idx ∧
        (s.node.entryAtLocked idx).map LogEntry.term ≠ some e.term) ∧
      s.mergeEntriesLocked prev es = ((s.write [.truncateLogFrom idx]).modify fun n =>
        { n with log := n.log.take (idx - n.logOffset - 1) }).appendLog rest := by
  obtain ⟨hplaced, hmem, hstart⟩ := skipCompacted_placed s.node.logOffset hes
  unfold Locked.mergeEntriesLocked
  dsimp only
  generalize skipCompacted s.node.logOffset (prev + 1) es = start at hplaced hmem hstart
  have hm := s.merged_mergeLoop start.1 start.2
  generalize s.mergeLoop start.1 start.2 = merged at hm ⊢
  have hin : ∀ {i : Nat}, (s.node.entryAtLocked i).isSome →
      s.node.logOffset < i ∧ i ≤ s.node.lastLogIndexLocked := by
    intro i hi
    obtain ⟨e, he⟩ := Option.isSome_iff_exists.1 hi
    exact Node.inside_of_entryAtLocked he
  have hlast : s.node.logOffset ≤ s.node.lastLogIndexLocked := Nat.le_add_right _ _
  cases hm with
  | kept j hj hex hnone =>
      split
      · exact Or.inl rfl
      · rename_i hne
        dsimp only at hne ⊢
        have hlen : j < start.2.length := by
          rw [List.drop_eq_nil_iff] at hne
          omega
        obtain ⟨hlt, hcase⟩ := hstart (by rintro hnil; rw [hnil] at hlen; simp at hlen)
        -- everything before is there and nothing at this index, so this is the end
        have hend : start.1 + j = s.node.lastLogIndexLocked + 1 := by
          have hge : s.node.lastLogIndexLocked < start.1 + j := by
            have := hnone hlen
            unfold Node.entryAtLocked at this
            split at this
            · unfold Node.lastLogIndexLocked
              omega
            · rw [List.getElem?_eq_none_iff] at this
              unfold Node.lastLogIndexLocked
              omega
          rcases Nat.eq_zero_or_pos j with rfl | hj'
          · omega
          · have := (hin (hex (j - 1) (by omega))).2
            omega
        exact Or.inr (Or.inl ⟨_, hend ▸ hplaced.drop j,
          fun e he => hmem e (List.mem_of_mem_drop he), rfl⟩)
  | cut j old hj hex hold hterm =>
      have hrest : start.2.drop j ≠ [] := by
        rw [ne_eq, List.drop_eq_nil_iff]
        omega
      rw [if_neg hrest]
      obtain ⟨hoff, hle⟩ := hin (i := start.1 + j) (by rw [hold]; rfl)
      obtain ⟨e, he⟩ : ∃ e, start.2[j]? = some e := ⟨_, List.getElem?_eq_getElem hj⟩
      refine Or.inr (Or.inr ⟨start.1 + j, _, hoff, hle, hplaced.drop j, hrest,
        fun e he => hmem e (List.mem_of_mem_drop he),
        ⟨e, hmem e (List.mem_of_getElem? he), hplaced j e he, ?_⟩, rfl⟩)
      rw [hold]
      rw [he] at hterm
      exact fun h => hterm h.symm

namespace Kept

variable {d : Disk} {s : Locked}

theorem mergeEntriesLocked (h : Kept d s) {req : AppendEntriesRequest}
    (hreq : PlacedFrom (req.prevLogIndex + 1) req.entries) (hanchor : s.node.AnchorAgrees req)
    (hprev : req.prevLogIndex ≤ s.node.lastLogIndexLocked) :
    Kept d (s.mergeEntriesLocked req.prevLogIndex req.entries) := by
  rcases s.mergeEntriesLocked_cases hreq hprev with heq | ⟨rest, hrest, -, heq⟩ |
    ⟨idx, rest, hoff, hle, hrest, -, -, ⟨e, he, hidx, hterm⟩, heq⟩
  · rw [heq]
    exact h
  · rw [heq]
    exact h.appendLog hrest
  · -- a conflict at the anchor itself is excluded
    have hanchored : s.node.anchorIndex < idx := by
      rcases Nat.lt_or_ge s.node.anchorIndex idx with hlt | hge
      · exact hlt
      · have := h.node.anchorIndex_le
        have heq : idx = s.node.anchorIndex := by omega
        exact absurd (heq ▸ hanchor e he (hidx.trans heq)) hterm
    rw [heq]
    refine (h.cut hanchored).appendLog ?_
    rwa [Locked.node_modify, Locked.node_write, s.node.lastLogIndexLocked_cut hoff hle]

/-- **`AppendEntries`** keeps memory and directory in step. -/
theorem appendEntries (h : Kept d s) {req : AppendEntriesRequest}
    (hreq : PlacedFrom (req.prevLogIndex + 1) req.entries) (hanchor : s.node.AnchorAgrees req) :
    Kept d (s.appendEntries req noFaults).1 := by
  have hobs := h.keepsLog (s.keepsLog_observeRequest req.term false) (h.saves.observeRequest _)
  have hlog := s.keepsLog_observeRequest req.term false
  unfold Locked.appendEntries
  rw [show noFaults.observe = false from rfl]
  split
  · rename_i r err heq
    rw [heq] at hobs
    exact hobs
  · rename_i r heq
    rw [heq] at hobs hlog
    dsimp only
    unfold Locked.acceptEntries
    split
    · exact hobs
    · have hlogd := (r.keepsLog_setRoleLocked .follower).trans
        (.modify (f := fun n => { n with currentLeader := req.leaderId }) rfl rfl rfl rfl)
      have hdown := hobs.keeps hlogd ((r.keepsVote_setRoleLocked_follower).trans
        (.modify (f := fun n => { n with currentLeader := req.leaderId }) rfl rfl rfl rfl rfl
          (Or.inl rfl)))
      have hsame := hlog.trans hlogd
      have hagree : ((r.setRoleLocked .follower).modify fun n =>
          { n with currentLeader := req.leaderId }).node.AnchorAgrees req := by
        have hidx : ((r.setRoleLocked .follower).modify fun n =>
            { n with currentLeader := req.leaderId }).node.anchorIndex = s.node.anchorIndex := by
          unfold Node.anchorIndex
          rw [hsame.logOffset, hsame.path]
        have hent : ∀ i, ((r.setRoleLocked .follower).modify fun n =>
            { n with currentLeader := req.leaderId }).node.entryAtLocked i =
              s.node.entryAtLocked i := by
          intro i
          unfold Node.entryAtLocked
          rw [hsame.logOffset, hsame.log]
        unfold Node.AnchorAgrees
        rw [hidx, hent]
        exact hanchor
      generalize ((r.setRoleLocked .follower).modify fun n =>
        { n with currentLeader := req.leaderId }) = t at hdown hagree
      dsimp only
      cases hcheck : t.node.checkPrev req with
      | some rejection => exact hdown
      | none =>
          dsimp only
          have hprev := t.node.prev_le_of_checkPrev hcheck
          have hmerge : Kept d (if req.entries = [] then t
              else t.mergeEntriesLocked req.prevLogIndex req.entries) := by
            split
            · exact hdown
            · exact hdown.mergeEntriesLocked hreq hagree hprev
          exact hmerge.keeps (Locked.keepsLog_followCommit _ _) (Locked.keepsVote_followCommit _ _)

end Kept

/-- The requests of a node whose log is in order are in order. -/
theorem Node.Positional.placed_request {n : Node} (h : n.Positional) (p : String) :
    PlacedFrom ((n.buildAppendEntriesRequest p).req.prevLogIndex + 1)
      (n.buildAppendEntriesRequest p).req.entries := by
  unfold Node.buildAppendEntriesRequest
  dsimp only
  rw [Node.filterMap_entryAtLocked n (by split <;> omega)]
  have hdrop := ((n.positional_iff).1 h).drop
    ((if n.nextIndex.at p ≤ n.logOffset then n.logOffset + 1 else n.nextIndex.at p) -
      n.logOffset - 1)
  rwa [show n.logOffset + 1 + ((if n.nextIndex.at p ≤ n.logOffset then n.logOffset + 1
    else n.nextIndex.at p) - n.logOffset - 1) = (if n.nextIndex.at p ≤ n.logOffset then
      n.logOffset + 1 else n.nextIndex.at p) - 1 + 1 by split <;> omega] at hdrop

end B5KvStore
