import B5KvStore.Raft.Snapshots

/-!
# What the handlers leave alone

Most of what a node does touches neither its term nor its vote, in memory or on
disk, and never makes it a leader.  `KeepsVote` says so of one critical section,
with one lemma for each function, so that arguments about elections only look at
the few places where a vote is cast or a term observed.  `KeepsLog` is its
counterpart for the log: elections, replies and commit rules leave it alone.
-/

namespace B5KvStore

/-- A write that leaves `state.json` alone. -/
def DiskWrite.KeepsState : DiskWrite → Prop
  | .saveState _ _ => False
  | _ => True

theorem Disk.state_apply {w : DiskWrite} (h : w.KeepsState) (d : Disk) :
    (d.apply w).state = d.state := by
  cases w <;> first | rfl | exact absurd h id

theorem Disk.applyAll_append (d : Disk) (ws ws' : List DiskWrite) :
    d.applyAll (ws ++ ws') = (d.applyAll ws).applyAll ws' := List.foldl_append

@[simp] theorem Disk.applyAll_nil (d : Disk) : d.applyAll [] = d := rfl

@[simp] theorem Disk.applyAll_singleton (d : Disk) (w : DiskWrite) :
    d.applyAll [w] = d.apply w := rfl

theorem Disk.state_applyAll {ws : List DiskWrite} (h : ∀ w ∈ ws, w.KeepsState) (d : Disk) :
    (d.applyAll ws).state = d.state := by
  induction ws generalizing d with
  | nil => rfl
  | cons w ws ih =>
      have hd : (d.applyAll (w :: ws)).state = ((d.apply w).applyAll ws).state := rfl
      rw [hd, ih (fun w' hw' => h w' (List.mem_cons_of_mem w hw')),
        Disk.state_apply (h w (List.mem_cons_self ..))]

theorem keepsState_appendLogEntries (es : List LogEntry) :
    ∀ w ∈ appendLogEntries es, w.KeepsState := by
  intro w hw
  obtain ⟨e, -, rfl⟩ := List.mem_map.1 hw
  trivial

/-- Between `s` and `s'` no vote was cast, no term observed and no election won. -/
structure KeepsVote (s s' : Locked) : Prop where
  id : s'.node.id = s.node.id
  address : s'.node.address = s.node.address
  peers : s'.node.peers = s.node.peers
  currentTerm : s'.node.currentTerm = s.node.currentTerm
  votedFor : s'.node.votedFor = s.node.votedFor
  role : s'.node.role = s.node.role ∨ s'.node.role = .follower
  writes : ∃ ws, s'.writes = s.writes ++ ws ∧ ∀ w ∈ ws, w.KeepsState

namespace KeepsVote

theorem refl (s : Locked) : KeepsVote s s :=
  ⟨rfl, rfl, rfl, rfl, rfl, Or.inl rfl, [], by simp, by simp⟩

theorem trans {s s' s'' : Locked} (h : KeepsVote s s') (h' : KeepsVote s' s'') :
    KeepsVote s s'' := by
  obtain ⟨ws, hws, hk⟩ := h.writes
  obtain ⟨ws', hws', hk'⟩ := h'.writes
  refine ⟨h'.id.trans h.id, h'.address.trans h.address, h'.peers.trans h.peers,
    h'.currentTerm.trans h.currentTerm, h'.votedFor.trans h.votedFor, ?_, ws ++ ws', ?_, ?_⟩
  · rcases h'.role with hr | hr
    · rw [hr]; exact h.role
    · exact Or.inr hr
  · rw [hws', hws, List.append_assoc]
  · intro w hw
    rcases List.mem_append.1 hw with hw | hw
    · exact hk w hw
    · exact hk' w hw

theorem modify {s : Locked} {f : Node → Node} (hid : (f s.node).id = s.node.id)
    (haddr : (f s.node).address = s.node.address) (hpeers : (f s.node).peers = s.node.peers)
    (hterm : (f s.node).currentTerm = s.node.currentTerm)
    (hvote : (f s.node).votedFor = s.node.votedFor)
    (hrole : (f s.node).role = s.node.role ∨ (f s.node).role = .follower) :
    KeepsVote s (s.modify f) :=
  ⟨hid, haddr, hpeers, hterm, hvote, hrole, [], by simp, by simp⟩

theorem write (s : Locked) {ws : List DiskWrite} (h : ∀ w ∈ ws, w.KeepsState) :
    KeepsVote s (s.write ws) :=
  ⟨rfl, rfl, rfl, rfl, rfl, Or.inl rfl, ws, rfl, h⟩

theorem write_one (s : Locked) (w : DiskWrite) (h : w.KeepsState) : KeepsVote s (s.write [w]) :=
  write s fun w' hw' => by rw [List.mem_singleton.1 hw']; exact h

theorem emit (s : Locked) (es : List NodeEvent) : KeepsVote s (s.emit es) :=
  ⟨rfl, rfl, rfl, rfl, rfl, Or.inl rfl, [], by simp, by simp⟩

end KeepsVote

namespace Locked

theorem keepsVote_abortPendingWaitersLocked (s : Locked) (err : RaftError) :
    KeepsVote s (s.abortPendingWaitersLocked err) :=
  (KeepsVote.emit _ _).trans (.modify rfl rfl rfl rfl rfl (Or.inl rfl))

theorem keepsVote_setRoleLocked_follower (s : Locked) :
    KeepsVote s (s.setRoleLocked .follower) := by
  unfold setRoleLocked
  split
  · exact (s.keepsVote_abortPendingWaitersLocked _).trans
      (.modify rfl rfl rfl rfl rfl (Or.inr rfl))
  · exact .modify rfl rfl rfl rfl rfl (Or.inr rfl)

theorem keepsVote_applyEntryLocked (s : Locked) (e : LogEntry) :
    KeepsVote s (s.applyEntryLocked e) := by
  unfold applyEntryLocked
  dsimp only
  split
  · exact ((KeepsVote.emit _ _).trans (.emit _ _)).trans
      (.modify rfl rfl rfl rfl rfl (Or.inl rfl))
  · exact .emit _ _

theorem keepsVote_applyLoop (fuel : Nat) (s : Locked) : KeepsVote s (applyLoop fuel s) := by
  induction fuel generalizing s with
  | zero => exact .refl s
  | succ fuel ih =>
      have hbump : KeepsVote s (s.modify fun n => { n with lastApplied := n.lastApplied + 1 }) :=
        .modify rfl rfl rfl rfl rfl (Or.inl rfl)
      unfold applyLoop
      split
      · dsimp only
        split
        · exact hbump
        · exact (hbump.trans (keepsVote_applyEntryLocked _ _)).trans (ih _)
      · exact .refl s

theorem keepsVote_applyCommittedLocked (s : Locked) : KeepsVote s s.applyCommittedLocked := by
  unfold applyCommittedLocked
  dsimp only
  split
  · exact (keepsVote_applyLoop _ s).trans (.modify rfl rfl rfl rfl rfl (Or.inl rfl))
  · exact keepsVote_applyLoop _ s

theorem keepsVote_mergeLoop (s : Locked) (idx : Nat) (es : List LogEntry) :
    KeepsVote s (s.mergeLoop idx es).1 := by
  induction es generalizing idx with
  | nil => exact .refl s
  | cons e es ih =>
      unfold mergeLoop
      split
      · exact .refl s
      · split
        · dsimp only
          exact (KeepsVote.write_one s (.truncateLogFrom idx) trivial).trans
            (.modify rfl rfl rfl rfl rfl (Or.inl rfl))
        · exact ih (idx + 1)

theorem keepsVote_appendLog (s : Locked) (es : List LogEntry) : KeepsVote s (s.appendLog es) :=
  (KeepsVote.write s (keepsState_appendLogEntries es)).trans
    (.modify rfl rfl rfl rfl rfl (Or.inl rfl))

theorem keepsVote_mergeEntriesLocked (s : Locked) (prev : Nat) (es : List LogEntry) :
    KeepsVote s (s.mergeEntriesLocked prev es) := by
  unfold mergeEntriesLocked
  dsimp only
  split
  · exact keepsVote_mergeLoop _ _ _
  · exact (keepsVote_mergeLoop _ _ _).trans (keepsVote_appendLog _ _)

theorem keepsVote_followCommit (s : Locked) (leaderCommit : Nat) :
    KeepsVote s (s.followCommit leaderCommit) := by
  unfold followCommit
  split
  · exact (KeepsVote.modify rfl rfl rfl rfl rfl (Or.inl rfl)).trans
      (keepsVote_applyCommittedLocked _)
  · exact .refl s

theorem keepsVote_acceptEntries (s : Locked) (req : AppendEntriesRequest) :
    KeepsVote s (s.acceptEntries req).1 := by
  have hdown : KeepsVote s ((s.setRoleLocked .follower).modify fun n =>
      { n with currentLeader := req.leaderId }) :=
    (keepsVote_setRoleLocked_follower s).trans (.modify rfl rfl rfl rfl rfl (Or.inl rfl))
  unfold acceptEntries
  split
  · exact .refl s
  · dsimp only
    split
    · exact hdown
    · refine hdown.trans (KeepsVote.trans ?_ (keepsVote_followCommit _ _))
      split
      · exact .refl _
      · exact keepsVote_mergeEntriesLocked _ _ _

theorem keepsVote_appendLocalLocked (s : Locked) (command : List UInt8) :
    KeepsVote s (s.appendLocalLocked command) := keepsVote_appendLog _ _

theorem keepsVote_propose (s : Locked) (command : List UInt8) :
    KeepsVote s (s.propose command) := by
  unfold propose
  split
  · exact .refl s
  · exact keepsVote_appendLocalLocked _ _

theorem keepsVote_proposeSync (s : Locked) (command : List UInt8) (ch : Nat) :
    KeepsVote s (s.proposeSync command ch).1 := by
  unfold proposeSync
  dsimp only
  split
  · exact .refl s
  · dsimp only
    exact (keepsVote_appendLocalLocked _ _).trans (.modify rfl rfl rfl rfl rfl (Or.inl rfl))

theorem keepsVote_advanceLoop (s : Locked) (N : Nat) : KeepsVote s (s.advanceLoop N) := by
  induction N with
  | zero => exact .refl s
  | succ N ih =>
      unfold advanceLoop
      split
      · split
        · exact ((KeepsVote.modify rfl rfl rfl rfl rfl (Or.inl rfl)).trans (.emit _ _)).trans
            (keepsVote_applyCommittedLocked _)
        · exact ih
      · exact .refl s

/-- A reply of the current term. -/
theorem keepsVote_handleAppendEntriesReplyLocked (s : Locked) (peer : String) (prev num : Nat)
    (reply : AppendEntriesReply) (fails : Bool) (h : ¬ s.node.currentTerm < reply.term) :
    KeepsVote s (s.handleAppendEntriesReplyLocked peer prev num reply fails) := by
  unfold handleAppendEntriesReplyLocked
  rw [if_neg h]
  split
  · exact (KeepsVote.modify rfl rfl rfl rfl rfl (Or.inl rfl)).trans (keepsVote_advanceLoop _ _)
  · exact .modify rfl rfl rfl rfl rfl (Or.inl rfl)

theorem keepsVote_replaceSnapshotFileLocked (s : Locked) (i : Nat) :
    KeepsVote s (s.replaceSnapshotFileLocked i) := by
  have hpath : KeepsVote s (s.modify fun n => { n with currentSnapshotPath := some i }) :=
    .modify rfl rfl rfl rfl rfl (Or.inl rfl)
  unfold replaceSnapshotFileLocked
  dsimp only
  split
  · exact hpath
  · split
    · exact hpath.trans (.write_one _ (.removeFile _) trivial)
    · exact hpath

theorem keepsVote_compactLocked (s : Locked) (file : File) :
    KeepsVote s (s.compactLocked file).1 := by
  unfold compactLocked
  split
  · exact .refl s
  · dsimp only
    exact (((KeepsVote.write_one s (.writeFile file) trivial).trans
      (keepsVote_replaceSnapshotFileLocked _ _)).trans
      (.write_one _ (.rewriteLog _) trivial)).trans (.modify rfl rfl rfl rfl rfl (Or.inl rfl))

theorem keepsVote_confirmCompaction (s : Locked) (req : CompactionAck) :
    KeepsVote s (s.confirmCompaction req).1 := by
  unfold confirmCompaction
  split
  · exact .refl s
  · split
    · exact .refl s
    · split
      · exact .refl s
      · split
        · exact .refl s
        · exact keepsVote_compactLocked _ _

theorem keepsVote_pollCompact (s : Locked) (file : File) : KeepsVote s (s.pollCompact file) := by
  unfold pollCompact
  split
  · exact keepsVote_compactLocked _ _
  · exact .refl s

theorem keepsVote_adoptSnapshot (s : Locked) (file : File) :
    KeepsVote s (s.adoptSnapshot file) :=
  (keepsVote_replaceSnapshotFileLocked _ _).trans (.modify rfl rfl rfl rfl rfl (Or.inl rfl))

end Locked

/-! ## The log -/

/-- A write that changes `state.json` only. -/
def DiskWrite.KeepsLog : DiskWrite → Prop
  | .saveState _ _ => True
  | _ => False

theorem Disk.log_applyAll {ws : List DiskWrite} (h : ∀ w ∈ ws, w.KeepsLog) (d : Disk) :
    (d.applyAll ws).log = d.log ∧ (d.applyAll ws).snapshots = d.snapshots := by
  induction ws generalizing d with
  | nil => exact ⟨rfl, rfl⟩
  | cons w ws ih =>
      obtain ⟨hlog, hsnap⟩ := ih (fun w' hw' => h w' (List.mem_cons_of_mem w hw')) (d.apply w)
      have hw := h w (List.mem_cons_self ..)
      cases w with
      | saveState T v => exact ⟨hlog, hsnap⟩
      | appendRecord e => exact absurd hw id
      | truncateLogFrom i => exact absurd hw id
      | rewriteLog es => exact absurd hw id
      | writeFile f => exact absurd hw id
      | removeFile i => exact absurd hw id

/-- Between `s` and `s'` the log has not changed, in memory or on disk. -/
structure KeepsLog (s s' : Locked) : Prop where
  log : s'.node.log = s.node.log
  logOffset : s'.node.logOffset = s.node.logOffset
  path : s'.node.currentSnapshotPath = s.node.currentSnapshotPath
  capacity : s'.node.logCapacityEntries = s.node.logCapacityEntries
  writes : ∃ ws, s'.writes = s.writes ++ ws ∧ ∀ w ∈ ws, w.KeepsLog

namespace KeepsLog

theorem refl (s : Locked) : KeepsLog s s := ⟨rfl, rfl, rfl, rfl, [], by simp, by simp⟩

theorem trans {s s' s'' : Locked} (h : KeepsLog s s') (h' : KeepsLog s' s'') :
    KeepsLog s s'' := by
  obtain ⟨ws, hws, hk⟩ := h.writes
  obtain ⟨ws', hws', hk'⟩ := h'.writes
  refine ⟨h'.log.trans h.log, h'.logOffset.trans h.logOffset, h'.path.trans h.path,
    h'.capacity.trans h.capacity, ws ++ ws', ?_, ?_⟩
  · rw [hws', hws, List.append_assoc]
  · intro w hw
    rcases List.mem_append.1 hw with hw | hw
    · exact hk w hw
    · exact hk' w hw

theorem modify {s : Locked} {f : Node → Node} (hlog : (f s.node).log = s.node.log)
    (hoff : (f s.node).logOffset = s.node.logOffset)
    (hpath : (f s.node).currentSnapshotPath = s.node.currentSnapshotPath)
    (hcap : (f s.node).logCapacityEntries = s.node.logCapacityEntries) :
    KeepsLog s (s.modify f) := ⟨hlog, hoff, hpath, hcap, [], by simp, by simp⟩

theorem emit (s : Locked) (es : List NodeEvent) : KeepsLog s (s.emit es) :=
  ⟨rfl, rfl, rfl, rfl, [], by simp, by simp⟩

theorem entryAtLocked {s s' : Locked} (h : KeepsLog s s') (i : Nat) :
    s'.node.entryAtLocked i = s.node.entryAtLocked i := by
  unfold Node.entryAtLocked
  rw [h.log, h.logOffset]

end KeepsLog

namespace Locked

theorem keepsLog_persistStateLocked (s : Locked) (fails : Bool) :
    KeepsLog s (s.persistStateLocked fails).1 := by
  unfold persistStateLocked
  split
  · exact .refl s
  · refine ⟨rfl, rfl, rfl, rfl, _, rfl, fun w hw => ?_⟩
    rw [List.mem_singleton.1 hw]
    trivial

theorem keepsLog_setRoleLocked (s : Locked) (r : Role) : KeepsLog s (s.setRoleLocked r) := by
  unfold setRoleLocked
  split
  · exact ((KeepsLog.emit _ _).trans (.modify rfl rfl rfl rfl)).trans (.modify rfl rfl rfl rfl)
  · exact .modify rfl rfl rfl rfl

theorem keepsLog_observeTermLocked (s : Locked) (T : Nat) (fails : Bool) :
    KeepsLog s (s.observeTermLocked T fails).1 := by
  unfold observeTermLocked
  split
  · exact .refl s
  · exact ((KeepsLog.modify rfl rfl rfl rfl).trans (keepsLog_setRoleLocked _ _)).trans
      (keepsLog_persistStateLocked _ _)

theorem keepsLog_observeRequest (s : Locked) (T : Nat) (fails : Bool) :
    KeepsLog s (s.observeRequest T fails).1 := by
  unfold observeRequest
  split
  · exact keepsLog_observeTermLocked s T fails
  · exact .refl s

theorem keepsLog_castVote (s : Locked) (req : RequestVoteRequest) (fails : Bool) :
    KeepsLog s (s.castVote req fails).1 := by
  have hvote : KeepsLog s (s.modify fun n => { n with votedFor := req.candidateId }) :=
    .modify rfl rfl rfl rfl
  have hsave := hvote.trans (keepsLog_persistStateLocked _ fails)
  unfold castVote
  split
  · exact .refl s
  · split
    · split
      · rename_i r err heq
        rw [heq] at hsave
        exact hsave
      · rename_i r heq
        rw [heq] at hsave
        exact hsave
    · exact .refl s

theorem keepsLog_requestVote (s : Locked) (req : RequestVoteRequest) (f : SaveFaults) :
    KeepsLog s (s.requestVote req f).1 := by
  have hobs := s.keepsLog_observeRequest req.term f.observe
  unfold requestVote
  split
  · rename_i r err heq
    rw [heq] at hobs
    exact hobs
  · rename_i r heq
    rw [heq] at hobs
    exact hobs.trans (keepsLog_castVote _ _ _)

theorem keepsLog_becomeLeaderLocked (s : Locked) : KeepsLog s s.becomeLeaderLocked := by
  unfold becomeLeaderLocked
  split
  · exact .refl s
  · exact (KeepsLog.modify rfl rfl rfl rfl).trans (.emit _ _)

theorem keepsLog_startElection (s : Locked) (fails : Bool) :
    KeepsLog s (s.startElection fails).1 := by
  unfold startElection
  split
  · exact .refl s
  · have hcand : KeepsLog s ((s.setRoleLocked .candidate).modify fun n =>
        { n with currentTerm := n.currentTerm + 1, votedFor := n.id }) :=
      (s.keepsLog_setRoleLocked .candidate).trans (.modify rfl rfl rfl rfl)
    have hsave := hcand.trans (keepsLog_persistStateLocked _ fails)
    dsimp only
    split
    · rename_i r err heq
      rw [heq] at hsave
      exact hsave
    · rename_i r heq
      rw [heq] at hsave
      exact hsave

theorem keepsLog_soloElection (s : Locked) (e : Election) : KeepsLog s (s.soloElection e) := by
  unfold soloElection
  split
  · exact keepsLog_becomeLeaderLocked s
  · exact .refl s

theorem keepsLog_handleRequestVoteReply (s : Locked) (e : Election) (reply : RequestVoteReply)
    (fails : Bool) : KeepsLog s (s.handleRequestVoteReply e reply fails).1 := by
  unfold handleRequestVoteReply
  split
  · exact keepsLog_observeTermLocked s _ _
  · split
    · exact .refl s
    · dsimp only
      generalize (if reply.voteGranted = true then e.votes + 1 else e.votes) = votes
      split
      · exact keepsLog_becomeLeaderLocked s
      · exact .refl s

theorem keepsLog_applyEntryLocked (s : Locked) (e : LogEntry) :
    KeepsLog s (s.applyEntryLocked e) := by
  unfold applyEntryLocked
  dsimp only
  split
  · exact ((KeepsLog.emit _ _).trans (.emit _ _)).trans (.modify rfl rfl rfl rfl)
  · exact .emit _ _

theorem keepsLog_applyLoop (fuel : Nat) (s : Locked) : KeepsLog s (applyLoop fuel s) := by
  induction fuel generalizing s with
  | zero => exact .refl s
  | succ fuel ih =>
      have hbump : KeepsLog s (s.modify fun n => { n with lastApplied := n.lastApplied + 1 }) :=
        .modify rfl rfl rfl rfl
      unfold applyLoop
      split
      · dsimp only
        split
        · exact hbump
        · exact (hbump.trans (keepsLog_applyEntryLocked _ _)).trans (ih _)
      · exact .refl s

theorem keepsLog_applyCommittedLocked (s : Locked) : KeepsLog s s.applyCommittedLocked := by
  unfold applyCommittedLocked
  dsimp only
  split
  · exact (keepsLog_applyLoop _ s).trans (.modify rfl rfl rfl rfl)
  · exact keepsLog_applyLoop _ s

theorem keepsLog_followCommit (s : Locked) (leaderCommit : Nat) :
    KeepsLog s (s.followCommit leaderCommit) := by
  unfold followCommit
  split
  · exact (KeepsLog.modify rfl rfl rfl rfl).trans (keepsLog_applyCommittedLocked _)
  · exact .refl s

theorem keepsLog_advanceLoop (s : Locked) (N : Nat) : KeepsLog s (s.advanceLoop N) := by
  induction N with
  | zero => exact .refl s
  | succ N ih =>
      unfold advanceLoop
      split
      · split
        · exact ((KeepsLog.modify rfl rfl rfl rfl).trans (.emit _ _)).trans
            (keepsLog_applyCommittedLocked _)
        · exact ih
      · exact .refl s

theorem keepsLog_handleAppendEntriesReplyLocked (s : Locked) (peer : String) (prev num : Nat)
    (reply : AppendEntriesReply) (fails : Bool) :
    KeepsLog s (s.handleAppendEntriesReplyLocked peer prev num reply fails) := by
  unfold handleAppendEntriesReplyLocked
  split
  · exact keepsLog_observeTermLocked s _ _
  · split
    · exact (KeepsLog.modify rfl rfl rfl rfl).trans (keepsLog_advanceLoop _ _)
    · exact .modify rfl rfl rfl rfl

theorem keepsLog_handleAppendEntriesReply (s : Locked) (T : Nat) (out : OutgoingAppendEntries)
    (reply : AppendEntriesReply) (fails : Bool) :
    KeepsLog s (s.handleAppendEntriesReply T out reply fails).1 := by
  unfold handleAppendEntriesReply
  split
  · exact .refl s
  · exact keepsLog_handleAppendEntriesReplyLocked _ _ _ _ _ _

end Locked

/-! ## Compacting -/

/-- An entry that is found is inside the log. -/
theorem Node.inside_of_entryAtLocked {n : Node} {index : Nat} {e : LogEntry}
    (h : n.entryAtLocked index = some e) :
    n.logOffset < index ∧ index ≤ n.lastLogIndexLocked := by
  unfold Node.entryAtLocked at h
  split at h
  · exact absurd h (by simp)
  · unfold Node.lastLogIndexLocked
    omega

namespace Locked

theorem node_replaceSnapshotFileLocked (s : Locked) (i : Nat) :
    (s.replaceSnapshotFileLocked i).node = { s.node with currentSnapshotPath := some i } := by
  unfold replaceSnapshotFileLocked
  dsimp only
  split
  · rfl
  · split <;> rfl

/-- A compaction is refused, or it puts the snapshot's anchor in front. -/
theorem node_compactLocked (s : Locked) (file : File) : (s.compactLocked file).1 = s ∨
    (s.node.logOffset < file.lastIncludedIndex ∧
      file.lastIncludedIndex ≤ s.node.lastLogIndexLocked ∧
      (s.compactLocked file).1.node = { s.node with
        currentSnapshotPath := some file.lastIncludedIndex
        logOffset := file.lastIncludedIndex - 1
        log := file.anchor :: s.node.log.drop (file.lastIncludedIndex - s.node.logOffset) }) := by
  unfold compactLocked
  split
  · exact Or.inl rfl
  · rename_i e he
    obtain ⟨hlt, hle⟩ := Node.inside_of_entryAtLocked he
    refine Or.inr ⟨hlt, hle, ?_⟩
    dsimp only
    rw [node_modify, node_write, node_replaceSnapshotFileLocked, node_write]

/-- `ConfirmCompaction` does nothing, or it compacts. -/
theorem confirmCompaction_cases (s : Locked) (req : CompactionAck) :
    (s.confirmCompaction req).1 = s ∨
    ∃ file, (s.confirmCompaction req).1 = (s.compactLocked file).1 := by
  unfold confirmCompaction
  split
  · exact Or.inl rfl
  · split
    · exact Or.inl rfl
    · split
      · exact Or.inl rfl
      · split
        · exact Or.inl rfl
        · exact Or.inr ⟨_, rfl⟩

theorem pollCompact_cases (s : Locked) (file : File) :
    s.pollCompact file = s ∨ s.pollCompact file = (s.compactLocked file).1 := by
  unfold pollCompact
  split
  · exact Or.inr rfl
  · exact Or.inl rfl

end Locked

/-! ## Merging -/

/-- What `mergeLoop` does with the entries `es` from index `idx` on: the first `j` are
there already, and then the log ends, or it is cut off. -/
inductive Merged (s : Locked) (idx : Nat) (es : List LogEntry) : Locked × List LogEntry → Prop
  | kept (j : Nat) (hj : j ≤ es.length) (hex : ∀ i, i < j → (s.node.entryAtLocked (idx + i)).isSome)
      (hnone : j < es.length → s.node.entryAtLocked (idx + j) = none) : Merged s idx es (s, es.drop j)
  | cut (j : Nat) (old : LogEntry) (hj : j < es.length)
      (hex : ∀ i, i < j → (s.node.entryAtLocked (idx + i)).isSome)
      (hold : s.node.entryAtLocked (idx + j) = some old)
      (hterm : (es[j]?).map LogEntry.term ≠ some old.term) :
      Merged s idx es ((s.write [.truncateLogFrom (idx + j)]).modify fun n =>
        { n with log := n.log.take (idx + j - n.logOffset - 1) }, es.drop j)

theorem Locked.merged_mergeLoop (s : Locked) (idx : Nat) (es : List LogEntry) :
    Merged s idx es (s.mergeLoop idx es) := by
  induction es generalizing idx with
  | nil => exact .kept 0 (le_refl _) (by simp) (by simp)
  | cons e es ih =>
      unfold mergeLoop
      split
      · rename_i hnone
        exact .kept 0 (Nat.zero_le _) (by simp) fun _ => hnone
      · rename_i old hold
        split
        · rename_i hterm
          refine .cut 0 old (by simp) (by simp) hold ?_
          simpa using fun h => hterm h.symm
        · -- this entry is there: one more of those that are kept
          have hex : ∀ {j : Nat}, (∀ i, i < j → (s.node.entryAtLocked (idx + 1 + i)).isSome) →
              ∀ i, i < j + 1 → (s.node.entryAtLocked (idx + i)).isSome := by
            intro j h i hi
            cases i with
            | zero => simp [hold]
            | succ i => simpa [Nat.add_assoc, Nat.add_comm 1 i] using h i (by omega)
          generalize hr : s.mergeLoop (idx + 1) es = r
          have hm := ih (idx + 1)
          rw [hr] at hm
          cases hm with
          | kept j hj hex' hnone =>
              refine .kept (j + 1) (by simpa using hj) (hex hex') fun hlt => ?_
              simpa [Nat.add_assoc, Nat.add_comm 1 j] using hnone (by simpa using hlt)
          | cut j old' hj hex' hold' hterm' =>
              have heq : idx + 1 + j = idx + (j + 1) := by omega
              rw [heq] at hold' ⊢
              exact .cut (j + 1) old' (by simpa using hj) (hex hex') hold' (by simpa using hterm')

/-- Merging changes the log and nothing else of the node. -/
theorem Locked.mergeEntriesLocked_frame (s : Locked) (prev : Nat) (es : List LogEntry) :
    ∃ log ws, s.mergeEntriesLocked prev es = ⟨{ s.node with log := log }, ws, s.events⟩ := by
  unfold Locked.mergeEntriesLocked
  dsimp only
  generalize skipCompacted s.node.logOffset (prev + 1) es = start
  obtain ⟨r, hr⟩ : ∃ r, r = s.mergeLoop start.1 start.2 := ⟨_, rfl⟩
  have hloop : ∃ log ws, r.1 = ⟨{ s.node with log := log }, ws, s.events⟩ := by
    have hm := s.merged_mergeLoop start.1 start.2
    rw [← hr] at hm
    cases hm with
    | kept => exact ⟨s.node.log, s.writes, rfl⟩
    | cut => exact ⟨_, _, rfl⟩
  obtain ⟨log, ws, heq⟩ := hloop
  rw [← hr]
  split
  · exact ⟨log, ws, heq⟩
  · rw [heq]
    exact ⟨_, _, rfl⟩

/-! ## Snapshot files -/

/-- A write that leaves the snapshot files alone. -/
def DiskWrite.KeepsFiles : DiskWrite → Prop
  | .writeFile _ | .removeFile _ => False
  | _ => True

theorem DiskWrite.KeepsLog.keepsFiles {w : DiskWrite} (h : w.KeepsLog) : w.KeepsFiles := by
  cases w with
  | saveState T v => trivial
  | _ => exact absurd h id

theorem Disk.snapshots_applyAll {ws : List DiskWrite} (h : ∀ w ∈ ws, w.KeepsFiles) (d : Disk) :
    (d.applyAll ws).snapshots = d.snapshots := by
  induction ws generalizing d with
  | nil => rfl
  | cons w ws ih =>
      refine (ih (fun w' hw' => h w' (List.mem_cons_of_mem w hw')) (d.apply w)).trans ?_
      have hw := h w (List.mem_cons_self ..)
      cases w with
      | writeFile f => exact absurd hw id
      | removeFile i => exact absurd hw id
      | _ => rfl

/-- Between `s` and `s'` no snapshot file has come or gone. -/
structure KeepsFiles (s s' : Locked) : Prop where
  path : s'.node.currentSnapshotPath = s.node.currentSnapshotPath
  writes : ∃ ws, s'.writes = s.writes ++ ws ∧ ∀ w ∈ ws, w.KeepsFiles

namespace KeepsFiles

theorem refl (s : Locked) : KeepsFiles s s := ⟨rfl, [], by simp, by simp⟩

theorem trans {s s' s'' : Locked} (h : KeepsFiles s s') (h' : KeepsFiles s' s'') :
    KeepsFiles s s'' := by
  obtain ⟨ws, hws, hk⟩ := h.writes
  obtain ⟨ws', hws', hk'⟩ := h'.writes
  refine ⟨h'.path.trans h.path, ws ++ ws', by rw [hws', hws, List.append_assoc], fun w hw => ?_⟩
  rcases List.mem_append.1 hw with hw | hw
  · exact hk w hw
  · exact hk' w hw

end KeepsFiles

theorem KeepsLog.keepsFiles {s s' : Locked} (h : KeepsLog s s') : KeepsFiles s s' := by
  obtain ⟨ws, hws, hk⟩ := h.writes
  exact ⟨h.path, ws, hws, fun w hw => (hk w hw).keepsFiles⟩

namespace Locked

theorem keepsFiles_appendLog (s : Locked) (es : List LogEntry) : KeepsFiles s (s.appendLog es) := by
  refine ⟨rfl, appendLogEntries es, rfl, fun w hw => ?_⟩
  obtain ⟨e, -, rfl⟩ := List.mem_map.1 hw
  trivial

theorem keepsFiles_mergeEntriesLocked (s : Locked) (prev : Nat) (es : List LogEntry) :
    KeepsFiles s (s.mergeEntriesLocked prev es) := by
  unfold mergeEntriesLocked
  dsimp only
  generalize skipCompacted s.node.logOffset (prev + 1) es = start
  have hloop : KeepsFiles s (s.mergeLoop start.1 start.2).1 := by
    have hm := s.merged_mergeLoop start.1 start.2
    generalize s.mergeLoop start.1 start.2 = r at hm
    cases hm with
    | kept => exact .refl s
    | cut => exact ⟨rfl, _, rfl, fun w hw => List.mem_singleton.1 hw ▸ trivial⟩
  split
  · exact hloop
  · exact hloop.trans (keepsFiles_appendLog _ _)

theorem keepsFiles_acceptEntries (s : Locked) (req : AppendEntriesRequest) :
    KeepsFiles s (s.acceptEntries req).1 := by
  unfold acceptEntries
  split
  · exact .refl s
  · have hfollow : KeepsFiles s ((s.setRoleLocked .follower).modify fun n =>
        { n with currentLeader := req.leaderId }) :=
      (keepsLog_setRoleLocked s .follower).keepsFiles.trans
        (KeepsLog.modify rfl rfl rfl rfl).keepsFiles
    dsimp only
    split
    · exact hfollow
    · refine (hfollow.trans ?_).trans (keepsLog_followCommit _ _).keepsFiles
      split
      · exact .refl _
      · exact keepsFiles_mergeEntriesLocked _ _ _

theorem keepsFiles_appendEntries (s : Locked) (req : AppendEntriesRequest) (f : SaveFaults) :
    KeepsFiles s (s.appendEntries req f).1 := by
  have hobs := (keepsLog_observeRequest s req.term f.observe).keepsFiles
  unfold appendEntries
  generalize s.observeRequest req.term f.observe = r at hobs ⊢
  obtain ⟨s', err⟩ := r
  cases err with
  | some err => exact hobs
  | none => exact hobs.trans (keepsFiles_acceptEntries s' req)

theorem keepsFiles_propose (s : Locked) (command : List UInt8) :
    KeepsFiles s (s.propose command) := by
  unfold propose
  split
  · exact .refl s
  · exact keepsFiles_appendLog _ _

theorem keepsFiles_proposeSync (s : Locked) (command : List UInt8) (ch : Nat) :
    KeepsFiles s (s.proposeSync command ch).1 := by
  unfold proposeSync
  split
  · exact .refl s
  · have happ : KeepsFiles s (s.appendLocalLocked command) := keepsFiles_appendLog _ _
    exact ⟨happ.path, happ.writes⟩

end Locked

end B5KvStore
