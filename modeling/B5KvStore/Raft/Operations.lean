import B5KvStore.Raft.Restart

/-!
# Everything that may happen to a node

The calls of its peers, its clients and the backup service, and the critical sections of its own
goroutines, as one type.  Whatever the order of these operations, the log stays in order: an
entry stands where its index says.

* `Node.InRange` — entries stand where their index says, a log that starts above index
  `1` is not empty, and the capacity is positive.
* `Disk.WellFormed` — the directories a node is built over.
* `Operation`, `Node.perform`.
* `Node.InRange.perform` — one operation keeps `InRange`.
-/

namespace B5KvStore

/-! ## The invariant -/

/-- What keeps every access in range: an entry stands where its index says, a log that
does not start at index `1` holds at least its anchor, and the capacity is not zero. -/
structure Node.InRange (n : Node) : Prop where
  positional : n.Positional
  nonempty : 0 < n.logOffset → n.log ≠ []
  capacity : 0 < n.logCapacityEntries

namespace Node.InRange

variable {n : Node} {s s' : Locked}

theorem keepsLog (h : s.node.InRange) (hk : KeepsLog s s') : s'.node.InRange where
  positional := by
    unfold Node.Positional
    rw [hk.log, hk.logOffset]
    exact h.positional
  nonempty := by
    rw [hk.log, hk.logOffset]
    exact h.nonempty
  capacity := by
    rw [hk.capacity]
    exact h.capacity

/-- A new log from the same offset on. -/
theorem setLog (h : n.InRange) {log : List LogEntry} (hlog : PlacedFrom (n.logOffset + 1) log)
    (hne : n.log ≠ [] → log ≠ []) : ({ n with log := log } : Node).InRange where
  positional := (Node.positional_iff _).2 hlog
  nonempty hpos := hne (h.nonempty hpos)
  capacity := h.capacity

theorem append (h : n.InRange) {es : List LogEntry}
    (hes : PlacedFrom (n.lastLogIndexLocked + 1) es) :
    ({ n with log := n.log ++ es } : Node).InRange := by
  refine h.setLog (((n.positional_iff).1 h.positional).append ?_) fun hne => by simp [hne]
  rwa [Nat.add_right_comm]

/-- The log is cut off at `idx` and goes on with other entries. -/
theorem overwrite (h : n.InRange) {idx : Nat} {es : List LogEntry} (hoff : n.logOffset < idx)
    (hle : idx ≤ n.lastLogIndexLocked) (hes : PlacedFrom idx es) (hne : es ≠ []) :
    ({ n with log := n.log.take (idx - n.logOffset - 1) ++ es } : Node).InRange := by
  refine h.setLog ((((n.positional_iff).1 h.positional).take _).append ?_) (by simp [hne])
  have hlen := n.lastLogIndexLocked_cut hoff hle
  unfold Node.lastLogIndexLocked at hlen
  rwa [Nat.add_right_comm, hlen]

theorem compactLocked (h : s.node.InRange) (file : File) :
    (s.compactLocked file).1.node.InRange := by
  rcases s.node_compactLocked file with heq | ⟨hlt, hle, hnode⟩
  · rw [heq]
    exact h
  · rw [hnode]
    refine ⟨(Node.positional_iff _).2 ?_, by simp, h.capacity⟩
    have hdrop := ((s.node.positional_iff).1 h.positional).drop
      (file.lastIncludedIndex - s.node.logOffset)
    dsimp only
    rw [Nat.sub_add_cancel (by omega)]
    refine .cons rfl ?_
    rwa [show s.node.logOffset + 1 + (file.lastIncludedIndex - s.node.logOffset) =
      file.lastIncludedIndex + 1 by omega] at hdrop

theorem catchUpFromSnapshot (h : s.node.InRange) (file : File) :
    (s.catchUpFromSnapshot file).node.InRange := by
  unfold Locked.catchUpFromSnapshot Locked.adoptSnapshot
  split
  · exact h
  · rw [Locked.node_modify, Locked.node_replaceSnapshotFileLocked]
    refine ⟨(Node.positional_iff _).2 ?_, by simp, h.capacity⟩
    dsimp only
    rw [Nat.sub_add_cancel (by omega)]
    exact .cons rfl (.nil _)

theorem appendLocalLocked (h : s.node.InRange) (command : List UInt8) :
    (s.appendLocalLocked command).node.InRange :=
  h.append (.cons rfl (.nil _))

theorem mergeEntriesLocked (h : s.node.InRange) {prev : Nat} {es : List LogEntry}
    (hes : PlacedFrom (prev + 1) es) (hprev : prev ≤ s.node.lastLogIndexLocked) :
    (s.mergeEntriesLocked prev es).node.InRange := by
  rcases s.mergeEntriesLocked_cases hes hprev with heq | ⟨rest, hrest, -, heq⟩ |
    ⟨idx, rest, hoff, hle, hrest, hne, -, -, heq⟩
  · rw [heq]
    exact h
  · rw [heq]
    exact h.append hrest
  · rw [heq]
    exact h.overwrite hoff hle hrest hne

theorem appendEntries (h : s.node.InRange) {req : AppendEntriesRequest}
    (hreq : PlacedFrom (req.prevLogIndex + 1) req.entries) (f : SaveFaults) :
    (s.appendEntries req f).1.node.InRange := by
  have hobs := h.keepsLog (s.keepsLog_observeRequest req.term f.observe)
  unfold Locked.appendEntries
  split
  · rename_i r err heq
    rw [heq] at hobs
    exact hobs
  · rename_i r heq
    rw [heq] at hobs
    dsimp only
    unfold Locked.acceptEntries
    split
    · exact hobs
    · have hdown := hobs.keepsLog ((r.keepsLog_setRoleLocked .follower).trans
        (.modify (f := fun n => { n with currentLeader := req.leaderId }) rfl rfl rfl rfl))
      generalize ((r.setRoleLocked .follower).modify fun n =>
        { n with currentLeader := req.leaderId }) = t at hdown
      dsimp only
      cases hcheck : t.node.checkPrev req with
      | some rejection => exact hdown
      | none =>
          refine keepsLog ?_ (Locked.keepsLog_followCommit _ _)
          split
          · exact hdown
          · exact hdown.mergeEntriesLocked hreq (t.node.prev_le_of_checkPrev hcheck)

end Node.InRange

/-! ## Directories -/

/-- A data directory in order: the records of `log.dat` have consecutive indices, and
there is no gap between the snapshot and the first record. -/
structure Disk.WellFormed (d : Disk) : Prop where
  consecutive : ∃ base, PlacedFrom (base + 1) d.log
  matching : ∀ f, d.latest = some f → ∀ e, d.log.head? = some e → e.index ≤ f.lastIncludedIndex + 1

theorem Disk.WellFormed.inRange_newNode {d : Disk} (h : d.WellFormed) (id address : String)
    (peers : List String) (cap : Nat) : (newNode id address peers cap d).InRange := by
  have hcap : 0 < (newNode id address peers cap d).logCapacityEntries := by
    unfold newNode
    dsimp only
    split
    · decide
    · omega
  obtain ⟨base, hplaced⟩ := h.consecutive
  rw [← Node.restart_newNode id address peers cap d d] at hcap ⊢
  generalize newNode id address peers cap d = n at hcap ⊢
  by_cases hf : ∃ f, d.latest = some f ∧ 0 < f.lastIncludedIndex
  · obtain ⟨f, hf, hpos⟩ := hf
    obtain ⟨hlog, hoff, -⟩ := n.restart_of_latest hf hpos
    refine ⟨(Node.positional_iff _).2 ?_, by rw [hlog]; simp, hcap⟩
    rw [hlog, hoff, Nat.sub_add_cancel hpos]
    refine .cons rfl ?_
    cases hd : d.log with
    | nil => exact .nil _
    | cons e es =>
        have he := hplaced 0 e (by rw [hd]; rfl)
        have hle := h.matching f hf e (by rw [hd]; rfl)
        rw [← hd, hplaced.filter_lt (by omega)]
        have hdrop := hplaced.drop (f.lastIncludedIndex - base)
        rwa [show base + 1 + (f.lastIncludedIndex - base) = f.lastIncludedIndex + 1 by omega]
          at hdrop
  · obtain ⟨hlog, -, hoff⟩ := n.restart_of_none fun f hd => by
      have := not_and.1 (not_exists.1 hf f) hd
      omega
    cases hd : d.log with
    | nil =>
        rw [hd] at hlog hoff
        refine ⟨(Node.positional_iff _).2 ?_, ?_, hcap⟩
        · rw [hlog]
          exact .nil _
        · rw [hoff]
          exact fun h => absurd h (by simp)
    | cons e es =>
        have he := hplaced 0 e (by rw [hd]; rfl)
        rw [hd] at hlog hoff
        refine ⟨(Node.positional_iff _).2 ?_, by rw [hlog]; simp, hcap⟩
        rw [hlog, ← hd, hoff]
        simpa [he] using hplaced

theorem Disk.wellFormed_empty : Disk.empty.WellFormed :=
  ⟨⟨0, .nil _⟩, fun _ hf => absurd hf (by simp [Disk.latest, Disk.empty])⟩

/-! ## Operations -/

/-- What may happen to a node: the calls of its peers, its clients and the backup service,
and the critical sections of its own goroutines. -/
inductive Operation where
  | appendEntries (req : AppendEntriesRequest) (f : SaveFaults)
  | requestVote (req : RequestVoteRequest) (f : SaveFaults)
  | startElection (fails : Bool)
  | soloElection (e : Election)
  | handleRequestVoteReply (e : Election) (reply : RequestVoteReply) (fails : Bool)
  | broadcastAppendEntries
  | handleAppendEntriesReply (term : Nat) (out : OutgoingAppendEntries)
      (reply : AppendEntriesReply) (fails : Bool)
  | propose (command : List UInt8)
  | proposeSync (command : List UInt8) (ch : Nat)
  | getLogStatus
  | streamLogRange (fromIndex toIndex : Nat)
  | confirmCompaction (req : CompactionAck)
  | pollCompact (file : File)
  | catchUpFromSnapshot (file : File)

/-- The entries of a request carry the indices after `prevLogIndex`. -/
def Operation.Numbered : Operation → Prop
  | .appendEntries req _ => PlacedFrom (req.prevLogIndex + 1) req.entries
  | _ => True

/-- The node after an operation. -/
def Node.perform (n : Node) : Operation → Node
  | .appendEntries req f => (n.lock.appendEntries req f).1.node
  | .requestVote req f => (n.lock.requestVote req f).1.node
  | .startElection fails => (n.lock.startElection fails).1.node
  | .soloElection e => (n.lock.soloElection e).node
  | .handleRequestVoteReply e reply fails => (n.lock.handleRequestVoteReply e reply fails).1.node
  | .broadcastAppendEntries => n
  | .handleAppendEntriesReply term out reply fails =>
      (n.lock.handleAppendEntriesReply term out reply fails).1.node
  | .propose command => (n.lock.propose command).node
  | .proposeSync command ch => (n.lock.proposeSync command ch).1.node
  | .getLogStatus => n
  | .streamLogRange _ _ => n
  | .confirmCompaction req => (n.lock.confirmCompaction req).1.node
  | .pollCompact file => (n.lock.pollCompact file).node
  | .catchUpFromSnapshot file => (n.lock.catchUpFromSnapshot file).node

namespace Node.InRange

variable {n : Node}

theorem perform (h : n.InRange) {op : Operation} (hop : op.Numbered) : (n.perform op).InRange := by
  have hn : n.lock.node.InRange := h
  cases op with
  | appendEntries req f => exact hn.appendEntries hop f
  | requestVote req f => exact hn.keepsLog (Locked.keepsLog_requestVote _ _ _)
  | startElection fails => exact hn.keepsLog (Locked.keepsLog_startElection _ _)
  | soloElection e => exact hn.keepsLog (Locked.keepsLog_soloElection _ _)
  | handleRequestVoteReply e reply fails =>
      exact hn.keepsLog (Locked.keepsLog_handleRequestVoteReply _ _ _ _)
  | broadcastAppendEntries => exact h
  | handleAppendEntriesReply term out reply fails =>
      exact hn.keepsLog (Locked.keepsLog_handleAppendEntriesReply _ _ _ _ _)
  | propose command =>
      unfold Node.perform Locked.propose
      dsimp only
      split
      · exact h
      · exact hn.appendLocalLocked command
  | proposeSync command ch =>
      unfold Node.perform Locked.proposeSync
      dsimp only
      split
      · exact h
      · have happ := hn.appendLocalLocked command
        exact ⟨happ.positional, happ.nonempty, happ.capacity⟩
  | getLogStatus => exact h
  | streamLogRange fromIndex toIndex => exact h
  | confirmCompaction req =>
      unfold Node.perform
      dsimp only
      rcases n.lock.confirmCompaction_cases req with heq | ⟨file, heq⟩
      · rw [heq]
        exact h
      · rw [heq]
        exact hn.compactLocked file
  | pollCompact file =>
      unfold Node.perform
      dsimp only
      rcases n.lock.pollCompact_cases file with heq | heq
      · rw [heq]
        exact h
      · rw [heq]
        exact hn.compactLocked file
  | catchUpFromSnapshot file => exact hn.catchUpFromSnapshot file

end Node.InRange

end B5KvStore
