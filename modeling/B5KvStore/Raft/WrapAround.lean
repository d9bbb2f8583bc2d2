import B5KvStore.Raft.PanicFree
import B5KvStore.Raft.TermRuns

/-!
# Where nothing wraps around

The other modules count terms and indices without a bound.  As long as the term of a node, the
last index of its log and the numbers of an operation can be counted up once more, the machine
does the same: the operation is not stopped, and the node is the one the model has.

* `Node.Small`, `Operation.Small` — numbers that can be counted up.
* `Node.Fits.performChecked_eq` — one operation.
* `machine_runs_model` — any sequence of operations, from a well-formed directory on.
-/

namespace B5KvStore

/-! ## The numbers -/

/-- The term and the last index can be counted up. -/
structure Node.Small (n : Node) : Prop where
  term : n.currentTerm + 1 < 2 ^ 64
  last : n.lastLogIndexLocked + 1 < 2 ^ 64

/-- The numbers of an operation can be counted up. -/
def Operation.Small : Operation → Prop
  | .appendEntries req _ => req.prevLogIndex + req.entries.length < 2 ^ 64
  | .handleAppendEntriesReply _ out _ _ => out.prevIndex + out.numEntries + 1 < 2 ^ 64
  | .streamLogRange _ toIndex => toIndex + 1 < 2 ^ 64
  | _ => True

/-- Small numbers keep clear of the largest one. -/
theorem Node.Small.clear {n : Node} {op : Operation} (h : n.Small) (hop : op.Small) :
    n.Clear op := by
  cases op with
  | appendEntries req f => exact hop
  | propose command => exact fun _ => h.last
  | proposeSync command ch => exact fun _ => h.last
  | broadcastAppendEntries => exact fun _ _ => h.last
  | streamLogRange fromIndex toIndex => exact hop
  | _ => trivial

theorem KeepsLog.lastLogIndexLocked {s s' : Locked} (h : KeepsLog s s') :
    s'.node.lastLogIndexLocked = s.node.lastLogIndexLocked := by
  unfold Node.lastLogIndexLocked
  rw [h.log, h.logOffset]

namespace Node

theorem firstIndexLoop_le (log : List LogEntry) (term k : Nat) :
    firstIndexLoop log term k ≤ k := by
  induction k with
  | zero => exact Nat.le_refl 0
  | succ k ih =>
      unfold firstIndexLoop
      split <;> omega

theorem firstIndexOfTermLocked_le (n : Node) (term : Nat) :
    n.firstIndexOfTermLocked term ≤ n.lastLogIndexLocked + 1 := by
  have := firstIndexLoop_le n.log term n.log.length
  unfold firstIndexOfTermLocked lastLogIndexLocked
  omega

theorem lastIndexOfTermLocked_le (n : Node) (term : Nat) :
    n.lastIndexOfTermLocked term ≤ n.lastLogIndexLocked := by
  unfold lastIndexOfTermLocked lastLogIndexLocked
  cases hi : lastIndexLoop n.log term n.log.length with
  | none => exact Nat.zero_le _
  | some i =>
      obtain ⟨⟨e, he, -⟩, -⟩ := lastIndexLoop_eq_some hi
      have := (List.getElem?_eq_some_iff.1 he).1
      dsimp only
      omega

theorem recordMatchChecked_eq (n : Node) (peer : String) {newMatch : Nat}
    (h : newMatch + 1 < 2 ^ 64) :
    n.recordMatchChecked peer newMatch = n.recordMatch peer newMatch := by
  unfold recordMatchChecked recordMatch
  rw [word_eq h]

theorem backOffChecked_eq (n : Node) (h : n.lastLogIndexLocked + 1 < 2 ^ 64)
    (reply : AppendEntriesReply) : n.backOffChecked reply = Locked.backOff n reply := by
  have hle := n.lastIndexOfTermLocked_le reply.conflictTerm
  unfold backOffChecked Locked.backOff
  dsimp only
  rw [word_eq (show n.lastIndexOfTermLocked reply.conflictTerm < 2 ^ 64 by omega),
    word_eq (by omega)]

theorem Fits.checkPrevChecked_eq {n : Node} (h : n.Fits) (htop : n.lastLogIndexLocked + 1 < 2 ^ 64)
    (req : AppendEntriesRequest) : n.checkPrevChecked req = .ok (n.checkPrev req) := by
  unfold checkPrevChecked checkPrev
  by_cases hle : req.prevLogIndex ≤ n.logOffset
  · rw [if_pos hle, if_neg (by omega)]
  · rw [if_neg hle, if_pos (by omega), h.entryAtChecked_eq, ok_bind]
    cases n.entryAtLocked req.prevLogIndex with
    | none =>
        dsimp only
        rw [h.lastLogIndexChecked_eq, word_eq htop]
        rfl
    | some entry =>
        dsimp only
        rw [word_eq (lt_of_le_of_lt (n.firstIndexOfTermLocked_le entry.term) htop)]
        split <;> rfl

end Node

/-! ## The critical sections -/

namespace Locked

variable {s : Locked}

theorem becomeLeaderChecked_eq (h : s.node.Fits) (htop : s.node.lastLogIndexLocked + 1 < 2 ^ 64) :
    s.becomeLeaderChecked = s.becomeLeaderLocked := by
  unfold becomeLeaderChecked becomeLeaderLocked
  split
  · rfl
  · dsimp only [modify]
    rw [h.lastLogIndexChecked_eq, word_eq htop]

theorem startElectionChecked_eq (h : s.node.Fits) (hterm : s.node.currentTerm + 1 < 2 ^ 64)
    (fails : Bool) : s.startElectionChecked fails = s.startElection fails := by
  obtain ⟨w, es, hrole, -⟩ := s.setRoleLocked_spec .candidate
  have hword : ((s.setRoleLocked .candidate).modify fun n =>
      { n with currentTerm := word (n.currentTerm + 1), votedFor := n.id }) =
      (s.setRoleLocked .candidate).modify fun n =>
        { n with currentTerm := n.currentTerm + 1, votedFor := n.id } := by
    refine modify_congr ?_
    rw [hrole]
    dsimp only
    rw [word_eq hterm]
  unfold startElectionChecked startElection
  split
  · rfl
  · rw [hword]
    have hfits := h.keepsLog (((s.keepsLog_setRoleLocked .candidate).trans (.modify
      (f := fun n => { n with currentTerm := n.currentTerm + 1, votedFor := n.id })
      rfl rfl rfl rfl)).trans (keepsLog_persistStateLocked _ fails))
    dsimp only
    generalize persistStateLocked _ fails = r at hfits ⊢
    obtain ⟨t, err⟩ := r
    cases err with
    | some err => rfl
    | none =>
        dsimp only at hfits ⊢
        rw [hfits.lastLogIndexChecked_eq]

theorem soloElectionChecked_eq (h : s.node.Fits) (htop : s.node.lastLogIndexLocked + 1 < 2 ^ 64)
    (e : Election) : s.soloElectionChecked e = s.soloElection e := by
  unfold soloElectionChecked soloElection
  rw [becomeLeaderChecked_eq h htop]

theorem handleRequestVoteReplyChecked_eq (h : s.node.Fits)
    (htop : s.node.lastLogIndexLocked + 1 < 2 ^ 64) (e : Election) (reply : RequestVoteReply)
    (fails : Bool) :
    s.handleRequestVoteReplyChecked e reply fails = s.handleRequestVoteReply e reply fails := by
  unfold handleRequestVoteReplyChecked handleRequestVoteReply
  rw [becomeLeaderChecked_eq h htop]

theorem acceptEntriesChecked_eq (h : s.node.Fits) (htop : s.node.lastLogIndexLocked + 1 < 2 ^ 64)
    {req : AppendEntriesRequest} (hreq : PlacedFrom (req.prevLogIndex + 1) req.entries)
    (hroom : req.prevLogIndex + req.entries.length < 2 ^ 64) :
    s.acceptEntriesChecked req = .ok (s.acceptEntries req) := by
  unfold acceptEntriesChecked acceptEntries
  split
  · rfl
  · have hk := (s.keepsLog_setRoleLocked .follower).trans
      (.modify (f := fun n => { n with currentLeader := req.leaderId }) rfl rfl rfl rfl)
    have hdown := h.keepsLog hk
    rw [← hk.lastLogIndexLocked] at htop
    dsimp only
    generalize ((s.setRoleLocked .follower).modify fun n =>
      { n with currentLeader := req.leaderId }) = t at hdown htop ⊢
    rw [hdown.checkPrevChecked_eq htop, ok_bind]
    cases hcheck : t.node.checkPrev req with
    | some rejection => rfl
    | none =>
        dsimp only
        split
        · rw [ok_bind, followCommitChecked_eq hdown]
          rfl
        · rename_i hne
          have hmerged := hdown.mergeEntriesLocked hreq hroom (t.node.prev_le_of_checkPrev hcheck)
          rw [mergeEntriesChecked_eq hdown hne hroom, ok_bind, followCommitChecked_eq hmerged]
          rfl

theorem appendEntriesChecked_eq (h : s.node.Fits) (htop : s.node.lastLogIndexLocked + 1 < 2 ^ 64)
    {req : AppendEntriesRequest} (hreq : PlacedFrom (req.prevLogIndex + 1) req.entries)
    (hroom : req.prevLogIndex + req.entries.length < 2 ^ 64) (f : SaveFaults) :
    s.appendEntriesChecked req f = .ok (s.appendEntries req f) := by
  have hk := s.keepsLog_observeRequest req.term f.observe
  have hobs := h.keepsLog hk
  rw [← hk.lastLogIndexLocked] at htop
  unfold appendEntriesChecked appendEntries
  generalize s.observeRequest req.term f.observe = r at hobs htop ⊢
  obtain ⟨t, err⟩ := r
  cases err with
  | some err => rfl
  | none =>
      dsimp only
      rw [acceptEntriesChecked_eq hobs htop hreq hroom]
      rfl

theorem handleAppendEntriesReplyChecked_eq (h : s.node.Fits)
    (htop : s.node.lastLogIndexLocked + 1 < 2 ^ 64) (term : Nat) {out : OutgoingAppendEntries}
    (hout : out.prevIndex + out.numEntries + 1 < 2 ^ 64) (reply : AppendEntriesReply)
    (fails : Bool) : s.handleAppendEntriesReplyChecked term out reply fails =
      .ok (s.handleAppendEntriesReply term out reply fails) := by
  have hmatch : (s.modify fun n =>
      n.recordMatchChecked out.peer (word (out.prevIndex + out.numEntries))) =
      s.modify fun n => n.recordMatch out.peer (out.prevIndex + out.numEntries) := by
    refine modify_congr ?_
    rw [word_eq (by omega), Node.recordMatchChecked_eq _ _ hout]
  have hback : (s.modify fun n =>
      { n with nextIndex := n.nextIndex.insert out.peer (n.backOffChecked reply) }) =
      s.modify fun n => { n with nextIndex := n.nextIndex.insert out.peer (backOff n reply) } :=
    modify_congr (by rw [Node.backOffChecked_eq _ htop])
  have hfits : (s.modify fun n =>
      n.recordMatch out.peer (out.prevIndex + out.numEntries)).node.Fits :=
    h.keepsLog (.modify rfl rfl rfl rfl)
  unfold handleAppendEntriesReplyChecked handleAppendEntriesReply
  split
  · rfl
  · unfold handleAppendEntriesReplyLockedChecked handleAppendEntriesReplyLocked
    rw [hmatch, hback]
    split
    · rfl
    · split
      · dsimp only
        rw [hfits.lastLogIndexChecked_eq, advanceLoopChecked_eq hfits hfits.last]
        rfl
      · rfl

theorem proposeChecked_eq (h : s.node.Fits) (htop : s.node.lastLogIndexLocked + 1 < 2 ^ 64)
    (command : List UInt8) : s.proposeChecked command = s.propose command := by
  unfold proposeChecked propose
  rw [appendLocalChecked_eq h htop]

theorem proposeSyncChecked_eq (h : s.node.Fits) (htop : s.node.lastLogIndexLocked + 1 < 2 ^ 64)
    (command : List UInt8) (ch : Nat) :
    s.proposeSyncChecked command ch = s.proposeSync command ch := by
  unfold proposeSyncChecked proposeSync
  rw [appendLocalChecked_eq h htop, h.lastLogIndexChecked_eq, word_eq htop]

end Locked

/-! ## Operations and runs -/

namespace Node.Fits

variable {n : Node}

/-- **One operation** with small numbers is that of the model. -/
theorem performChecked_eq (h : n.Fits) (hn : n.Small) {op : Operation} (hvalid : op.Valid)
    (hop : op.Small) : n.performChecked op = .ok (n.perform op) := by
  have hl : n.lock.node.Fits := h
  have htop : n.lock.node.lastLogIndexLocked + 1 < 2 ^ 64 := hn.last
  unfold Node.performChecked Node.perform
  cases op with
  | appendEntries req f =>
      dsimp only
      rw [Locked.appendEntriesChecked_eq hl htop (hvalid.placedFrom hop) hop]
      rfl
  | requestVote req f =>
      dsimp only
      rw [Locked.requestVoteChecked_eq hl]
  | startElection fails =>
      dsimp only
      rw [Locked.startElectionChecked_eq hl hn.term]
  | soloElection e =>
      dsimp only
      rw [Locked.soloElectionChecked_eq hl htop]
  | handleRequestVoteReply e reply fails =>
      dsimp only
      rw [Locked.handleRequestVoteReplyChecked_eq hl htop]
  | broadcastAppendEntries =>
      dsimp only
      rw [h.buildAppendEntriesRequestsChecked_eq hn.last]
      split <;> rfl
  | handleAppendEntriesReply term out reply fails =>
      dsimp only
      rw [Locked.handleAppendEntriesReplyChecked_eq hl htop term hop]
      rfl
  | propose command =>
      dsimp only
      rw [Locked.proposeChecked_eq hl htop]
  | proposeSync command ch =>
      dsimp only
      rw [Locked.proposeSyncChecked_eq hl htop]
  | getLogStatus =>
      obtain ⟨status, hstatus⟩ := h.getLogStatusChecked_ok
      dsimp only
      rw [hstatus]
      rfl
  | streamLogRange fromIndex toIndex =>
      obtain ⟨es, hes⟩ := h.streamChecked_ok hop (Nat.lt_succ_self (toIndex + 1 - fromIndex)) []
      dsimp only
      unfold Node.streamLogRangeChecked
      rw [hes]
      rfl
  | confirmCompaction req =>
      dsimp only
      rw [Locked.confirmCompactionChecked_eq hl]
      rfl
  | pollCompact file =>
      dsimp only
      rw [Locked.pollCompactChecked_eq hl]
      rfl
  | catchUpFromSnapshot file =>
      dsimp only
      rw [Locked.catchUpFromSnapshotChecked_eq]
      rfl

/-- A run of the model with small numbers is one of the machine. -/
theorem exec_stepChecked (h : n.Fits) {ops : List Operation} (hops : ∀ op ∈ ops, op.Valid)
    (hsmall : Runs.Along (fun n op => some (n.perform op)) (fun n op => n.Small ∧ op.Small)
      n ops) : Runs.exec Node.stepChecked n ops = some (ops.foldl Node.perform n) := by
  induction ops generalizing n with
  | nil => rfl
  | cons op ops ih =>
      obtain ⟨⟨hn, hop⟩, hrest⟩ := hsmall
      have hvalid := hops op (List.mem_cons_self ..)
      have heq := h.performChecked_eq hn hvalid hop
      -- what the machine keeps, the model keeps, as the nodes are the same
      obtain ⟨n', hn', hfits⟩ := h.performChecked hvalid (hn.clear hop)
      obtain rfl : n.perform op = n' := by
        rw [heq] at hn'
        exact Except.ok.inj hn'
      rw [Runs.exec, Node.stepChecked, heq]
      exact ih hfits (fun op' h' => hops op' (List.mem_cons_of_mem op h')) (hrest _ rfl)

end Node.Fits

/-- **Below the top the machine runs the model**: over a well-formed directory it builds the node
of the model, and any sequence of operations with small numbers leaves it with the model's. -/
theorem machine_runs_model (id address : String) (peers : List String) (cap : Nat) (d : Disk)
    (hd : d.WellFormed) (hwords : d.Words) (ops : List Operation) (hops : ∀ op ∈ ops, op.Valid)
    (hsmall : Runs.Along (fun n op => some (n.perform op)) (fun n op => n.Small ∧ op.Small)
      (newNode id address peers cap d) ops) :
    newNodeChecked id address peers cap d = .ok (newNode id address peers cap d) ∧
      Runs.exec Node.stepChecked (newNode id address peers cap d) ops =
        some (ops.foldl Node.perform (newNode id address peers cap d)) :=
  ⟨hd.newNodeChecked_eq id address peers cap hwords,
    (hd.fits_newNode id address peers cap hwords).exec_stepChecked hops hsmall⟩

end B5KvStore
