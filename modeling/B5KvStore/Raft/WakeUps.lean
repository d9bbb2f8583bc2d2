import B5KvStore.Lib.Runs
import B5KvStore.Raft.Operations
import B5KvStore.Raft.Specs

/-!
# Readers that wait for an index

`waitForApplied` parks a reader on a channel until `lastApplied` has reached its target.
`applyCommittedLocked` closes the channel and replaces it whenever it makes progress, and then
every reader looks again.  A catch-up also moves `lastApplied`, and leaves the channel as it
is: a reader whose target it reaches goes on sleeping.

* `Wakes` — a critical section leaves `lastApplied` alone, or replaces the channel.
* `Node.wakes_perform` — so does every operation but a catch-up.
* `ReaderNode`, `ReaderStep` — a node and its readers.
* `no_lost_wake_up_iff` — when no reader sleeps over its target.
-/

namespace B5KvStore

/-! ## What a critical section does to readers -/

/-- `lastApplied` and the channel stay, or the channel is closed and replaced. -/
def Wakes (s s' : Locked) : Prop :=
  (s'.node.lastApplied = s.node.lastApplied ∧ s'.node.applyWake = s.node.applyWake) ∨
    s.node.applyWake < s'.node.applyWake

namespace Wakes

theorem refl (s : Locked) : Wakes s s := Or.inl ⟨rfl, rfl⟩

theorem trans {s s' s'' : Locked} (h : Wakes s s') (h' : Wakes s' s'') : Wakes s s'' := by
  unfold Wakes at *
  omega

/-- A change of other fields, with whatever is written and observed. -/
theorem still {s s' : Locked} (happlied : s'.node.lastApplied = s.node.lastApplied)
    (hwake : s'.node.applyWake = s.node.applyWake) : Wakes s s' := Or.inl ⟨happlied, hwake⟩

end Wakes

namespace Locked

theorem wakes_persistStateLocked (s : Locked) (fails : Bool) :
    Wakes s (s.persistStateLocked fails).1 := by
  unfold persistStateLocked
  split
  · exact .refl s
  · exact .still rfl rfl

theorem wakes_setRoleLocked (s : Locked) (r : Role) : Wakes s (s.setRoleLocked r) := by
  obtain ⟨w, es, heq, -⟩ := s.setRoleLocked_spec r
  rw [heq]
  exact .still rfl rfl

theorem wakes_observeTermLocked (s : Locked) (T : Nat) (fails : Bool) :
    Wakes s (s.observeTermLocked T fails).1 := by
  unfold observeTermLocked
  split
  · exact .refl s
  · have hterm : Wakes s (s.modify fun n => { n with currentTerm := T, votedFor := "" }) :=
      .still rfl rfl
    exact (hterm.trans (wakes_setRoleLocked _ _)).trans (wakes_persistStateLocked _ _)

theorem wakes_observeRequest (s : Locked) (T : Nat) (fails : Bool) :
    Wakes s (s.observeRequest T fails).1 := by
  unfold observeRequest
  split
  · exact wakes_observeTermLocked s T fails
  · exact .refl s

theorem wakes_castVote (s : Locked) (req : RequestVoteRequest) (fails : Bool) :
    Wakes s (s.castVote req fails).1 := by
  have hsave : Wakes s ((s.modify fun n =>
      { n with votedFor := req.candidateId }).persistStateLocked fails).1 :=
    Wakes.trans (.still rfl rfl) (wakes_persistStateLocked _ fails)
  unfold castVote
  split
  · exact .refl s
  · split
    · split
      · rename_i r err heq
        rw [heq] at hsave
        exact hsave
      · rename_i r heq
        rw [heq] at hsave
        exact hsave
    · exact .refl s

theorem wakes_requestVote (s : Locked) (req : RequestVoteRequest) (f : SaveFaults) :
    Wakes s (s.requestVote req f).1 := by
  have hobs := s.wakes_observeRequest req.term f.observe
  unfold requestVote
  split
  · rename_i r err heq
    rw [heq] at hobs
    exact hobs
  · rename_i r heq
    rw [heq] at hobs
    exact hobs.trans (wakes_castVote _ _ _)

theorem wakes_becomeLeaderLocked (s : Locked) : Wakes s s.becomeLeaderLocked := by
  unfold becomeLeaderLocked
  split
  · exact .refl s
  · exact .still rfl rfl

theorem wakes_startElection (s : Locked) (fails : Bool) : Wakes s (s.startElection fails).1 := by
  have hsave : Wakes s (((s.setRoleLocked .candidate).modify fun n =>
      { n with currentTerm := n.currentTerm + 1, votedFor := n.id }).persistStateLocked fails).1 :=
    ((s.wakes_setRoleLocked .candidate).trans (.still rfl rfl)).trans
      (wakes_persistStateLocked _ fails)
  unfold startElection
  split
  · exact .refl s
  · dsimp only
    split
    · rename_i r err heq
      rw [heq] at hsave
      exact hsave
    · rename_i r heq
      rw [heq] at hsave
      exact hsave

theorem wakes_soloElection (s : Locked) (e : Election) : Wakes s (s.soloElection e) := by
  unfold soloElection
  split
  · exact wakes_becomeLeaderLocked s
  · exact .refl s

theorem wakes_handleRequestVoteReply (s : Locked) (e : Election) (reply : RequestVoteReply)
    (fails : Bool) : Wakes s (s.handleRequestVoteReply e reply fails).1 := by
  unfold handleRequestVoteReply
  split
  · exact wakes_observeTermLocked s _ _
  · split
    · exact .refl s
    · dsimp only
      generalize (if reply.voteGranted = true then e.votes + 1 else e.votes) = votes
      split
      · exact wakes_becomeLeaderLocked s
      · exact .refl s

/-- Progress replaces the channel; without progress nothing moves. -/
theorem wakes_applyCommittedLocked (s : Locked) : Wakes s s.applyCommittedLocked := by
  obtain ⟨k, w, es, heq, -⟩ := applyLoop_frame (s.node.commitIndex - s.node.lastApplied) s
  unfold applyCommittedLocked
  dsimp only
  by_cases hlt : s.node.lastApplied < s.node.commitIndex
  · rw [if_pos hlt, heq]
    exact Or.inr (Nat.lt_succ_self _)
  · rw [if_neg hlt, Nat.sub_eq_zero_of_le (Nat.le_of_not_lt hlt)]
    exact .refl s

theorem wakes_followCommit (s : Locked) (leaderCommit : Nat) :
    Wakes s (s.followCommit leaderCommit) := by
  unfold followCommit
  split
  · exact Wakes.trans (.still rfl rfl) (wakes_applyCommittedLocked _)
  · exact .refl s

theorem wakes_mergeEntriesLocked (s : Locked) (prev : Nat) (es : List LogEntry) :
    Wakes s (s.mergeEntriesLocked prev es) := by
  obtain ⟨log, ws, heq⟩ := s.mergeEntriesLocked_frame prev es
  rw [heq]
  exact .still rfl rfl

theorem wakes_acceptEntries (s : Locked) (req : AppendEntriesRequest) :
    Wakes s (s.acceptEntries req).1 := by
  have hdown : Wakes s ((s.setRoleLocked .follower).modify fun n =>
      { n with currentLeader := req.leaderId }) :=
    (s.wakes_setRoleLocked .follower).trans (.still rfl rfl)
  unfold acceptEntries
  split
  · exact .refl s
  · dsimp only
    split
    · exact hdown
    · refine hdown.trans (Wakes.trans ?_ (wakes_followCommit _ _))
      split
      · exact .refl _
      · exact wakes_mergeEntriesLocked _ _ _

theorem wakes_appendEntries (s : Locked) (req : AppendEntriesRequest) (f : SaveFaults) :
    Wakes s (s.appendEntries req f).1 := by
  have hobs := s.wakes_observeRequest req.term f.observe
  unfold appendEntries
  split
  · rename_i r err heq
    rw [heq] at hobs
    exact hobs
  · rename_i r heq
    rw [heq] at hobs
    exact hobs.trans (wakes_acceptEntries _ _)

theorem wakes_advanceLoop (s : Locked) (N : Nat) : Wakes s (s.advanceLoop N) := by
  induction N with
  | zero => exact .refl s
  | succ N ih =>
      unfold advanceLoop
      split
      · split
        · exact Wakes.trans (.still rfl rfl) (wakes_applyCommittedLocked _)
        · exact ih
      · exact .refl s

theorem wakes_handleAppendEntriesReply (s : Locked) (T : Nat) (out : OutgoingAppendEntries)
    (reply : AppendEntriesReply) (fails : Bool) :
    Wakes s (s.handleAppendEntriesReply T out reply fails).1 := by
  unfold handleAppendEntriesReply
  split
  · exact .refl s
  · unfold handleAppendEntriesReplyLocked
    dsimp only
    split
    · exact wakes_observeTermLocked s _ _
    · split
      · exact Wakes.trans (.still rfl rfl) (wakes_advanceLoop _ _)
      · exact .still rfl rfl

theorem wakes_compactLocked (s : Locked) (file : File) : Wakes s (s.compactLocked file).1 := by
  rcases s.node_compactLocked file with heq | ⟨-, -, hnode⟩
  · rw [heq]
    exact .refl s
  · exact .still (by rw [hnode]) (by rw [hnode])

end Locked

/-- Every operation but a catch-up replaces the channel if it moves `lastApplied`. -/
theorem Node.wakes_perform (n : Node) {op : Operation}
    (hop : ∀ file, op ≠ .catchUpFromSnapshot file) :
    ((n.perform op).lastApplied = n.lastApplied ∧ (n.perform op).applyWake = n.applyWake) ∨
      n.applyWake < (n.perform op).applyWake := by
  cases op with
  | appendEntries req f => exact n.lock.wakes_appendEntries req f
  | requestVote req f => exact n.lock.wakes_requestVote req f
  | startElection fails => exact n.lock.wakes_startElection fails
  | soloElection e => exact n.lock.wakes_soloElection e
  | handleRequestVoteReply e reply fails => exact n.lock.wakes_handleRequestVoteReply e reply fails
  | broadcastAppendEntries => exact Or.inl ⟨rfl, rfl⟩
  | handleAppendEntriesReply term out reply fails =>
      exact n.lock.wakes_handleAppendEntriesReply term out reply fails
  | propose command =>
      unfold perform Locked.propose
      dsimp only
      split
      · exact Or.inl ⟨rfl, rfl⟩
      · exact Or.inl ⟨rfl, rfl⟩
  | proposeSync command ch =>
      unfold perform Locked.proposeSync
      dsimp only
      split
      · exact Or.inl ⟨rfl, rfl⟩
      · exact Or.inl ⟨rfl, rfl⟩
  | getLogStatus => exact Or.inl ⟨rfl, rfl⟩
  | streamLogRange fromIndex toIndex => exact Or.inl ⟨rfl, rfl⟩
  | confirmCompaction req =>
      unfold perform
      dsimp only
      rcases n.lock.confirmCompaction_cases req with heq | ⟨file, heq⟩
      · rw [heq]
        exact Or.inl ⟨rfl, rfl⟩
      · rw [heq]
        exact n.lock.wakes_compactLocked file
  | pollCompact file =>
      unfold perform
      dsimp only
      rcases n.lock.pollCompact_cases file with heq | heq
      · rw [heq]
        exact Or.inl ⟨rfl, rfl⟩
      · rw [heq]
        exact n.lock.wakes_compactLocked file
  | catchUpFromSnapshot file => exact absurd rfl (hop file)

/-- A catch-up leaves the channel, and moves `lastApplied` up to the snapshot's index. -/
theorem Node.perform_catchUpFromSnapshot (n : Node) (file : File) :
    (n.perform (.catchUpFromSnapshot file)).applyWake = n.applyWake ∧
      (n.perform (.catchUpFromSnapshot file)).lastApplied =
        max n.lastApplied file.lastIncludedIndex := by
  unfold perform Locked.catchUpFromSnapshot Locked.adoptSnapshot
  dsimp only
  by_cases hzero : file.lastIncludedIndex = 0
  · rw [if_pos hzero, hzero]
    exact ⟨rfl, (Nat.max_zero _).symm⟩
  · rw [if_neg hzero, Locked.node_modify, Locked.node_replaceSnapshotFileLocked]
    refine ⟨rfl, ?_⟩
    change (if n.lastApplied < file.lastIncludedIndex then file.lastIncludedIndex
      else n.lastApplied) = _
    by_cases hlt : n.lastApplied < file.lastIncludedIndex
    · rw [if_pos hlt, Nat.max_eq_right (Nat.le_of_lt hlt)]
    · rw [if_neg hlt, Nat.max_eq_left (Nat.le_of_not_lt hlt)]

/-! ## A node and its readers -/

/-- A caller of `waitForApplied` that is parked, with the number of its channel. -/
structure Reader where
  target : Nat
  channel : Nat
  deriving DecidableEq, Repr

structure ReaderNode where
  node : Node
  parked : List Reader

/-- What may happen. -/
inductive ReaderStep where
  | operate (op : Operation)
  /-- A call of `waitForApplied` looks at the node for the first time. -/
  | waitForApplied (target : Nat)
  /-- The channel of a reader is closed, and the reader looks again. -/
  | wake (k : Nat)
  /-- The context of a reader is done. -/
  | cancel (k : Nat)

/-- The critical section of `waitForApplied`: the reader returns, or parks on the current
channel. -/
def Node.look (n : Node) (target : Nat) : List Reader :=
  if target ≤ n.lastApplied then [] else [⟨target, n.applyWake⟩]

namespace ReaderNode

def step (s : ReaderNode) : ReaderStep → Option ReaderNode
  | .operate op => some { s with node := s.node.perform op }
  | .waitForApplied target => some { s with parked := s.parked ++ s.node.look target }
  | .wake k =>
      match s.parked[k]? with
      | none => none
      | some r =>
          -- channels with a smaller number have been closed
          if r.channel < s.node.applyWake then
            some { s with parked := s.parked.eraseIdx k ++ s.node.look r.target }
          else none
  | .cancel k =>
      if k < s.parked.length then some { s with parked := s.parked.eraseIdx k } else none

/-- Whoever is parked on the current channel waits for an index that is still to come. -/
def NoLostWakeUp (s : ReaderNode) : Prop :=
  ∀ r ∈ s.parked, r.channel = s.node.applyWake → s.node.lastApplied < r.target

/-- A catch-up ends below the targets of the readers that are parked on the current
channel. -/
def EndsBelow (s : ReaderNode) : ReaderStep → Prop
  | .operate (.catchUpFromSnapshot file) =>
      ∀ r ∈ s.parked, r.channel = s.node.applyWake → file.lastIncludedIndex < r.target
  | _ => True

/-- The invariant: besides, no reader is parked on a channel that does not exist yet. -/
structure Parked (s : ReaderNode) : Prop where
  awake : s.NoLostWakeUp
  known : ∀ r ∈ s.parked, r.channel ≤ s.node.applyWake

variable {s : ReaderNode}

/-- The readers change and the node does not. -/
theorem Parked.readers (h : s.Parked) {parked : List Reader} (target : Nat)
    (hsub : ∀ r ∈ parked, r ∈ s.parked ∨ r ∈ s.node.look target) :
    Parked { s with parked := parked } := by
  have hlook : ∀ r ∈ s.node.look target,
      s.node.lastApplied < r.target ∧ r.channel = s.node.applyWake := by
    intro r hr
    unfold Node.look at hr
    by_cases hle : target ≤ s.node.lastApplied
    · rw [if_pos hle] at hr
      exact absurd hr List.not_mem_nil
    · rw [if_neg hle, List.mem_singleton] at hr
      exact hr ▸ ⟨Nat.lt_of_not_le hle, rfl⟩
  refine ⟨fun r hr hch => ?_, fun r hr => ?_⟩
  · rcases hsub r hr with hold | hnew
    · exact h.awake r hold hch
    · exact (hlook r hnew).1
  · rcases hsub r hr with hold | hnew
    · exact h.known r hold
    · exact Nat.le_of_eq (hlook r hnew).2

theorem Parked.operate (h : s.Parked) {op : Operation} (hok : s.EndsBelow (.operate op)) :
    Parked { s with node := s.node.perform op } := by
  by_cases hop : ∃ file, op = .catchUpFromSnapshot file
  · obtain ⟨file, rfl⟩ := hop
    obtain ⟨hwake, happlied⟩ := s.node.perform_catchUpFromSnapshot file
    refine ⟨fun r hr hch => ?_, fun r hr => ?_⟩
    · have hch : r.channel = s.node.applyWake := hch.trans hwake
      have hlast := h.awake r hr hch
      have hfile := hok r hr hch
      dsimp only
      omega
    · have hle := h.known r hr
      dsimp only
      omega
  · rcases s.node.wakes_perform fun file heq => hop ⟨file, heq⟩ with ⟨happlied, hwake⟩ | hlt
    · refine ⟨fun r hr hch => ?_, fun r hr => ?_⟩
      · have hlast := h.awake r hr (hch.trans hwake)
        dsimp only
        omega
      · have hle := h.known r hr
        dsimp only
        omega
    · -- nobody is parked on the new channel yet
      refine ⟨fun r hr hch => ?_, fun r hr => ?_⟩
      · have hle := h.known r hr
        dsimp only at hch
        omega
      · have hle := h.known r hr
        dsimp only
        omega

theorem Parked.step {a : ReaderStep} {s' : ReaderNode} (h : s.Parked) (hok : s.EndsBelow a)
    (hs' : s.step a = some s') : s'.Parked := by
  cases a with
  | operate op =>
      cases hs'
      exact h.operate hok
  | waitForApplied target =>
      cases hs'
      exact h.readers target fun r hr => List.mem_append.1 hr
  | wake k =>
      unfold ReaderNode.step at hs'
      dsimp only at hs'
      cases hk : s.parked[k]? with
      | none =>
          rw [hk] at hs'
          exact absurd hs' (by simp)
      | some r =>
          rw [hk] at hs'
          dsimp only at hs'
          by_cases hclosed : r.channel < s.node.applyWake
          · rw [if_pos hclosed] at hs'
            cases hs'
            exact h.readers r.target fun x hx =>
              (List.mem_append.1 hx).imp_left List.mem_of_mem_eraseIdx
          · rw [if_neg hclosed] at hs'
            exact absurd hs' (by simp)
  | cancel k =>
      unfold ReaderNode.step at hs'
      dsimp only at hs'
      by_cases hk : k < s.parked.length
      · rw [if_pos hk] at hs'
        cases hs'
        exact h.readers 0 fun x hx => Or.inl (List.mem_of_mem_eraseIdx hx)
      · rw [if_neg hk] at hs'
        exact absurd hs' (by simp)

/-- A catch-up that reaches the target of a parked reader leaves it asleep. -/
theorem lost_of_not_endsBelow {a : ReaderStep} (hok : ¬ s.EndsBelow a) :
    ∃ s', s.step a = some s' ∧ ¬ s'.NoLostWakeUp := by
  cases a with
  | waitForApplied target => exact absurd trivial hok
  | wake k => exact absurd trivial hok
  | cancel k => exact absurd trivial hok
  | operate op =>
      by_cases hop : ∃ file, op = .catchUpFromSnapshot file
      · obtain ⟨file, rfl⟩ := hop
        refine ⟨_, rfl, fun hno => hok fun r hr hch => ?_⟩
        obtain ⟨hwake, happlied⟩ := s.node.perform_catchUpFromSnapshot file
        have hlast := hno r hr (hch.trans hwake.symm)
        dsimp only at hlast
        omega
      · refine absurd ?_ hok
        cases op with
        | catchUpFromSnapshot file => exact absurd ⟨file, rfl⟩ hop
        | _ => trivial

end ReaderNode

/-- **Wake-ups.**  In every run of a node and its readers, everybody who is parked on the
current channel waits for an index that is still to come, exactly if each catch-up ends below
the targets of the readers parked on that channel. -/
theorem no_lost_wake_up_iff (n : Node) (steps : List ReaderStep) :
    Runs.Always ReaderNode.step ReaderNode.NoLostWakeUp ⟨n, []⟩ steps ↔
      Runs.Along ReaderNode.step ReaderNode.EndsBelow ⟨n, []⟩ steps :=
  Runs.always_iff_along (I := ReaderNode.Parked) (fun _ h => h.awake)
    (fun _ _ _ h hok hs' => h.step hok hs')
    (fun _ _ _ hok => ReaderNode.lost_of_not_endsBelow hok)
    ⟨fun _ h => absurd h List.not_mem_nil, fun _ h => absurd h List.not_mem_nil⟩

/-- A reader waits for index 3, and a catch-up to index 5 does not wake it. -/
theorem lost_wake_up :
    ∃ s, Runs.exec ReaderNode.step ⟨newNode "a" "a" ["b", "c"] 3 Disk.empty, []⟩
        [.waitForApplied 3, .operate (.catchUpFromSnapshot ⟨fun _ => none, 5, 1⟩)] = some s ∧
      s.parked = [⟨3, 0⟩] ∧ s.node.applyWake = 0 ∧ s.node.lastApplied = 5 :=
  ⟨_, rfl, rfl, rfl, rfl⟩

end B5KvStore
