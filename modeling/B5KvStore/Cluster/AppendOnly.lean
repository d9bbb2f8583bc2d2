import B5KvStore.Raft.Recovery
import B5KvStore.Cluster.ElectionSafety

/-!
# Leaders only append

A leader's log changes in three ways only: it grows, it is compacted, and the poll
loop may replace it by a snapshot.  Only the last can take entries away, and it does
when the snapshot ends below the log.  A node that has led a term never leads it
again: its vote for itself was saved, so a restart does not bring it back to an
earlier term, and a later election is one of a later term.

* `Node.Follows` — how term and role move in one critical section.
* `Node.Grows` — what a leader keeps of its log.
* `Effect.grows` — what one critical section keeps.
* `leader_append_only` — what a whole run keeps.
-/

namespace B5KvStore

/-! ## Terms and roles -/

/-- A later term does not start with leading it, and in one term a candidate may
become a leader but nobody becomes a candidate. -/
def Node.Follows (n n' : Node) : Prop :=
  (n.currentTerm < n'.currentTerm ∧ n'.role ≠ .leader) ∨
  (n'.currentTerm = n.currentTerm ∧ (n'.role = n.role ∨ n'.role = .follower ∨
    (n.role = .candidate ∧ n'.role = .leader)))

/-- The node does not lead term `T`, and never will. -/
def Node.Past (n : Node) (T : Nat) : Prop :=
  T < n.currentTerm ∨ (n.currentTerm = T ∧ n.role = .follower)

namespace Node

variable {n n' : Node} {s s' : Locked}

theorem Follows.refl (n : Node) : Follows n n := Or.inr ⟨rfl, Or.inl rfl⟩

theorem Follows.keepsVote (h : Follows n s.node) (hk : KeepsVote s s') : Follows n s'.node := by
  unfold Follows at h ⊢
  rw [hk.currentTerm]
  rcases hk.role with hr | hr
  · rw [hr]
    exact h
  · rw [hr]
    rcases h with ⟨hlt, -⟩ | ⟨heq, -⟩
    · exact Or.inl ⟨hlt, by simp⟩
    · exact Or.inr ⟨heq, Or.inr (Or.inl rfl)⟩

theorem Past.follows {T : Nat} (h : n.Past T) (hf : Follows n n') : n'.Past T := by
  rcases hf with ⟨hlt, -⟩ | ⟨heq, hrole⟩
  · rcases h with h | ⟨h, -⟩
    · exact Or.inl (h.trans hlt)
    · exact Or.inl (h ▸ hlt)
  · rcases h with h | ⟨h, hf⟩
    · exact Or.inl (heq ▸ h)
    · refine Or.inr ⟨heq.trans h, ?_⟩
      rcases hrole with hr | hr | ⟨hr, -⟩
      · rw [hr, hf]
      · exact hr
      · rw [hf] at hr
        exact absurd hr (by simp)

theorem follows_observeTermLocked (s : Locked) (T : Nat) (fails : Bool) :
    Follows s.node (s.observeTermLocked T fails).1.node := by
  unfold Locked.observeTermLocked
  split
  · exact .refl _
  · rename_i hT
    dsimp only
    rw [Locked.node_persistStateLocked]
    have hk := Locked.keepsVote_setRoleLocked_follower (s.modify fun n =>
      { n with currentTerm := T, votedFor := "" })
    refine Or.inl ⟨?_, by simp [Locked.setRoleLocked]⟩
    rw [hk.currentTerm]
    exact not_le.1 hT

theorem follows_observeRequest (s : Locked) (T : Nat) (fails : Bool) :
    Follows s.node (s.observeRequest T fails).1.node := by
  unfold Locked.observeRequest
  split
  · exact follows_observeTermLocked s T fails
  · exact .refl _

/-- Casting a vote changes neither term nor role. -/
theorem castVote_role (s : Locked) (req : RequestVoteRequest) (fails : Bool) :
    (s.castVote req fails).1.node.currentTerm = s.node.currentTerm ∧
      (s.castVote req fails).1.node.role = s.node.role := by
  unfold Locked.castVote
  split
  · exact ⟨rfl, rfl⟩
  · split
    · cases fails with
      | true => exact ⟨rfl, rfl⟩
      | false => exact ⟨rfl, rfl⟩
    · exact ⟨rfl, rfl⟩

theorem follows_requestVote (s : Locked) (req : RequestVoteRequest) (f : SaveFaults) :
    Follows s.node (s.requestVote req f).1.node := by
  have hobs := follows_observeRequest s req.term f.observe
  unfold Locked.requestVote
  split
  · rename_i r err heq
    rw [heq] at hobs
    exact hobs
  · rename_i r heq
    rw [heq] at hobs
    obtain ⟨hterm, hrole⟩ := castVote_role r req f.vote
    unfold Follows at hobs ⊢
    rw [hterm, hrole]
    exact hobs

theorem follows_startElection (s : Locked) (fails : Bool) :
    Follows s.node (s.startElection fails).1.node := by
  unfold Locked.startElection
  split
  · exact .refl _
  · rename_i hrole
    refine Or.inl ?_
    cases fails with
    | true => simp [Locked.persistStateLocked, Locked.setRoleLocked, hrole]
    | false => simp [Locked.persistStateLocked, Locked.setRoleLocked, hrole]

theorem follows_becomeLeaderLocked (s : Locked) : Follows s.node s.becomeLeaderLocked.node := by
  unfold Locked.becomeLeaderLocked
  split
  · exact .refl _
  · rename_i hrole
    rw [not_not] at hrole
    exact Or.inr ⟨rfl, Or.inr (Or.inr ⟨hrole, rfl⟩)⟩

theorem follows_soloElection (s : Locked) (e : Election) :
    Follows s.node (s.soloElection e).node := by
  unfold Locked.soloElection
  split
  · exact follows_becomeLeaderLocked s
  · exact .refl _

theorem follows_handleRequestVoteReply (s : Locked) (e : Election) (reply : RequestVoteReply)
    (fails : Bool) : Follows s.node (s.handleRequestVoteReply e reply fails).1.node := by
  unfold Locked.handleRequestVoteReply
  split
  · exact follows_observeTermLocked s _ _
  · split
    · exact .refl _
    · dsimp only
      generalize (if reply.voteGranted = true then e.votes + 1 else e.votes) = votes
      split
      · exact follows_becomeLeaderLocked s
      · exact .refl _

end Node

/-- **Terms and roles** in any critical section. -/
theorem Effect.follows {c : Config} {s : Cluster} {op : Op} {o : Outcome} (h : Effect c s op o) :
    (s.hosts o.host).node.Follows o.result.node := by
  have hkeep : ∀ {n : Node} {r : Locked}, KeepsVote n.lock r → n.Follows r.node :=
    fun hk => (Node.Follows.refl _).keepsVote hk
  cases h with
  | startElection p fails hp => exact Node.follows_startElection (s.hosts p).node.lock fails
  | soloElection k call hk hepoch hq =>
      exact Node.follows_soloElection (s.hosts call.candidate).node.lock _
  | requestVote k call peer f hk hp hsent =>
      exact Node.follows_requestVote (s.hosts peer).node.lock _ f
  | requestVoteReply k call peer fails reply hk hepoch hans =>
      exact Node.follows_handleRequestVoteReply (s.hosts call.candidate).node.lock _ _ _
  | broadcast op p read s' hp hrole hs' => exact .refl _
  | appendEntries k b out peer f hk hout hpeer hp hsent =>
      exact (Node.follows_observeRequest (s.hosts peer).node.lock out.req.term f.observe).keepsVote
        (keepsVote_appendEntries _ _ _)
  | appendEntriesReply k b out peer fails reply s' hk hout hfind hpeer hepoch hans hs' =>
      obtain ⟨T, hkeep⟩ := keepsVote_handleAppendEntriesReply
        (s.hosts b.leader).node.lock b.term out reply fails
      exact (Node.follows_observeRequest (s.hosts b.leader).node.lock T fails).keepsVote hkeep
  | propose p command hp => exact hkeep (Locked.keepsVote_propose _ _)
  | proposeSync p command hp s' hs' => exact hkeep (Locked.keepsVote_proposeSync _ _ _)
  | idle op p r s' hr hs' => exact hkeep (keepsVote_idle hr)
  | confirmCompaction p req hp => exact hkeep (Locked.keepsVote_confirmCompaction _ _)
  | pollWait op p ph hp hop hfrom hph hpos hph' => exact .refl _
  | pollWriteFile p file hp hpoll => exact .refl _
  | pollRewriteLog p file hp hpoll => exact .refl _
  | pollRestore p file hp hpoll => exact .refl _
  | pollAdopt p file hp hpoll => exact hkeep (Locked.keepsVote_adoptSnapshot _ _)
  | pollCompact p file hp hpoll => exact hkeep (Locked.keepsVote_pollCompact _ _)

/-! ## Anchors -/

/-- The snapshot file, if there is one, is named after the first index of the log, and
a log with an anchor is not empty. -/
structure Node.Anchored (n : Node) : Prop where
  path : ∀ k, n.currentSnapshotPath = some k → n.logOffset + 1 = k
  nonempty : 0 < n.anchorIndex → n.log ≠ []

namespace Node.Anchored

variable {n n' : Node} {s s' : Locked} {file : File}

theorem anchorIndex_le (h : n.Anchored) : n.anchorIndex ≤ n.logOffset + 1 := by
  unfold Node.anchorIndex
  split
  · cases hk : n.currentSnapshotPath with
    | none => exact Nat.zero_le _
    | some k => exact (h.path k hk).ge
  · exact le_refl _

theorem anchorIndex_le_last (h : n.Anchored) : n.anchorIndex ≤ n.lastLogIndexLocked := by
  rcases Nat.eq_zero_or_pos n.anchorIndex with h0 | hpos
  · omega
  · have hlen := List.length_pos_of_ne_nil (h.nonempty hpos)
    have := h.anchorIndex_le
    unfold Node.lastLogIndexLocked
    omega

theorem keepsLog (h : s.node.Anchored) (hk : KeepsLog s s') : s'.node.Anchored where
  path k hk' := by
    rw [hk.logOffset]
    exact h.path k (hk.path ▸ hk')
  nonempty hpos := by
    unfold Node.anchorIndex at hpos
    rw [hk.logOffset, hk.path] at hpos
    rw [hk.log]
    exact h.nonempty hpos

/-- A longer log. -/
theorem setLog (h : n.Anchored) {es : List LogEntry} (hes : n.log ≠ [] → es ≠ []) :
    ({ n with log := es } : Node).Anchored := ⟨h.path, fun hpos => hes (h.nonempty hpos)⟩

/-- A log that starts with the anchor of a snapshot. -/
theorem anchor (hpos : 0 < file.lastIncludedIndex) (es : List LogEntry)
    (hpath : n.currentSnapshotPath = some file.lastIncludedIndex)
    (hoff : n.logOffset = file.lastIncludedIndex - 1) (hlog : n.log = file.anchor :: es) :
    n.Anchored ∧ n.anchorIndex = file.lastIncludedIndex := by
  refine ⟨⟨fun k hk => ?_, fun _ => by rw [hlog]; simp⟩, ?_⟩
  · rw [hpath, Option.some.injEq] at hk
    omega
  · unfold Node.anchorIndex
    rw [hpath, hoff]
    split
    · rfl
    · omega

theorem restart (n : Node) (d : Disk) : (n.restart d).Anchored := by
  by_cases hf : ∃ f, d.latest = some f ∧ 0 < f.lastIncludedIndex
  · obtain ⟨f, hf, hpos⟩ := hf
    obtain ⟨hlog, hoff, hpath⟩ := n.restart_of_latest hf hpos
    exact (anchor hpos _ hpath hoff hlog).1
  · rw [not_exists] at hf
    obtain ⟨hlog, hpath, hoff⟩ := n.restart_of_none fun f hd => by
      have := not_and.1 (hf f) hd
      omega
    refine ⟨fun k hk => by rw [hpath] at hk; exact absurd hk (by simp), fun hpos hnil => ?_⟩
    rw [hlog] at hnil
    rw [hnil] at hoff
    unfold Node.anchorIndex at hpos
    rw [if_pos (by simpa using hoff), hpath] at hpos
    exact absurd hpos (by simp)

end Node.Anchored

/-! ## Logs -/

/-- `n'` keeps the log of `n`, except for what an anchor has taken the place of. -/
structure Node.Grows (n n' : Node) : Prop where
  anchor : n.anchorIndex ≤ n'.anchorIndex
  last : n.lastLogIndexLocked ≤ n'.lastLogIndexLocked
  entry : ∀ i e, n'.anchorIndex < i → n.entryAtLocked i = some e → n'.entryAtLocked i = some e

namespace Node.Grows

variable {n n' n'' : Node} {s s' : Locked} {file : File}

theorem refl (n : Node) : Grows n n := ⟨le_refl _, le_refl _, fun _ _ _ h => h⟩

theorem trans (h : Grows n n') (h' : Grows n' n'') : Grows n n'' where
  anchor := h.anchor.trans h'.anchor
  last := h.last.trans h'.last
  entry i e hi he := h'.entry i e hi (h.entry i e (lt_of_le_of_lt h'.anchor hi) he)

theorem keepsLog (hk : KeepsLog s s') : Grows s.node s'.node := by
  have hanchor : s'.node.anchorIndex = s.node.anchorIndex := by
    unfold Node.anchorIndex
    rw [hk.logOffset, hk.path]
  refine ⟨hanchor.ge, ?_, fun i e _ he => ?_⟩
  · unfold Node.lastLogIndexLocked
    rw [hk.logOffset, hk.log]
  · unfold Node.entryAtLocked at he ⊢
    rw [hk.logOffset, hk.log]
    exact he

theorem append (n : Node) (es : List LogEntry) : Grows n { n with log := n.log ++ es } := by
  refine ⟨le_refl _, ?_, fun i e _ he => ?_⟩
  · unfold Node.lastLogIndexLocked
    simp
  · unfold Node.entryAtLocked at he ⊢
    dsimp only
    split at he
    · exact absurd he (by simp)
    · rw [if_neg (by rw [List.length_append]; omega), List.getElem?_append_left (by omega)]
      exact he

/-- Compaction up to an index the log holds. -/
theorem compact (h : n.Anchored) (hA : n.logOffset < file.lastIncludedIndex)
    (hlast : file.lastIncludedIndex ≤ n.lastLogIndexLocked)
    (hpath : n'.currentSnapshotPath = some file.lastIncludedIndex)
    (hoff : n'.logOffset = file.lastIncludedIndex - 1)
    (hlog : n'.log = file.anchor :: n.log.drop (file.lastIncludedIndex - n.logOffset)) :
    Grows n n' := by
  obtain ⟨-, hanchor⟩ := Node.Anchored.anchor (by omega) _ hpath hoff hlog
  have hle := h.anchorIndex_le
  unfold Node.lastLogIndexLocked at hlast
  refine ⟨by omega, ?_, fun i e hi he => ?_⟩
  · unfold Node.lastLogIndexLocked
    rw [hoff, hlog, List.length_cons, List.length_drop]
    omega
  · unfold Node.entryAtLocked at he ⊢
    rw [hoff, hlog, List.length_cons, List.length_drop]
    split at he
    · exact absurd he (by simp)
    · rw [if_neg (by omega), show i - (file.lastIncludedIndex - 1) - 1 =
        (i - file.lastIncludedIndex - 1) + 1 by omega, List.getElem?_cons_succ,
        List.getElem?_drop, show file.lastIncludedIndex - n.logOffset +
          (i - file.lastIncludedIndex - 1) = i - n.logOffset - 1 by omega]
      exact he

/-- A snapshot in place of a log that ends at or below it. -/
theorem adopt (h : n.Anchored) (hpos : 0 < file.lastIncludedIndex)
    (hlast : n.lastLogIndexLocked ≤ file.lastIncludedIndex)
    (hpath : n'.currentSnapshotPath = some file.lastIncludedIndex)
    (hoff : n'.logOffset = file.lastIncludedIndex - 1) (hlog : n'.log = [file.anchor]) :
    Grows n n' := by
  obtain ⟨-, hanchor⟩ := Node.Anchored.anchor hpos _ hpath hoff hlog
  refine ⟨by rw [hanchor]; exact h.anchorIndex_le_last.trans hlast, ?_, fun i e hi he => ?_⟩
  · rw [show n'.lastLogIndexLocked = file.lastIncludedIndex by
      unfold Node.lastLogIndexLocked
      rw [hoff, hlog, List.length_singleton]
      omega]
    exact hlast
  · unfold Node.entryAtLocked at he
    unfold Node.lastLogIndexLocked at hlast
    rw [if_pos (by omega)] at he
    exact absurd he (by simp)

end Node.Grows

namespace Locked

variable {s : Locked} {file : File}

/-- A node that is still the leader has not accepted anything. -/
theorem acceptEntries_of_leader (s : Locked) (req : AppendEntriesRequest)
    (h : (s.acceptEntries req).1.node.role = .leader) : (s.acceptEntries req).1 = s := by
  unfold acceptEntries at h ⊢
  split at h
  · rename_i hlt
    rw [if_pos hlt]
  · -- it has become a follower, and stays one
    exfalso
    have hdown : ((s.setRoleLocked .follower).modify fun n =>
        { n with currentLeader := req.leaderId }).node.role = .follower := rfl
    generalize ((s.setRoleLocked .follower).modify fun n =>
        { n with currentLeader := req.leaderId }) = t at h hdown
    dsimp only at h
    split at h
    · rw [hdown] at h
      exact absurd h (by simp)
    · have hk : KeepsVote t ((if req.entries = [] then t
          else t.mergeEntriesLocked req.prevLogIndex req.entries).followCommit req.leaderCommit) := by
        refine KeepsVote.trans ?_ (keepsVote_followCommit _ _)
        split
        · exact .refl _
        · exact keepsVote_mergeEntriesLocked _ _ _
      rcases hk.role with hr | hr
      · rw [hr, hdown] at h
        exact absurd h (by simp)
      · rw [hr] at h
        exact absurd h (by simp)

theorem keepsLog_appendEntries_of_leader (s : Locked) (req : AppendEntriesRequest) (f : SaveFaults)
    (h : (s.appendEntries req f).1.node.role = .leader) :
    KeepsLog s (s.appendEntries req f).1 := by
  have hobs := s.keepsLog_observeRequest req.term f.observe
  unfold appendEntries at h ⊢
  split at h
  · rename_i r err heq
    rw [heq] at hobs
    exact hobs
  · rename_i r heq
    rw [heq] at hobs
    dsimp only at h ⊢
    rw [r.acceptEntries_of_leader req h]
    exact hobs

theorem anchored_compactLocked (h : s.node.Anchored) (file : File) :
    (s.compactLocked file).1.node.Anchored ∧ s.node.Grows (s.compactLocked file).1.node := by
  rcases s.node_compactLocked file with heq | ⟨hlt, hle, hnode⟩
  · rw [heq]
    exact ⟨h, .refl _⟩
  · rw [hnode]
    exact ⟨(Node.Anchored.anchor (by omega) _ rfl rfl rfl).1, .compact h hlt hle rfl rfl rfl⟩

theorem anchored_confirmCompaction (h : s.node.Anchored) (req : CompactionAck) :
    (s.confirmCompaction req).1.node.Anchored ∧ s.node.Grows (s.confirmCompaction req).1.node := by
  rcases s.confirmCompaction_cases req with heq | ⟨file, heq⟩
  · rw [heq]
    exact ⟨h, .refl _⟩
  · rw [heq]
    exact anchored_compactLocked h file

theorem anchored_pollCompact (h : s.node.Anchored) (file : File) :
    (s.pollCompact file).node.Anchored ∧ s.node.Grows (s.pollCompact file).node := by
  rcases s.pollCompact_cases file with heq | heq
  · rw [heq]
    exact ⟨h, .refl _⟩
  · rw [heq]
    exact anchored_compactLocked h file

theorem node_adoptSnapshot (s : Locked) (file : File) :
    (s.adoptSnapshot file).node.currentSnapshotPath = some file.lastIncludedIndex ∧
    (s.adoptSnapshot file).node.logOffset = file.lastIncludedIndex - 1 ∧
    (s.adoptSnapshot file).node.log = [file.anchor] := by
  unfold adoptSnapshot
  rw [node_modify, node_replaceSnapshotFileLocked]
  exact ⟨rfl, rfl, rfl⟩

/-- Merging never leaves a log empty that was not. -/
theorem anchored_mergeEntriesLocked (h : s.node.Anchored) (prev : Nat) (es : List LogEntry) :
    (s.mergeEntriesLocked prev es).node.Anchored := by
  unfold mergeEntriesLocked
  dsimp only
  generalize skipCompacted s.node.logOffset (prev + 1) es = start
  have hm := s.merged_mergeLoop start.1 start.2
  generalize s.mergeLoop start.1 start.2 = merged at hm ⊢
  cases hm with
  | kept j hj hex hnone =>
      split
      · exact h
      · exact h.setLog fun hne => by simp [hne]
  | cut j old hj hex hold hterm =>
      have hrest : start.2.drop j ≠ [] := by
        rw [ne_eq, List.drop_eq_nil_iff]
        omega
      rw [if_neg hrest]
      exact h.setLog fun _ => by simp [hrest]

theorem anchored_appendEntries (h : s.node.Anchored) (req : AppendEntriesRequest) (f : SaveFaults) :
    (s.appendEntries req f).1.node.Anchored := by
  have hobs := h.keepsLog (s.keepsLog_observeRequest req.term f.observe)
  unfold appendEntries
  split
  · rename_i r err heq
    rw [heq] at hobs
    exact hobs
  · rename_i r heq
    rw [heq] at hobs
    dsimp only
    unfold acceptEntries
    split
    · exact hobs
    · have hdown := hobs.keepsLog ((r.keepsLog_setRoleLocked .follower).trans
        (.modify (f := fun n => { n with currentLeader := req.leaderId }) rfl rfl rfl rfl))
      dsimp only
      split
      · exact hdown
      · refine Node.Anchored.keepsLog ?_ (keepsLog_followCommit _ _)
        split
        · exact hdown
        · exact anchored_mergeEntriesLocked hdown _ _

end Locked

/-! ## Steps -/

/-- What holds of every process: its anchor is in order, and so is the snapshot its poll
loop is about to adopt. -/
structure Host.InOrder (h : Host) : Prop where
  anchored : h.node.Anchored
  poll : ∀ file, h.poll.catchUpFile? = some file → 0 < file.lastIncludedIndex

/-- A leader adopts a snapshot only if its log does not reach beyond it. -/
def KeepsLeaderLog (s : Cluster) : Action → Prop
  | .run (.pollAdopt p) => (s.hosts p).node.role = .leader → ∀ file,
      (s.hosts p).poll = .restored file →
      (s.hosts p).node.lastLogIndexLocked ≤ file.lastIncludedIndex
  | _ => True

instance KeepsLeaderLog.decidable (s : Cluster) : (a : Action) → Decidable (KeepsLeaderLog s a)
  | .run (.pollAdopt p) => decidable_of_iff ((s.hosts p).node.role = .leader →
      ∀ file ∈ (s.hosts p).poll.restored?,
        (s.hosts p).node.lastLogIndexLocked ≤ file.lastIncludedIndex)
      (by simp only [KeepsLeaderLog, PollPhase.restored?_eq_some])
  | .run (.startElection ..) | .run (.soloElection ..) | .run (.requestVote ..)
  | .run (.requestVoteReply ..) | .run (.broadcastAppendEntries ..) | .run (.appendEntries ..)
  | .run (.appendEntriesReply ..) | .run (.propose ..) | .run (.proposeSync ..)
  | .run (.proposeReturn ..) | .run (.proposeCancel ..) | .run (.startRead ..)
  | .run (.requestReadIndex ..) | .run (.confirmLeadership ..) | .run (.readIndexFailed ..)
  | .run (.readIndexReply ..) | .run (.readApplied ..) | .run (.readTimeout ..)
  | .run (.getStatus ..) | .run (.getValue ..) | .run (.confirmCompaction ..)
  | .run (.pollInfo ..) | .run (.pollDecide ..) | .run (.pollFetch ..) | .run (.pollAbort ..)
  | .run (.pollWriteFile ..) | .run (.pollRewriteLog ..) | .run (.pollRestore ..)
  | .run (.pollCompact ..) | .crash _ | .crashDuring _ _ | .publish _ => instDecidableTrue

namespace Effect

variable {c : Config} {s : Cluster} {op : Op} {o : Outcome}

/-- **One critical section**: anchors stay in order, and whoever is still the leader
has kept its log. -/
theorem grows (h : Effect c s op o) (hord : (s.hosts o.host).InOrder)
    (hok : KeepsLeaderLog s (.run op)) : o.result.node.Anchored ∧
      (o.result.node.role = .leader → (s.hosts o.host).node.role = .leader →
        (s.hosts o.host).node.Grows o.result.node) := by
  have hkeep : ∀ {r : Locked}, KeepsLog (s.hosts o.host).node.lock r →
      r.node.Anchored ∧ (r.node.role = .leader → (s.hosts o.host).node.role = .leader →
        (s.hosts o.host).node.Grows r.node) :=
    fun hk => ⟨hord.anchored.keepsLog hk, fun _ _ => .keepsLog hk⟩
  have happend : ∀ es : List LogEntry, ({ (s.hosts o.host).node with
      log := (s.hosts o.host).node.log ++ es } : Node).Anchored ∧
      (s.hosts o.host).node.Grows
        { (s.hosts o.host).node with log := (s.hosts o.host).node.log ++ es } :=
    fun es => ⟨hord.anchored.setLog fun hne => by simp [hne], .append _ es⟩
  cases h with
  | startElection p fails hp => exact hkeep (Locked.keepsLog_startElection _ _)
  | soloElection k call hk hepoch hq => exact hkeep (Locked.keepsLog_soloElection _ _)
  | requestVote k call peer f hk hp hsent => exact hkeep (Locked.keepsLog_requestVote _ _ _)
  | requestVoteReply k call peer fails reply hk hepoch hans =>
      exact hkeep (Locked.keepsLog_handleRequestVoteReply _ _ _ _)
  | broadcast op p read s' hp hrole hs' => exact hkeep (.refl _)
  | appendEntries k b out peer f hk hout hpeer hp hsent =>
      exact ⟨Locked.anchored_appendEntries hord.anchored _ _,
        fun hl _ => .keepsLog (Locked.keepsLog_appendEntries_of_leader _ _ _ hl)⟩
  | appendEntriesReply k b out peer fails reply s' hk hout hfind hpeer hepoch hans hs' =>
      exact hkeep (Locked.keepsLog_handleAppendEntriesReply _ _ _ _ _)
  | propose p command hp =>
      dsimp only
      unfold Locked.propose
      split
      · exact hkeep (.refl _)
      · exact ⟨(happend _).1, fun _ _ => (happend _).2⟩
  | proposeSync p command hp s' hs' =>
      dsimp only
      unfold Locked.proposeSync
      split
      · exact hkeep (.refl _)
      · obtain ⟨hanc, hgrows⟩ := happend [⟨(s.hosts p).node.currentTerm,
          (s.hosts p).node.lastLogIndexLocked + 1, command⟩]
        exact ⟨⟨hanc.path, hanc.nonempty⟩, fun _ _ => ⟨hgrows.anchor, hgrows.last, hgrows.entry⟩⟩
  | idle op p r s' hr hs' => exact hkeep (keepsLog_idle hr)
  | confirmCompaction p req hp =>
      obtain ⟨hanc, hgrows⟩ := Locked.anchored_confirmCompaction
        (s := (s.hosts p).node.lock) hord.anchored req
      exact ⟨hanc, fun _ _ => hgrows⟩
  | pollWait op p ph hp hop hfrom hph hpos hph' => exact hkeep (.refl _)
  | pollWriteFile p file hp hpoll => exact ⟨hord.anchored, fun _ _ => .refl _⟩
  | pollRewriteLog p file hp hpoll => exact ⟨hord.anchored, fun _ _ => .refl _⟩
  | pollRestore p file hp hpoll => exact hkeep (.refl _)
  | pollAdopt p file hp hpoll =>
      have hpos := hord.poll file (by dsimp only; rw [hpoll]; rfl)
      obtain ⟨hpath, hoff, hlog⟩ := (s.hosts p).node.lock.node_adoptSnapshot file
      exact ⟨(Node.Anchored.anchor hpos _ hpath hoff hlog).1,
        fun _ hl => .adopt hord.anchored hpos (hok hl file hpoll) hpath hoff hlog⟩
  | pollCompact p file hp hpoll =>
      obtain ⟨hanc, hgrows⟩ := Locked.anchored_pollCompact
        (s := (s.hosts p).node.lock) hord.anchored file
      exact ⟨hanc, fun _ _ => hgrows⟩

/-- The file of the poll loop comes from the catalog, which is asked for no empty one. -/
theorem poll_inOrder (h : Effect c s op o) (hord : (s.hosts o.host).InOrder) :
    ∀ file, (o.around.hosts o.host).poll.catchUpFile? = some file → 0 < file.lastIncludedIndex := by
  cases h with
  | startElection p fails hp => exact hord.poll
  | soloElection k call hk hepoch hq => exact hord.poll
  | requestVote k call peer f hk hp hsent => exact hord.poll
  | requestVoteReply k call peer fails reply hk hepoch hans => exact hord.poll
  | broadcast op p read s' hp hrole hs' =>
      dsimp only
      rw [hs'.hosts]
      exact hord.poll
  | appendEntries k b out peer f hk hout hpeer hp hsent => exact hord.poll
  | appendEntriesReply k b out peer fails reply s' hk hout hfind hpeer hepoch hans hs' =>
      dsimp only
      rw [hs'.hosts]
      exact hord.poll
  | propose p command hp => exact hord.poll
  | proposeSync p command hp s' hs' =>
      dsimp only
      rw [hs'.hosts]
      exact hord.poll
  | idle op p r s' hr hs' =>
      dsimp only
      rw [hs'.hosts]
      exact hord.poll
  | confirmCompaction p req hp => exact hord.poll
  | pollWait op p ph hp hop hfrom hph hpos hph' =>
      intro file hfile
      simp only [Cluster.setPoll, Cluster.setHost, Function.update_self] at hfile
      cases ph with
      | fetched f =>
          rw [← Option.some.inj hfile]
          exact hpos f rfl
      | written f => exact absurd rfl (hph' f).1
      | rewritten f => exact absurd rfl (hph' f).2.1
      | restored f => exact absurd rfl (hph' f).2.2
      | idle => exact absurd hfile (by simp [PollPhase.catchUpFile?])
      | informed t => exact absurd hfile (by simp [PollPhase.catchUpFile?])
      | catchingUp => exact absurd hfile (by simp [PollPhase.catchUpFile?])
      | compacting t => exact absurd hfile (by simp [PollPhase.catchUpFile?])
      | compactFetched f => exact absurd hfile (by simp [PollPhase.catchUpFile?])
  | pollWriteFile p file hp hpoll =>
      intro f hf
      simp only [Cluster.setPoll, Cluster.setHost, Function.update_self] at hf
      exact hord.poll f (by dsimp only; rw [hpoll]; exact hf)
  | pollRewriteLog p file hp hpoll =>
      intro f hf
      simp only [Cluster.setPoll, Cluster.setHost, Function.update_self] at hf
      exact hord.poll f (by dsimp only; rw [hpoll]; exact hf)
  | pollRestore p file hp hpoll =>
      intro f hf
      simp only [Cluster.setHost, Function.update_self] at hf
      exact hord.poll f (by dsimp only; rw [hpoll]; exact hf)
  | pollAdopt p file hp hpoll =>
      intro f hf
      simp [Cluster.setPoll, Cluster.setHost, PollPhase.catchUpFile?] at hf
  | pollCompact p file hp hpoll =>
      intro f hf
      simp [Cluster.setPoll, Cluster.setHost, PollPhase.catchUpFile?] at hf

end Effect

/-! ## Runs -/

/-- Every process is in order. -/
def Cluster.InOrder (s : Cluster) : Prop := ∀ p, (s.hosts p).InOrder

theorem Host.InOrder.boot (c : Config) (p : String) (d : Disk) (epoch : Nat) :
    (c.boot p d epoch).InOrder := by
  have hanchored := Node.Anchored.restart (c.newNode p d) d
  unfold Config.newNode at hanchored
  rw [Node.restart_newNode] at hanchored
  exact ⟨hanchored, fun _ h => absurd h (by simp [Config.boot, PollPhase.catchUpFile?])⟩

theorem Cluster.InOrder.init (c : Config) : c.init.InOrder := fun p => .boot c p _ 0

theorem Cluster.InOrder.step {c : Config} {s s' : Cluster} {a : Action} (h : s.InOrder)
    (hok : KeepsLeaderLog s a) (hs : step c s a = some s') : s'.InOrder := by
  intro p
  cases hostStep hs p with
  | other hnode hdisk hepoch hpoll =>
      exact ⟨by rw [hnode]; exact (h p).anchored, by rw [hpoll]; exact (h p).poll⟩
  | own op o ha heff hp hnode hdisk hepoch hpoll =>
      subst ha hp
      exact ⟨by rw [hnode]; exact (heff.grows (h _) hok).1,
        by rw [hpoll]; exact heff.poll_inOrder (h _)⟩
  | restart ws hh =>
      rw [hh]
      exact .boot c p _ _

/-- What has become of the leader `n₁` of a term: it still leads and has kept its log,
or it never leads that term again. -/
def Node.Since (n₁ n : Node) : Prop :=
  (n.role = .leader ∧ n.currentTerm = n₁.currentTerm ∧ n₁.Grows n) ∨ n.Past n₁.currentTerm

/-- The node `p` has been the leader `n₁`. -/
structure Reign (c : Config) (n₁ : Node) (p : String) (s : Cluster) : Prop where
  votes : ∃ S, VoteInv c S s ∧ (p, n₁.currentTerm, c.idOf p) ∈ S
  order : s.InOrder
  since : n₁.Since (s.hosts p).node

/-- **One step of a reign.** -/
theorem Reign.step {c : Config} {n₁ : Node} {p : String} {s s' : Cluster} {a : Action}
    (h : Reign c n₁ p s) (hp : p ∈ c.addrs) (hok : KeepsLeaderLog s a)
    (hs : step c s a = some s') : Reign c n₁ p s' := by
  obtain ⟨S, hinv, hvote⟩ := h.votes
  obtain ⟨S', hS, hinv'⟩ := hinv.step hs
  refine ⟨⟨S', hinv', hS hvote⟩, h.order.step hok hs, ?_⟩
  cases hostStep hs p with
  | other hnode hdisk hepoch hpoll =>
      rw [hnode]
      exact h.since
  | own op o ha heff hhost hnode hdisk hepoch hpoll =>
      subst ha hhost
      rw [hnode]
      have hfol := heff.follows
      rcases h.since with ⟨hl, hT, hgrows⟩ | hpast
      · rcases hfol with ⟨hlt, -⟩ | ⟨heq, hrole⟩
        · exact Or.inr (Or.inl (hT ▸ hlt))
        · rcases hrole with hr | hr | ⟨hr, -⟩
          · have hl' := hr.trans hl
            exact Or.inl ⟨hl', heq.trans hT, hgrows.trans ((heff.grows (h.order _) hok).2 hl' hl)⟩
          · exact Or.inr (Or.inr ⟨heq.trans hT, hr⟩)
          · rw [hl] at hr
            exact absurd hr (by simp)
      · exact Or.inr (hpast.follows hfol)
  | restart ws hh =>
      -- the vote for oneself was saved, so the term is not forgotten
      have hle := ((hinv'.nodes p hp).disk.le _ _ (hS hvote)).trans (hinv'.nodes p hp).term_le
      have hrole : (s'.hosts p).node.role = .follower := by rw [hh]; rfl
      rcases Nat.lt_or_eq_of_le hle with hlt | heq
      · exact Or.inr (Or.inl hlt)
      · exact Or.inr (Or.inr ⟨heq.symm, hrole⟩)

/-- Between two states of a run, leaders of one term are one node that has kept its
log. -/
theorem grows_of_run {c : Config} {S : Votes} {s₁ s₂ : Cluster} {bs : List Action} {p q : String}
    (hinv : VoteInv c S s₁) (hord : s₁.InOrder)
    (hok : Runs.Along (step c) KeepsLeaderLog s₁ bs) (hrun : run c s₁ bs = some s₂)
    (hp : p ∈ c.addrs) (hq : q ∈ c.addrs) (hl₁ : (s₁.hosts p).node.role = .leader)
    (hl₂ : (s₂.hosts q).node.role = .leader)
    (hT : (s₁.hosts p).node.currentTerm = (s₂.hosts q).node.currentTerm) :
    p = q ∧ (s₁.hosts p).node.Grows (s₂.hosts q).node := by
  obtain ⟨S₂, hS, hinv₂⟩ := hinv.run hrun
  have hwon := (hinv.leaders p hp hl₁).mono hS
  rw [hT] at hwon
  have hpq := hinv₂.won_unique hp hq hwon (hinv₂.leaders q hq hl₂)
  subst hpq
  refine ⟨rfl, ?_⟩
  have hstart : Reign c (s₁.hosts p).node p s₁ :=
    ⟨⟨S, hinv, hinv.own p hp hl₁⟩, hord, Or.inl ⟨hl₁, rfl, .refl _⟩⟩
  have hend := Runs.invariant (fun s a s' h hok hs => Reign.step h hp hok hs) hstart hok
    (run_eq_exec c s₁ bs ▸ hrun)
  rcases hend.since with ⟨-, -, hgrows⟩ | hlt | ⟨-, hfol⟩
  · exact hgrows
  · omega
  · rw [hl₂] at hfol
    exact absurd hfol (by simp)

/-- The operation is a proposal at `p`. -/
def Op.ProposesAt (p : String) : Op → Prop
  | .propose q _ | .proposeSync q _ => q = p
  | _ => False

/-- A proposal at a leader adds one entry. -/
theorem proposed {c : Config} {s t : Cluster} {op : Op} {p : String} (hop : op.ProposesAt p)
    (hl : (s.hosts p).node.role = .leader) (hs : step c s (.run op) = some t) :
    (t.hosts p).node.role = .leader ∧
    (t.hosts p).node.currentTerm = (s.hosts p).node.currentTerm ∧
    (t.hosts p).node.lastLogIndexLocked = (s.hosts p).node.lastLogIndexLocked + 1 := by
  have hlen : ∀ e : LogEntry, (s.hosts p).node.logOffset + ((s.hosts p).node.log ++ [e]).length =
      (s.hosts p).node.lastLogIndexLocked + 1 := by
    intro e
    rw [List.length_append]
    rfl
  simp only [step, Option.map_eq_some_iff] at hs
  obtain ⟨o, ho, rfl⟩ := hs
  cases op with
  | propose q command =>
      obtain rfl : q = p := hop
      simp only [exec, Option.bind_eq_bind, Option.bind_eq_some_iff, guard_eq_some, exists_const,
        Option.some.injEq] at ho
      obtain ⟨-, rfl⟩ := ho
      have hnode : ((s.hosts q).node.lock.propose command).node = { (s.hosts q).node with
          log := (s.hosts q).node.log ++ [⟨(s.hosts q).node.currentTerm,
            (s.hosts q).node.lastLogIndexLocked + 1, command⟩] } := by
        unfold Locked.propose
        rw [if_neg (by simp [Node.lock, hl])]
        rfl
      simp only [Cluster.finish, Cluster.setHost, Function.update_self, hnode]
      exact ⟨hl, trivial, hlen _⟩
  | proposeSync q command =>
      obtain rfl : q = p := hop
      simp only [exec, Option.bind_eq_bind, Option.bind_eq_some_iff, guard_eq_some, exists_const,
        Option.some.injEq] at ho
      obtain ⟨-, rfl⟩ := ho
      have hnode : ((s.hosts q).node.lock.proposeSync command s.proposals.length).1.node =
          { (s.hosts q).node with
            log := (s.hosts q).node.log ++ [⟨(s.hosts q).node.currentTerm,
              (s.hosts q).node.lastLogIndexLocked + 1, command⟩]
            waiters := (s.hosts q).node.waiters.insert
              ((s.hosts q).node.lastLogIndexLocked + 1) s.proposals.length } := by
        unfold Locked.proposeSync
        rw [if_neg (by simp [Node.lock, hl])]
        rfl
      simp only [Cluster.finish, Cluster.setHost, Function.update_self, hnode]
      exact ⟨hl, trivial, hlen _⟩
  | _ => exact absurd hop id

/-- **Leaders only append**, in every run in which no leader adopts a snapshot that ends
below its log: from one state to any later one in which the term has a leader, the
leader is the same node, its log has not become shorter and has kept every entry above
the anchor; and no two proposals of the run get the same index and term. -/
theorem leader_append_only (c : Config) (as bs : List Action) (s₁ s₂ : Cluster) (p q : String)
    (h₁ : run c c.init as = some s₁) (h₂ : run c s₁ bs = some s₂)
    (hok₁ : Runs.Along (step c) KeepsLeaderLog c.init as)
    (hok₂ : Runs.Along (step c) KeepsLeaderLog s₁ bs) (hp : p ∈ c.addrs) (hq : q ∈ c.addrs)
    (hl₁ : (s₁.hosts p).node.role = .leader) (hl₂ : (s₂.hosts q).node.role = .leader) :
    ((s₁.hosts p).node.currentTerm = (s₂.hosts q).node.currentTerm → p = q ∧
      (s₁.hosts p).node.lastLogIndexLocked ≤ (s₂.hosts q).node.lastLogIndexLocked ∧
      ∀ i e, (s₂.hosts q).node.anchorIndex < i → (s₁.hosts p).node.entryAtLocked i = some e →
        (s₂.hosts q).node.entryAtLocked i = some e) ∧
    ∀ op bs', bs = .run op :: bs' → op.ProposesAt p →
      ((s₁.hosts p).node.lastLogIndexLocked + 1, (s₁.hosts p).node.currentTerm) ≠
        ((s₂.hosts q).node.lastLogIndexLocked + 1, (s₂.hosts q).node.currentTerm) := by
  obtain ⟨S, -, hinv⟩ := (VoteInv.init c).run h₁
  have hord : s₁.InOrder := Runs.invariant (fun s a s' h hok hs => Cluster.InOrder.step h hok hs)
    (Cluster.InOrder.init c) hok₁ (run_eq_exec c c.init as ▸ h₁)
  refine ⟨fun hT => ?_, ?_⟩
  · obtain ⟨hpq, hgrows⟩ := grows_of_run hinv hord hok₂ h₂ hp hq hl₁ hl₂ hT
    exact ⟨hpq, hgrows.last, hgrows.entry⟩
  · rintro op bs' rfl hop heq
    obtain ⟨t, ht, h₂⟩ := Option.bind_eq_some_iff.1 h₂
    obtain ⟨hlt, hTt, hlen⟩ := proposed hop hl₁ ht
    obtain ⟨St, -, hinvt⟩ := hinv.step ht
    rw [Prod.mk.injEq] at heq
    obtain ⟨-, hgrows⟩ := grows_of_run hinvt (hord.step hok₂.1 ht) (hok₂.2 t ht) h₂ hp hq hlt hl₂
      (hTt.trans heq.2)
    have := hgrows.last
    omega

/-- Node `a` commits two entries, restarts, leads again, adopts the snapshot of both and
proposes two more. -/
def leaderAdopts : List Action :=
  winElection "a" "b" 0 ++ [.run (.propose "a" (putBytes 120 49)),
    .run (.propose "a" (putBytes 120 50))] ++ replicate "a" "b" 0 ++
  [.publish snapshotOfTwo, .crash "a"] ++ winElection "a" "b" 1 ++ fetchSnapshot "a" ++
  adoptFetched "a" ++
  [.run (.propose "a" (putBytes 120 51)), .run (.propose "a" (putBytes 120 52))]

/-- It proposes a fifth entry, commits all of them and compacts its log up to the third. -/
def leaderCompacts : List Action :=
  [.run (.propose "a" (putBytes 120 53))] ++ replicate "a" "b" 1 ++
  [.publish ⟨snapshotOfTwo.state.apply ⟨.put, "x", "3"⟩, 3, 2⟩] ++ fetchSnapshot "a" ++
  [.run (.pollCompact "a")]

/-- The fourth entry is still there, and the index of the fifth is not given away again. -/
theorem leader_append_only_trio : ∃ s₁ s₂,
    run trio trio.init leaderAdopts = some s₁ ∧ run trio s₁ leaderCompacts = some s₂ ∧
    (s₁.hosts "a").node.log = [⟨1, 2, []⟩, ⟨2, 3, putBytes 120 51⟩, ⟨2, 4, putBytes 120 52⟩] ∧
    (s₂.hosts "a").node.anchorIndex = 3 ∧
    (s₁.hosts "a").node.lastLogIndexLocked ≤ (s₂.hosts "a").node.lastLogIndexLocked ∧
    (s₂.hosts "a").node.entryAtLocked 4 = some ⟨2, 4, putBytes 120 52⟩ ∧
    ((s₁.hosts "a").node.lastLogIndexLocked + 1, (s₁.hosts "a").node.currentTerm) ≠
      ((s₂.hosts "a").node.lastLogIndexLocked + 1, (s₂.hosts "a").node.currentTerm) := by
  obtain ⟨s₁, h₁, ⟨hrole₁, hterm₁, hlog, hfourth⟩, hok₂, hnext⟩ := exists_of_run
    (fun s₁ : Cluster => ((s₁.hosts "a").node.role = .leader ∧
      (s₁.hosts "a").node.currentTerm = 2 ∧ (s₁.hosts "a").node.log =
        [⟨1, 2, []⟩, ⟨2, 3, putBytes 120 51⟩, ⟨2, 4, putBytes 120 52⟩] ∧
      (s₁.hosts "a").node.entryAtLocked 4 = some ⟨2, 4, putBytes 120 52⟩) ∧
      Runs.Along (step trio) KeepsLeaderLog s₁ leaderCompacts ∧
      (run trio s₁ leaderCompacts).any (fun s₂ => decide
        ((s₂.hosts "a").node.role = .leader ∧ (s₂.hosts "a").node.currentTerm = 2 ∧
          (s₂.hosts "a").node.anchorIndex = 3)) = true)
    (show (run trio trio.init leaderAdopts).any _ = true by decide +kernel)
  obtain ⟨s₂, h₂, hrole₂, hterm₂, hanchor⟩ := exists_of_run _ hnext
  obtain ⟨hsame, hdistinct⟩ := leader_append_only trio _ _ s₁ s₂ "a" "a" h₁ h₂
    (by decide +kernel) hok₂ (by decide) (by decide) hrole₁ hrole₂
  obtain ⟨-, hlast, hkept⟩ := hsame (hterm₁.trans hterm₂.symm)
  exact ⟨s₁, s₂, h₁, h₂, hlog, hanchor, hlast, hkept 4 _ (by rw [hanchor]; decide) hfourth,
    hdistinct _ _ rfl rfl⟩

/-- Node `a` commits an entry, restarts, leads again and proposes; all the while its
poll loop catches up to a snapshot of the first entry. -/
def catchUpBelowLog : List Action :=
  winElection "a" "b" 0 ++ [.run (.propose "a" (putBytes 120 49))] ++ replicate "a" "b" 0 ++
  [.publish ⟨KVMap.apply (fun _ => none) ⟨.put, "x", "1"⟩, 1, 1⟩, .crash "a"] ++
  winElection "a" "b" 1 ++ [.run (.propose "a" (putBytes 120 50))] ++ fetchSnapshot "a" ++
  [.run (.pollWriteFile "a"), .run (.pollRewriteLog "a"), .run (.pollRestore "a")]

/-- The leader of term 2 loses its entry 2 by adopting the snapshot, and gives index 2
of term 2 away once more. -/
theorem leader_log_shrinks : ∃ s₁ s₂ s₃,
    run trio trio.init catchUpBelowLog = some s₁ ∧
    run trio s₁ [.run (.pollAdopt "a")] = some s₂ ∧
    run trio s₂ [.run (.propose "a" (putBytes 120 51))] = some s₃ ∧
    (s₁.hosts "a").node.role = .leader ∧ (s₂.hosts "a").node.role = .leader ∧
    (s₁.hosts "a").node.currentTerm = (s₂.hosts "a").node.currentTerm ∧
    (s₂.hosts "a").node.lastLogIndexLocked < (s₁.hosts "a").node.lastLogIndexLocked ∧
    (s₁.hosts "a").node.entryAtLocked 2 = some ⟨2, 2, putBytes 120 50⟩ ∧
    (s₃.hosts "a").node.entryAtLocked 2 = some ⟨2, 2, putBytes 120 51⟩ := by
  obtain ⟨s₁, h₁, ⟨hrole₁, hterm₁, hlast₁, hentry₁⟩, hnext⟩ := exists_of_run (fun s₁ : Cluster =>
    ((s₁.hosts "a").node.role = .leader ∧ (s₁.hosts "a").node.currentTerm = 2 ∧
      (s₁.hosts "a").node.lastLogIndexLocked = 2 ∧
      (s₁.hosts "a").node.entryAtLocked 2 = some ⟨2, 2, putBytes 120 50⟩) ∧
    (run trio s₁ [.run (.pollAdopt "a")]).any (fun s₂ => decide
      (((s₂.hosts "a").node.role = .leader ∧ (s₂.hosts "a").node.currentTerm = 2 ∧
        (s₂.hosts "a").node.lastLogIndexLocked = 1) ∧
      (run trio s₂ [.run (.propose "a" (putBytes 120 51))]).any (fun s₃ => decide
        ((s₃.hosts "a").node.entryAtLocked 2 = some ⟨2, 2, putBytes 120 51⟩)) = true)) = true)
    (show (run trio trio.init catchUpBelowLog).any _ = true by decide +kernel)
  obtain ⟨s₂, h₂, ⟨hrole₂, hterm₂, hlast₂⟩, hnext⟩ := exists_of_run _ hnext
  obtain ⟨s₃, h₃, hentry₃⟩ := exists_of_run _ hnext
  exact ⟨s₁, s₂, s₃, h₁, h₂, h₃, hrole₁, hrole₂, by rw [hterm₁, hterm₂],
    by rw [hlast₁, hlast₂]; decide, hentry₁, hentry₃⟩

end B5KvStore
