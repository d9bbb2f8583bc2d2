import B5KvStore.Cluster.WholeLog

/-!
# What a leader knows to be committed

A leader moves its commit index only when a reply arrives.  That is enough as long as there is
somebody to reply: a new entry has no acknowledgements yet, and with two members or more it
needs one.  The only member of a cluster never gets a reply and never commits anything.

* `Node.Evidence` — the acknowledgements that commit an entry.
* `LeaderStep` — what a critical section does to a node that leads afterwards.
* `Evident` — the invariant.
* `commit_follows_evidence` — every state and every step without snapshots.
-/

namespace B5KvStore

/-- The entry at `N` is one of the leader's own term, and as far as the leader knows a majority
holds it. -/
def Node.Evidence (n : Node) (N : Nat) : Prop :=
  (n.entryAtLocked N).map LogEntry.term = some n.currentTerm ∧
    quorumSize (n.peers.length + 1) ≤ Locked.matchCount n N

instance Node.decidableEvidence (n : Node) (N : Nat) : Decidable (n.Evidence N) :=
  inferInstanceAs (Decidable (_ ∧ _))

/-- The two nodes have the same evidence. -/
structure Node.SameEvidence (n n' : Node) : Prop where
  log : n'.log = n.log
  logOffset : n'.logOffset = n.logOffset
  currentTerm : n'.currentTerm = n.currentTerm
  peers : n'.peers = n.peers
  matchIndex : n'.matchIndex = n.matchIndex

/-- The leader has not been told of more than its log holds, and has committed what it has
evidence for. -/
structure Node.UpToDate (n : Node) : Prop where
  bound : ∀ x ∈ n.matchIndex.entries, x.2 ≤ n.lastLogIndexLocked
  commit : ∀ N, n.Evidence N → N ≤ n.commitIndex

namespace Node

variable {n n' n'' : Node} {N : Nat}

theorem SameEvidence.refl (n : Node) : SameEvidence n n := ⟨rfl, rfl, rfl, rfl, rfl⟩

theorem SameEvidence.lastLogIndexLocked (h : SameEvidence n n') :
    n'.lastLogIndexLocked = n.lastLogIndexLocked := by
  unfold Node.lastLogIndexLocked
  rw [h.log, h.logOffset]

theorem SameEvidence.iff (h : SameEvidence n n') : n'.Evidence N ↔ n.Evidence N := by
  unfold Evidence Node.entryAtLocked Locked.matchCount
  rw [h.log, h.logOffset, h.currentTerm, h.peers, h.matchIndex]

theorem SameEvidence.upToDate (h : SameEvidence n n') (hc : n.commitIndex ≤ n'.commitIndex)
    (hn : n.UpToDate) : n'.UpToDate where
  bound x hx := by
    rw [h.lastLogIndexLocked]
    exact hn.bound x (h.matchIndex ▸ hx)
  commit N hN := (hn.commit N (h.iff.1 hN)).trans hc

theorem Evidence.inside (h : n.Evidence N) : 0 < N ∧ N ≤ n.lastLogIndexLocked := by
  obtain ⟨e, he, -⟩ := Option.map_eq_some_iff.1 h.1
  obtain ⟨hlt, hle⟩ := inside_of_entryAtLocked he
  exact ⟨by omega, hle⟩

/-- Where there are others, an entry nobody has acknowledged is not committed. -/
theorem not_evidence (hsize : 0 < n.peers.length)
    (h : ∀ x ∈ n.matchIndex.entries, x.2 < N) : ¬ n.Evidence N := by
  rintro ⟨-, hcount⟩
  have hnone : n.matchIndex.entries.filter (fun m => N ≤ m.2) = [] := by
    rw [List.filter_eq_nil_iff]
    intro x hx
    have := h x hx
    simp only [decide_eq_true_eq]
    omega
  unfold Locked.matchCount quorumSize at hcount
  rw [hnone, List.length_nil] at hcount
  omega

/-- A new entry. -/
theorem UpToDate.append (h : n.UpToDate) (hsize : 0 < n.peers.length) (e : LogEntry) :
    ({ n with log := n.log ++ [e] } : Node).UpToDate := by
  have hlast : ({ n with log := n.log ++ [e] } : Node).lastLogIndexLocked =
      n.lastLogIndexLocked + 1 := by
    unfold Node.lastLogIndexLocked
    rw [List.length_append]
    rfl
  refine ⟨fun x hx => (h.bound x hx).trans (by omega), fun N hN => ?_⟩
  have hle := hN.inside.2
  rw [hlast] at hle
  rcases Nat.lt_or_eq_of_le hle with hlt | heq
  · -- an old entry, with the evidence it had
    refine h.commit N ⟨?_, hN.2⟩
    rw [← hN.1]
    unfold Node.entryAtLocked Node.lastLogIndexLocked at *
    dsimp only
    rw [List.length_append]
    by_cases hoff : N ≤ n.logOffset
    · rw [if_pos (Or.inl hoff), if_pos (Or.inl hoff)]
    · rw [if_neg (by omega), if_neg (by omega), List.getElem?_append_left (by omega)]
  · subst heq
    refine absurd hN (not_evidence hsize fun x hx => ?_)
    have := h.bound x hx
    omega

end Node

/-- **The commit rule** finds the latest entry there is evidence for. -/
theorem Locked.advanceLoop_evidence (s : Locked) (M : Nat) :
    s.node.SameEvidence (s.advanceLoop M).node ∧
    s.node.commitIndex ≤ (s.advanceLoop M).node.commitIndex ∧
    (∀ N ≤ M, s.node.Evidence N → N ≤ (s.advanceLoop M).node.commitIndex) ∧
    (s.node.commitIndex < (s.advanceLoop M).node.commitIndex →
      s.node.Evidence (s.advanceLoop M).node.commitIndex) := by
  induction M with
  | zero =>
      exact ⟨.refl _, le_refl _, fun N hN _ => hN.trans (Nat.zero_le _),
        fun h => absurd h (Nat.lt_irrefl _)⟩
  | succ M ih =>
      unfold advanceLoop
      split
      · rename_i hlt
        split
        · rename_i hev
          dsimp only
          obtain ⟨k, w, wake, es, heq, -⟩ := applyCommittedLocked_frame
            ((s.modify fun n => { n with commitIndex := M + 1 }).emit
              [.advancedCommit (s.modify fun n => { n with commitIndex := M + 1 }).node])
          rw [heq]
          exact ⟨⟨rfl, rfl, rfl, rfl, rfl⟩, hlt.le, fun N hN _ => hN, fun _ => hev⟩
        · rename_i hev
          refine ⟨ih.1, ih.2.1, fun N hN hN' => ?_, ih.2.2.2⟩
          rcases Nat.lt_or_eq_of_le hN with hlt' | rfl
          · exact ih.2.2.1 N (by omega) hN'
          · exact absurd hN' hev
      · rename_i hge
        exact ⟨.refl _, le_refl _, fun N hN _ => by omega, fun h => absurd h (Nat.lt_irrefl _)⟩

/-! ## Critical sections of a leader -/

/-- What a critical section can do to the process `p` if it leads afterwards. -/
inductive LeaderStep (s : Cluster) (p : String) (n' : Node) : Prop
  | same (hrole : (s.hosts p).node.role = .leader) (hsame : (s.hosts p).node.SameEvidence n')
      (hcommit : n'.commitIndex = (s.hosts p).node.commitIndex)
  | elected (hrole : (s.hosts p).node.role = .candidate)
      (hpeers : n'.peers = (s.hosts p).node.peers)
      (hzero : ∀ x ∈ n'.matchIndex.entries, x.2 = 0)
      (hcommit : n'.commitIndex = (s.hosts p).node.commitIndex)
  | appended (e : LogEntry) (hrole : (s.hosts p).node.role = .leader)
      (hsame : ({ (s.hosts p).node with log := (s.hosts p).node.log ++ [e] } : Node).SameEvidence n')
      (hcommit : n'.commitIndex = (s.hosts p).node.commitIndex)
  | replied (b : Broadcast) (out : OutgoingAppendEntries) (reply : AppendEntriesReply)
      (hb : b ∈ s.broadcasts) (hout : out ∈ b.reqs) (hleader : b.leader = p)
      (hepoch : b.epoch = (s.hosts p).epoch) (hrole : (s.hosts p).node.role = .leader)
      (hterm : (s.hosts p).node.currentTerm = b.term) (hans : b.calls out.peer = .answered reply)
      (hsuccess : reply.success = true)
      (heq : n' = (((s.hosts p).node.lock.modify fun n =>
        n.recordMatch out.peer (out.prevIndex + out.numEntries)).maybeAdvanceCommitIndexLocked).node)

namespace Locked

variable {s : Locked}

theorem observeTermLocked_of_leader {T : Nat} {fails : Bool}
    (h : (s.observeTermLocked T fails).1.node.role = .leader) :
    (s.observeTermLocked T fails).1 = s := by
  unfold observeTermLocked at h ⊢
  split
  · rfl
  · rename_i hT
    rw [if_neg hT] at h
    dsimp only at h
    rw [node_persistStateLocked] at h
    simp [setRoleLocked] at h

theorem observeRequest_of_leader {T : Nat} {fails : Bool}
    (h : (s.observeRequest T fails).1.node.role = .leader) : (s.observeRequest T fails).1 = s := by
  unfold observeRequest at h ⊢
  split
  · rename_i hT
    rw [if_pos hT] at h
    exact observeTermLocked_of_leader h
  · rfl

theorem startElection_of_leader {fails : Bool}
    (h : (s.startElection fails).1.node.role = .leader) : (s.startElection fails).1 = s := by
  unfold startElection at h ⊢
  split
  · rfl
  · rename_i hl
    rw [if_neg hl] at h
    cases fails with
    | true => simp [persistStateLocked, setRoleLocked] at h
    | false => simp [persistStateLocked, setRoleLocked] at h

theorem requestVote_of_leader {req : RequestVoteRequest} {f : SaveFaults}
    (h : (s.requestVote req f).1.node.role = .leader) :
    s.node.role = .leader ∧ s.node.SameEvidence (s.requestVote req f).1.node ∧
      (s.requestVote req f).1.node.commitIndex = s.node.commitIndex := by
  have hvote : ∀ (r : Locked) (fails : Bool), r.node.SameEvidence (r.castVote req fails).1.node ∧
      (r.castVote req fails).1.node.commitIndex = r.node.commitIndex := by
    intro r fails
    unfold castVote
    split
    · exact ⟨.refl _, rfl⟩
    · split
      · cases fails with
        | true => exact ⟨⟨rfl, rfl, rfl, rfl, rfl⟩, rfl⟩
        | false => exact ⟨⟨rfl, rfl, rfl, rfl, rfl⟩, rfl⟩
      · exact ⟨.refl _, rfl⟩
  have hobs : (s.observeRequest req.term f.observe).1.node.role = .leader →
      (s.observeRequest req.term f.observe).1 = s := observeRequest_of_leader
  unfold requestVote at h ⊢
  generalize s.observeRequest req.term f.observe = r at h hobs ⊢
  obtain ⟨r, err⟩ := r
  cases err with
  | some err =>
      obtain rfl : r = s := hobs h
      exact ⟨h, .refl _, rfl⟩
  | none =>
      dsimp only at h hobs ⊢
      rw [(Node.castVote_role r req f.vote).2] at h
      obtain rfl : r = s := hobs h
      exact ⟨h, hvote r f.vote⟩

theorem appendEntries_of_leader {req : AppendEntriesRequest} {f : SaveFaults}
    (h : (s.appendEntries req f).1.node.role = .leader) : (s.appendEntries req f).1 = s := by
  have hobs : (s.observeRequest req.term f.observe).1.node.role = .leader →
      (s.observeRequest req.term f.observe).1 = s := observeRequest_of_leader
  unfold appendEntries at h ⊢
  generalize s.observeRequest req.term f.observe = r at h hobs ⊢
  obtain ⟨r, err⟩ := r
  cases err with
  | some err => exact hobs h
  | none =>
      dsimp only at h hobs ⊢
      have hsame := r.acceptEntries_of_leader req h
      rw [hsame] at h ⊢
      exact hobs h

/-- A new leader knows nothing about the others. -/
theorem matchIndex_becomeLeaderLocked (hrole : s.node.role = .candidate) :
    s.becomeLeaderLocked.node.peers = s.node.peers ∧
    (∀ x ∈ s.becomeLeaderLocked.node.matchIndex.entries, x.2 = 0) ∧
    s.becomeLeaderLocked.node.commitIndex = s.node.commitIndex := by
  have hzero : ∀ (ps : List String) (m : IndexMap), (∀ x ∈ m.entries, x.2 = 0) →
      ∀ x ∈ (ps.foldl (fun m p => m.insert p 0) m).entries, x.2 = 0 := by
    intro ps
    induction ps with
    | nil => exact fun m hm => hm
    | cons p ps ih =>
        refine fun m hm => ih (m.insert p 0) fun x hx => ?_
        rw [AList.entries_insert] at hx
        rcases List.mem_cons.1 hx with rfl | hx
        · rfl
        · exact hm x ((List.kerase_sublist p m.entries).subset hx)
  unfold becomeLeaderLocked
  rw [if_neg (not_not.2 hrole)]
  exact ⟨rfl, hzero _ ∅ (by simp [AList.empty_entries]), rfl⟩

end Locked

/-- **Critical sections of a leader.** -/
theorem Effect.leaderStep {c : Config} {s : Cluster} {op : Op} {o : Outcome} (h : Effect c s op o)
    (hop : op.snapshotting = false) (hl : o.result.node.role = .leader) :
    LeaderStep s o.host o.result.node := by
  have hsame : ∀ {r : Locked}, r = (s.hosts o.host).node.lock → r.node.role = .leader →
      LeaderStep s o.host r.node := by
    rintro r rfl hr
    exact .same hr (.refl _) rfl
  have helected : (s.hosts o.host).node.role = .candidate →
      LeaderStep s o.host (s.hosts o.host).node.lock.becomeLeaderLocked.node := by
    intro hrole
    obtain ⟨hpeers, hzero, hcommit⟩ :=
      (s.hosts o.host).node.lock.matchIndex_becomeLeaderLocked hrole
    exact .elected hrole hpeers hzero hcommit
  cases h with
  | startElection p fails hp => exact hsame (Locked.startElection_of_leader hl) hl
  | soloElection k call hk hepoch hq =>
      dsimp only at hl ⊢
      unfold Locked.soloElection at hl ⊢
      split
      · rename_i hcand
        exact helected hcand.1
      · rename_i hcand
        rw [if_neg hcand] at hl
        exact hsame rfl hl
  | requestVote k call peer f hk hp hsent =>
      obtain ⟨hrole, hev, hcommit⟩ := Locked.requestVote_of_leader hl
      exact .same hrole hev hcommit
  | requestVoteReply k call peer fails reply hk hepoch hans =>
      dsimp only at hl ⊢
      unfold Locked.handleRequestVoteReply at hl ⊢
      split
      · rename_i hT
        rw [if_pos hT] at hl
        exact hsame (Locked.observeTermLocked_of_leader hl) hl
      · rename_i hT
        rw [if_neg hT] at hl
        split
        · rename_i hcand
          rw [if_pos hcand] at hl
          exact hsame rfl hl
        · rename_i hcand
          rw [if_neg hcand] at hl
          rw [not_or, not_not] at hcand
          dsimp only at hl ⊢
          generalize (if reply.voteGranted = true then call.election.votes + 1
            else call.election.votes) = votes at hl ⊢
          split
          · exact helected hcand.1
          · rename_i hvotes
            rw [if_neg hvotes] at hl
            exact hsame rfl hl
  | broadcast op p read s' hp hrole hs' hcalls => exact hsame rfl hl
  | appendEntries k b out peer f hk hout hpeer hp hsent =>
      exact hsame (Locked.appendEntries_of_leader hl) hl
  | appendEntriesReply k b out peer fails reply s' hk hout hfind hpeer hepoch hans hs' hcalls =>
      dsimp only at hl ⊢
      unfold Locked.handleAppendEntriesReply at hl ⊢
      split
      · rename_i hlead
        rw [if_pos hlead] at hl
        exact hsame rfl hl
      · rename_i hlead
        rw [if_neg hlead] at hl
        rw [not_or, not_not, not_not] at hlead
        dsimp only at hl ⊢
        unfold Locked.handleAppendEntriesReplyLocked at hl ⊢
        split
        · rename_i hT
          rw [if_pos hT] at hl
          exact hsame (Locked.observeTermLocked_of_leader hl) hl
        · split
          · rename_i hsuccess
            exact .replied b out reply (List.mem_of_getElem? hk) hout rfl hepoch hlead.1 hlead.2
              (hpeer ▸ hans) hsuccess rfl
          · exact .same hlead.1 ⟨rfl, rfl, rfl, rfl, rfl⟩ rfl
  | propose p command hp =>
      dsimp only at hl ⊢
      unfold Locked.propose at hl ⊢
      split
      · rename_i hrole
        rw [if_pos hrole] at hl
        exact hsame rfl hl
      · rename_i hrole
        exact .appended _ (not_not.1 hrole) (.refl _) rfl
  | proposeSync p command hp s' hs' hcalls =>
      dsimp only at hl ⊢
      unfold Locked.proposeSync at hl ⊢
      split
      · rename_i hrole
        rw [if_pos hrole] at hl
        exact hsame rfl hl
      · rename_i hrole
        exact .appended _ (not_not.1 hrole) ⟨rfl, rfl, rfl, rfl, rfl⟩ rfl
  | idle op p r s' hr hs' hop hcalls hret =>
      cases hr with
      | look => exact hsame rfl hl
      | returned i outcome => exact .same hl (.refl _) rfl
      | waiters i => exact .same hl ⟨rfl, rfl, rfl, rfl, rfl⟩ rfl
      | leader l => exact .same hl ⟨rfl, rfl, rfl, rfl, rfl⟩ rfl
  | pollWait op p ph hp hop' hfrom hph hpos hph' hfetch => exact hsame rfl hl
  | _ => cases hop

namespace LeaderStep

variable {s : Cluster} {p : String} {n' : Node}

/-- The log of a leader does not become shorter. -/
theorem last_le (h : LeaderStep s p n') (hl : (s.hosts p).node.role = .leader) :
    (s.hosts p).node.lastLogIndexLocked ≤ n'.lastLogIndexLocked := by
  cases h with
  | same hrole hsame hcommit => exact hsame.lastLogIndexLocked.ge
  | elected hrole hpeers hzero hcommit =>
      rw [hl] at hrole
      exact absurd hrole (by simp)
  | appended e hrole hsame hcommit =>
      rw [hsame.lastLogIndexLocked]
      unfold Node.lastLogIndexLocked
      rw [List.length_append]
      dsimp only
      omega
  | replied b out reply hb hout hleader hepoch hrole hterm hans hsuccess heq =>
      rw [heq]
      unfold Locked.maybeAdvanceCommitIndexLocked
      rw [(Locked.advanceLoop_evidence _ _).1.lastLogIndexLocked]
      exact le_refl _

/-- **Evidence is acted upon**, if no reply speaks of more than the leader's log holds. -/
theorem upToDate (h : LeaderStep s p n') (hsize : 0 < (s.hosts p).node.peers.length)
    (hn : (s.hosts p).node.role = .leader → (s.hosts p).node.UpToDate)
    (hreply : ∀ b ∈ s.broadcasts, ∀ out ∈ b.reqs, ∀ reply, b.leader = p →
      b.epoch = (s.hosts p).epoch → (s.hosts p).node.role = .leader →
      (s.hosts p).node.currentTerm = b.term → b.calls out.peer = .answered reply →
      reply.success = true → out.prevIndex + out.numEntries ≤ (s.hosts p).node.lastLogIndexLocked) :
    n'.UpToDate ∧
      ((s.hosts p).node.commitIndex < n'.commitIndex → n'.Evidence n'.commitIndex) := by
  cases h with
  | same hrole hsame hcommit =>
      exact ⟨hsame.upToDate hcommit.ge (hn hrole), fun hlt => by omega⟩
  | elected hrole hpeers hzero hcommit =>
      refine ⟨⟨fun x hx => by rw [hzero x hx]; exact Nat.zero_le _, fun N hN => ?_⟩,
        fun hlt => by omega⟩
      refine absurd hN (Node.not_evidence (by rw [hpeers]; exact hsize) fun x hx => ?_)
      rw [hzero x hx]
      exact hN.inside.1
  | appended e hrole hsame hcommit =>
      exact ⟨hsame.upToDate hcommit.ge ((hn hrole).append hsize e), fun hlt => by omega⟩
  | replied b out reply hb hout hleader hepoch hrole hterm hans hsuccess heq =>
      have hle := hreply b hb out hout reply hleader hepoch hrole hterm hans hsuccess
      subst heq
      generalize hr : ((s.hosts p).node.lock.modify fun n =>
        n.recordMatch out.peer (out.prevIndex + out.numEntries)) = r
      have hlast : r.node.lastLogIndexLocked = (s.hosts p).node.lastLogIndexLocked := by
        rw [← hr]
        rfl
      have hcommit : r.node.commitIndex = (s.hosts p).node.commitIndex := by
        rw [← hr]
        rfl
      have hbound : ∀ x ∈ r.node.matchIndex.entries, x.2 ≤ r.node.lastLogIndexLocked := by
        intro x hx
        rw [hlast]
        rw [← hr] at hx
        simp only [Locked.node_modify, Node.recordMatch] at hx
        split at hx
        · rw [AList.entries_insert] at hx
          rcases List.mem_cons.1 hx with rfl | hx
          · exact hle
          · exact (hn hrole).bound x ((List.kerase_sublist _ _).subset hx)
        · exact (hn hrole).bound x hx
      unfold Locked.maybeAdvanceCommitIndexLocked
      obtain ⟨hsame, -, hscan, hraise⟩ := r.advanceLoop_evidence r.node.lastLogIndexLocked
      refine ⟨⟨fun x hx => ?_, fun N hN => ?_⟩, fun hlt => ?_⟩
      · rw [hsame.lastLogIndexLocked]
        exact hbound x (hsame.matchIndex ▸ hx)
      · have hN' := hsame.iff.1 hN
        exact hscan N hN'.inside.2 hN'
      · exact hsame.iff.2 (hraise (by rw [hcommit]; exact hlt))

end LeaderStep

/-! ## Requests -/

/-- The leader sent the request past the end of its log. -/
def OutgoingAppendEntries.Blind (out : OutgoingAppendEntries) : Prop :=
  0 < out.req.prevLogIndex ∧ out.req.prevLogTerm = 0

/-- A request reaches to the end of the leader's log, unless it starts past it. -/
theorem Node.request_within (n : Node) (hoff : n.logOffset = 0) (q : String) :
    (n.buildAppendEntriesRequest q).Blind ∨
      (n.buildAppendEntriesRequest q).prevIndex + (n.buildAppendEntriesRequest q).numEntries ≤
        n.lastLogIndexLocked := by
  unfold OutgoingAppendEntries.Blind Node.buildAppendEntriesRequest
  dsimp only
  generalize hnext : (if n.nextIndex.at q ≤ n.logOffset then n.logOffset + 1
    else n.nextIndex.at q) = next
  have hpos : n.logOffset < next := by
    rw [← hnext]
    split <;> omega
  rw [n.filterMap_entryAtLocked hpos, List.length_drop]
  have hlast : n.lastLogIndexLocked = n.log.length := by
    unfold Node.lastLogIndexLocked
    omega
  rw [hlast]
  rcases Nat.lt_or_ge n.log.length (next - 1) with hlt | hge
  · refine Or.inl ⟨by omega, ?_⟩
    rw [if_pos (by omega), show n.entryAtLocked (next - 1) = none by
      unfold Node.entryAtLocked
      exact if_pos (Or.inr (by omega))]
  · exact Or.inr (by omega)

/-- A node that holds its whole log rejects such a request. -/
theorem Locked.appendEntries_blind {d : Disk} {s : Locked} (h : Whole d s)
    {req : AppendEntriesRequest} (hpos : 0 < req.prevLogIndex) (hzero : req.prevLogTerm = 0)
    {f : SaveFaults} {reply : AppendEntriesReply} (hreply : (s.appendEntries req f).2 = .ok reply) :
    reply.success = false := by
  have hobs := h.keepsLog (s.keepsLog_observeRequest req.term f.observe)
  unfold appendEntries at hreply
  generalize s.observeRequest req.term f.observe = r at hobs hreply
  obtain ⟨r, err⟩ := r
  cases err with
  | some err => exact absurd hreply (by simp)
  | none =>
      dsimp only at hobs hreply
      rw [Except.ok.injEq] at hreply
      subst hreply
      unfold acceptEntries
      split
      · rfl
      · have hdown := hobs.keepsLog ((r.keepsLog_setRoleLocked .follower).trans
          (.modify (f := fun n => { n with currentLeader := req.leaderId }) rfl rfl rfl rfl))
        generalize ((r.setRoleLocked .follower).modify fun n =>
          { n with currentLeader := req.leaderId }) = t at hdown
        dsimp only
        unfold Node.checkPrev
        rw [hdown.offset, if_pos hpos, hzero]
        cases hentry : t.node.entryAtLocked req.prevLogIndex with
        | none => rfl
        | some e =>
            have hterm : e.term ≠ 0 := by
              unfold Node.entryAtLocked at hentry
              split at hentry
              · exact absurd hentry (by simp)
              · exact (hdown.node.terms e (List.mem_of_getElem? hentry)).ne'
            dsimp only
            rw [if_pos hterm]

/-! ## Runs -/

/-- A round of requests: while its leader leads, no request speaks of more than the leader's log
holds unless it is rejected. -/
structure Round (s : Cluster) (b : Broadcast) : Prop where
  epoch : b.epoch ≤ (s.hosts b.leader).epoch
  within : b.epoch = (s.hosts b.leader).epoch →
    ((s.hosts b.leader).node.role = .leader ∧ (s.hosts b.leader).node.currentTerm = b.term ∧
      ∀ out ∈ b.reqs, out.Blind ∨
        out.prevIndex + out.numEntries ≤ (s.hosts b.leader).node.lastLogIndexLocked) ∨
    (s.hosts b.leader).node.Past b.term
  blind : ∀ out ∈ b.reqs, out.Blind → ∀ reply, b.calls out.peer = .answered reply →
    reply.success = false
  unique : ∀ out ∈ b.reqs, ∀ out' ∈ b.reqs, out'.peer = out.peer → out' = out

/-- **The invariant**: leaders have acted upon their evidence. -/
structure Evident (c : Config) (s : Cluster) : Prop where
  votes : ∃ S, VoteInv c S s
  logs : WholeLogs s
  rounds : ∀ b ∈ s.broadcasts, Round s b
  leaders : ∀ p ∈ c.addrs, (s.hosts p).node.role = .leader → (s.hosts p).node.UpToDate

/-- A round under way, after a step of its leader. -/
theorem Round.move {c : Config} {s s' : Cluster} {a : Action} {b : Broadcast} (h : Round s b)
    (ha : a.SnapshotFree) (hs : step c s a = some s') :
    b.epoch ≤ (s'.hosts b.leader).epoch ∧ (b.epoch = (s'.hosts b.leader).epoch →
      ((s'.hosts b.leader).node.role = .leader ∧ (s'.hosts b.leader).node.currentTerm = b.term ∧
        ∀ out ∈ b.reqs, out.Blind ∨
          out.prevIndex + out.numEntries ≤ (s'.hosts b.leader).node.lastLogIndexLocked) ∨
      (s'.hosts b.leader).node.Past b.term) := by
  cases hostStep hs b.leader with
  | other hnode hdisk hepoch hpoll =>
      rw [hnode, hepoch]
      exact ⟨h.epoch, h.within⟩
  | own op o hact heff hhost hnode hdisk hepoch hpoll =>
      subst hact
      rw [hnode, hepoch]
      refine ⟨h.epoch, fun hep => ?_⟩
      have hfol := heff.follows
      rw [hhost] at hfol
      rcases h.within hep with ⟨hl, hT, hout⟩ | hpast
      · rcases hfol with ⟨hlt, -⟩ | ⟨heq, hrole⟩
        · exact Or.inr (Or.inl (hT ▸ hlt))
        · rcases hrole with hr | hr | ⟨hr, -⟩
          · have hstep := heff.leaderStep ha (hr.trans hl)
            rw [hhost] at hstep
            exact Or.inl ⟨hr.trans hl, heq.trans hT,
              fun out hin => (hout out hin).imp id fun hle => hle.trans (hstep.last_le hl)⟩
          · exact Or.inr (Or.inr ⟨heq.trans hT, hr⟩)
          · rw [hl] at hr
            exact absurd hr (by simp)
      · exact Or.inr (hpast.follows hfol)
  | restart ws hh =>
      have hep : (s'.hosts b.leader).epoch = (s.hosts b.leader).epoch + 1 := by
        rw [hh]
        rfl
      have := h.epoch
      exact ⟨by omega, fun h' => by omega⟩

namespace Evident

variable {c : Config} {s s' : Cluster} {p : String}

theorem init (c : Config) : Evident c c.init where
  votes := ⟨∅, .init c⟩
  logs := .init c
  rounds := by simp [Config.init]
  leaders p _ hl := by
    have : (c.init.hosts p).node.role = .follower := rfl
    rw [this] at hl
    exact absurd hl (by simp)

/-- No reply speaks of more than the leader's log holds. -/
theorem reply_within (h : Evident c s) {b : Broadcast} (hb : b ∈ s.broadcasts)
    {out : OutgoingAppendEntries} (hout : out ∈ b.reqs) {reply : AppendEntriesReply}
    (hleader : b.leader = p) (hepoch : b.epoch = (s.hosts p).epoch)
    (hl : (s.hosts p).node.role = .leader) (hterm : (s.hosts p).node.currentTerm = b.term)
    (hans : b.calls out.peer = .answered reply) (hsuccess : reply.success = true) :
    out.prevIndex + out.numEntries ≤ (s.hosts p).node.lastLogIndexLocked := by
  subst hleader
  have hround := h.rounds b hb
  rcases hround.within hepoch with ⟨-, -, hall⟩ | hlt | ⟨-, hfol⟩
  · rcases hall out hout with hblind | hle
    · rw [hround.blind out hout hblind reply hans] at hsuccess
      exact absurd hsuccess (by simp)
    · exact hle
  · omega
  · rw [hl] at hfol
    exact absurd hfol (by simp)

/-- What a step does to a process that leads afterwards. -/
theorem leader_step (h : Evident c s) (hsize : 2 ≤ c.addrs.length) (hp : p ∈ c.addrs) {a : Action}
    (ha : a.SnapshotFree) (hs : B5KvStore.step c s a = some s')
    (hl : (s'.hosts p).node.role = .leader) : (s'.hosts p).node.UpToDate ∧
      ((s.hosts p).node.commitIndex < (s'.hosts p).node.commitIndex →
        (s'.hosts p).node.Evidence (s'.hosts p).node.commitIndex) := by
  obtain ⟨S, hvotes⟩ := h.votes
  have hpeers : 0 < (s.hosts p).node.peers.length := by
    rw [(hvotes.identity p hp).2]
    unfold Config.peersOf
    rw [List.length_erase_of_mem hp]
    omega
  cases hostStep hs p with
  | other hnode hdisk hepoch hpoll =>
      rw [hnode] at hl ⊢
      exact ⟨h.leaders p hp hl, fun hlt => absurd hlt (Nat.lt_irrefl _)⟩
  | own op o hact heff hhost hnode hdisk hepoch hpoll =>
      subst hact hhost
      rw [hnode] at hl ⊢
      exact (heff.leaderStep ha hl).upToDate hpeers (h.leaders _ hp)
        fun b hb out hout reply => h.reply_within hb hout
  | restart ws hh =>
      rw [hh] at hl
      exact absurd hl (by simp [Config.boot, Config.newNode, newNode])

/-- **One step without snapshots.** -/
theorem step (h : Evident c s) (hsize : 2 ≤ c.addrs.length) {a : Action} (ha : a.SnapshotFree)
    (hs : B5KvStore.step c s a = some s') : Evident c s' := by
  obtain ⟨S, hvotes⟩ := h.votes
  obtain ⟨S', -, hvotes'⟩ := hvotes.step hs
  refine ⟨⟨S', hvotes'⟩, h.logs.step ha hs, fun b hb => ?_,
    fun p hp hl => (h.leader_step hsize hp ha hs hl).1⟩
  have hkept : ∀ {b : Broadcast}, b ∈ s.broadcasts → Round s' b := fun {b} hb =>
    ⟨((h.rounds b hb).move ha hs).1, ((h.rounds b hb).move ha hs).2, (h.rounds b hb).blind,
      (h.rounds b hb).unique⟩
  cases stepView hs with
  | run op o ho =>
      have hmove : ∀ b ∈ s.broadcasts, _ := fun b hb => (h.rounds b hb).move ha hs
      have heff := exec_effect ho
      cases heff.round hb with
      | old b₀ calls hb₀ heq hcalls =>
          have hround := h.rounds b₀ hb₀
          subst heq
          refine ⟨(hmove b₀ hb₀).1, (hmove b₀ hb₀).2, fun out hout hblind reply hans => ?_,
            hround.unique⟩
          rcases hcalls out.peer reply hans with hans | ⟨out', hout', hpeer, f, hreply⟩
          · exact hround.blind out hout hblind reply hans
          · obtain rfl := hround.unique out hout out' hout' hpeer
            exact Locked.appendEntries_blind (h.logs.hosts _).lock hblind.1 hblind.2 hreply
      | new read hrole hres heq =>
          subst heq
          have hnode : ((o.around.finish c o.host o.result).hosts o.host).node =
              (s.hosts o.host).node := by
            rw [Cluster.node_finish, hres]
            rfl
          refine ⟨(heff.epoch_finish _).ge, fun _ => Or.inl ?_,
            fun out _ _ reply hans => absurd hans (by simp),
            fun out hout out' hout' hpeer => ?_⟩
          · dsimp only
            rw [hnode]
            refine ⟨hrole, rfl, fun out hout => ?_⟩
            obtain ⟨q, -, rfl⟩ := List.mem_map.1 hout
            exact Node.request_within _ (h.logs.hosts o.host).offset q
          · obtain ⟨q, -, rfl⟩ := List.mem_map.1 hout
            obtain ⟨q', -, rfl⟩ := List.mem_map.1 hout'
            exact congrArg _ hpeer
  | crash q _ => exact hkept hb
  | crashDuring op o k _ => exact hkept hb
  | publish file => exact absurd ha id

/-- **Runs without snapshots.** -/
theorem run (hsize : 2 ≤ c.addrs.length) {as : List Action} (has : ∀ a ∈ as, a.SnapshotFree)
    (hrun : B5KvStore.run c c.init as = some s) : Evident c s :=
  Runs.invariant (fun _ _ _ h ha hs => h.step hsize ha hs) (init c)
    (.of_forall fun a ha _ => has a ha) (run_eq_exec c c.init as ▸ hrun)

end Evident

/-- **The commit index of a leader is never behind its evidence**, in a cluster of two members or
more: in every state of a run without snapshots a leader has committed every entry of its term
that a majority holds as far as it knows, and whenever its commit index moves it moves to such
an entry. -/
theorem commit_follows_evidence (c : Config) (hsize : 2 ≤ c.addrs.length) (as : List Action)
    (s : Cluster) (has : ∀ a ∈ as, a.SnapshotFree) (hrun : run c c.init as = some s) (p : String)
    (hp : p ∈ c.addrs) :
    ((s.hosts p).node.role = .leader → ∀ N, (s.hosts p).node.Evidence N →
      N ≤ (s.hosts p).node.commitIndex) ∧
    ∀ a s', a.SnapshotFree → step c s a = some s' → (s'.hosts p).node.role = .leader →
      (s.hosts p).node.commitIndex < (s'.hosts p).node.commitIndex →
      (s'.hosts p).node.Evidence (s'.hosts p).node.commitIndex := by
  have h := Evident.run hsize has hrun
  exact ⟨fun hl => (h.leaders p hp hl).commit,
    fun a s' ha hs hl => (h.leader_step hsize hp ha hs hl).2⟩

/-- Node `a` leads a cluster of three and has one entry acknowledged by `b`. -/
theorem commit_follows_evidence_trio : ∃ s, run trio trio.init
      (winElection "a" "b" 0 ++ [.run (.propose "a" (putBytes 120 49))] ++ replicate "a" "b" 0) =
        some s ∧
    (s.hosts "a").node.Evidence 1 ∧ 1 ≤ (s.hosts "a").node.commitIndex := by
  obtain ⟨s, hrun, hrole, hev⟩ := exists_of_run (fun s : Cluster =>
    (s.hosts "a").node.role = .leader ∧ (s.hosts "a").node.Evidence 1)
    (show (run trio trio.init (winElection "a" "b" 0 ++
      [.run (.propose "a" (putBytes 120 49))] ++ replicate "a" "b" 0)).any _ = true by
        decide +kernel)
  have h := commit_follows_evidence trio (by decide) _ s (by decide) hrun "a" (by decide)
  exact ⟨s, hrun, hev, h.1 hrole 1 hev⟩

/-- A cluster of one. -/
def solo : Config where
  addrs := ["a"]
  idOf p := p
  logCapacityEntries := 1000
  decode := decodePut
  nodup := by decide
  ids_ne := by decide
  ids_inj := by decide

/-- The only member of a cluster is a majority by itself, and does not commit its entry. -/
theorem evidence_ignored_solo : ∃ s, run solo solo.init
      [.run (.startElection "a" false), .run (.soloElection 0),
        .run (.propose "a" (putBytes 120 49))] = some s ∧
    (s.hosts "a").node.role = .leader ∧ (s.hosts "a").node.Evidence 1 ∧
    (s.hosts "a").node.commitIndex = 0 :=
  exists_of_run (fun s : Cluster => (s.hosts "a").node.role = .leader ∧
    (s.hosts "a").node.Evidence 1 ∧ (s.hosts "a").node.commitIndex = 0) (by decide +kernel)

end B5KvStore
