import B5KvStore.Cluster.Effects
import B5KvStore.Raft.Recovery
import B5KvStore.Raft.Specs

/-!
# What a critical section reports

Handlers let others observe something in three places: `setRoleLocked` tells the calls that
wait that leadership is lost, `applyCommittedLocked` hands entries to `ApplyFn` and tells the
calls that wait for them, and the two events of a leader, its election and its commits, carry
the node as it is at the end of the critical section.

* `Routine` — what the helpers report; one lemma for each of them.
* `Reported` — what a whole critical section reports; `Effect.reported`.
-/

namespace B5KvStore

/-- A call of `ApplyFn`, or a value for a call that waits. -/
def NodeEvent.Routine (waiters : AList fun _ : Nat => Nat) : NodeEvent → Prop
  | .applied _ => True
  | .notified ch _ => ∃ i, waiters.lookup i = some ch
  | _ => False

/-- Between the two points of a critical section only routine events are reported, and nobody
starts to wait. -/
def Locked.Routine (s s' : Locked) : Prop :=
  Locked.SubMap s'.node.waiters s.node.waiters ∧
    ∃ es, s'.events = s.events ++ es ∧ ∀ e ∈ es, e.Routine s.node.waiters

namespace Locked.Routine

variable {s s' s'' : Locked}

theorem of_eq (h : s'.events = s.events) (hw : s'.node.waiters = s.node.waiters) : Routine s s' :=
  ⟨fun _ _ hi => hw ▸ hi, [], by simpa using h, by simp⟩

theorem refl (s : Locked) : Routine s s := of_eq rfl rfl

theorem trans (h : Routine s s') (h' : Routine s' s'') : Routine s s'' := by
  obtain ⟨hsub, es, heq, hes⟩ := h
  obtain ⟨hsub', es', heq', hes'⟩ := h'
  refine ⟨fun i ch hi => hsub i ch (hsub' i ch hi), es ++ es',
    by rw [heq', heq, List.append_assoc], fun e he => ?_⟩
  rcases List.mem_append.1 he with he | he
  · exact hes e he
  · have hroutine := hes' e he
    cases e with
    | notified ch outcome =>
        obtain ⟨i, hi⟩ := hroutine
        exact ⟨i, hsub i ch hi⟩
    | applied msg => trivial
    | _ => exact absurd hroutine id

theorem setRoleLocked (s : Locked) (r : Role) : Routine s (s.setRoleLocked r) := by
  unfold Locked.setRoleLocked
  split
  · refine ⟨fun i ch hi => absurd hi (by simp [abortPendingWaitersLocked]), _, rfl, fun e he => ?_⟩
    obtain ⟨w, hw, rfl⟩ := List.mem_map.1 he
    exact ⟨w.1, AList.mem_lookup_iff.2 hw⟩
  · exact of_eq rfl rfl

theorem persistStateLocked (s : Locked) (fails : Bool) :
    Routine s (s.persistStateLocked fails).1 := by
  unfold Locked.persistStateLocked
  split
  · exact refl s
  · exact of_eq rfl rfl

theorem observeTermLocked (s : Locked) (T : Nat) (fails : Bool) :
    Routine s (s.observeTermLocked T fails).1 := by
  unfold Locked.observeTermLocked
  split
  · exact refl s
  · have hterm : Routine s (s.modify fun n => { n with currentTerm := T, votedFor := "" }) :=
      of_eq rfl rfl
    exact (hterm.trans (setRoleLocked _ _)).trans (persistStateLocked _ _)

theorem observeRequest (s : Locked) (T : Nat) (fails : Bool) :
    Routine s (s.observeRequest T fails).1 := by
  unfold Locked.observeRequest
  split
  · exact observeTermLocked s T fails
  · exact refl s

theorem castVote (s : Locked) (req : RequestVoteRequest) (fails : Bool) :
    Routine s (s.castVote req fails).1 := by
  unfold Locked.castVote Locked.persistStateLocked
  split
  · exact refl s
  · split
    · cases fails with
      | true => exact of_eq rfl rfl
      | false => exact of_eq rfl rfl
    · exact refl s

theorem requestVote (s : Locked) (req : RequestVoteRequest) (f : SaveFaults) :
    Routine s (s.requestVote req f).1 := by
  have hobs := observeRequest s req.term f.observe
  unfold Locked.requestVote
  split
  · rename_i t err heq
    rw [heq] at hobs
    exact hobs
  · rename_i t heq
    rw [heq] at hobs
    exact hobs.trans (castVote t req f.vote)

theorem startElection (s : Locked) (fails : Bool) : Routine s (s.startElection fails).1 := by
  unfold Locked.startElection
  split
  · exact refl s
  · have hcand : Routine s ((s.setRoleLocked .candidate).modify fun n =>
        { n with currentTerm := n.currentTerm + 1, votedFor := n.id }) :=
      (setRoleLocked s .candidate).trans (of_eq rfl rfl)
    have hp := hcand.trans (persistStateLocked _ fails)
    dsimp only
    split
    · rename_i t err heq
      rw [heq] at hp
      exact hp
    · rename_i t heq
      rw [heq] at hp
      exact hp

theorem mergeEntriesLocked (s : Locked) (prev : Nat) (es : List LogEntry) :
    Routine s (s.mergeEntriesLocked prev es) := by
  obtain ⟨log, ws, heq⟩ := s.mergeEntriesLocked_frame prev es
  rw [heq]
  exact of_eq rfl rfl

theorem applyCommittedLocked (s : Locked) : Routine s s.applyCommittedLocked := by
  obtain ⟨k, w, wake, es, heq, hsub, hes⟩ := s.applyCommittedLocked_frame
  rw [heq]
  refine ⟨hsub, es, rfl, fun x hx => ?_⟩
  rcases hes x hx with ⟨msg, rfl⟩ | ⟨i, e, ch, -, -, hch, rfl⟩
  · trivial
  · exact ⟨e.index, hch⟩

theorem followCommit (s : Locked) (C : Nat) : Routine s (s.followCommit C) := by
  unfold Locked.followCommit
  split
  · exact (of_eq rfl rfl).trans (applyCommittedLocked _)
  · exact refl s

theorem acceptEntries (s : Locked) (req : AppendEntriesRequest) :
    Routine s (s.acceptEntries req).1 := by
  unfold Locked.acceptEntries
  split
  · exact refl s
  · have hrole : Routine s ((s.setRoleLocked .follower).modify fun n =>
        { n with currentLeader := req.leaderId }) :=
      (setRoleLocked s .follower).trans (of_eq rfl rfl)
    dsimp only
    split
    · exact hrole
    · rw [Locked.ite_mergeEntriesLocked]
      exact (hrole.trans (mergeEntriesLocked _ _ _)).trans (followCommit _ _)

theorem appendEntries (s : Locked) (req : AppendEntriesRequest) (f : SaveFaults) :
    Routine s (s.appendEntries req f).1 := by
  have hobs := observeRequest s req.term f.observe
  unfold Locked.appendEntries
  split
  · rename_i t err heq
    rw [heq] at hobs
    exact hobs
  · rename_i t heq
    rw [heq] at hobs
    exact hobs.trans (acceptEntries t req)

end Locked.Routine

/-- **What a critical section reports**, in terms of the node it leaves behind. -/
inductive Reported (n : Node) : NodeEvent → Prop
  | routine (waiters : AList fun _ : Nat => Nat) (e : NodeEvent) (h : e.Routine waiters) :
      Reported n e
  | returned (index : Nat) (outcome : Option RaftError) : Reported n (.returned index outcome)
  | becameLeader (hrole : n.role = .leader) (hleader : n.currentLeader = n.address) :
      Reported n (.becameLeader n)
  /-- After moving its commit index the leader only applies entries. -/
  | advancedCommit (m : Node) (hm : n = { m with
      lastApplied := n.lastApplied, waiters := n.waiters, applyWake := n.applyWake }) :
      Reported n (.advancedCommit m)

section

variable {n : Node}

theorem Locked.Routine.reported {r : Locked} (h : Routine n.lock r) :
    ∀ e ∈ r.events, Reported r.node e := by
  obtain ⟨-, es, heq, hes⟩ := h
  intro e he
  rw [heq] at he
  exact .routine _ e (hes e he)

theorem reported_becomeLeaderLocked :
    ∀ e ∈ n.lock.becomeLeaderLocked.events, Reported n.lock.becomeLeaderLocked.node e := by
  by_cases hrole : n.lock.node.role = .candidate
  · obtain ⟨n', heq, hn'⟩ := n.lock.becomeLeaderLocked_spec hrole
    rw [heq]
    intro e he
    obtain rfl : e = .becameLeader n' := List.mem_singleton.1 he
    rw [hn']
    exact .becameLeader rfl rfl
  · unfold Locked.becomeLeaderLocked
    rw [if_pos hrole]
    intro e he
    exact absurd he List.not_mem_nil

theorem reported_soloElection (el : Election) :
    ∀ e ∈ (n.lock.soloElection el).events, Reported (n.lock.soloElection el).node e := by
  unfold Locked.soloElection
  split
  · exact reported_becomeLeaderLocked
  · exact (Locked.Routine.refl _).reported

theorem reported_handleRequestVoteReply (el : Election) (reply : RequestVoteReply) (fails : Bool) :
    ∀ e ∈ (n.lock.handleRequestVoteReply el reply fails).1.events,
      Reported (n.lock.handleRequestVoteReply el reply fails).1.node e := by
  unfold Locked.handleRequestVoteReply
  split
  · exact (Locked.Routine.observeTermLocked _ _ _).reported
  · split
    · exact (Locked.Routine.refl _).reported
    · dsimp only
      generalize (if reply.voteGranted then el.votes + 1 else el.votes) = votes
      split
      · exact reported_becomeLeaderLocked
      · exact (Locked.Routine.refl _).reported

/-- The loop reports nothing, or the commit it finds and what is applied then. -/
theorem reported_advanceLoop {s : Locked} (hs : s.events = []) (N : Nat) :
    ∀ e ∈ (s.advanceLoop N).events, Reported (s.advanceLoop N).node e := by
  have hnone : ∀ e ∈ s.events, Reported s.node e := by
    rw [hs]
    exact fun e he => absurd he List.not_mem_nil
  induction N with
  | zero => exact hnone
  | succ N ih =>
      unfold Locked.advanceLoop
      split
      · split
        · dsimp only
          obtain ⟨m, hm⟩ : ∃ m, m = ({ s.node with commitIndex := N + 1 } : Node) := ⟨_, rfl⟩
          obtain ⟨k, w, wake, es, heq, -⟩ :=
            (⟨m, s.writes, [.advancedCommit m]⟩ : Locked).applyCommittedLocked_frame
          obtain ⟨-, es', heq', hes'⟩ := Locked.Routine.applyCommittedLocked
            (⟨m, s.writes, [.advancedCommit m]⟩ : Locked)
          have hstart : (s.modify fun n => { n with commitIndex := N + 1 }).emit
              [.advancedCommit (s.modify fun n => { n with commitIndex := N + 1 }).node] =
              ⟨m, s.writes, [.advancedCommit m]⟩ := by
            rw [hm]
            simp [Locked.modify, Locked.emit, hs]
          rw [hstart]
          intro e he
          rw [heq'] at he
          rcases List.mem_append.1 he with he | he
          · obtain rfl : e = .advancedCommit m := List.mem_singleton.1 he
            rw [heq]
            exact .advancedCommit m rfl
          · exact .routine _ e (hes' e he)
        · exact ih
      · exact hnone

theorem reported_handleAppendEntriesReply (T : Nat) (out : OutgoingAppendEntries)
    (reply : AppendEntriesReply) (fails : Bool) :
    ∀ e ∈ (n.lock.handleAppendEntriesReply T out reply fails).1.events,
      Reported (n.lock.handleAppendEntriesReply T out reply fails).1.node e := by
  unfold Locked.handleAppendEntriesReply
  split
  · exact (Locked.Routine.refl _).reported
  · unfold Locked.handleAppendEntriesReplyLocked
    dsimp only
    split
    · exact (Locked.Routine.observeTermLocked _ _ _).reported
    · split
      · exact reported_advanceLoop rfl _
      · exact (Locked.Routine.of_eq rfl rfl).reported

end

/-- **One critical section.** -/
theorem Effect.reported {c : Config} {s : Cluster} {op : Op} {o : Outcome} (h : Effect c s op o) :
    ∀ e ∈ o.result.events, Reported o.result.node e := by
  have hsame : ∀ {r : Locked}, r.events = [] → ∀ e ∈ r.events, Reported r.node e := by
    intro r hr e he
    rw [hr] at he
    exact absurd he List.not_mem_nil
  cases h with
  | startElection p fails hp => exact (Locked.Routine.startElection _ _).reported
  | soloElection k call hk hepoch hq => exact reported_soloElection _
  | requestVote k call peer f hk hp hsent => exact (Locked.Routine.requestVote _ _ _).reported
  | requestVoteReply k call peer fails reply hk hepoch hans =>
      exact reported_handleRequestVoteReply _ _ _
  | broadcast op p read s' hp hrole hs' hcalls => exact hsame rfl
  | appendEntries k b out peer f hk hout hpeer hp hsent =>
      exact (Locked.Routine.appendEntries _ _ _).reported
  | appendEntriesReply k b out peer fails reply s' hk hout hfind hpeer hepoch hans hs' hcalls =>
      exact reported_handleAppendEntriesReply _ _ _ _
  | propose p command hp =>
      dsimp only
      unfold Locked.propose
      split
      · exact hsame rfl
      · exact hsame rfl
  | proposeSync p command hp s' hs' hcalls =>
      dsimp only
      unfold Locked.proposeSync
      split
      · exact hsame rfl
      · exact hsame rfl
  | idle op p r s' hr hs' hop hcalls hret =>
      cases hr with
      | look => exact hsame rfl
      | returned i outcome =>
          intro e he
          obtain rfl : e = .returned i outcome := List.mem_singleton.1 he
          exact .returned i outcome
      | waiters i => exact hsame rfl
      | leader l => exact hsame rfl
  | confirmCompaction p req hp =>
      refine hsame ?_
      rcases (s.hosts p).node.lock.confirmCompaction_cases req with heq | ⟨file, heq⟩
      · rw [heq]
        rfl
      · rw [heq]
        exact Locked.events_compactLocked _ _
  | pollWait op p ph hp hop hfrom hph hpos hph' => exact hsame rfl
  | pollWriteFile p file hp hpoll => exact hsame rfl
  | pollRewriteLog p file hp hpoll => exact hsame rfl
  | pollRestore p file hp hpoll => exact hsame rfl
  | pollAdopt p file hp hpoll =>
      refine hsame ?_
      dsimp only
      unfold Locked.adoptSnapshot
      rw [Locked.replaceSnapshotFileLocked_eq]
      rfl
  | pollCompact p file hp hpoll =>
      refine hsame ?_
      dsimp only
      unfold Locked.pollCompact
      split
      · exact Locked.events_compactLocked _ _
      · rfl

end B5KvStore
