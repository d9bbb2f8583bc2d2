import B5KvStore.Cluster.CommittedPrefix

/-!
# Acknowledged writes

A `ProposeSync` call waits for the entry it has appended, and is told that it is
committed when its index is applied.  With snapshots used safely (`Safe`), the entry
that is applied there is the one the call has appended.

* `Waits` — whom a critical section may tell what; one lemma for each handler.
* `Promises` — what holds of the calls under way in every reachable state.
* `acknowledged_writes_committed`.
* `staleWaiter` — what happens when a leader catches up to a snapshot below its log.
-/

namespace B5KvStore

open ReplicatedLog (Known CommittedAt Extends)

/-! ## Channels -/

/-- Nobody is told that a command is committed, and no call returns. -/
def NodeEvent.Quiet : NodeEvent → Prop
  | .notified _ none | .returned _ _ => False
  | _ => True

theorem OnlyAborts.quiet {es : List NodeEvent} (h : OnlyAborts es) : ∀ e ∈ es, e.Quiet := by
  intro e he
  obtain ⟨ch, rfl⟩ := h e he
  trivial

/-- Calls wait only for leaders, and under the index of an entry. -/
def Node.Waited (n : Node) : Prop :=
  ∀ i ch, n.waiters.lookup i = some ch → n.role = .leader ∧ n.Indexed

/-- What a critical section of a node `n` does to the waiting calls: none is added, only
a leader that stays in its term keeps any, and a call is told `nil` only for an index
that is committed. -/
structure Waits (n : Node) (r : Locked) : Prop where
  kept : Locked.SubMap r.node.waiters n.waiters
  leads : ∀ i ch, r.node.waiters.lookup i = some ch →
    r.node.role = .leader ∧ r.node.currentTerm = n.currentTerm
  told : ∀ x ∈ r.events, x.Quiet ∨ ∃ ch i, x = .notified ch none ∧
    n.waiters.lookup i = some ch ∧ i ≤ r.node.commitIndex ∧ r.node.role = .leader ∧
    r.node.currentTerm = n.currentTerm

/-- Nobody waits, and nobody has been told anything. -/
structure Silent (r : Locked) : Prop where
  nobody : ∀ i, r.node.waiters.lookup i = none
  quiet : ∀ x ∈ r.events, x.Quiet

namespace Silent

variable {r r' : Locked}

theorem waits (h : Silent r) (n : Node) : Waits n r where
  kept i ch hi := absurd hi (by simp [h.nobody])
  leads i ch hi := absurd hi (by simp [h.nobody])
  told x hx := Or.inl (h.quiet x hx)

theorem of_eq (h : Silent r) (hw : r'.node.waiters = r.node.waiters) (he : r'.events = r.events) :
    Silent r' where
  nobody i := by rw [hw]; exact h.nobody i
  quiet := by rw [he]; exact h.quiet

/-- Whoever waits for a leader is told when it steps down. -/
theorem setRoleLocked (hlead : ∀ i ch, r.node.waiters.lookup i = some ch → r.node.role = .leader)
    (hq : ∀ x ∈ r.events, x.Quiet) {role : Role} (hrole : role ≠ .leader) :
    Silent (r.setRoleLocked role) := by
  obtain ⟨w, es, heq, hes, hw, hdown⟩ := r.setRoleLocked_spec role
  rw [heq]
  refine ⟨fun i => ?_, fun x hx => ?_⟩
  · dsimp only
    by_cases hl : r.node.role = .leader
    · rw [hdown hl hrole]
      exact AList.lookup_empty i
    · rcases hw with rfl | rfl
      · exact AList.lookup_empty i
      · cases hi : r.node.waiters.lookup i with
        | none => rfl
        | some ch => exact absurd (hlead i ch hi) hl
  · rcases List.mem_append.1 hx with hx | hx
    · exact hq x hx
    · exact hes.quiet x hx

theorem persistStateLocked (h : Silent r) (fails : Bool) :
    Silent (r.persistStateLocked fails).1 := by
  unfold Locked.persistStateLocked
  split
  · exact h
  · exact h.of_eq rfl rfl

theorem mergeEntriesLocked (h : Silent r) (prev : Nat) (es : List LogEntry) :
    Silent (r.mergeEntriesLocked prev es) := by
  obtain ⟨log, ws, heq⟩ := r.mergeEntriesLocked_frame prev es
  rw [heq]
  exact h.of_eq rfl rfl

theorem applyCommittedLocked (h : Silent r) : Silent r.applyCommittedLocked := by
  obtain ⟨k, w, wake, es, heq, hsub, hes⟩ := r.applyCommittedLocked_frame
  rw [heq]
  refine ⟨fun i => ?_, fun x hx => ?_⟩
  · dsimp only
    cases hi : w.lookup i with
    | none => rfl
    | some ch =>
        have := hsub i ch hi
        rw [h.nobody] at this
        exact absurd this (by simp)
  · rcases List.mem_append.1 hx with hx | hx
    · exact h.quiet x hx
    · rcases hes x hx with ⟨msg, rfl⟩ | ⟨i, e, ch, -, -, hch, -⟩
      · trivial
      · rw [h.nobody] at hch
        exact absurd hch (by simp)

theorem followCommit (h : Silent r) (C : Nat) : Silent (r.followCommit C) := by
  unfold Locked.followCommit
  split
  · exact applyCommittedLocked (h.of_eq rfl rfl)
  · exact h

/-- Whoever waits for a node that observes a later term is told. -/
theorem observeTermLocked (hlead : ∀ i ch, r.node.waiters.lookup i = some ch → r.node.role = .leader)
    (hq : ∀ x ∈ r.events, x.Quiet) (T : Nat) (fails : Bool) :
    (r.observeTermLocked T fails).1 = r ∨ Silent (r.observeTermLocked T fails).1 := by
  unfold Locked.observeTermLocked
  split
  · exact Or.inl rfl
  · have hs : Silent ((r.modify fun n => { n with currentTerm := T, votedFor := "" }).setRoleLocked
        .follower) := by
      refine setRoleLocked ?_ ?_ (by simp)
      · exact hlead
      · exact hq
    exact Or.inr (hs.persistStateLocked fails)

end Silent

namespace Waits

variable {n : Node} {r r' : Locked}

theorem lock (h : n.Waited) : Waits n n.lock where
  kept _ _ hi := hi
  leads i ch hi := ⟨(h i ch hi).1, rfl⟩
  told x hx := absurd hx (by simp [Node.lock])

/-- Nothing about the calls changes. -/
theorem same (h : Waits n r) (hw : r'.node.waiters = r.node.waiters)
    (hrole : r'.node.role = r.node.role) (hterm : r'.node.currentTerm = r.node.currentTerm)
    (hcommit : r.node.commitIndex ≤ r'.node.commitIndex) {es : List NodeEvent}
    (hev : r'.events = r.events ++ es) (hes : ∀ x ∈ es, x.Quiet) : Waits n r' where
  kept := by rw [hw]; exact h.kept
  leads i ch hi := by
    rw [hrole, hterm]
    exact h.leads i ch (hw ▸ hi)
  told x hx := by
    rw [hev] at hx
    rcases List.mem_append.1 hx with hx | hx
    · refine (h.told x hx).imp_right ?_
      rintro ⟨ch, i, heq, hi, hle, hl, ht⟩
      exact ⟨ch, i, heq, hi, hle.trans hcommit, by rw [hrole]; exact hl, by rw [hterm]; exact ht⟩
    · exact Or.inl (hes x hx)

/-- Something else of the node, or the disk, changes. -/
theorem frame (h : Waits n r) (hw : r'.node.waiters = r.node.waiters)
    (hrole : r'.node.role = r.node.role)
    (hterm : r'.node.currentTerm = r.node.currentTerm)
    (hcommit : r'.node.commitIndex = r.node.commitIndex)
    (hev : r'.events = r.events) : Waits n r' :=
  h.same hw hrole hterm hcommit.ge (hev.trans (List.append_nil _).symm) (by simp)

theorem observeTermLocked (h : Waits n r) (hq : ∀ x ∈ r.events, x.Quiet) (T : Nat) (fails : Bool) :
    Waits n (r.observeTermLocked T fails).1 ∧
      ∀ x ∈ (r.observeTermLocked T fails).1.events, x.Quiet := by
  rcases Silent.observeTermLocked (fun i ch hi => (h.leads i ch hi).1) hq T fails with heq | hs
  · rw [heq]
    exact ⟨h, hq⟩
  · exact ⟨hs.waits n, hs.quiet⟩

theorem observeRequest (h : Waits n r) (hq : ∀ x ∈ r.events, x.Quiet) (T : Nat) (fails : Bool) :
    Waits n (r.observeRequest T fails).1 ∧
      ∀ x ∈ (r.observeRequest T fails).1.events, x.Quiet := by
  unfold Locked.observeRequest
  split
  · exact h.observeTermLocked hq T fails
  · exact ⟨h, hq⟩

theorem castVote (h : Waits n r) (req : RequestVoteRequest) (fails : Bool) :
    Waits n (r.castVote req fails).1 := by
  unfold Locked.castVote Locked.persistStateLocked
  split
  · exact h
  · split
    · cases fails with
      | true => exact h.frame rfl rfl rfl rfl rfl
      | false => exact h.frame rfl rfl rfl rfl rfl
    · exact h

theorem requestVote (h : Waits n r) (hq : ∀ x ∈ r.events, x.Quiet) (req : RequestVoteRequest)
    (f : SaveFaults) : Waits n (r.requestVote req f).1 := by
  have hobs := (h.observeRequest hq req.term f.observe).1
  unfold Locked.requestVote
  split
  · rename_i t err heq
    rw [heq] at hobs
    exact hobs
  · rename_i t heq
    rw [heq] at hobs
    exact hobs.castVote req f.vote

theorem startElection (h : n.Waited) (fails : Bool) : Waits n (n.lock.startElection fails).1 := by
  unfold Locked.startElection
  split
  · exact .lock h
  · have hs : Silent ((n.lock.setRoleLocked .candidate).modify fun n =>
        { n with currentTerm := n.currentTerm + 1, votedFor := n.id }) :=
      (Silent.setRoleLocked (fun i ch hi => (h i ch hi).1) (by simp [Node.lock])
        (by simp)).of_eq rfl rfl
    dsimp only
    have hp := (hs.persistStateLocked fails).waits n
    split
    · rename_i t err heq
      rw [heq] at hp
      exact hp
    · rename_i t heq
      rw [heq] at hp
      exact hp

theorem becomeLeaderLocked (h : n.Waited) : Waits n n.lock.becomeLeaderLocked := by
  by_cases hrole : n.role = .candidate
  · have hs : Silent n.lock.becomeLeaderLocked := by
      obtain ⟨n', heq, hn'⟩ := n.lock.becomeLeaderLocked_spec hrole
      rw [heq, hn']
      refine ⟨fun i => ?_, by simp [Node.lock, NodeEvent.Quiet]⟩
      cases hi : n.waiters.lookup i with
      | none => exact hi
      | some ch => exact absurd ((h i ch hi).1.symm.trans hrole) (by simp)
    exact hs.waits n
  · unfold Locked.becomeLeaderLocked
    rw [if_pos (show n.lock.node.role ≠ .candidate from hrole)]
    exact .lock h

theorem soloElection (h : n.Waited) (e : Election) : Waits n (n.lock.soloElection e) := by
  unfold Locked.soloElection
  split
  · exact becomeLeaderLocked h
  · exact .lock h

theorem handleRequestVoteReply (h : n.Waited) (e : Election) (reply : RequestVoteReply)
    (fails : Bool) : Waits n (n.lock.handleRequestVoteReply e reply fails).1 := by
  unfold Locked.handleRequestVoteReply
  split
  · exact ((Waits.lock h).observeTermLocked (by simp [Node.lock]) _ _).1
  · split
    · exact .lock h
    · dsimp only
      generalize (if reply.voteGranted then e.votes + 1 else e.votes) = votes
      split
      · exact becomeLeaderLocked h
      · exact .lock h

theorem acceptEntries (h : Waits n r) (hq : ∀ x ∈ r.events, x.Quiet) (req : AppendEntriesRequest) :
    Waits n (r.acceptEntries req).1 := by
  unfold Locked.acceptEntries
  split
  · exact h
  · have hs : Silent ((r.setRoleLocked .follower).modify fun n =>
        { n with currentLeader := req.leaderId }) :=
      (Silent.setRoleLocked (fun i ch hi => (h.leads i ch hi).1) hq (by simp)).of_eq rfl rfl
    dsimp only
    split
    · exact hs.waits n
    · rw [Locked.ite_mergeEntriesLocked]
      exact ((hs.mergeEntriesLocked _ _).followCommit _).waits n

theorem appendEntries (h : Waits n r) (hq : ∀ x ∈ r.events, x.Quiet) (req : AppendEntriesRequest)
    (f : SaveFaults) : Waits n (r.appendEntries req f).1 := by
  have hobs := h.observeRequest hq req.term f.observe
  unfold Locked.appendEntries
  split
  · rename_i t err heq
    rw [heq] at hobs
    exact hobs.1
  · rename_i t heq
    rw [heq] at hobs
    exact hobs.1.acceptEntries hobs.2 req

/-- The calls that wait for what has been committed are told. -/
theorem applyCommittedLocked (h : Waits n r) (hindex : ∀ i ch, r.node.waiters.lookup i = some ch →
    r.node.Indexed) : Waits n r.applyCommittedLocked := by
  obtain ⟨k, w, wake, es, heq, hsub, hes⟩ := r.applyCommittedLocked_frame
  rw [heq]
  refine ⟨fun i ch hi => h.kept i ch (hsub i ch hi), fun i ch hi => h.leads i ch (hsub i ch hi),
    fun x hx => ?_⟩
  rcases List.mem_append.1 hx with hx | hx
  · exact h.told x hx
  · rcases hes x hx with ⟨msg, rfl⟩ | ⟨i, e, ch, hi, he, hch, rfl⟩
    · exact Or.inl trivial
    · have hei := hindex _ ch hch i e he
      rw [hei] at hch
      exact Or.inr ⟨ch, i, rfl, h.kept i ch hch, hi, h.leads i ch hch⟩

theorem advanceLoop (h : Waits n r) (hindex : ∀ i ch, r.node.waiters.lookup i = some ch →
    r.node.Indexed) (N : Nat) : Waits n (r.advanceLoop N) := by
  induction N with
  | zero => exact h
  | succ N ih =>
      unfold Locked.advanceLoop
      split
      · rename_i hlt
        split
        · exact (h.same rfl rfl rfl (Nat.le_of_lt hlt) rfl (by simp [NodeEvent.Quiet]) :
            Waits n ((r.modify fun n => { n with commitIndex := N + 1 }).emit
              [.advancedCommit { r.node with commitIndex := N + 1 }])).applyCommittedLocked hindex
        · exact ih
      · exact h

theorem handleAppendEntriesReply (h : n.Waited) (T : Nat) (out : OutgoingAppendEntries)
    (reply : AppendEntriesReply) (fails : Bool) :
    Waits n (n.lock.handleAppendEntriesReply T out reply fails).1 := by
  have hlock := Waits.lock h
  have hsame : ∀ f : Node → Node, (f n).waiters = n.waiters → (f n).role = n.role →
      (f n).currentTerm = n.currentTerm → (f n).commitIndex = n.commitIndex →
      Waits n (n.lock.modify f) := fun f hw hr ht hc =>
    hlock.frame hw hr ht hc rfl
  unfold Locked.handleAppendEntriesReply
  split
  · exact hlock
  · unfold Locked.handleAppendEntriesReplyLocked
    dsimp only
    split
    · exact (hlock.observeTermLocked (by simp [Node.lock]) _ _).1
    · split
      · have hmatch := hsame (fun n => n.recordMatch out.peer (out.prevIndex + out.numEntries))
          rfl rfl rfl rfl
        exact hmatch.advanceLoop (fun i ch hi => (h i ch hi).2) _
      · exact hsame _ rfl rfl rfl rfl

theorem propose (h : n.Waited) (command : List UInt8) : Waits n (n.lock.propose command) := by
  unfold Locked.propose
  split
  · exact .lock h
  · exact (Waits.lock h).frame rfl rfl rfl rfl rfl

theorem replaceSnapshotFileLocked (h : Waits n r) (i : Nat) :
    Waits n (r.replaceSnapshotFileLocked i) := by
  unfold Locked.replaceSnapshotFileLocked
  dsimp only
  split
  · exact h.frame rfl rfl rfl rfl rfl
  · split
    · exact h.frame rfl rfl rfl rfl rfl
    · exact h.frame rfl rfl rfl rfl rfl

theorem compactLocked (h : Waits n r) (file : File) : Waits n (r.compactLocked file).1 := by
  unfold Locked.compactLocked
  split
  · exact h
  · have hw : Waits n (r.write [.writeFile file]) :=
      h.frame rfl rfl rfl rfl rfl
    exact (hw.replaceSnapshotFileLocked _).frame rfl rfl rfl rfl rfl

theorem confirmCompaction (h : Waits n r) (req : CompactionAck) :
    Waits n (r.confirmCompaction req).1 := by
  unfold Locked.confirmCompaction
  split
  · exact h
  · split
    · exact h
    · split
      · exact h
      · split
        · exact h
        · exact h.compactLocked _

theorem pollCompact (h : Waits n r) (file : File) : Waits n (r.pollCompact file) := by
  unfold Locked.pollCompact
  split
  · exact h.compactLocked file
  · exact h

theorem adoptSnapshot (h : Waits n r) (file : File) : Waits n (r.adoptSnapshot file) := by
  refine (h.replaceSnapshotFileLocked file.lastIncludedIndex).same rfl rfl rfl ?_
    (List.append_nil _).symm (by simp)
  unfold Locked.adoptSnapshot
  rw [Locked.node_modify]
  dsimp only
  split
  · rename_i hlt
    exact Nat.le_of_lt hlt
  · exact le_refl _

end Waits

/-- A critical section of `p` tells the calls that wait what `Waits` allows, or one of them
returns what it has been told. -/
def Settles (s : Cluster) (p : String) (r : Locked) : Prop :=
  Waits (s.hosts p).node r ∨ ∃ call ∈ s.proposals, ∃ outcome, call.chan = some outcome ∧
    r = (s.hosts p).node.lock.emit [.returned call.index outcome]

/-- What `ProposeSync` makes of a leader. -/
def Node.proposed (n : Node) (command : List UInt8) (ch : Nat) : Locked :=
  (n.lock.appendLocalLocked command).modify fun n' =>
    { n' with waiters := n'.waiters.insert (n.lastLogIndexLocked + 1) ch }

/-- **What an operation does to the calls under way**: none is made or forgotten, or a
leader accepts a new one. -/
theorem Effect.calls {c : Config} {s : Cluster} {op : Op} {o : Outcome} (h : Effect c s op o)
    (hwaited : (s.hosts o.host).node.Waited) :
    SameCalls s.proposals o.around.proposals ∧ Settles s o.host o.result ∨
      ∃ command, o.host ∈ c.addrs ∧ (s.hosts o.host).node.role = .leader ∧
        o.result = (s.hosts o.host).node.proposed command s.proposals.length ∧
        o.around.proposals = s.proposals ++ [⟨o.host, (s.hosts o.host).epoch,
          (s.hosts o.host).node.lastLogIndexLocked + 1, (s.hosts o.host).node.currentTerm, command,
          none, false⟩] := by
  have hlock := Waits.lock hwaited
  have hq : ∀ x ∈ (s.hosts o.host).node.lock.events, x.Quiet := by simp [Node.lock]
  have hwaits : ∀ {r : Locked}, Waits (s.hosts o.host).node r → Settles s o.host r :=
    fun hr => Or.inl hr
  cases h with
  | startElection p fails hp => exact Or.inl ⟨rfl, hwaits (.startElection hwaited fails)⟩
  | soloElection k call hk hepoch hq => exact Or.inl ⟨rfl, hwaits (.soloElection hwaited _)⟩
  | requestVote k call peer f hk hp hsent => exact Or.inl ⟨rfl, hwaits (hlock.requestVote hq _ _)⟩
  | requestVoteReply k call peer fails reply hk hepoch hans =>
      exact Or.inl ⟨rfl, hwaits (.handleRequestVoteReply hwaited _ _ _)⟩
  | broadcast op p read s' hp hrole hs' hcalls =>
      exact Or.inl ⟨by rw [hcalls]; rfl, hwaits hlock⟩
  | appendEntries k b out peer f hk hout hpeer hp hsent =>
      exact Or.inl ⟨rfl, hwaits (hlock.appendEntries hq _ _)⟩
  | appendEntriesReply k b out peer fails reply s' hk hout hfind hpeer hepoch hans hs' hcalls =>
      exact Or.inl ⟨by rw [hcalls]; rfl, hwaits (.handleAppendEntriesReply hwaited _ _ _ _)⟩
  | propose p command hp => exact Or.inl ⟨rfl, hwaits (.propose hwaited command)⟩
  | proposeSync p command hp s' hs' hcalls =>
      dsimp only at hcalls ⊢
      unfold Locked.proposeSync
      by_cases hrole : (s.hosts p).node.role = .leader
      · rw [if_neg (by simpa using hrole)] at hcalls
        rw [if_neg (show ¬ (s.hosts p).node.lock.node.role ≠ .leader from fun h => h hrole)]
        exact Or.inr ⟨command, hp, hrole, rfl, hcalls⟩
      · rw [if_pos hrole] at hcalls
        rw [if_pos (show (s.hosts p).node.lock.node.role ≠ .leader from hrole), hcalls]
        exact Or.inl ⟨rfl, hwaits hlock⟩
  | idle op p r s' hr hs' hop hcalls hret =>
      refine Or.inl ⟨hcalls, ?_⟩
      cases hr with
      | look => exact hwaits hlock
      | returned i outcome =>
          obtain ⟨call, hcall, rfl, hchan⟩ := hret i outcome (by simp [Node.lock])
          exact Or.inr ⟨call, hcall, outcome, hchan, rfl⟩
      | waiters i =>
          have hsub := Locked.subMap_erase (s.hosts p).node.waiters i
          exact hwaits ⟨hsub, fun j ch hj => hlock.leads j ch (hsub j ch hj), by simp [Node.lock]⟩
      | leader l => exact hwaits (hlock.frame rfl rfl rfl rfl rfl)
  | confirmCompaction p req hp => exact Or.inl ⟨rfl, hwaits (hlock.confirmCompaction req)⟩
  | pollWait op p ph hp hop hfrom hph hpos hph' => exact Or.inl ⟨rfl, hwaits hlock⟩
  | pollWriteFile p file hp hpoll => exact Or.inl ⟨rfl, hwaits (hlock.frame rfl rfl rfl rfl rfl)⟩
  | pollRewriteLog p file hp hpoll => exact Or.inl ⟨rfl, hwaits (hlock.frame rfl rfl rfl rfl rfl)⟩
  | pollRestore p file hp hpoll => exact Or.inl ⟨rfl, hwaits hlock⟩
  | pollAdopt p file hp hpoll => exact Or.inl ⟨rfl, hwaits (hlock.adoptSnapshot file)⟩
  | pollCompact p file hp hpoll => exact Or.inl ⟨rfl, hwaits (hlock.pollCompact file)⟩

/-! ## Calls -/

/-- The entry a call has appended. -/
def Proposal.entry (call : Proposal) : LogEntry := ⟨call.term, call.index, call.command⟩

/-- The same call, whatever it has been told so far. -/
structure SameCall (call call' : Proposal) : Prop where
  leader : call'.leader = call.leader
  index : call'.index = call.index
  term : call'.term = call.term
  entry : call'.entry = call.entry

theorem SameCall.refl (call : Proposal) : SameCall call call := ⟨rfl, rfl, rfl, rfl⟩

theorem SameCall.trans {call call' call'' : Proposal} (h : SameCall call call')
    (h' : SameCall call' call'') : SameCall call call'' :=
  ⟨h'.leader.trans h.leader, h'.index.trans h.index, h'.term.trans h.term, h'.entry.trans h.entry⟩

theorem notify_getElem? {ps : List Proposal} {x : NodeEvent} {k : Nat} {call' : Proposal}
    (h : (Cluster.notify ps x)[k]? = some call') :
    ∃ call, ps[k]? = some call ∧ SameCall call call' ∧
      (call'.chan = call.chan ∨ ∃ outcome, x = .notified k outcome ∧ call'.chan = some outcome) := by
  cases x with
  | notified ch outcome =>
      simp only [Cluster.notify, List.getElem?_modify] at h
      obtain ⟨call, hcall, rfl⟩ := Option.map_eq_some_iff.1 h
      refine ⟨call, hcall, ?_⟩
      by_cases hch : ch = k
      · rw [if_pos hch]
        exact ⟨⟨rfl, rfl, rfl, rfl⟩, Or.inr ⟨outcome, by rw [hch], rfl⟩⟩
      · rw [if_neg hch]
        exact ⟨.refl call, Or.inl rfl⟩
  | _ => exact ⟨call', h, .refl call', Or.inl rfl⟩

/-- A value a channel holds was there before, or has been sent. -/
theorem notifyAll_getElem? {es : List NodeEvent} {ps : List Proposal} {k : Nat} {call' : Proposal}
    (h : (es.foldl Cluster.notify ps)[k]? = some call') :
    ∃ call, ps[k]? = some call ∧ SameCall call call' ∧
      (call'.chan = call.chan ∨
        ∃ outcome, .notified k outcome ∈ es ∧ call'.chan = some outcome) := by
  induction es generalizing ps with
  | nil => exact ⟨call', h, .refl call', Or.inl rfl⟩
  | cons x es ih =>
      obtain ⟨call₁, hcall₁, hsame₁, hchan₁⟩ := ih h
      obtain ⟨call, hcall, hsame, hchan⟩ := notify_getElem? hcall₁
      refine ⟨call, hcall, hsame.trans hsame₁, ?_⟩
      rcases hchan₁ with heq | ⟨outcome, hmem, heq⟩
      · rcases hchan with heq' | ⟨outcome, rfl, heq'⟩
        · exact Or.inl (heq.trans heq')
        · exact Or.inr ⟨outcome, List.mem_cons_self .., heq.trans heq'⟩
      · exact Or.inr ⟨outcome, List.mem_cons_of_mem x hmem, heq⟩

theorem length_notifyAll (es : List NodeEvent) (ps : List Proposal) :
    (es.foldl Cluster.notify ps).length = ps.length := by
  induction es generalizing ps with
  | nil => rfl
  | cons x es ih =>
      rw [List.foldl_cons, ih]
      cases x with
      | notified ch outcome => exact List.length_modify ..
      | _ => rfl

theorem SameCalls.getElem? {ps ps' : List Proposal} (h : SameCalls ps ps') {k : Nat}
    {call' : Proposal} (hk : ps'[k]? = some call') :
    ∃ call, ps[k]? = some call ∧ SameCall call call' ∧ call'.chan = call.chan := by
  have hmap : (ps'.map Proposal.core)[k]? = some call'.core := by
    rw [List.getElem?_map, hk]
    rfl
  rw [h, List.getElem?_map] at hmap
  obtain ⟨call, hcall, hcore⟩ := Option.map_eq_some_iff.1 hmap
  simp only [Proposal.core, Proposal.mk.injEq] at hcore
  obtain ⟨hl, -, hi, ht, hc, hchan, -⟩ := hcore
  exact ⟨call, hcall, ⟨hl.symm, hi.symm, ht.symm, by unfold Proposal.entry; rw [hi, ht, hc]⟩,
    hchan.symm⟩

/-- After a critical section, every call is one of those there were. -/
theorem SameCalls.notifyAll {ps ps' : List Proposal} (h : SameCalls ps ps') {es : List NodeEvent}
    {k : Nat} {call' : Proposal} (hk : (es.foldl Cluster.notify ps')[k]? = some call') :
    ∃ call, ps[k]? = some call ∧ SameCall call call' ∧ (call'.chan = call.chan ∨
      ∃ outcome, .notified k outcome ∈ es ∧ call'.chan = some outcome) := by
  obtain ⟨call₁, hk₁, hsame₁, hchan₁⟩ := notifyAll_getElem? hk
  obtain ⟨call, hk, hsame, hchan⟩ := h.getElem? hk₁
  exact ⟨call, hk, hsame.trans hsame₁, by rw [← hchan]; exact hchan₁⟩

/-- And every call is still there. -/
theorem SameCalls.stays {ps ps' : List Proposal} (h : SameCalls ps ps') (es : List NodeEvent)
    {k : Nat} {call : Proposal} (hk : ps[k]? = some call) :
    ∃ call', (es.foldl Cluster.notify ps')[k]? = some call' ∧ SameCall call call' := by
  have hlen : (es.foldl Cluster.notify ps').length = ps.length := by
    rw [length_notifyAll]
    simpa using congrArg List.length h
  have hlt := (List.getElem?_eq_some_iff.1 hk).1
  obtain ⟨call', hk'⟩ : ∃ call', (es.foldl Cluster.notify ps')[k]? = some call' :=
    ⟨_, List.getElem?_eq_getElem (by omega)⟩
  obtain ⟨call₀, hk₀, hsame, -⟩ := h.notifyAll hk'
  rw [hk, Option.some.injEq] at hk₀
  subst hk₀
  exact ⟨call', hk', hsame⟩

/-- A `ProposeSync` call stays what it is. -/
theorem step_call_stays {c : Config} {s s' : Cluster} {act : Action}
    (hwaited : ∀ q, (s.hosts q).node.Waited) (hs : step c s act = some s') {k : Nat}
    {call : Proposal} (hk : s.proposals[k]? = some call) :
    ∃ call', s'.proposals[k]? = some call' ∧ SameCall call call' := by
  cases stepView hs with
  | run op o ho =>
      rw [Cluster.proposals_finish]
      rcases (exec_effect ho).calls (hwaited o.host) with ⟨hcalls, -⟩ | ⟨command, -, -, -, hcalls⟩
      · exact hcalls.stays _ hk
      · have hself : SameCalls o.around.proposals o.around.proposals := rfl
        refine hself.stays _ ?_
        rw [hcalls, List.getElem?_append_left (List.getElem?_eq_some_iff.1 hk).1]
        exact hk
  | crash q _ => exact ⟨call, hk, .refl _⟩
  | crashDuring op o j ho => exact ⟨call, hk, .refl _⟩
  | publish file => exact ⟨call, hk, .refl _⟩

/-! ## Every reachable state -/

/-- What holds of the calls under way: whoever waits for an index waits at a leader that
is still in the term of the call, every call has its entry in the log of its term's
leader, and what has been acknowledged is committed. -/
structure Promises (c : Config) (a : Model) (s : Cluster) : Prop where
  waiting : ∀ p i ch, (s.hosts p).node.waiters.lookup i = some ch →
    p ∈ c.addrs ∧ (s.hosts p).node.role = .leader ∧ ∃ call, s.proposals[ch]? = some call ∧
      call.leader = p ∧ call.index = i ∧ call.term = (s.hosts p).node.currentTerm
  calls : ∀ call ∈ s.proposals, 0 < call.index ∧ ∃ L, a.led call.term = some (call.leader, L) ∧
    L[call.index - 1]? = some call.entry
  told : ∀ call ∈ s.proposals, call.chan = some none → CommittedAt a call.index call.entry
  returned : ∀ ev ∈ s.history, ∀ i, ev.what = .returned i none → ∃ e, CommittedAt a i e

namespace Promises

variable {c : Config} {a a' : Model} {s : Cluster} {op : Op} {o : Outcome} {lo : Nat} {p : String}

theorem init (c : Config) : Promises c .init c.init where
  waiting p i ch hi := absurd hi (by
    simp [Config.init, Config.boot, Config.newNode, newNode, Disk.empty])
  calls := by simp [Config.init]
  told := by simp [Config.init]
  returned := by simp [Config.init]

/-- The entry of a call stays in the log of its term's leader. -/
theorem calls_mono (h : Promises c a s) (hx : Extends a a') : ∀ call ∈ s.proposals,
    0 < call.index ∧ ∃ L, a'.led call.term = some (call.leader, L) ∧
      L[call.index - 1]? = some call.entry := by
  intro call hcall
  obtain ⟨hpos, L, hled, hL⟩ := h.calls call hcall
  have hlt := (List.getElem?_eq_some_iff.1 hL).1
  obtain ⟨L', hled', -, htake⟩ := hx.led_take hled (show call.index ≤ L.length by omega)
  refine ⟨hpos, L', hled', ?_⟩
  rw [ReplicatedLog.getElem?_eq_of_take_eq htake (by omega)]
  exact hL

theorem waited (h : Promises c a s) (hv : ClusterView c a s) (p : String) :
    (s.hosts p).node.Waited := by
  intro i ch hi
  obtain ⟨hp, hrole, -⟩ := h.waiting p i ch hi
  exact ⟨hrole, (hv.nodes p hp).indexed hv.reach⟩

/-- A call that waits for a leader has its entry in the leader's log. -/
theorem entry_of_leader (h : Promises c a s) (hx : Extends a a') {n : Node} {call : Proposal}
    (hn : NodeView c a' p n) (hr : c.Reaches a') (hrole : n.role = .leader)
    (hcall : call ∈ s.proposals) (hleader : call.leader = p) (hterm : call.term = n.currentTerm) :
    0 < call.index ∧ (a'.log p)[call.index - 1]? = some call.entry := by
  obtain ⟨hpos, L, hled, hL⟩ := h.calls_mono hx call hcall
  have hled' := hn.led hr hrole
  rw [hn.term, ← hterm, hled, hleader, Option.some.injEq, Prod.mk.injEq] at hled'
  rw [← hled'.2]
  exact ⟨hpos, hL⟩

/-- Only a leader that stays in its term keeps calls waiting. -/
theorem kept (h : Promises c a s) {r : Locked} (hw : Settles s p r) :
    Locked.SubMap r.node.waiters (s.hosts p).node.waiters ∧
      ∀ i ch, r.node.waiters.lookup i = some ch →
        r.node.role = .leader ∧ r.node.currentTerm = (s.hosts p).node.currentTerm := by
  rcases hw with hw | ⟨call, -, outcome, -, rfl⟩
  · exact ⟨hw.kept, hw.leads⟩
  · exact ⟨fun _ _ hi => hi, fun i ch hi => ⟨(h.waiting p i ch hi).2.1, rfl⟩⟩

/-- A call that is told `nil` has its entry committed: its index is, and the leader's log
still holds the entry there. -/
theorem notified (h : Promises c a s) (hx : Extends a a') {r : Locked} (hw : Settles s p r)
    (hn : p ∈ c.addrs → NodeView c a' p r.node) (hr : c.Reaches a') {k : Nat} {call : Proposal}
    (hk : s.proposals[k]? = some call) (hmem : .notified k none ∈ r.events) :
    CommittedAt a' call.index call.entry := by
  rcases hw with hw | ⟨call₀, -, outcome, -, rfl⟩
  · rcases hw.told _ hmem with hq | ⟨ch, i, heq, hi, hle, hrole, hterm⟩
    · exact absurd hq id
    · obtain ⟨rfl, -⟩ := NodeEvent.notified.inj heq
      obtain ⟨hp, -, call₀, hk₀, hleader, rfl, hterm₀⟩ := h.waiting p i k hi
      rw [hk, Option.some.injEq] at hk₀
      subst hk₀
      obtain ⟨hpos, hentry⟩ := h.entry_of_leader hx (hn hp) hr hrole (List.mem_of_getElem? hk)
        hleader (hterm₀.trans hterm.symm)
      exact (hn hp).known.committedAt hpos hle hentry
  · exact absurd hmem (by simp [Node.lock])

/-- A call that returns `nil` has been told so before. -/
theorem returns (h : Promises c a s) (hx : Extends a a') {r : Locked} (hw : Settles s p r) {i : Nat}
    (hmem : .returned i none ∈ r.events) : ∃ e, CommittedAt a' i e := by
  rcases hw with hw | ⟨call, hcall, outcome, hchan, rfl⟩
  · rcases hw.told _ hmem with hq | ⟨ch, i, heq, -⟩
    · exact absurd hq id
    · exact absurd heq (by simp)
  · obtain ⟨rfl, rfl⟩ : i = call.index ∧ none = outcome := by simpa [Node.lock] using hmem
    exact ⟨_, (h.told call hcall hchan).mono hx⟩

/-- A critical section that makes no call. -/
theorem finish (h : Promises c a s) (hv : ClusterView c a s) (he : Effect c s op o)
    (hsec : SectionStep c a s op o lo a') (hcalls : SameCalls s.proposals o.around.proposals)
    (hw : Settles s o.host o.result) : Promises c a' (o.around.finish c o.host o.result) := by
  have hx := hsec.moves.extends hv.reach.inv
  have hv' := hv.finish he hsec
  have hown := Cluster.node_finish o.around c o.host o.result
  refine ⟨?_, ?_, ?_, ?_⟩
  · intro q i ch hi
    by_cases hq : q = o.host
    · subst hq
      rw [hown] at hi ⊢
      obtain ⟨hkept, hleads⟩ := h.kept hw
      obtain ⟨hp, -, call, hk, hleader, hindex, hterm⟩ := h.waiting _ i ch (hkept i ch hi)
      obtain ⟨hrole, hterm'⟩ := hleads i ch hi
      obtain ⟨call', hk', hsame⟩ := hcalls.stays o.result.events hk
      exact ⟨hp, hrole, call', hk', hsame.leader.trans hleader, hsame.index.trans hindex,
        (hsame.term.trans hterm).trans hterm'.symm⟩
    · rw [he.hosts_finish_other hq] at hi ⊢
      obtain ⟨hp, hrole, call, hk, hleader, hindex, hterm⟩ := h.waiting q i ch hi
      obtain ⟨call', hk', hsame⟩ := hcalls.stays o.result.events hk
      exact ⟨hp, hrole, call', hk', hsame.leader.trans hleader, hsame.index.trans hindex,
        hsame.term.trans hterm⟩
  · intro call' hcall'
    obtain ⟨k, hk⟩ := List.getElem?_of_mem hcall'
    obtain ⟨call, hk, hsame, -⟩ := hcalls.notifyAll hk
    rw [hsame.index, hsame.term, hsame.leader, hsame.entry]
    exact h.calls_mono hx call (List.mem_of_getElem? hk)
  · intro call' hcall' hchan'
    obtain ⟨k, hk'⟩ := List.getElem?_of_mem hcall'
    obtain ⟨call, hk, hsame, hchan⟩ := hcalls.notifyAll hk'
    rw [hsame.index, hsame.entry]
    rcases hchan with hchan | ⟨outcome, hmem, hout⟩
    · exact (h.told call (List.mem_of_getElem? hk) (hchan.symm.trans hchan')).mono hx
    · rw [hchan', Option.some.injEq] at hout
      subst hout
      exact h.notified hx hw (fun hp => hown ▸ hv'.nodes _ hp) hv'.reach hk hmem
  · intro ev hev i hwhat
    rw [Cluster.history_finish, he.same_rest.2, List.mem_append, List.mem_map] at hev
    rcases hev with hev | ⟨x, hxmem, rfl⟩
    · obtain ⟨e, hcom⟩ := h.returned ev hev i hwhat
      exact ⟨e, hcom.mono hx⟩
    · obtain rfl : x = .returned i none := hwhat
      exact h.returns hx hw hxmem

/-- A leader accepts a call. -/
theorem proposed (h : Promises c a s) (hx : Extends a a') {s' : Cluster} (call : Proposal)
    (hp : p ∈ c.addrs) (hother : ∀ q, q ≠ p → (s'.hosts q).node = (s.hosts q).node)
    (hrole : (s'.hosts p).node.role = .leader)
    (hterm : (s'.hosts p).node.currentTerm = (s.hosts p).node.currentTerm)
    (hwaiters : (s'.hosts p).node.waiters =
      (s.hosts p).node.waiters.insert call.index s.proposals.length)
    (hcalls : s'.proposals = s.proposals ++ [call]) (hhist : s'.history = s.history)
    (hcall : call.leader = p ∧ call.term = (s.hosts p).node.currentTerm ∧ call.chan = none)
    (hentry : 0 < call.index ∧ ∃ L, a'.led call.term = some (call.leader, L) ∧
      L[call.index - 1]? = some call.entry) : Promises c a' s' := by
  have hold : ∀ {q : String} {i ch : Nat}, (s.hosts q).node.waiters.lookup i = some ch →
      q ∈ c.addrs ∧ (s.hosts q).node.role = .leader ∧ ∃ call, s'.proposals[ch]? = some call ∧
        call.leader = q ∧ call.index = i ∧ call.term = (s.hosts q).node.currentTerm := by
    intro q i ch hi
    obtain ⟨hq, hrole, call₀, hk, hrest⟩ := h.waiting q i ch hi
    refine ⟨hq, hrole, call₀, ?_, hrest⟩
    rw [hcalls, List.getElem?_append_left (List.getElem?_eq_some_iff.1 hk).1]
    exact hk
  refine ⟨?_, ?_, ?_, ?_⟩
  · intro q i ch hi
    by_cases hq : q = p
    · subst hq
      rw [hwaiters] at hi
      rw [hrole, hterm]
      by_cases hic : i = call.index
      · subst hic
        rw [AList.lookup_insert, Option.some.injEq] at hi
        subst hi
        refine ⟨hp, rfl, call, ?_, hcall.1, rfl, hcall.2.1⟩
        rw [hcalls, List.getElem?_concat_length]
      · rw [AList.lookup_insert_ne hic] at hi
        obtain ⟨hq, -, hrest⟩ := hold hi
        exact ⟨hq, rfl, hrest⟩
    · rw [hother q hq] at hi ⊢
      exact hold hi
  · intro call' hcall'
    rw [hcalls] at hcall'
    rcases List.mem_append.1 hcall' with hmem | hmem
    · exact h.calls_mono hx call' hmem
    · obtain rfl := List.mem_singleton.1 hmem
      exact hentry
  · intro call' hcall' hchan
    rw [hcalls] at hcall'
    rcases List.mem_append.1 hcall' with hmem | hmem
    · exact (h.told call' hmem hchan).mono hx
    · obtain rfl := List.mem_singleton.1 hmem
      rw [hcall.2.2] at hchan
      exact absurd hchan (by simp)
  · intro ev hev i hwhat
    rw [hhist] at hev
    obtain ⟨e, hcom⟩ := h.returned ev hev i hwhat
    exact ⟨e, hcom.mono hx⟩

/-- Everything else stays when a process restarts. -/
theorem restart (h : Promises c a s) (hx : Extends a a') (p : String) (ws : List DiskWrite) :
    Promises c a' (s.restart c p ws) where
  waiting q i ch hi := by
    by_cases hq : q = p
    · subst hq
      rw [Cluster.hosts_restart] at hi
      exact absurd hi (by simp [Config.boot, Config.newNode, newNode])
    · rw [Cluster.hosts_restart_of_ne _ _ _ _ hq] at hi ⊢
      exact h.waiting q i ch hi
  calls := h.calls_mono hx
  told call hcall hchan := (h.told call hcall hchan).mono hx
  returned ev hev i hwhat := by
    obtain ⟨e, hcom⟩ := h.returned ev hev i hwhat
    exact ⟨e, hcom.mono hx⟩

/-- **One step** keeps what calls rely on. -/
theorem step (h : Promises c a s) (hv : ClusterView c a s) {s' : Cluster} {act : Action}
    (hok : Safe s act) (hs : B5KvStore.step c s act = some s') :
    ∃ a', Extends a a' ∧ ClusterView c a' s' ∧ Promises c a' s' := by
  cases stepView hs with
  | run op o ho =>
      have heff := exec_effect ho
      obtain ⟨lo, a', hsec⟩ := hv.effect heff hok.1 hok.2
      have hv' := hv.finish heff hsec
      refine ⟨a', hsec.moves.extends hv.reach.inv, hv', ?_⟩
      rcases heff.calls (h.waited hv o.host) with
        ⟨hcalls, hw⟩ | ⟨command, hp, hrole, hresult, hcalls⟩
      · exact h.finish hv heff hsec hcalls hw
      · have hown : ((o.around.finish c o.host o.result).hosts o.host).node =
            ((s.hosts o.host).node.proposed command s.proposals.length).node := by
          rw [Cluster.node_finish, hresult]
        have hn := hv'.nodes o.host hp
        rw [hown] at hn
        have hled := hn.led hv'.reach hrole
        rw [hn.term] at hled
        have hentry := hn.entryAtLocked (i := (s.hosts o.host).node.lastLogIndexLocked + 1) (by
          have hle := hn.anchorIndex_le
          have hlen := (hv.nodes o.host hp).known.1
          rw [← Node.lastLogIndexLocked_eq (hv.nodes o.host hp).log] at hlen
          exact Nat.lt_succ_of_le (hle.trans hlen))
        replace hentry := ((s.hosts o.host).node.entryAtLocked_appendLocal command).symm.trans hentry
        exact h.proposed (hsec.moves.extends hv.reach.inv) ⟨o.host, (s.hosts o.host).epoch,
            (s.hosts o.host).node.lastLogIndexLocked + 1, (s.hosts o.host).node.currentTerm,
            command, none, false⟩ hp (fun q hq => by rw [heff.hosts_finish_other hq])
          (by rw [hown]; exact hrole) (by rw [hown]; rfl) (by rw [hown]; rfl)
          (by rw [Cluster.proposals_finish, hresult, hcalls]; rfl)
          (by rw [Cluster.history_finish, hresult, heff.same_rest.2]; exact List.append_nil _)
          ⟨rfl, rfl, rfl⟩ ⟨Nat.succ_pos _, _, hled, hentry.symm⟩
  | crash p _ =>
      obtain ⟨a', hm, hv'⟩ := hv.restart [] fun hp => ⟨a, .refl, rfl, hv.disks p hp⟩
      have hx := hm.extends hv.reach.inv
      exact ⟨a', hx, hv', h.restart hx p []⟩
  | crashDuring op o k ho =>
      obtain ⟨lo, a₁, hsec⟩ := hv.effect (exec_effect ho) hok.1 hok.2
      obtain ⟨a', hm, hv'⟩ := hv.restart _ fun hp => (hsec.member hp).crash k
      have hx := hm.extends hv.reach.inv
      exact ⟨a', hx, hv', h.restart hx _ _⟩
  | publish file =>
      obtain ⟨q, a', hm, hv'⟩ := hv.step hok hs
      have hx := hm.extends hv.reach.inv
      refine ⟨a', hx, hv', h.waiting, h.calls_mono hx, fun call hcall hchan =>
        (h.told call hcall hchan).mono hx, fun ev hev i hwhat => ?_⟩
      obtain ⟨e, hcom⟩ := h.returned ev hev i hwhat
      exact ⟨e, hcom.mono hx⟩

/-- **Runs.** -/
theorem run {as : List Action} (hok : Runs.Along (B5KvStore.step c) Safe c.init as)
    (hrun : B5KvStore.run c c.init as = some s) : ∃ a, ClusterView c a s ∧ Promises c a s := by
  refine Runs.invariant (I := fun s => ∃ a, ClusterView c a s ∧ Promises c a s) ?_
    ⟨_, ClusterView.init c, Promises.init c⟩ hok (run_eq_exec c c.init as ▸ hrun)
  rintro s act s' ⟨a, hv, h⟩ hok hs
  obtain ⟨a', -, hv', h'⟩ := h.step hv hok hs
  exact ⟨a', hv', h'⟩

end Promises

/-- **Acknowledged writes are committed writes**, in every run in which snapshots are used
safely: when the channel of a `ProposeSync` call holds `nil`, the entry committed at its
index is the one the call has appended, and no other. -/
theorem acknowledged_writes_committed (c : Config) (as : List Action) (s : Cluster)
    (hrun : run c c.init as = some s) (hok : Runs.Along (step c) Safe c.init as) (call : Proposal)
    (hcall : call ∈ s.proposals) (hchan : call.chan = some none) :
    CommittedOnly s call.index ⟨call.term, call.index, call.command⟩ := by
  obtain ⟨a, hv, h⟩ := Promises.run hok hrun
  exact hv.committedOnly (h.told call hcall hchan)

/-- Node `a` accepts a call as leader of term 1 and commits its entry with `c`; meanwhile
`b` catches up to the snapshot. -/
theorem acknowledged_writes_committed_trio : ∃ s call,
    run trio trio.init (publishTwo ++ [.run (.proposeSync "a" (putBytes 120 51))] ++
      fetchSnapshot "b" ++ adoptFetched "b" ++ replicate "a" "c" 1) = some s ∧
    s.proposals[0]? = some call ∧ call.chan = some none ∧
    CommittedOnly s 3 ⟨1, 3, putBytes 120 51⟩ := by
  obtain ⟨s, hs, hcall⟩ := exists_of_run (fun s : Cluster =>
    s.proposals[0]? = some ⟨"a", 0, 3, 1, putBytes 120 51, some none, false⟩)
    (show (run trio trio.init (publishTwo ++ [.run (.proposeSync "a" (putBytes 120 51))] ++
      fetchSnapshot "b" ++ adoptFetched "b" ++ replicate "a" "c" 1)).any _ = true by decide +kernel)
  exact ⟨s, _, hs, hcall, rfl, acknowledged_writes_committed trio _ s hs (by decide +kernel) _
    (List.mem_of_getElem? hcall) rfl⟩

/-- Node `a` restarts, leads term 2 and accepts a call, whose entry gets index 3.  It catches
up to the snapshot of two entries, which drops the entry, and proposes another one. -/
def staleWaiter : List Action :=
  winElection "a" "b" 0 ++ [.run (.propose "a" (putBytes 120 49)),
    .run (.propose "a" (putBytes 120 50))] ++ replicate "a" "b" 0 ++
  [.publish snapshotOfTwo, .crash "a"] ++ winElection "a" "b" 1 ++
  [.run (.proposeSync "a" (putBytes 120 51))] ++ fetchSnapshot "a" ++ adoptFetched "a" ++
  [.run (.propose "a" (putBytes 120 52))] ++ replicate "a" "b" 1 ++ [.run (.proposeReturn 0)]

/-- The call returns `nil`, and the entry committed at its index is another one. -/
theorem lost_write_acknowledged : ∃ s, run trio trio.init staleWaiter = some s ∧
    s.proposals[0]? = some ⟨"a", 1, 3, 2, putBytes 120 51, some none, true⟩ ∧
    CommittedEntry s 3 ⟨2, 3, putBytes 120 52⟩ ∧ ¬ CommittedEntry s 3 ⟨2, 3, putBytes 120 51⟩ :=
  exists_of_run (fun s : Cluster =>
    s.proposals[0]? = some ⟨"a", 1, 3, 2, putBytes 120 51, some none, true⟩ ∧
    CommittedEntry s 3 ⟨2, 3, putBytes 120 52⟩ ∧ ¬ CommittedEntry s 3 ⟨2, 3, putBytes 120 51⟩)
    (show (run trio trio.init staleWaiter).any _ = true by decide +kernel)

end B5KvStore
