import B5KvStore.Cluster.Simulation

/-!
# What a node knows to be committed stays

With the catch-up loop enabled, nodes replace parts of their logs by snapshots.  As long
as snapshots are used safely (`Safe`), no step takes back an entry that a node knows to
be committed, requests never announce a commit index beyond what they carry, and what a
follower has acknowledged it holds.

* `committed_prefix_immutable`, `requests_cover_commit`, `match_index_sound`.
* `catchUpLate`, `leaderCatchUpLate` — what a catch-up does otherwise.
-/

namespace B5KvStore

open ReplicatedLog (Known CommittedAt Extends)

/-- The node holds the entry, or its anchor covers the index. -/
def Node.Keeps (n : Node) (i : Nat) (e : LogEntry) : Prop :=
  n.anchorIndex < i → n.entryAtLocked i = some e

/-- The entry, and no other, has been committed at the index. -/
def CommittedOnly (s : Cluster) (i : Nat) (e : LogEntry) : Prop :=
  ∀ x, CommittedEntry s i x ↔ x = e

section

variable {c : Config} {a a' : Model} {s : Cluster} {p : String} {n : Node} {i : Nat} {e : LogEntry}

theorem NodeView.keeps (h : NodeView c a p n) (he : (a.log p)[i - 1]? = some e) : n.Keeps i e :=
  fun hi => (h.entryAtLocked hi).trans he

theorem ClusterView.committedOnly (h : ClusterView c a s) (he : CommittedAt a i e) :
    CommittedOnly s i e := by
  intro x
  constructor
  · intro hx
    exact h.reach.inv.committedAt_unique (h.committedAt hx) he
  · rintro rfl
    exact h.commits i x he

/-- What the node knows is committed. -/
theorem NodeView.committedAt (h : NodeView c a p n) (hpos : 0 < i) (hi : i ≤ n.commitIndex) :
    ∃ e, CommittedAt a i e ∧ (a.log p)[i - 1]? = some e := by
  have hlen := h.known.1
  obtain ⟨e, he⟩ : ∃ e, (a.log p)[i - 1]? = some e := ⟨_, List.getElem?_eq_getElem (by omega)⟩
  exact ⟨e, h.known.committedAt hpos hi he, he⟩

/-- The anchor has the term of the entry it stands for. -/
theorem NodeView.anchor_term (h : NodeView c a p n) (hpos : 0 < n.anchorIndex)
    (he : (a.log p)[n.anchorIndex - 1]? = some e) :
    (n.entryAtLocked n.anchorIndex).map LogEntry.term = some e.term := by
  have hoff : n.logOffset < n.anchorIndex := by
    unfold Node.anchorIndex at hpos ⊢
    split
    · rename_i h0
      rw [if_pos h0] at hpos
      omega
    · exact Nat.lt_succ_self _
  rw [n.term_entryAtLocked h.log hoff, he]
  rfl

end

/-- **Committed prefixes are immutable**, in every run in which snapshots are used
safely: a step of whatever node leaves each index up to the commit index of `p` with the
one entry committed there, or below an anchor that has the committed term; and until `p`
restarts, its commit index and what it has applied only grow. -/
theorem committed_prefix_immutable (c : Config) (as : List Action) (act : Action) (s s' : Cluster)
    (p : String) (hp : p ∈ c.addrs) (hrun : run c c.init as = some s)
    (hstep : step c s act = some s') (hok : Runs.Along (step c) Safe c.init as)
    (hact : Safe s act) :
    (∀ i, 0 < i → i ≤ (s.hosts p).node.commitIndex → ∃ e, CommittedOnly s i e ∧
      CommittedOnly s' i e ∧ (s.hosts p).node.Keeps i e ∧ (s'.hosts p).node.Keeps i e) ∧
    (0 < (s'.hosts p).node.anchorIndex → ∃ e, CommittedOnly s' (s'.hosts p).node.anchorIndex e ∧
      ((s'.hosts p).node.entryAtLocked (s'.hosts p).node.anchorIndex).map LogEntry.term =
        some e.term) ∧
    ((s'.hosts p).epoch = (s.hosts p).epoch →
      (s.hosts p).node.commitIndex ≤ (s'.hosts p).node.commitIndex ∧
      (s.hosts p).node.lastApplied ≤ (s'.hosts p).node.lastApplied) := by
  obtain ⟨a, h⟩ := ClusterView.run hok hrun
  obtain ⟨q, a', hm, h'⟩ := h.step hact hstep
  have hn := h.nodes p hp
  have hn' := h'.nodes p hp
  refine ⟨?_, ?_, ?_⟩
  · intro i hpos hi
    obtain ⟨e, hcom, he⟩ := hn.committedAt hpos hi
    have hcom' := hcom.mono (hm.extends h.reach.inv)
    have he' := (hn.known.steps h.reach.inv hm).getElem? h'.reach.inv hi hcom'
    exact ⟨e, h.committedOnly hcom, h'.committedOnly hcom', hn.keeps he, hn'.keeps he'⟩
  · intro hpos
    obtain ⟨e, hcom, he⟩ := hn'.committedAt hpos hn'.anchorIndex_le
    exact ⟨e, h'.committedOnly hcom, hn'.anchor_term hpos he⟩
  · intro hepoch
    have hle := h.progress hact hstep hp hepoch
    exact ⟨by rw [← hn.applied, ← hn'.applied]; exact hle, hle⟩

/-- Node `a` leads term 1 and commits two entries with `c`; the snapshot of both is
published. -/
def publishTwo : List Action :=
  winElection "a" "b" 0 ++ [.run (.propose "a" (putBytes 120 49)),
    .run (.propose "a" (putBytes 120 50))] ++ replicate "a" "c" 0 ++ [.publish snapshotOfTwo]

/-- Node `b` has committed the first entry and is about to adopt the snapshot of two. -/
def catchUpToTwo : List Action :=
  winElection "a" "b" 0 ++ [.run (.propose "a" (putBytes 120 49))] ++ replicate "a" "b" 0 ++
  replicate "a" "b" 1 ++ [.run (.propose "a" (putBytes 120 50))] ++ replicate "a" "c" 2 ++
  [.publish snapshotOfTwo] ++ fetchSnapshot "b" ++
  [.run (.pollWriteFile "b"), .run (.pollRewriteLog "b"), .run (.pollRestore "b")]

/-- The entry that `b` has committed goes below its anchor, and stays the one committed there. -/
theorem committed_prefix_immutable_catchUp : ∃ s s',
    run trio trio.init catchUpToTwo = some s ∧ step trio s (.run (.pollAdopt "b")) = some s' ∧
    (s.hosts "b").node.commitIndex = 1 ∧ (s'.hosts "b").node.log = [⟨1, 2, []⟩] ∧
    (∃ e, CommittedOnly s 1 e ∧ CommittedOnly s' 1 e ∧ (s.hosts "b").node.Keeps 1 e ∧
      (s'.hosts "b").node.Keeps 1 e) ∧
    (∃ e, CommittedOnly s' 2 e ∧
      ((s'.hosts "b").node.entryAtLocked 2).map LogEntry.term = some e.term) ∧
    (s.hosts "b").node.commitIndex ≤ (s'.hosts "b").node.commitIndex := by
  obtain ⟨s, hs, ⟨hact, hcommit⟩, hnext⟩ := exists_of_run (fun s : Cluster =>
    (Safe s (.run (.pollAdopt "b")) ∧ (s.hosts "b").node.commitIndex = 1) ∧
      (run trio s [.run (.pollAdopt "b")]).any (fun s' => decide
        ((s'.hosts "b").epoch = (s.hosts "b").epoch ∧ (s'.hosts "b").node.log = [⟨1, 2, []⟩] ∧
          (s'.hosts "b").node.anchorIndex = 2)) = true)
    (show (run trio trio.init catchUpToTwo).any _ = true by decide +kernel)
  obtain ⟨s', hs', hepoch, hlog, hanchor⟩ := exists_of_run _ hnext
  have hstep : step trio s (.run (.pollAdopt "b")) = some s' := by
    obtain ⟨t, ht, htt⟩ := Option.bind_eq_some_iff.1 hs'
    cases htt
    exact ht
  obtain ⟨hkept, hbelow, hgrows⟩ := committed_prefix_immutable trio _ _ s s' "b" (by decide) hs
    hstep (by decide +kernel) hact
  rw [hanchor] at hbelow
  exact ⟨s, s', hs, hstep, hcommit, hlog, hkept 1 (by decide) (by rw [hcommit]),
    hbelow (by decide), (hgrows hepoch).1⟩

/-- Node `b` has fetched the snapshot of two entries when it gets three, all of them
committed; then it goes on with the catch-up. -/
def catchUpLate : List Action :=
  publishTwo ++ fetchSnapshot "b" ++ [.run (.propose "a" (putBytes 120 51))] ++
  replicate "a" "c" 1 ++ replicate "a" "b" 2 ++
  [.run (.pollWriteFile "b"), .run (.pollRewriteLog "b"), .run (.pollRestore "b")]

/-- The last step of the catch-up drops the third entry, which `b` has committed. -/
theorem committed_entry_dropped : ∃ s s', run trio trio.init catchUpLate = some s ∧
    run trio s [.run (.pollAdopt "b")] = some s' ∧
    (s.hosts "b").node.commitIndex = 3 ∧
    (s.hosts "b").node.entryAtLocked 3 = some ⟨1, 3, putBytes 120 51⟩ ∧
    (s'.hosts "b").node.anchorIndex = 2 ∧ (s'.hosts "b").node.entryAtLocked 3 = none := by
  obtain ⟨s, hs, ⟨hcommit, hentry⟩, hnext⟩ := exists_of_run (fun s : Cluster =>
    ((s.hosts "b").node.commitIndex = 3 ∧
      (s.hosts "b").node.entryAtLocked 3 = some ⟨1, 3, putBytes 120 51⟩) ∧
    (run trio s [.run (.pollAdopt "b")]).any (fun s' => decide
      ((s'.hosts "b").node.anchorIndex = 2 ∧ (s'.hosts "b").node.entryAtLocked 3 = none)) = true)
    (show (run trio trio.init catchUpLate).any _ = true by decide +kernel)
  obtain ⟨s', hs', hanchor, hnone⟩ := exists_of_run _ hnext
  exact ⟨s, s', hs, hs', hcommit, hentry, hanchor, hnone⟩

/-! ## Requests -/

/-- A request cut out of a log covers the commit index it announces. -/
theorem RequestView.leaderCommit_le {a : Model} {req : AppendEntriesRequest}
    (h : RequestView a req) : req.leaderCommit ≤ req.prevLogIndex + req.entries.length := by
  obtain ⟨l, L, m, -, hm, hsent, hcm, -⟩ := h
  have hlen : (L.take m).length = m := by rw [List.length_take]; omega
  rcases hsent with ⟨hle, heq, -⟩ | ⟨hlt, -, -⟩ | ⟨-, -, e, he, heq⟩
  · rw [heq, List.length_drop]
    omega
  · omega
  · have := (List.getElem?_eq_some_iff.1 he).1
    rw [heq, List.length_cons, List.length_drop]
    omega

/-- The commit index of a follower does not pass what the leader announces. -/
theorem Locked.commitIndex_followCommit (s : Locked) (C : Nat) :
    (s.followCommit C).node.commitIndex ≤ max s.node.commitIndex C := by
  unfold Locked.followCommit
  split
  · obtain ⟨k, w, wake, es, heq, -⟩ := (s.modify fun n =>
      { n with commitIndex := min64 C n.lastLogIndexLocked }).applyCommittedLocked_frame
    rw [heq]
    simp only [Locked.node_modify]
    unfold min64
    split <;> omega
  · exact le_max_left _ _

theorem Locked.commitIndex_setRoleLocked (s : Locked) (r : Role) :
    (s.setRoleLocked r).node.commitIndex = s.node.commitIndex := by
  obtain ⟨w, es, heq, -⟩ := s.setRoleLocked_spec r
  rw [heq]

theorem Locked.commitIndex_appendEntries (s : Locked) (req : AppendEntriesRequest) (f : SaveFaults) :
    (s.appendEntries req f).1.node.commitIndex ≤ max s.node.commitIndex req.leaderCommit := by
  have hobs : (s.observeRequest req.term f.observe).1.node.commitIndex = s.node.commitIndex := by
    unfold Locked.observeRequest Locked.observeTermLocked
    split
    · split
      · rfl
      · dsimp only
        rw [Locked.node_persistStateLocked, Locked.commitIndex_setRoleLocked]
        rfl
    · rfl
  have haccept : ∀ t : Locked,
      (t.acceptEntries req).1.node.commitIndex ≤ max t.node.commitIndex req.leaderCommit := by
    intro t
    unfold Locked.acceptEntries
    split
    · exact le_max_left _ _
    · dsimp only
      split
      · rw [Locked.node_modify]
        dsimp only
        rw [Locked.commitIndex_setRoleLocked]
        exact le_max_left _ _
      · rw [Locked.ite_mergeEntriesLocked]
        refine (Locked.commitIndex_followCommit _ _).trans (max_le_max_right _ ?_)
        obtain ⟨log, ws, heq⟩ := ((t.setRoleLocked .follower).modify fun n =>
          { n with currentLeader := req.leaderId }).mergeEntriesLocked_frame req.prevLogIndex
            req.entries
        rw [heq, Locked.node_modify]
        dsimp only
        rw [Locked.commitIndex_setRoleLocked]
  rw [← hobs]
  unfold Locked.appendEntries
  split
  · rename_i t err heq
    rw [heq]
    exact le_max_left _ _
  · rename_i t heq
    rw [heq]
    exact haccept t

/-- **Followers never commit beyond what the request verified**, in every run in which
snapshots are used safely: the requests a leader builds, and those under way, announce no
commit index beyond their last entry, so no follower's commit index passes it. -/
theorem requests_cover_commit (c : Config) (as : List Action) (s : Cluster)
    (hrun : run c c.init as = some s) (hok : Runs.Along (step c) Safe c.init as) :
    (∀ p ∈ c.addrs, (s.hosts p).node.role = .leader →
      ∀ out ∈ (s.hosts p).node.buildAppendEntriesRequestsLocked,
        out.req.leaderCommit ≤ out.req.prevLogIndex + out.req.entries.length) ∧
    ∀ b ∈ s.broadcasts, ∀ out ∈ b.reqs,
      out.req.leaderCommit ≤ out.req.prevLogIndex + out.req.entries.length ∧
      ∀ q f, ((s.hosts q).node.lock.appendEntries out.req f).1.node.commitIndex ≤
        max (s.hosts q).node.commitIndex (out.req.prevLogIndex + out.req.entries.length) := by
  obtain ⟨a, h⟩ := ClusterView.run hok hrun
  refine ⟨?_, ?_⟩
  · intro p hp hrole out hout
    obtain ⟨q, -, rfl⟩ := List.mem_map.1 hout
    exact ((h.nodes p hp).requestView h.reach hrole q).leaderCommit_le
  · intro b hb out hout
    have hle := ((h.broadcasts b hb).sent out hout).1.leaderCommit_le
    exact ⟨hle, fun q f => (Locked.commitIndex_appendEntries _ _ _).trans
      (max_le_max_left _ hle)⟩

/-- A leader that has committed one entry sends the second. -/
theorem requests_cover_commit_catchUp : ∃ s b out,
    run trio trio.init catchUpToTwo = some s ∧ b ∈ s.broadcasts ∧ out ∈ b.reqs ∧
    out.req.prevLogIndex = 1 ∧ out.req.entries = [⟨1, 2, putBytes 120 50⟩] ∧
    out.req.leaderCommit = 1 ∧
    out.req.leaderCommit ≤ out.req.prevLogIndex + out.req.entries.length ∧
    ∀ q f, ((s.hosts q).node.lock.appendEntries out.req f).1.node.commitIndex ≤
      max (s.hosts q).node.commitIndex (out.req.prevLogIndex + out.req.entries.length) := by
  obtain ⟨s, hs, b, hb, out, hout, hprev, hentries, hcommit⟩ := exists_of_run (fun s : Cluster =>
    ∃ b ∈ s.broadcasts, ∃ out ∈ b.reqs, out.req.prevLogIndex = 1 ∧
      out.req.entries = [⟨1, 2, putBytes 120 50⟩] ∧ out.req.leaderCommit = 1)
    (show (run trio trio.init catchUpToTwo).any _ = true by decide +kernel)
  exact ⟨s, b, out, hs, hb, hout, hprev, hentries, hcommit,
    (requests_cover_commit trio _ s hs (by decide +kernel)).2 b hb out hout⟩

/-- Node `a` restarts and leads term 2; it has fetched the snapshot of two entries when it
commits a third one, and then goes on with the catch-up. -/
def leaderCatchUpLate : List Action :=
  winElection "a" "b" 0 ++ [.run (.propose "a" (putBytes 120 49)),
    .run (.propose "a" (putBytes 120 50))] ++ replicate "a" "b" 0 ++
  [.publish snapshotOfTwo, .crash "a"] ++ winElection "a" "b" 1 ++ fetchSnapshot "a" ++
  [.run (.propose "a" (putBytes 120 51))] ++ replicate "a" "b" 1 ++ adoptFetched "a"

/-- The leader announces commit index 3 with requests that end at index 2. -/
theorem request_beyond_log : ∃ s, run trio trio.init leaderCatchUpLate = some s ∧
    (s.hosts "a").node.role = .leader ∧
    ∃ out ∈ (s.hosts "a").node.buildAppendEntriesRequestsLocked,
      out.req.prevLogIndex + out.req.entries.length = 2 ∧ out.req.leaderCommit = 3 :=
  exists_of_run (fun s : Cluster => (s.hosts "a").node.role = .leader ∧
    ∃ out ∈ (s.hosts "a").node.buildAppendEntriesRequestsLocked,
      out.req.prevLogIndex + out.req.entries.length = 2 ∧ out.req.leaderCommit = 3)
    (show (run trio trio.init leaderCatchUpLate).any _ = true by decide +kernel)

/-! ## Acknowledgements -/

/-- **What a follower has acknowledged it holds**, in every run in which snapshots are
used safely: as long as the follower is in the leader's term, every index up to the
leader's `matchIndex` has the leader's entry in the follower's log, or is below its
anchor. -/
theorem match_index_sound (c : Config) (as : List Action) (s : Cluster) (l p : String) (i : Nat)
    (hl : l ∈ c.addrs) (hp : p ∈ c.addrs) (hrun : run c c.init as = some s)
    (hok : Runs.Along (step c) Safe c.init as) (hrole : (s.hosts l).node.role = .leader)
    (hterm : (s.hosts p).node.currentTerm = (s.hosts l).node.currentTerm) (hpos : 0 < i)
    (hi : i ≤ (s.hosts l).node.matchIndex.at p) :
    ∃ e, (s.hosts l).node.Keeps i e ∧
      (i ≤ (s.hosts l).node.anchorIndex → CommittedOnly s i e) ∧ (s.hosts p).node.Keeps i e := by
  obtain ⟨a, h⟩ := ClusterView.run hok hrun
  have hnl := h.nodes l hl
  have hnp := h.nodes p hp
  have hled := hnl.led h.reach hrole
  obtain ⟨m, hm⟩ : ∃ m, (s.hosts l).node.matchIndex.lookup p = some m := by
    unfold IndexMap.at at hi
    cases hlook : (s.hosts l).node.matchIndex.lookup p with
    | none =>
        rw [hlook, Option.getD_none] at hi
        omega
    | some m => exact ⟨m, rfl⟩
  have him : i ≤ m := by
    unfold IndexMap.at at hi
    rwa [hm] at hi
  have hack := ((hnl.matched hrole p m hm).2.resolve_left (by omega))
  have hT : a.term p = a.term l := by rw [hnp.term, hnl.term, hterm]
  have hack' : (p, a.term p, m) ∈ a.acks := by rw [hT, hnl.term]; exact hack
  have hheld := h.reach.inv.quorums.ack_held p m l (a.log l) hack' (by rw [hT]; exact hled)
  obtain ⟨-, l', L, hled', hlen⟩ := h.reach.inv.quorums.ack_le p _ m hack'
  rw [hT, hled, Option.some.injEq, Prod.mk.injEq] at hled'
  rw [← hled'.2] at hlen
  obtain ⟨e, he⟩ : ∃ e, (a.log l)[i - 1]? = some e := ⟨_, List.getElem?_eq_getElem (by omega)⟩
  refine ⟨e, hnl.keeps he, fun hle => ?_, hnp.keeps ?_⟩
  · exact h.committedOnly (hnl.known.committedAt hpos (hle.trans hnl.anchorIndex_le) he)
  · rw [ReplicatedLog.getElem?_eq_of_take_eq hheld (by omega)]
    exact he

/-- Node `c` has acknowledged the two entries of the snapshot `b` has caught up to. -/
theorem match_index_sound_catchUp : ∃ s e,
    run trio trio.init (publishTwo ++ fetchSnapshot "b" ++ adoptFetched "b") = some s ∧
    (s.hosts "a").node.matchIndex.at "c" = 2 ∧ (s.hosts "c").node.Keeps 2 e := by
  obtain ⟨s, hs, hrole, hterm, hmatch⟩ := exists_of_run (fun s : Cluster =>
    (s.hosts "a").node.role = .leader ∧
    (s.hosts "c").node.currentTerm = (s.hosts "a").node.currentTerm ∧
    (s.hosts "a").node.matchIndex.at "c" = 2)
    (show (run trio trio.init (publishTwo ++ fetchSnapshot "b" ++ adoptFetched "b")).any _ = true by
      decide +kernel)
  obtain ⟨e, -, -, he⟩ := match_index_sound trio _ s "a" "c" 2 (by decide) (by decide) hs
    (by decide +kernel) hrole hterm (by decide) hmatch.ge
  exact ⟨s, e, hs, hmatch, he⟩

/-- Node `b` has acknowledged the third entry to the leader and does not hold it. -/
theorem acknowledged_entry_lost : ∃ s,
    run trio trio.init (catchUpLate ++ [.run (.pollAdopt "b")]) = some s ∧
    (s.hosts "a").node.role = .leader ∧
    (s.hosts "b").node.currentTerm = (s.hosts "a").node.currentTerm ∧
    (s.hosts "a").node.matchIndex.at "b" = 3 ∧
    (s.hosts "a").node.entryAtLocked 3 = some ⟨1, 3, putBytes 120 51⟩ ∧
    (s.hosts "b").node.anchorIndex = 2 ∧ (s.hosts "b").node.entryAtLocked 3 = none :=
  exists_of_run (fun s : Cluster => (s.hosts "a").node.role = .leader ∧
    (s.hosts "b").node.currentTerm = (s.hosts "a").node.currentTerm ∧
    (s.hosts "a").node.matchIndex.at "b" = 3 ∧
    (s.hosts "a").node.entryAtLocked 3 = some ⟨1, 3, putBytes 120 51⟩ ∧
    (s.hosts "b").node.anchorIndex = 2 ∧ (s.hosts "b").node.entryAtLocked 3 = none)
    (show (run trio trio.init (catchUpLate ++ [.run (.pollAdopt "b")])).any _ = true by
      decide +kernel)

end B5KvStore
