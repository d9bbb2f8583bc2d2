import B5KvStore.Raft.Specs
import B5KvStore.Cluster.Refinement

/-!
# Critical sections as steps of the abstract protocol

What a handler does to a node and its data directory is matched by steps of the
abstract participant, and so is every state a crash can leave behind, between any
two disk writes.

* `Simulates` — a critical section so far.
* `SectionView` — a whole critical section, with what it let others observe.
* One lemma for each handler: `Simulates.observeTermLocked`, `Simulates.castVote`,
  `Simulates.startElection`, `Simulates.becomeLeaderLocked`, `Simulates.propose`.
-/

namespace B5KvStore

open ReplicatedLog (Known Backed CommittedBy CommittedAt Extends lastTerm UpToDate)
open QuorumSystem

/-- The abstract state `a` stands for process `p` in the middle of a critical section
that began in `a₀` with the data directory `d`, and has applied up to `lo`. -/
structure Simulates (c : Config) (a₀ : Model) (p : String) (d : Disk) (lo : Nat) (s : Locked)
    (a : Model) : Prop where
  moves : Moves c p a₀ a
  commits : a.commits = a₀.commits
  node : NodeView c a p s.node
  disk : DiskView c a p (d.applyAll s.writes)
  /-- Wherever the process crashes, its data directory stands for some state. -/
  crash : ∀ k, ∃ a', Moves c p a₀ a' ∧ a'.commits = a₀.commits ∧
    DiskView c a' p (d.applyAll (s.writes.take k))
  files : ∀ f ∈ d.snapshots, ∃ g ∈ (d.applyAll s.writes).snapshots,
    f.lastIncludedIndex ≤ g.lastIncludedIndex
  aborts : OnlyAborts s.events
  applied : s.node.lastApplied = lo

/-- The same at the end of the critical section: the entries above `lo` have been
applied in order, and what has been committed was shown. -/
structure SectionView (c : Config) (a₀ : Model) (p : String) (d : Disk) (lo : Nat) (s : Locked)
    (a : Model) : Prop where
  moves : Moves c p a₀ a
  node : NodeView c a p s.node
  disk : DiskView c a p (d.applyAll s.writes)
  crash : ∀ k, ∃ a', Moves c p a₀ a' ∧ a'.commits = a₀.commits ∧
    DiskView c a' p (d.applyAll (s.writes.take k))
  files : ∀ f ∈ d.snapshots, ∃ g ∈ (d.applyAll s.writes).snapshots,
    f.lastIncludedIndex ≤ g.lastIncludedIndex
  events : ∀ e ∈ s.events, EventView a p e
  commits : ∀ i e, CommittedAt a i e →
    CommittedAt a₀ i e ∨ ∃ n, .advancedCommit n ∈ s.events ∧ Shows n i e
  le : lo ≤ s.node.lastApplied
  applied : s.events.filterMap NodeEvent.msg? =
    (((a.log p).take s.node.lastApplied).drop lo).map LogEntry.msg

/-- Two nodes that agree on identity, log and progress. -/
structure SameLog (n n' : Node) : Prop where
  id : n'.id = n.id
  peers : n'.peers = n.peers
  log : n'.log = n.log
  logOffset : n'.logOffset = n.logOffset
  path : n'.currentSnapshotPath = n.currentSnapshotPath
  commitIndex : n'.commitIndex = n.commitIndex
  lastApplied : n'.lastApplied = n.lastApplied

theorem OnlyAborts.nil : OnlyAborts [] := by simp [OnlyAborts]

theorem OnlyAborts.append {es es' : List NodeEvent} (h : OnlyAborts es) (h' : OnlyAborts es') :
    OnlyAborts (es ++ es') := by
  intro e he
  rcases List.mem_append.1 he with he | he
  · exact h e he
  · exact h' e he

theorem OnlyAborts.eventView {es : List NodeEvent} (h : OnlyAborts es) (a : Model) (p : String) :
    ∀ e ∈ es, EventView a p e := by
  intro e he
  obtain ⟨ch, rfl⟩ := h e he
  trivial

theorem OnlyAborts.msgs {es : List NodeEvent} (h : OnlyAborts es) :
    es.filterMap NodeEvent.msg? = [] := by
  rw [List.filterMap_eq_nil_iff]
  intro e he
  obtain ⟨ch, rfl⟩ := h e he
  rfl

section

variable {c : Config} {a a' a₀ : Model} {p : String} {n n' : Node} {d : Disk} {lo : Nat}
  {s s' : Locked}

/-- The node changes its term, its vote or its role, and keeps its log. -/
theorem NodeView.of_sameLog (h : NodeView c a p n) (hr : c.Reaches a) (hm : Moves c p a a')
    (hn : SameLog n n') (hlog : a'.log p = a.log p) (hterm : a'.term p = n'.currentTerm)
    (hvote : VoteView c (a'.vote p) n'.votedFor) (hrole : a'.role p = n'.role.view)
    (hmatched : n'.role = .leader → ∀ q m, n'.matchIndex.lookup q = some m →
      q ∈ c.peersOf p ∧ (m = 0 ∨ (q, n'.currentTerm, m) ∈ a'.acks)) : NodeView c a' p n' where
  id := hn.id.trans h.id
  peers := hn.peers.trans h.peers
  term := hterm
  vote := hvote
  role := hrole
  log := by rw [hlog, hn.log, hn.logOffset]; exact h.log
  path := by rw [hn.path, hn.logOffset]; exact h.path
  anchor := by rw [hn.logOffset, hn.commitIndex]; exact h.anchor
  known := by rw [hn.commitIndex]; exact h.known.steps hr.inv hm
  applied := by rw [hn.lastApplied, hn.commitIndex]; exact h.applied
  matched := hmatched

/-- Nothing the data directory depends on has changed. -/
theorem DiskView.of_same (h : DiskView c a p d) (hr : c.Reaches a) (hm : Moves c p a a')
    (hterm : a'.term p = a.term p) (hvote : a'.vote p = a.vote p) (hlog : a'.log p = a.log p) :
    DiskView c a' p d where
  term := by rw [hterm]; exact h.term
  vote := by rw [hvote]; exact h.vote
  files := h.files_moves hr hm
  log := by rw [hlog]; exact h.log

theorem NodeView.not_leader_of_role (hrole : n'.role = .follower) {P : Prop} :
    n'.role = .leader → P := fun h => by rw [hrole] at h; exact absurd h (by simp)

/-- Whoever has no other vote can vote for the candidate. -/
theorem VoteView.free {v : Option String} {votedFor q : String}
    (h : VoteView c v votedFor) (hq : q ∈ c.addrs) (hfree : votedFor = "" ∨ votedFor = c.idOf q) :
    v = none ∨ v = some q := by
  cases v with
  | none => exact Or.inl rfl
  | some q' =>
      obtain ⟨hq', rfl⟩ := h
      rcases hfree with hempty | hsame
      · exact absurd hempty (c.ids_ne q' hq')
      · exact Or.inr (congrArg some (c.ids_inj q' hq' q hq hsame))

theorem upToDate_of_isLogAtLeastAsUpToDate {F G : List LogEntry}
    (h : isLogAtLeastAsUpToDate (lastTerm LogEntry.term F) F.length
      (lastTerm LogEntry.term G) G.length = true) : UpToDate LogEntry.term F G := by
  unfold isLogAtLeastAsUpToDate at h
  split at h
  · exact Or.inl (of_decide_eq_true h)
  · rename_i heq
    exact Or.inr ⟨not_not.1 heq, of_decide_eq_true h⟩

/-- What is applied is committed. -/
theorem Locked.Applies.eventView {hi : Nat} {w : AList fun _ : Nat => Nat} {es : List NodeEvent}
    (h : Locked.Applies (a.log p) lo hi w es) (hknown : Known a p hi) (hplaced : Placed (a.log p)) :
    ∀ e ∈ es, EventView a p e := by
  intro e he
  rcases h.only e he with ⟨msg, rfl⟩ | ⟨ch, i, -, -, -, rfl⟩
  · have hmem : msg ∈ es.filterMap NodeEvent.msg? := List.mem_filterMap.2 ⟨_, he, rfl⟩
    rw [h.msgs] at hmem
    obtain ⟨x, hx, rfl⟩ := List.mem_map.1 hmem
    obtain ⟨i, hi⟩ := List.mem_iff_getElem?.1 (List.mem_of_mem_drop hx)
    rw [List.getElem?_take] at hi
    split at hi
    · have hidx := hplaced i x hi
      have hcom : CommittedAt a x.index x := hknown.committedAt (by omega) (by omega)
        (by rw [hidx, Nat.add_sub_cancel]; exact hi)
      exact hcom
    · exact absurd hi (by simp)
  · trivial

namespace Simulates

/-- A critical section begins. -/
theorem lock (hn : NodeView c a p n) (hd : DiskView c a p d) :
    Simulates c a p d n.lastApplied n.lock a where
  moves := .refl
  commits := rfl
  node := hn
  disk := hd
  crash k := ⟨a, .refl, rfl, by rw [Node.lock, List.take_nil]; exact hd⟩
  files f hf := ⟨f, hf, le_refl _⟩
  aborts := .nil
  applied := rfl

theorem reaches (h : Simulates c a₀ p d lo s a) (hr : c.Reaches a₀) : c.Reaches a :=
  hr.steps h.moves

/-- A step without a disk write. -/
theorem silent (h : Simulates c a₀ p d lo s a) (hr : c.Reaches a₀) (hm : Moves c p a a')
    (hc : a'.commits = a.commits) (hterm : a'.term p = a.term p) (hvote : a'.vote p = a.vote p)
    (hlog : a'.log p = a.log p) (hw : s'.writes = s.writes) {es : List NodeEvent}
    (he : s'.events = s.events ++ es) (hes : OnlyAborts es) (hn : NodeView c a' p s'.node)
    (hla : s'.node.lastApplied = s.node.lastApplied) : Simulates c a₀ p d lo s' a' where
  moves := h.moves.trans hm
  commits := hc.trans h.commits
  node := hn
  disk := by rw [hw]; exact h.disk.of_same (h.reaches hr) hm hterm hvote hlog
  crash k := by rw [hw]; exact h.crash k
  files f hf := by rw [hw]; exact h.files f hf
  aborts := by rw [he]; exact h.aborts.append hes
  applied := hla.trans h.applied

/-- A step with disk writes. -/
theorem writes (h : Simulates c a₀ p d lo s a) (hm : Moves c p a a')
    (hc : a'.commits = a.commits) (ws : List DiskWrite) (hw : s'.writes = s.writes ++ ws)
    (hd : ∀ k, 0 < k → DiskView c a' p ((d.applyAll s.writes).applyAll (ws.take k)))
    (hsnap : ∀ f ∈ (d.applyAll s.writes).snapshots,
      ∃ g ∈ ((d.applyAll s.writes).applyAll ws).snapshots, f.lastIncludedIndex ≤ g.lastIncludedIndex)
    {es : List NodeEvent} (he : s'.events = s.events ++ es) (hes : OnlyAborts es)
    (hn : NodeView c a' p s'.node) (hla : s'.node.lastApplied = s.node.lastApplied) :
    Simulates c a₀ p d lo s' a' where
  moves := h.moves.trans hm
  commits := hc.trans h.commits
  node := hn
  disk := by
    have := hd (ws.length + 1) (Nat.succ_pos _)
    rw [List.take_of_length_le (Nat.le_succ _)] at this
    rw [hw, Disk.applyAll_append]
    exact this
  crash k := by
    rw [hw]
    rcases Nat.lt_or_ge s.writes.length k with hk | hk
    · refine ⟨a', h.moves.trans hm, hc.trans h.commits, ?_⟩
      rw [List.take_append, List.take_of_length_le hk.le, Disk.applyAll_append]
      exact hd _ (by omega)
    · rw [List.take_append_of_le_length hk]
      exact h.crash k
  files f hf := by
    obtain ⟨g, hg, hle⟩ := h.files f hf
    obtain ⟨g', hg', hle'⟩ := hsnap g hg
    exact ⟨g', by rw [hw, Disk.applyAll_append]; exact hg', hle.trans hle'⟩
  aborts := by rw [he]; exact h.aborts.append hes
  applied := hla.trans h.applied

/-- A step with one disk write that leaves the snapshots alone. -/
theorem write (h : Simulates c a₀ p d lo s a) (hm : Moves c p a a')
    (hc : a'.commits = a.commits) {w : DiskWrite} (hw : s'.writes = s.writes ++ [w])
    (hd : DiskView c a' p ((d.applyAll s.writes).apply w))
    (hsnap : ∀ d : Disk, (d.apply w).snapshots = d.snapshots) {es : List NodeEvent}
    (he : s'.events = s.events ++ es) (hes : OnlyAborts es) (hn : NodeView c a' p s'.node)
    (hla : s'.node.lastApplied = s.node.lastApplied) : Simulates c a₀ p d lo s' a' := by
  refine h.writes hm hc [w] hw (fun k hk => ?_) (fun f hf => ⟨f, ?_, le_refl _⟩) he hes hn hla
  · rw [List.take_of_length_le (by rw [List.length_singleton]; omega)]
    exact hd
  · rw [show ((d.applyAll s.writes).applyAll [w]).snapshots = (d.applyAll s.writes).snapshots from
      hsnap _]
    exact hf

/-- Nothing the protocol depends on has changed. -/
theorem idle (h : Simulates c a₀ p d lo s a) (hr : c.Reaches a₀) (hw : s'.writes = s.writes)
    (he : s'.events = s.events) (hn : SameLog s.node s'.node)
    (hterm : s'.node.currentTerm = s.node.currentTerm) (hvote : s'.node.votedFor = s.node.votedFor)
    (hrole : s'.node.role = s.node.role) (hmatch : s'.node.matchIndex = s.node.matchIndex) :
    Simulates c a₀ p d lo s' a := by
  refine h.silent hr .refl rfl rfl rfl rfl hw (he.trans (List.append_nil _).symm) .nil ?_
    hn.lastApplied
  exact h.node.of_sameLog (h.reaches hr) .refl hn rfl (by rw [hterm]; exact h.node.term)
    (by rw [hvote]; exact h.node.vote) (by rw [hrole]; exact h.node.role)
    (by rw [hrole, hmatch, hterm]; exact h.node.matched)

/-- A critical section that has nothing more to show. -/
theorem toSection (h : Simulates c a₀ p d lo s a) (hr : c.Reaches a₀) :
    SectionView c a₀ p d lo s a where
  moves := h.moves
  node := h.node
  disk := h.disk
  crash := h.crash
  files := h.files
  events := h.aborts.eventView a p
  commits i e he := Or.inl (he.of_commits hr.inv (h.moves.extends hr.inv) h.commits)
  le := h.applied.ge
  applied := by
    rw [h.aborts.msgs, h.applied, List.drop_eq_nil_of_le (by rw [List.length_take]; omega)]
    rfl

/-- The last step of a critical section, which others observe. -/
theorem finish (h : Simulates c a₀ p d lo s a) (hr : c.Reaches a₀) (hm : Moves c p a a')
    (hterm : a'.term p = a.term p) (hvote : a'.vote p = a.vote p) (hlog : a'.log p = a.log p)
    (hw : s'.writes = s.writes) {es : List NodeEvent} (he : s'.events = s.events ++ es)
    (hes : ∀ e ∈ es, EventView a' p e)
    (hcom : ∀ i e, CommittedAt a' i e →
      CommittedAt a i e ∨ ∃ n, .advancedCommit n ∈ es ∧ Shows n i e)
    (hn : NodeView c a' p s'.node) (hle : lo ≤ s'.node.lastApplied)
    (happ : es.filterMap NodeEvent.msg? =
      (((a'.log p).take s'.node.lastApplied).drop lo).map LogEntry.msg) :
    SectionView c a₀ p d lo s' a' where
  moves := h.moves.trans hm
  node := hn
  disk := by rw [hw]; exact h.disk.of_same (h.reaches hr) hm hterm hvote hlog
  crash k := by rw [hw]; exact h.crash k
  files f hf := by rw [hw]; exact h.files f hf
  events e hmem := by
    rw [he] at hmem
    rcases List.mem_append.1 hmem with hmem | hmem
    · exact h.aborts.eventView a' p e hmem
    · exact hes e hmem
  commits i e hi := by
    rcases hcom i e hi with hi | ⟨n, hmem, hshow⟩
    · exact Or.inl (hi.of_commits hr.inv (h.moves.extends hr.inv) h.commits)
    · exact Or.inr ⟨n, by rw [he]; exact List.mem_append_right _ hmem, hshow⟩
  le := hle
  applied := by rw [he, List.filterMap_append, h.aborts.msgs, happ, List.nil_append]

/-- The commit index moves on, and what it passes is applied. -/
theorem applyCommittedLocked (h : Simulates c a₀ p d lo s a) (hr : c.Reaches a₀)
    (hm : Moves c p a a') (hterm : a'.term p = a.term p) (hvote : a'.vote p = a.vote p)
    (hlog : a'.log p = a.log p) (hrole : a'.role p = a.role p) {C : Nat}
    (hlt : s.node.commitIndex < C) (hknown : Known a' p C) {es : List NodeEvent}
    (hes : ∀ e ∈ es, EventView a' p e) (hmsgs : es.filterMap NodeEvent.msg? = [])
    (hcom : ∀ i e, CommittedAt a' i e →
      CommittedAt a i e ∨ ∃ n, .advancedCommit n ∈ es ∧ Shows n i e) :
    SectionView c a₀ p d lo
      ((s.modify fun n => { n with commitIndex := C }).emit es).applyCommittedLocked a' := by
  have hra := (h.reaches hr).steps hm
  have hanchor := h.node.anchor
  have happlied := h.node.applied
  have hlo := h.applied
  have hview : LogView (a'.log p) s.node.logOffset s.node.log := by rw [hlog]; exact h.node.log
  obtain ⟨w, wake, es', heq, -, hap⟩ := Locked.applyCommittedLocked_spec (placed_log hra p)
    ((s.modify fun n => { n with commitIndex := C }).emit es) hview
    (by simp only [Locked.node_modify, Locked.node_emit]; omega) hknown.1
    (by simp only [Locked.node_modify, Locked.node_emit]; omega)
  simp only [Locked.node_modify, Locked.node_emit] at hap
  rw [heq]
  refine h.finish hr hm hterm hvote hlog rfl (List.append_assoc ..) ?_ ?_ ?_
    (by simp only [Locked.node_modify, Locked.node_emit]; omega)
    (by rw [List.filterMap_append, hmsgs, hap.msgs, hlo]; rfl)
  · intro e he
    rcases List.mem_append.1 he with he | he
    · exact hes e he
    · exact hap.eventView hknown (placed_log hra p) e he
  · intro i e hi
    refine (hcom i e hi).imp_right ?_
    rintro ⟨n, hn, hshow⟩
    exact ⟨n, List.mem_append_left _ hn, hshow⟩
  · exact ⟨h.node.id, h.node.peers, hterm.trans h.node.term, by rw [hvote]; exact h.node.vote,
      hrole.trans h.node.role, hview, h.node.path, h.node.anchor.imp_right fun hle =>
        hle.trans hlt.le, hknown, rfl,
      fun hl q m hq => ⟨(h.node.matched hl q m hq).1, (h.node.matched hl q m hq).2.imp_right
        fun hin => (hm.extends (h.reaches hr).inv).acks hin⟩⟩

/-! ## Elections -/

/-- A later term is observed and saved. -/
theorem observeTermLocked (h : Simulates c a₀ p d lo s a) (hr : c.Reaches a₀) (T : Nat) :
    ∃ a', Simulates c a₀ p d lo (s.observeTermLocked T false).1 a' ∧ Moves c p a a' ∧
      (s.observeTermLocked T false).2 = none ∧
      (s.observeTermLocked T false).1.node.currentTerm = max s.node.currentTerm T := by
  rcases Nat.lt_or_ge s.node.currentTerm T with hT | hT
  · obtain ⟨w, es, heq, hes⟩ := s.observeTermLocked_spec hT
    have hm : Moves c p a (a.observe p T) := .single (.observe T (by rw [h.node.term]; exact hT))
    have hterm : (a.observe p T).term p = T := by simp
    have hdisk := h.disk.saveState (h.reaches hr) hm rfl
      (show VoteView c ((a.observe p T).vote p) "" by simp [VoteView])
    rw [hterm] at hdisk
    rw [heq]
    refine ⟨a.observe p T, h.write hm rfl rfl hdisk (fun _ => rfl) rfl hes ?_ rfl, hm, rfl,
      (max_eq_right hT.le).symm⟩
    exact h.node.of_sameLog (h.reaches hr) hm ⟨rfl, rfl, rfl, rfl, rfl, rfl, rfl⟩ rfl hterm
      (by simp [VoteView]) (by simp [Role.view]) (NodeView.not_leader_of_role rfl)
  · have heq : s.observeTermLocked T false = (s, none) := by
      unfold Locked.observeTermLocked
      rw [if_pos hT]
    rw [heq]
    exact ⟨a, h, .refl, rfl, (max_eq_left hT).symm⟩

theorem observeRequest (h : Simulates c a₀ p d lo s a) (hr : c.Reaches a₀) (T : Nat) :
    ∃ a', Simulates c a₀ p d lo (s.observeRequest T false).1 a' ∧ Moves c p a a' ∧
      (s.observeRequest T false).2 = none ∧
      (s.observeRequest T false).1.node.currentTerm = max s.node.currentTerm T := by
  unfold Locked.observeRequest
  split
  · exact h.observeTermLocked hr T
  · rename_i hle
    exact ⟨a, h, .refl, rfl, (max_eq_left (not_lt.1 hle)).symm⟩

/-- `RequestVote`: a vote that is granted has been saved. -/
theorem castVote (h : Simulates c a₀ p d lo s a) (hr : c.Reaches a₀) {call : ElectionCall}
    (hcall : ElectionView c a call) (hT : call.election.req.term ≤ s.node.currentTerm) :
    ∃ a', Simulates c a₀ p d lo (s.castVote call.election.req false).1 a' ∧ Moves c p a a' ∧
      ∀ r, (s.castVote call.election.req false).2 = .ok r → r.voteGranted = true →
        (p, call.election.req.term, call.election.req.candidateId) ∈ ballots c a' := by
  obtain ⟨hcounts, F, hF, hidx, hlt⟩ := hcall
  unfold Locked.castVote
  split
  · refine ⟨a, h, .refl, ?_⟩
    rintro r hr hg
    rw [Except.ok.injEq] at hr
    rw [← hr] at hg
    exact absurd hg (by simp)
  · rename_i hge
    have hTeq : call.election.req.term = s.node.currentTerm := by omega
    split
    · rename_i hfree
      obtain ⟨hfree, hup⟩ := hfree
      rw [hcounts.candidateId] at hfree
      have hvote := h.node.vote.free hcounts.member hfree
      rw [hlt, hidx, s.node.lastLogTermLocked_eq h.node.log,
        s.node.lastLogIndexLocked_eq h.node.log] at hup
      have hm : Moves c p a (a.grant p call.candidate) :=
        .single (.grant call.candidate F (by rw [h.node.term, ← hTeq]; exact hF) hvote
          (upToDate_of_isLogAtLeastAsUpToDate hup))
      have hview : VoteView c ((a.grant p call.candidate).vote p) call.election.req.candidateId := by
        simp only [ReplicatedLog.State.grant_vote, Function.update_self]
        exact ⟨hcounts.member, hcounts.candidateId⟩
      have hdisk := h.disk.saveState (h.reaches hr) hm rfl hview
      rw [show (a.grant p call.candidate).term p = s.node.currentTerm from h.node.term] at hdisk
      refine ⟨a.grant p call.candidate, ?_, hm, ?_⟩
      · refine h.write hm rfl rfl hdisk (fun _ => rfl) (List.append_nil _).symm .nil ?_ rfl
        exact h.node.of_sameLog (h.reaches hr) hm ⟨rfl, rfl, rfl, rfl, rfl, rfl, rfl⟩ rfl
          h.node.term hview h.node.role h.node.matched
      · intro r _ _
        refine ⟨⟨p, a.term p, call.candidate, a.log p⟩, Set.mem_insert _ _, rfl, ?_,
          hcounts.member, hcounts.candidateId.symm⟩
        exact h.node.term.trans hTeq.symm
    · refine ⟨a, h, .refl, ?_⟩
      rintro r hr hg
      rw [Except.ok.injEq] at hr
      rw [← hr] at hg
      exact absurd hg (by simp)

theorem requestVote (h : Simulates c a₀ p d lo s a) (hr : c.Reaches a₀) {call : ElectionCall}
    (hcall : ElectionView c a call) :
    ∃ a', Simulates c a₀ p d lo (s.requestVote call.election.req noFaults).1 a' ∧
      ∀ r, (s.requestVote call.election.req noFaults).2 = .ok r → r.voteGranted = true →
        (p, call.election.req.term, call.election.req.candidateId) ∈ ballots c a' := by
  obtain ⟨a₁, h₁, hm₁, hnone, hT⟩ := h.observeRequest hr call.election.req.term
  unfold Locked.requestVote
  rw [show s.observeRequest call.election.req.term noFaults.observe =
    ((s.observeRequest call.election.req.term false).1, none) from Prod.ext rfl hnone]
  obtain ⟨a₂, h₂, -, hgrant⟩ := h₁.castVote hr (hcall.mono (hm₁.extends (h.reaches hr).inv))
    (by rw [hT]; exact le_max_right _ _)
  exact ⟨a₂, h₂, hgrant⟩

/-- `startElection`: the candidate's own vote has been saved. -/
theorem startElection (h : Simulates c a₀ p d lo s a) (hr : c.Reaches a₀) (hp : p ∈ c.addrs)
    (epoch : Nat) :
    ∃ a', Simulates c a₀ p d lo (s.startElection false).1 a' ∧ Moves c p a a' ∧
      ∀ e, (s.startElection false).2 = some e → ElectionView c a' ⟨p, epoch, e⟩ := by
  unfold Locked.startElection
  split
  · exact ⟨a, h, .refl, fun e he => absurd he (by simp)⟩
  · obtain ⟨w, es, heq, hes, -⟩ := s.setRoleLocked_spec .candidate
    have hm : Moves c p a (a.campaign p) := .single .campaign
    have hterm : (a.campaign p).term p = s.node.currentTerm + 1 := by simp [h.node.term]
    have hview : VoteView c ((a.campaign p).vote p) s.node.id := by
      simp only [ReplicatedLog.State.campaign_vote, Function.update_self]
      exact ⟨hp, h.node.id⟩
    have hdisk := h.disk.saveState (h.reaches hr) hm rfl hview
    rw [hterm] at hdisk
    rw [heq]
    refine ⟨a.campaign p, ?_, hm, ?_⟩
    · refine h.write hm rfl rfl hdisk (fun _ => rfl) rfl hes ?_ rfl
      exact h.node.of_sameLog (h.reaches hr) hm ⟨rfl, rfl, rfl, rfl, rfl, rfl, rfl⟩ rfl hterm
        hview (show (a.campaign p).role p = .candidate by simp)
        (fun hl => absurd (show Role.candidate = .leader from hl) (by simp))
    · intro e he
      have hself : (p, s.node.currentTerm + 1, c.idOf p) ∈ ballots c (a.campaign p) :=
        ⟨⟨p, a.term p + 1, p, a.log p⟩, Set.mem_insert _ _, rfl, by rw [h.node.term], hp, rfl⟩
      obtain rfl := Option.some.inj he
      refine ⟨⟨hp, h.node.id, ?_, le_refl _, hself,
        ⟨[p], List.nodup_singleton p, rfl, ?_⟩, ?_⟩, a.log p, ?_, ?_, ?_⟩
      · change quorumSize (s.node.peers.length + 1) = _
        rw [h.node.peers, length_peersOf hp]
      · intro q hq
        rw [List.mem_singleton] at hq
        subst hq
        refine ⟨hp, hself, if_neg ?_⟩
        rintro ⟨hmem, -⟩
        change q ∈ s.node.peers at hmem
        rw [h.node.peers] at hmem
        exact notMem_peersOf c q hmem
      · intro q reply hans
        dsimp only at hans
        split at hans <;> exact absurd hans (by simp)
      · change (a.campaign p).cand p (s.node.currentTerm + 1) = _
        simp [h.node.term]
      · exact s.node.lastLogIndexLocked_eq h.node.log
      · exact s.node.lastLogTermLocked_eq h.node.log

/-- `becomeLeaderLocked`, with a majority of the ballots. -/
theorem becomeLeaderLocked (h : Simulates c a₀ p d lo s a) (hr : c.Reaches a₀)
    (hrole : s.node.role = .candidate) (hwon : Won c (ballots c a) p s.node.currentTerm)
    (hp : p ∈ c.addrs) :
    ∃ a', SectionView c a₀ p d lo s.becomeLeaderLocked a' ∧ Moves c p a a' := by
  obtain ⟨n', heq, hn'⟩ := s.becomeLeaderLocked_spec hrole
  have hQ : c.quorums.IsQuorum {w | ∃ F, ⟨w, a.term p, p, F⟩ ∈ a.votes} := by
    refine c.quorums.mono ?_ hwon
    rintro w ⟨b, hb, rfl, hT, hq, hid⟩
    obtain rfl := c.ids_inj _ hq p hp hid
    dsimp only at hT
    exact ⟨b.log, by rw [h.node.term, ← hT]; exact hb⟩
  have hm : Moves c p a (a.elect p) :=
    .single (.elect (by rw [h.node.role, hrole]; rfl) hQ)
  have hterm : (a.elect p).term p = n'.currentTerm := by rw [hn']; exact h.node.term
  have hzero : ∀ (l : List String) (m : IndexMap) q x,
      (l.foldl (fun m p => m.insert p 0) m).lookup q = some x →
      (q ∈ l ∧ x = 0) ∨ m.lookup q = some x := by
    intro l
    induction l with
    | nil => exact fun m q x hx => Or.inr hx
    | cons y l ih =>
        intro m q x hx
        rcases ih _ q x hx with ⟨hmem, h0⟩ | hx
        · exact Or.inl ⟨List.mem_cons_of_mem y hmem, h0⟩
        · by_cases hqy : q = y
          · subst hqy
            rw [AList.lookup_insert, Option.some.injEq] at hx
            exact Or.inl ⟨List.mem_cons_self .., hx.symm⟩
          · rw [AList.lookup_insert_ne hqy] at hx
            exact Or.inr hx
  have hnode : NodeView c (a.elect p) p n' := by
    refine h.node.of_sameLog (h.reaches hr) hm
      (by rw [hn']; exact ⟨rfl, rfl, rfl, rfl, rfl, rfl, rfl⟩) rfl hterm
      (by rw [hn']; exact h.node.vote) (by simp [hn', Role.view]) ?_
    intro _ q m hq
    rw [hn'] at hq
    rcases hzero _ _ q m hq with ⟨hmem, h0⟩ | hnone
    · exact ⟨h.node.peers ▸ hmem, Or.inl h0⟩
    · exact absurd hnone (by simp)
  refine ⟨a.elect p, ?_, hm⟩
  rw [heq]
  have hlo : n'.lastApplied = lo := by rw [hn']; exact h.applied
  refine h.finish hr hm rfl rfl rfl rfl rfl ?_
    (fun i e hi => Or.inl (hi.of_commits (h.reaches hr).inv (hm.extends (h.reaches hr).inv) rfl))
    hnode hlo.ge ?_
  · intro e he
    rw [List.mem_singleton] at he
    subst he
    refine ⟨a.log p, (a.log p).length, ?_, le_refl _, ?_⟩
    · rw [← hterm]
      simp
    · rw [List.take_length]
      exact hnode.log
  · rw [hlo, List.drop_eq_nil_of_le (by rw [List.length_take]; omega)]
    rfl

/-- Vote replies, counted in an election that a majority has decided once it has a
quorum of votes. -/
theorem handleRequestVoteReply (h : Simulates c a₀ p d lo s a) (hr : c.Reaches a₀)
    (hp : p ∈ c.addrs) (e : Election) (reply : RequestVoteReply)
    (hwin : reply.voteGranted = true → e.quorum ≤ e.votes + 1 → Won c (ballots c a) p e.req.term) :
    ∃ a', SectionView c a₀ p d lo (s.handleRequestVoteReply e reply false).1 a' := by
  unfold Locked.handleRequestVoteReply
  split
  · obtain ⟨a', h', -⟩ := h.observeTermLocked hr reply.term
    exact ⟨a', h'.toSection hr⟩
  · split
    · exact ⟨a, h.toSection hr⟩
    · rename_i hcur
      rw [not_or, not_not, not_not] at hcur
      dsimp only
      by_cases hg : reply.voteGranted = true
      · rw [if_pos hg]
        split
        · rename_i hq
          obtain ⟨a', h', -⟩ := h.becomeLeaderLocked hr hcur.1
            (by rw [hcur.2]; exact hwin hg hq.2) hp
          exact ⟨a', h'⟩
        · exact ⟨a, h.toSection hr⟩
      · rw [if_neg fun hq => hg hq.1]
        exact ⟨a, h.toSection hr⟩

/-! ## Proposals -/

/-- The leader appends an entry to its log, on disk first. -/
theorem appendLocalLocked (h : Simulates c a₀ p d lo s a) (hr : c.Reaches a₀)
    (hrole : s.node.role = .leader) (command : List UInt8) :
    ∃ a', Simulates c a₀ p d lo (s.appendLocalLocked command) a' ∧ Moves c p a a' ∧
      a'.log p = a.log p ++ [⟨s.node.currentTerm, s.node.lastLogIndexLocked + 1, command⟩] := by
  have hlast := s.node.lastLogIndexLocked_eq h.node.log
  obtain ⟨e, he⟩ : ∃ e : LogEntry,
      e = ⟨s.node.currentTerm, s.node.lastLogIndexLocked + 1, command⟩ := ⟨_, rfl⟩
  have hindex : e.index = (a.log p).length + 1 := by rw [he, ← hlast]
  have hm : Moves c p a (a.propose p e) := .single
    (.propose e (by rw [h.node.role, hrole]; rfl) (by rw [he, h.node.term]) hindex)
  have hlog : (a.propose p e).log p = a.log p ++ [e] := by simp
  refine ⟨a.propose p e, ?_, hm, by rw [hlog, he]⟩
  unfold Locked.appendLocalLocked
  rw [← he]
  have hra := h.reaches hr
  refine h.write hm rfl rfl (h.disk.appendRecord hra hm rfl rfl hlog hindex) (fun _ => rfl)
    (List.append_nil _).symm .nil ?_ rfl
  exact ⟨h.node.id, h.node.peers, h.node.term, h.node.vote, h.node.role,
    by rw [hlog]; exact h.node.log.append [e], h.node.path, h.node.anchor,
    h.node.known.steps hra.inv hm, h.node.applied,
    fun hl q m hq => ⟨(h.node.matched hl q m hq).1, (h.node.matched hl q m hq).2.imp_right
      fun hin => (hm.extends hra.inv).acks hin⟩⟩

theorem propose (h : Simulates c a₀ p d lo s a) (hr : c.Reaches a₀) (command : List UInt8) :
    ∃ a', Simulates c a₀ p d lo (s.propose command) a' := by
  unfold Locked.propose
  split
  · exact ⟨a, h⟩
  · rename_i hrole
    obtain ⟨a', h', -⟩ := h.appendLocalLocked hr (not_not.1 hrole) command
    exact ⟨a', h'⟩

theorem proposeSync (h : Simulates c a₀ p d lo s a) (hr : c.Reaches a₀) (command : List UInt8)
    (ch : Nat) : ∃ a', Simulates c a₀ p d lo (s.proposeSync command ch).1 a' := by
  unfold Locked.proposeSync
  split
  · exact ⟨a, h⟩
  · rename_i hrole
    obtain ⟨a', h', -⟩ := h.appendLocalLocked hr (not_not.1 hrole) command
    exact ⟨a', h'.idle hr rfl rfl ⟨rfl, rfl, rfl, rfl, rfl, rfl, rfl⟩ rfl rfl rfl rfl⟩

end Simulates

end

end B5KvStore
