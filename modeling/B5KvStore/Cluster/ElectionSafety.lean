import B5KvStore.Lib.Quorum
import B5KvStore.Cluster.Effects
import B5KvStore.Raft.Frame

/-!
# At most one leader for each term

A vote counts once it is in `state.json`.  The set of all votes ever saved only
grows, and it names at most one candidate for each voter and term
(`SavedVotes`): memory may run ahead of the disk when a `SaveState` call fails,
but it never forgets a saved vote of its own term, and a restart only falls back
to what was saved.  Replies that grant a vote are sent after the vote was saved,
so every count of votes is backed by saved ones, and two leaders of one term
would have to share a voter.

* `SavedVotes.save` — when a vote can be added.
* `Tracked` — the votes saved along one critical section, crashes included.
* `VoteInv` — the invariant; `VoteInv.step`, `VoteInv.run`.
* `election_safety` — two leaders of one term are one node.
-/

namespace B5KvStore

open QuorumSystem

/-- Votes that have been saved: voter, term, and the id voted for. -/
abbrev Votes := Set (String × Nat × String)

/-- `S` agrees with the data directory of `p`: no vote is from a later term than
the saved one, and the saved one is the only one of its term. -/
structure SavedVotes (S : Votes) (p : String) (d : Disk) : Prop where
  le : ∀ T v, (p, T, v) ∈ S → T ≤ d.loadState.1
  last : ∀ v, (p, d.loadState.1, v) ∈ S → d.loadState.2 = v
  unique : ∀ T v v', (p, T, v) ∈ S → (p, T, v') ∈ S → v = v'
  ne : ∀ T v, (p, T, v) ∈ S → v ≠ ""

/-- The node `n` is at least as far as its data directory, and remembers a saved
vote of its own term. -/
structure NodeVotes (S : Votes) (p : String) (n : Node) (d : Disk) : Prop where
  disk : SavedVotes S p d
  term_le : d.loadState.1 ≤ n.currentTerm
  vote : d.loadState.1 = n.currentTerm → d.loadState.2 ≠ "" → n.votedFor = d.loadState.2

variable {S S' S₀ : Votes} {p : String} {n : Node} {d d' : Disk} {s s' : Locked}

theorem loadState_congr (h : d'.state = d.state) : d'.loadState = d.loadState := by
  unfold Disk.loadState
  rw [h]

theorem loadState_saveState (d : Disk) (T : Nat) (v : String) :
    (d.apply (.saveState T v)).loadState = (T, v) := rfl

theorem SavedVotes.congr (h : SavedVotes S p d) (hst : d'.state = d.state) :
    SavedVotes S p d' := by
  have hload := loadState_congr hst
  exact ⟨by rw [hload]; exact h.le, by rw [hload]; exact h.last, h.unique, h.ne⟩

/-- Votes of other nodes do not matter. -/
theorem SavedVotes.of_same (h : SavedVotes S p d) (hS : ∀ T v, (p, T, v) ∈ S' ↔ (p, T, v) ∈ S) :
    SavedVotes S' p d where
  le T v hv := h.le T v ((hS T v).1 hv)
  last v hv := h.last v ((hS _ v).1 hv)
  unique T v v' hv hv' := h.unique T v v' ((hS T v).1 hv) ((hS T v').1 hv')
  ne T v hv := h.ne T v ((hS T v).1 hv)

theorem NodeVotes.of_same (h : NodeVotes S p n d) (hS : ∀ T v, (p, T, v) ∈ S' ↔ (p, T, v) ∈ S) :
    NodeVotes S' p n d := ⟨h.disk.of_same hS, h.term_le, h.vote⟩

/-- A vote already saved in the node's own term is the one the node remembers. -/
theorem NodeVotes.votedFor_eq (h : NodeVotes S p n d) {v : String}
    (hv : (p, n.currentTerm, v) ∈ S) : n.votedFor = v := by
  have hT : d.loadState.1 = n.currentTerm := h.term_le.antisymm (h.disk.le _ _ hv)
  have hlast : d.loadState.2 = v := h.disk.last v (by rw [hT]; exact hv)
  rw [h.vote hT (by rw [hlast]; exact h.disk.ne _ _ hv), hlast]

/-- A vote may be saved if no other vote of its term has been, and its term is
no earlier than the saved one. -/
theorem SavedVotes.save (h : SavedVotes S p d) {T : Nat} {v : String} (hT : d.loadState.1 ≤ T)
    (hv : v ≠ "") (huniq : ∀ v', (p, T, v') ∈ S → v' = v) :
    SavedVotes (insert (p, T, v) S) p (d.apply (.saveState T v)) where
  le := by
    rintro T' v' (h' | h')
    · simp only [Prod.mk.injEq] at h'
      exact h'.2.1.le
    · exact (h.le T' v' h').trans hT
  last := by
    rintro v' (h' | h')
    · simp only [Prod.mk.injEq] at h'
      exact h'.2.2.symm
    · exact (huniq v' h').symm
  unique := by
    rintro T' v₁ v₂ (h₁ | h₁) (h₂ | h₂)
    · simp only [Prod.mk.injEq] at h₁ h₂
      rw [h₁.2.2, h₂.2.2]
    · simp only [Prod.mk.injEq] at h₁
      rw [h₁.2.1] at h₂
      rw [h₁.2.2, huniq v₂ h₂]
    · simp only [Prod.mk.injEq] at h₂
      rw [h₂.2.1] at h₁
      rw [h₂.2.2, huniq v₁ h₁]
    · exact h.unique T' v₁ v₂ h₁ h₂
  ne := by
    rintro T' v' (h' | h')
    · simp only [Prod.mk.injEq] at h'
      rw [h'.2.2]
      exact hv
    · exact h.ne T' v' h'

/-- Saving a later term without a vote changes nothing. -/
theorem SavedVotes.saveTerm (h : SavedVotes S p d) {T : Nat} (hT : d.loadState.1 < T) :
    SavedVotes S p (d.apply (.saveState T "")) where
  le T' v' h' := (h.le T' v' h').trans hT.le
  last := by
    intro v' h'
    have := h.le _ v' h'
    rw [loadState_saveState] at this
    omega
  unique := h.unique
  ne := h.ne

/-! ## One critical section -/

/-- The critical section `s` of node `p` on data directory `d`, with the votes
`S₀` saved before it and `S` after it. -/
structure Tracked (S₀ : Votes) (p : String) (d : Disk) (s : Locked) (S : Votes) : Prop where
  /-- A crash after `k` of the writes leaves a data directory that some votes
  between `S₀` and `S` agree with. -/
  crash : ∀ k, ∃ S', S₀ ⊆ S' ∧ S' ⊆ S ∧ SavedVotes S' p (d.applyAll (s.writes.take k))
  node : NodeVotes S p s.node (d.applyAll s.writes)
  grows : S₀ ⊆ S
  others : ∀ q T v, q ≠ p → (q, T, v) ∈ S → (q, T, v) ∈ S₀

theorem Tracked.lock (h : NodeVotes S p n d) : Tracked S p d n.lock S where
  crash k := ⟨S, subset_rfl, subset_rfl, by simpa [Node.lock] using h.disk⟩
  node := h
  grows := subset_rfl
  others _ _ _ _ h := h

/-- Anything that leaves terms and votes alone. -/
theorem Tracked.keepsVote (h : Tracked S₀ p d s S) (hk : KeepsVote s s') :
    Tracked S₀ p d s' S := by
  obtain ⟨ws, hws, hkeep⟩ := hk.writes
  have hstate : ∀ ws', (∀ w ∈ ws', w.KeepsState) →
      ((d.applyAll s.writes).applyAll ws').state = (d.applyAll s.writes).state :=
    fun ws' hws' => Disk.state_applyAll hws' _
  refine ⟨?_, ⟨?_, ?_, ?_⟩, h.grows, h.others⟩
  · intro k
    rw [hws, List.take_append]
    rcases Nat.lt_or_ge k s.writes.length with hlt | hge
    · rw [show k - s.writes.length = 0 by omega, List.take_zero, List.append_nil]
      exact h.crash k
    · rw [List.take_of_length_le hge, Disk.applyAll_append]
      exact ⟨S, h.grows, subset_rfl,
        h.node.disk.congr (hstate _ fun w hw => hkeep w (List.mem_of_mem_take hw))⟩
  · rw [hws, Disk.applyAll_append]
    exact h.node.disk.congr (hstate ws hkeep)
  · rw [hws, Disk.applyAll_append, loadState_congr (hstate ws hkeep), hk.currentTerm]
    exact h.node.term_le
  · rw [hws, Disk.applyAll_append, loadState_congr (hstate ws hkeep), hk.currentTerm, hk.votedFor]
    exact h.node.vote

/-- The writes so far, and one more. -/
theorem Tracked.crash_write (h : Tracked S₀ p d s S) (hS : S ⊆ S') {w : DiskWrite}
    (hw : SavedVotes S' p ((d.applyAll s.writes).apply w)) (k : Nat) :
    ∃ S'', S₀ ⊆ S'' ∧ S'' ⊆ S' ∧ SavedVotes S'' p (d.applyAll ((s.writes ++ [w]).take k)) := by
  rcases Nat.lt_or_ge s.writes.length k with hlt | hge
  · rw [List.take_of_length_le (by simp; omega), Disk.applyAll_append]
    exact ⟨S', h.grows.trans hS, subset_rfl, hw⟩
  · rw [List.take_append_of_le_length hge]
    obtain ⟨S'', h₀, h₁, hd⟩ := h.crash k
    exact ⟨S'', h₀, h₁.trans hS, hd⟩

/-- `observeTermLocked` on a later term. -/
theorem Tracked.observeTermLocked (h : Tracked S₀ p d s S) (T : Nat) (fails : Bool) :
    Tracked S₀ p d (s.observeTermLocked T fails).1 S := by
  unfold Locked.observeTermLocked
  split
  · exact h
  · rename_i hT
    have hlt : (d.applyAll s.writes).loadState.1 < T := by
      have := h.node.term_le
      omega
    -- the fields the rest of the argument depends on
    obtain ⟨r, hr, hterm, hw⟩ : ∃ r, r = ((s.modify fun n =>
        { n with currentTerm := T, votedFor := "" }).setRoleLocked .follower) ∧
        r.node.currentTerm = T ∧ r.writes = s.writes := by
      refine ⟨_, rfl, ?_, ?_⟩
      · exact (Locked.keepsVote_setRoleLocked_follower _).currentTerm
      · unfold Locked.setRoleLocked
        dsimp only
        split <;> rfl
    dsimp only
    rw [← hr]
    unfold Locked.persistStateLocked
    split
    · exact ⟨by rw [hw]; exact h.crash,
        ⟨by rw [hw]; exact h.node.disk, by rw [hw, hterm]; exact hlt.le,
          fun heq => by rw [hw, hterm] at heq; omega⟩, h.grows, h.others⟩
    · have hvote : r.node.votedFor = "" := by
        rw [hr]
        exact (Locked.keepsVote_setRoleLocked_follower _).votedFor
      rw [hterm, hvote]
      have hd := h.node.disk.saveTerm hlt
      refine ⟨?_, ⟨?_, ?_, ?_⟩, h.grows, h.others⟩
      · intro k
        rw [Locked.writes_write, hw]
        exact h.crash_write subset_rfl hd k
      · rw [Locked.writes_write, hw, Disk.applyAll_append]
        exact hd
      · rw [Locked.writes_write, hw, Disk.applyAll_append]
        exact hterm.ge
      · intro _ hne
        rw [Locked.writes_write, hw, Disk.applyAll_append] at hne
        exact absurd rfl hne

theorem Tracked.observeRequest (h : Tracked S₀ p d s S) (T : Nat) (fails : Bool) :
    Tracked S₀ p d (s.observeRequest T fails).1 S := by
  unfold Locked.observeRequest
  split
  · exact h.observeTermLocked T fails
  · exact h

/-- A new vote in memory, saved or not: no other vote of its term was saved. -/
theorem Tracked.persist (h : Tracked S₀ p d s S) (s' : Locked) (fails : Bool)
    (hv : s'.node.votedFor ≠ "") (hw : s'.writes = s.writes)
    (hT : (d.applyAll s.writes).loadState.1 ≤ s'.node.currentTerm)
    (huniq : ∀ v, (p, s'.node.currentTerm, v) ∈ S → v = s'.node.votedFor)
    (hmem : (d.applyAll s.writes).loadState.1 = s'.node.currentTerm →
      (d.applyAll s.writes).loadState.2 ≠ "" →
      s'.node.votedFor = (d.applyAll s.writes).loadState.2) :
    ∃ S', Tracked S₀ p d (s'.persistStateLocked fails).1 S' ∧
      (fails = false → (p, s'.node.currentTerm, s'.node.votedFor) ∈ S') := by
  unfold Locked.persistStateLocked
  cases fails with
  | true =>
      exact ⟨S, ⟨by rw [if_pos rfl, hw]; exact h.crash,
        ⟨by rw [if_pos rfl, hw]; exact h.node.disk, by rw [if_pos rfl, hw]; exact hT,
          by rw [if_pos rfl, hw]; exact hmem⟩, h.grows, h.others⟩, by simp⟩
  | false =>
      have hd := h.node.disk.save hT hv huniq
      have hsub := Set.subset_insert (p, s'.node.currentTerm, s'.node.votedFor) S
      refine ⟨insert (p, s'.node.currentTerm, s'.node.votedFor) S, ⟨?_, ⟨?_, ?_, ?_⟩,
        h.grows.trans hsub, ?_⟩, fun _ => Set.mem_insert _ _⟩
      · intro k
        rw [if_neg (by simp), Locked.writes_write, hw]
        exact h.crash_write hsub hd k
      · rw [if_neg (by simp), Locked.writes_write, hw, Disk.applyAll_append]
        exact hd
      · rw [if_neg (by simp), Locked.writes_write, hw, Disk.applyAll_append]
        exact le_refl _
      · intro _ _
        rw [if_neg (by simp), Locked.writes_write, hw, Disk.applyAll_append]
        rfl
      · rintro q T v hq (hnew | hold)
        · simp only [Prod.mk.injEq] at hnew
          exact absurd hnew.1 hq
        · exact h.others q T v hq hold

/-- The node keeps its identity, and is a leader only if it was. -/
structure Stays (n n' : Node) : Prop where
  id : n'.id = n.id
  peers : n'.peers = n.peers
  leader : n'.role = .leader → n.role = .leader ∧ n'.currentTerm = n.currentTerm

theorem Stays.refl (n : Node) : Stays n n := ⟨rfl, rfl, fun h => ⟨h, rfl⟩⟩

theorem Stays.trans {n n' n'' : Node} (h : Stays n n') (h' : Stays n' n'') : Stays n n'' where
  id := h'.id.trans h.id
  peers := h'.peers.trans h.peers
  leader hl := by
    obtain ⟨hl', hT'⟩ := h'.leader hl
    obtain ⟨hl'', hT''⟩ := h.leader hl'
    exact ⟨hl'', hT'.trans hT''⟩

theorem KeepsVote.stays (h : KeepsVote s s') : Stays s.node s'.node where
  id := h.id
  peers := h.peers
  leader hl := by
    rcases h.role with hr | hr
    · exact ⟨by rw [← hr]; exact hl, h.currentTerm⟩
    · rw [hr] at hl
      exact absurd hl (by simp)

theorem Locked.node_persistStateLocked (s : Locked) (fails : Bool) :
    (s.persistStateLocked fails).1.node = s.node := by
  unfold persistStateLocked
  split <;> rfl

theorem Locked.stays_observeTermLocked (s : Locked) (T : Nat) (fails : Bool) :
    Stays s.node (s.observeTermLocked T fails).1.node := by
  unfold observeTermLocked
  split
  · exact .refl _
  · dsimp only
    rw [node_persistStateLocked]
    have hk := keepsVote_setRoleLocked_follower (s.modify fun n =>
      { n with currentTerm := T, votedFor := "" })
    exact ⟨hk.id, hk.peers, fun hl => by simp [setRoleLocked] at hl⟩

theorem Locked.stays_observeRequest (s : Locked) (T : Nat) (fails : Bool) :
    Stays s.node (s.observeRequest T fails).1.node := by
  unfold observeRequest
  split
  · exact stays_observeTermLocked s T fails
  · exact .refl _

/-- After the first lines of a handler the term of the request has been reached. -/
theorem Locked.le_currentTerm_observeRequest (s : Locked) (T : Nat) (fails : Bool) :
    T ≤ (s.observeRequest T fails).1.node.currentTerm := by
  unfold observeRequest observeTermLocked
  split
  · rename_i hlt
    rw [if_neg (by omega)]
    dsimp only
    rw [node_persistStateLocked]
    rw [(keepsVote_setRoleLocked_follower _).currentTerm]
    exact le_refl _
  · dsimp only
    omega

/-! ## The handlers that cast votes -/

theorem Tracked.castVote (h : Tracked S₀ p d s S) (req : RequestVoteRequest) (fails : Bool)
    (hne : req.candidateId ≠ "") (hT : req.term ≤ s.node.currentTerm) :
    ∃ S', Tracked S₀ p d (s.castVote req fails).1 S' ∧ Stays s.node (s.castVote req fails).1.node ∧
      ∀ reply, (s.castVote req fails).2 = .ok reply → reply.voteGranted = true →
        (p, req.term, req.candidateId) ∈ S' := by
  unfold Locked.castVote
  split
  · exact ⟨S, h, .refl _, by rintro reply ⟨rfl⟩; simp⟩
  · rename_i hstale
    have hterm : s.node.currentTerm = req.term := by omega
    split
    · rename_i hgrant
      -- a vote saved in this term before is the one the node remembers
      have huniq : ∀ v, (p, s.node.currentTerm, v) ∈ S → v = req.candidateId := by
        intro v hv
        rcases hgrant.1 with h0 | h1
        · exact absurd (h.node.votedFor_eq hv ▸ h0) (h.node.disk.ne _ _ hv)
        · rw [← h.node.votedFor_eq hv, h1]
      obtain ⟨S', htr, hin⟩ := h.persist (s.modify fun n =>
        { n with votedFor := req.candidateId }) fails hne rfl h.node.term_le huniq (by
          intro heq hv
          have := h.node.vote heq hv
          rcases hgrant.1 with h0 | h1
          · rw [h0] at this
            exact absurd this.symm hv
          · exact h1.symm.trans this)
      have hnode := Locked.node_persistStateLocked (s.modify fun n =>
        { n with votedFor := req.candidateId }) fails
      have hkeep : Stays s.node ((s.modify fun n =>
          { n with votedFor := req.candidateId }).persistStateLocked fails).1.node := by
        rw [hnode]
        exact ⟨rfl, rfl, fun hl => ⟨hl, rfl⟩⟩
      cases fails with
      | true => exact ⟨S', htr, hkeep, by rintro reply ⟨⟩⟩
      | false =>
          refine ⟨S', htr, hkeep, fun _ _ _ => ?_⟩
          have := hin rfl
          rwa [Locked.node_modify, hterm] at this
    · exact ⟨S, h, .refl _, by rintro reply ⟨rfl⟩; simp⟩

/-- **`RequestVote`.**  A vote that is granted has been saved. -/
theorem Tracked.requestVote (h : Tracked S₀ p d s S) (req : RequestVoteRequest) (f : SaveFaults)
    (hne : req.candidateId ≠ "") :
    ∃ S', Tracked S₀ p d (s.requestVote req f).1 S' ∧ Stays s.node (s.requestVote req f).1.node ∧
      ∀ reply, (s.requestVote req f).2 = .ok reply → reply.voteGranted = true →
        (p, req.term, req.candidateId) ∈ S' := by
  have hobs := h.observeRequest req.term f.observe
  have hstay := s.stays_observeRequest req.term f.observe
  have hle := s.le_currentTerm_observeRequest req.term f.observe
  unfold Locked.requestVote
  split
  · rename_i r err heq
    rw [heq] at hobs hstay
    exact ⟨S, hobs, hstay, by rintro reply ⟨⟩⟩
  · rename_i r heq
    rw [heq] at hobs hstay hle
    obtain ⟨S', htr, hst, hin⟩ := hobs.castVote req f.vote hne hle
    exact ⟨S', htr, hstay.trans hst, hin⟩

/-- **`startElection`.**  An election begins with a saved vote for oneself. -/
theorem Tracked.startElection (h : Tracked S₀ p d s S) (fails : Bool) (hne : s.node.id ≠ "") :
    ∃ S', Tracked S₀ p d (s.startElection fails).1 S' ∧
      Stays s.node (s.startElection fails).1.node ∧
      ∀ e, (s.startElection fails).2 = some e →
        (p, e.req.term, s.node.id) ∈ S' ∧ e.req.candidateId = s.node.id ∧
        e.quorum = quorumSize (s.node.peers.length + 1) ∧ e.votes = 1 ∧
        (∀ q, e.calls q = .sent ∨ e.calls q = .finished) ∧
        (∀ q, q ∉ s.node.peers → e.calls q = .finished) := by
  unfold Locked.startElection
  split
  · exact ⟨S, h, .refl _, by rintro e ⟨⟩⟩
  · rename_i hrole
    obtain ⟨r, hr, hid, hpeers, hrole', hterm, hvote, hw⟩ : ∃ r, r = ((s.setRoleLocked
        .candidate).modify fun n => { n with currentTerm := n.currentTerm + 1, votedFor := n.id }) ∧
        r.node.id = s.node.id ∧ r.node.peers = s.node.peers ∧ r.node.role = .candidate ∧
        r.node.currentTerm = s.node.currentTerm + 1 ∧ r.node.votedFor = s.node.id ∧
        r.writes = s.writes := by
      refine ⟨_, rfl, ?_⟩
      simp [Locked.setRoleLocked, hrole]
    have hlt : (d.applyAll s.writes).loadState.1 < r.node.currentTerm := by
      have := h.node.term_le
      omega
    obtain ⟨S', htr, hin⟩ := h.persist r fails (by rw [hvote]; exact hne) hw hlt.le
      (fun v hv => absurd (h.node.disk.le _ v hv) (by omega)) (fun heq => by omega)
    have hnode := r.node_persistStateLocked fails
    have hstay : Stays s.node (r.persistStateLocked fails).1.node := by
      rw [hnode]
      exact ⟨hid, hpeers, fun hl => by rw [hrole'] at hl; exact absurd hl (by simp)⟩
    dsimp only
    rw [← hr]
    cases fails with
    | true => exact ⟨S', htr, hstay, by rintro e ⟨⟩⟩
    | false =>
        refine ⟨S', htr, hstay, ?_⟩
        rintro e ⟨rfl⟩
        have := hin rfl
        rw [hvote] at this
        refine ⟨this, hid, by rw [Locked.node_write, hpeers], rfl, ?_, ?_⟩
        · intro q
          dsimp only
          split
          · exact Or.inl rfl
          · exact Or.inr rfl
        · intro q hq
          dsimp only
          rw [if_neg]
          rw [Locked.node_write, hpeers]
          exact fun hcon => hq hcon.1

theorem Tracked.of_becomeLeader (h : Tracked S₀ p d s S) :
    Tracked S₀ p d s.becomeLeaderLocked S := by
  unfold Locked.becomeLeaderLocked
  split
  · exact h
  · exact ⟨h.crash, ⟨h.node.disk, h.node.term_le, h.node.vote⟩, h.grows, h.others⟩

/-- A reply is counted once, if it grants the vote. -/
theorem Locked.votes_handleRequestVoteReply (s : Locked) (e : Election) (reply : RequestVoteReply)
    (fails : Bool) : (s.handleRequestVoteReply e reply fails).2 = e.votes ∨
      reply.voteGranted = true ∧ (s.handleRequestVoteReply e reply fails).2 = e.votes + 1 := by
  unfold Locked.handleRequestVoteReply
  split
  · exact Or.inl rfl
  · split
    · exact Or.inl rfl
    · dsimp only
      split
      · rename_i hg
        exact Or.inr ⟨hg, rfl⟩
      · exact Or.inl rfl

/-- Vote replies: the node is a new leader only with a quorum of counted votes in
its own term. -/
theorem Tracked.handleRequestVoteReply (h : Tracked S₀ p d s S) (e : Election)
    (reply : RequestVoteReply) (fails : Bool) :
    Tracked S₀ p d (s.handleRequestVoteReply e reply fails).1 S ∧
      (Stays s.node (s.handleRequestVoteReply e reply fails).1.node ∨
        (s.handleRequestVoteReply e reply fails).1.node.currentTerm = e.req.term ∧
        (s.handleRequestVoteReply e reply fails).1.node.id = s.node.id ∧
        (s.handleRequestVoteReply e reply fails).1.node.peers = s.node.peers ∧
        e.quorum ≤ (s.handleRequestVoteReply e reply fails).2) := by
  unfold Locked.handleRequestVoteReply
  split
  · exact ⟨h.observeTermLocked _ _, Or.inl (Locked.stays_observeTermLocked _ _ _)⟩
  · split
    · exact ⟨h, Or.inl (.refl _)⟩
    · rename_i hcur
      rw [not_or, not_not, not_not] at hcur
      dsimp only
      refine ⟨?_, ?_⟩
      · generalize (if reply.voteGranted = true then e.votes + 1 else e.votes) = votes
        split
        · exact h.of_becomeLeader
        · exact h
      · generalize (if reply.voteGranted = true then e.votes + 1 else e.votes) = votes
        split
        · rename_i hwin
          refine Or.inr ?_
          unfold Locked.becomeLeaderLocked
          rw [if_neg (by simp [hcur.1])]
          exact ⟨hcur.2, rfl, rfl, hwin.2⟩
        · exact Or.inl (.refl _)

/-! ## The cluster -/

/-- A majority of saved votes for `p` in term `T`. -/
def Won (c : Config) (S : Votes) (p : String) (T : Nat) : Prop :=
  (majority c.addrs.toFinset).IsQuorum {q | (q, T, c.idOf p) ∈ S}

theorem Won.mono {c : Config} {T : Nat} (h : Won c S p T) (hS : S ⊆ S') : Won c S' p T :=
  (majority c.addrs.toFinset).mono (fun _ hq => hS hq) h

/-- The votes an election has counted are saved votes of different members, whose
calls are over; replies under way that grant a vote are backed by a saved one. -/
structure ElectionCounts (c : Config) (S : Votes) (call : ElectionCall) : Prop where
  member : call.candidate ∈ c.addrs
  candidateId : call.election.req.candidateId = c.idOf call.candidate
  quorum : call.election.quorum = quorumSize c.addrs.length
  pos : 1 ≤ call.election.votes
  self : (call.candidate, call.election.req.term, c.idOf call.candidate) ∈ S
  counted : ∃ V : List String, V.Nodup ∧ V.length = call.election.votes ∧ ∀ q ∈ V, q ∈ c.addrs ∧
    (q, call.election.req.term, c.idOf call.candidate) ∈ S ∧ call.election.calls q = .finished
  granted : ∀ q reply, call.election.calls q = .answered reply → reply.voteGranted = true →
    q ∈ c.addrs ∧ (q, call.election.req.term, c.idOf call.candidate) ∈ S

theorem ElectionCounts.mono {c : Config} {call : ElectionCall} (h : ElectionCounts c S call)
    (hS : S ⊆ S') : ElectionCounts c S' call where
  member := h.member
  candidateId := h.candidateId
  quorum := h.quorum
  pos := h.pos
  self := hS h.self
  counted := by
    obtain ⟨V, hnd, hlen, hV⟩ := h.counted
    exact ⟨V, hnd, hlen, fun q hq => ⟨(hV q hq).1, hS (hV q hq).2.1, (hV q hq).2.2⟩⟩
  granted q reply hans hg := by
    obtain ⟨hq, hin⟩ := h.granted q reply hans hg
    exact ⟨hq, hS hin⟩

/-- A quorum of counted votes is a majority of saved ones. -/
theorem ElectionCounts.won {c : Config} {call : ElectionCall} (h : ElectionCounts c S call)
    (hq : call.election.quorum ≤ call.election.votes) :
    Won c S call.candidate call.election.req.term := by
  obtain ⟨V, hnd, hlen, hV⟩ := h.counted
  refine isQuorum_of_list hnd (fun q hq => (hV q hq).1) ?_ fun q hq => (hV q hq).2.1
  rw [h.quorum, quorumSize] at hq
  omega

theorem length_peersOf {c : Config} (hp : p ∈ c.addrs) :
    (c.peersOf p).length + 1 = c.addrs.length := by
  unfold Config.peersOf
  rw [List.length_erase_of_mem hp]
  have := List.length_pos_of_mem hp
  omega

theorem notMem_peersOf (c : Config) (p : String) : p ∉ c.peersOf p := by
  unfold Config.peersOf
  exact c.nodup.not_mem_erase

/-- The invariant of elections, over the votes saved so far. -/
structure VoteInv (c : Config) (S : Votes) (s : Cluster) : Prop where
  identity : ∀ p ∈ c.addrs, (s.hosts p).node.id = c.idOf p ∧ (s.hosts p).node.peers = c.peersOf p
  nodes : ∀ p ∈ c.addrs, NodeVotes S p (s.hosts p).node (s.hosts p).disk
  leaders : ∀ p ∈ c.addrs, (s.hosts p).node.role = .leader →
    Won c S p (s.hosts p).node.currentTerm
  own : ∀ p ∈ c.addrs, (s.hosts p).node.role = .leader →
    (p, (s.hosts p).node.currentTerm, c.idOf p) ∈ S
  elections : ∀ call ∈ s.elections, ElectionCounts c S call

theorem VoteInv.init (c : Config) : VoteInv c ∅ c.init where
  identity p _ := ⟨rfl, rfl⟩
  nodes p _ := ⟨⟨by simp, by simp, by simp, by simp⟩, le_refl _, fun _ h => absurd rfl h⟩
  leaders p _ h := by
    have : (c.init.hosts p).node.role = .follower := rfl
    rw [this] at h
    exact absurd h (by simp)
  own p _ h := by
    have : (c.init.hosts p).node.role = .follower := rfl
    rw [this] at h
    exact absurd h (by simp)
  elections := by simp [Config.init]

/-- What a critical section adds to the saved votes. -/
structure SectionVotes (c : Config) (S : Votes) (s : Cluster) (o : Outcome) (S' : Votes) :
    Prop where
  same : ∀ q, (o.around.hosts q).node = (s.hosts q).node ∧
    (o.around.hosts q).disk = (s.hosts q).disk
  grows : S ⊆ S'
  others : ∀ q T v, q ≠ o.host → (q, T, v) ∈ S' → (q, T, v) ∈ S
  tracked : o.host ∈ c.addrs → Tracked S o.host (s.hosts o.host).disk o.result S'
  identity : o.host ∈ c.addrs → o.result.node.id = c.idOf o.host ∧
    o.result.node.peers = c.peersOf o.host
  leader : o.host ∈ c.addrs → o.result.node.role = .leader →
    Won c S' o.host o.result.node.currentTerm ∧
    (o.host, o.result.node.currentTerm, c.idOf o.host) ∈ S'
  elections : ∀ call ∈ o.around.elections, ElectionCounts c S' call

/-- Sections of a member that elect nobody. -/
theorem VoteInv.section_of_stays {c : Config} {s : Cluster} {o : Outcome} (h : VoteInv c S s)
    (hp : o.host ∈ c.addrs)
    (hsame : ∀ q, (o.around.hosts q).node = (s.hosts q).node ∧
      (o.around.hosts q).disk = (s.hosts q).disk)
    (htr : Tracked S o.host (s.hosts o.host).disk o.result S')
    (hstay : Stays (s.hosts o.host).node o.result.node)
    (hel : ∀ call ∈ o.around.elections, ElectionCounts c S' call) : SectionVotes c S s o S' where
  same := hsame
  grows := htr.grows
  others := htr.others
  tracked _ := htr
  identity _ := by
    obtain ⟨hid, hpeers⟩ := h.identity o.host hp
    exact ⟨hstay.id.trans hid, hstay.peers.trans hpeers⟩
  leader _ hl := by
    obtain ⟨hl', hT⟩ := hstay.leader hl
    rw [hT]
    exact ⟨(h.leaders o.host hp hl').mono htr.grows, htr.grows (h.own o.host hp hl')⟩
  elections := hel

/-- Sections that at most observe a term. -/
theorem VoteInv.section_of_keepsVote {c : Config} {s : Cluster} {o : Outcome} (h : VoteInv c S s)
    (hsame : ∀ q, (o.around.hosts q).node = (s.hosts q).node ∧
      (o.around.hosts q).disk = (s.hosts q).disk)
    (T : Nat) (fails : Bool)
    (hk : KeepsVote ((s.hosts o.host).node.lock.observeRequest T fails).1 o.result)
    (hel : o.around.elections = s.elections) : SectionVotes c S s o S := by
  by_cases hp : o.host ∈ c.addrs
  · exact h.section_of_stays hp hsame
      (((Tracked.lock (h.nodes _ hp)).observeRequest T fails).keepsVote hk)
      ((Locked.stays_observeRequest _ T fails).trans hk.stays)
      (by rw [hel]; exact h.elections)
  · exact ⟨hsame, subset_rfl, fun _ _ _ _ h => h, fun h' => absurd h' hp, fun h' => absurd h' hp,
      fun h' => absurd h' hp, by rw [hel]; exact h.elections⟩

theorem keepsVote_idle {n : Node} {r : Locked} (h : Idle n r) : KeepsVote n.lock r := by
  cases h with
  | look => exact .refl _
  | returned i out => exact .emit _ _
  | waiters w => exact .modify rfl rfl rfl rfl rfl (Or.inl rfl)
  | leader l => exact .modify rfl rfl rfl rfl rfl (Or.inl rfl)

/-- A handler that goes on after its first lines, or stops there. -/
theorem keepsVote_appendEntries (s : Locked) (req : AppendEntriesRequest) (f : SaveFaults) :
    KeepsVote (s.observeRequest req.term f.observe).1 (s.appendEntries req f).1 := by
  unfold Locked.appendEntries
  split
  · rename_i r err heq
    rw [heq]
    exact .refl _
  · rename_i r heq
    rw [heq]
    exact Locked.keepsVote_acceptEntries _ _

theorem keepsVote_handleAppendEntriesReply (s : Locked) (T : Nat) (out : OutgoingAppendEntries)
    (reply : AppendEntriesReply) (fails : Bool) :
    ∃ T', KeepsVote (s.observeRequest T' fails).1
      (s.handleAppendEntriesReply T out reply fails).1 := by
  have hzero : (s.observeRequest 0 fails).1 = s := by simp [Locked.observeRequest]
  unfold Locked.handleAppendEntriesReply
  split
  · exact ⟨0, by rw [hzero]; exact .refl _⟩
  · by_cases hlt : s.node.currentTerm < reply.term
    · refine ⟨reply.term, ?_⟩
      simp only [Locked.handleAppendEntriesReplyLocked, Locked.observeRequest, hlt, if_true]
      exact .refl _
    · exact ⟨0, by rw [hzero]; exact Locked.keepsVote_handleAppendEntriesReplyLocked _ _ _ _ _ _ hlt⟩

/-- Replacing a process by one with the same node and data directory. -/
theorem same_setHost (s : Cluster) {p : String} {h : Host} (hn : h.node = (s.hosts p).node)
    (hd : h.disk = (s.hosts p).disk) (q : String) :
    ((s.setHost p h).hosts q).node = (s.hosts q).node ∧
      ((s.setHost p h).hosts q).disk = (s.hosts q).disk := by
  by_cases hq : q = p
  · subst hq
    simp [Cluster.setHost, hn, hd]
  · simp [Cluster.setHost, hq]

theorem same_of_hosts_eq {s s' : Cluster} (h : s'.hosts = s.hosts) (q : String) :
    (s'.hosts q).node = (s.hosts q).node ∧ (s'.hosts q).disk = (s.hosts q).disk := by
  rw [h]
  exact ⟨rfl, rfl⟩

/-- Replacing one election among those under way. -/
theorem elections_set {c : Config} {s : Cluster} {call' : ElectionCall} {k : Nat}
    (h : ∀ call ∈ s.elections, ElectionCounts c S call) (h' : ElectionCounts c S call') :
    ∀ call ∈ (s.setElection k call').elections, ElectionCounts c S call := by
  intro call hmem
  rcases List.mem_or_eq_of_mem_set hmem with hold | rfl
  · exact h call hold
  · exact h'

/-- A vote is answered: what the reply grants has been saved. -/
theorem ElectionCounts.answer {c : Config} {call : ElectionCall} {peer : String}
    {reply : Except RaftError RequestVoteReply} (h : ElectionCounts c S call)
    (hp : peer ∈ c.addrs) (hsent : call.election.calls peer = .sent)
    (hrep : ∀ r, reply = .ok r → r.voteGranted = true →
      (peer, call.election.req.term, call.election.req.candidateId) ∈ S) :
    ElectionCounts c S { call with
      election := { call.election with
        calls := Function.update call.election.calls peer (replyPhase reply) } } where
  member := h.member
  candidateId := h.candidateId
  quorum := h.quorum
  pos := h.pos
  self := h.self
  counted := by
    obtain ⟨V, hnd, hlen, hV⟩ := h.counted
    refine ⟨V, hnd, hlen, fun q hq => ⟨(hV q hq).1, (hV q hq).2.1, ?_⟩⟩
    have hne : q ≠ peer := by
      rintro rfl
      rw [(hV q hq).2.2] at hsent
      exact absurd hsent (by simp)
    simpa [hne] using (hV q hq).2.2
  granted := by
    intro q r hans hg
    by_cases hq : q = peer
    · subst hq
      simp only [Function.update_self] at hans
      cases reply with
      | error err => exact absurd hans (by simp [replyPhase])
      | ok r' =>
          simp only [replyPhase, CallPhase.answered.injEq] at hans
          subst hans
          have := hrep r' rfl hg
          rw [h.candidateId] at this
          exact ⟨hp, this⟩
    · simp only [ne_eq, hq, not_false_eq_true, Function.update_of_ne] at hans
      exact h.granted q r hans hg

/-- A reply is counted, at most once and only if it grants the vote. -/
theorem ElectionCounts.count {c : Config} {call : ElectionCall} {peer : String}
    {reply : RequestVoteReply} {votes : Nat} (h : ElectionCounts c S call)
    (hans : call.election.calls peer = .answered reply)
    (hvotes : votes = call.election.votes ∨
      reply.voteGranted = true ∧ votes = call.election.votes + 1) :
    ElectionCounts c S { call with
      election := { call.election with
        votes := votes
        calls := Function.update call.election.calls peer .finished } } where
  member := h.member
  candidateId := h.candidateId
  quorum := h.quorum
  pos := by
    have := h.pos
    dsimp only
    omega
  self := h.self
  counted := by
    obtain ⟨V, hnd, hlen, hV⟩ := h.counted
    have hfin : ∀ q, call.election.calls q = .finished →
        Function.update call.election.calls peer .finished q = .finished := by
      intro q hq
      by_cases hqp : q = peer
      · subst hqp; simp
      · simpa [hqp] using hq
    rcases hvotes with rfl | ⟨hg, rfl⟩
    · exact ⟨V, hnd, hlen, fun q hq => ⟨(hV q hq).1, (hV q hq).2.1, hfin q (hV q hq).2.2⟩⟩
    · obtain ⟨hp, hin⟩ := h.granted peer reply hans hg
      have hnew : peer ∉ V := by
        intro hmem
        rw [(hV peer hmem).2.2] at hans
        exact absurd hans (by simp)
      refine ⟨peer :: V, List.nodup_cons.2 ⟨hnew, hnd⟩, by simp [hlen], ?_⟩
      intro q hq
      rcases List.mem_cons.1 hq with rfl | hq
      · exact ⟨hp, hin, by simp⟩
      · exact ⟨(hV q hq).1, (hV q hq).2.1, hfin q (hV q hq).2.2⟩
  granted := by
    intro q r hans' hg
    by_cases hq : q = peer
    · subst hq
      simp at hans'
    · simp only [ne_eq, hq, not_false_eq_true, Function.update_of_ne] at hans'
      exact h.granted q r hans' hg

/-- Every critical section adds to the saved votes, if it adds anything. -/
theorem VoteInv.effect {c : Config} {s : Cluster} {op : Op} {o : Outcome} (h : VoteInv c S s)
    (he : Effect c s op o) : ∃ S', SectionVotes c S s o S' := by
  have hzero : ∀ n : Node, (n.lock.observeRequest 0 false).1 = n.lock := fun n => by
    simp [Locked.observeRequest]
  cases he with
  | startElection p fails hp =>
      obtain ⟨hid, hpeers⟩ := h.identity p hp
      obtain ⟨S', htr, hstay, hel⟩ := (Tracked.lock (h.nodes p hp)).startElection fails
        (by rw [Node.lock, hid]; exact c.ids_ne p hp)
      refine ⟨S', h.section_of_stays hp (fun _ => ⟨rfl, rfl⟩) htr hstay ?_⟩
      intro call hcall
      rcases List.mem_append.1 hcall with hold | hnew
      · exact (h.elections call hold).mono htr.grows
      · rw [Option.mem_toList, Option.map_eq_some_iff] at hnew
        obtain ⟨e, he, rfl⟩ := hnew
        obtain ⟨hself, hcand, hquorum, hvotes, hcalls, hfin⟩ := hel e he
        simp only [Node.lock] at hself hcand hquorum hfin
        rw [hid] at hself hcand
        rw [hpeers] at hquorum hfin
        refine ⟨hp, hcand, by rw [hquorum, length_peersOf hp], by dsimp only; omega, hself,
          ⟨[p], List.nodup_singleton p, by simp [hvotes], ?_⟩, ?_⟩
        · intro q hq
          rw [List.mem_singleton] at hq
          subst hq
          exact ⟨hp, hself, hfin q (notMem_peersOf c q)⟩
        · intro q reply hans
          rcases hcalls q with hq | hq <;> simp [hq] at hans
  | soloElection k call hk hepoch hq =>
      have hcall := h.elections call (List.mem_of_getElem? hk)
      have htr := Tracked.lock (h.nodes _ hcall.member)
      refine ⟨S, ⟨fun _ => ⟨rfl, rfl⟩, subset_rfl, fun _ _ _ _ h => h, ?_, ?_, ?_, h.elections⟩⟩
      · intro _
        unfold Locked.soloElection
        split
        · exact htr.of_becomeLeader
        · exact htr
      · intro _
        have hid := h.identity _ hcall.member
        unfold Locked.soloElection Locked.becomeLeaderLocked
        split
        · split <;> exact hid
        · exact hid
      · intro _ hl
        unfold Locked.soloElection at hl ⊢
        split at hl
        · rename_i hcur
          rw [if_pos hcur]
          have hT : (s.hosts call.candidate).node.lock.becomeLeaderLocked.node.currentTerm =
              call.election.req.term := by
            rw [← hcur.2]
            unfold Locked.becomeLeaderLocked
            split <;> rfl
          rw [hT]
          exact ⟨hcall.won (hq.trans hcall.pos), hcall.self⟩
        · rename_i hcur
          rw [if_neg hcur]
          exact ⟨h.leaders _ hcall.member hl, h.own _ hcall.member hl⟩
  | requestVote k call peer f hk hp hsent =>
      have hcall := h.elections call (List.mem_of_getElem? hk)
      obtain ⟨S', htr, hstay, hrep⟩ := (Tracked.lock (h.nodes peer hp)).requestVote
        call.election.req f (by rw [hcall.candidateId]; exact c.ids_ne _ hcall.member)
      exact ⟨S', h.section_of_stays hp (fun _ => ⟨rfl, rfl⟩) htr hstay
        (elections_set (fun call hc => (h.elections call hc).mono htr.grows)
          ((hcall.mono htr.grows).answer hp hsent hrep))⟩
  | requestVoteReply k call peer fails reply hk hepoch hans =>
      have hcall := h.elections call (List.mem_of_getElem? hk)
      obtain ⟨htr, hlead⟩ := (Tracked.lock
        (h.nodes _ hcall.member)).handleRequestVoteReply call.election reply fails
      have hcount := hcall.count hans (Locked.votes_handleRequestVoteReply
        (s.hosts call.candidate).node.lock call.election reply fails)
      have hel := elections_set (k := k) h.elections hcount
      rcases hlead with hstay | ⟨hT, hid, hpeers, hq⟩
      · exact ⟨S, h.section_of_stays hcall.member (fun _ => ⟨rfl, rfl⟩) htr hstay hel⟩
      · obtain ⟨hid', hpeers'⟩ := h.identity _ hcall.member
        refine ⟨S, ⟨fun _ => ⟨rfl, rfl⟩, subset_rfl, fun _ _ _ _ h => h, fun _ => htr,
          fun _ => ⟨hid.trans hid', hpeers.trans hpeers'⟩, fun _ _ => ?_, hel⟩⟩
        dsimp only
        rw [hT]
        exact ⟨hcount.won hq, hcount.self⟩
  | broadcast op p read s' hp hrole hs' =>
      exact ⟨S, h.section_of_keepsVote (same_of_hosts_eq hs'.hosts) 0 false
        (by rw [hzero]; exact .refl _) hs'.elections⟩
  | appendEntries k b out peer f hk hout hpeer hp hsent =>
      exact ⟨S, h.section_of_keepsVote (fun _ => ⟨rfl, rfl⟩) out.req.term f.observe
        (keepsVote_appendEntries _ _ _) rfl⟩
  | appendEntriesReply k b out peer fails reply s' hk hout hfind hpeer hepoch hans hs' =>
      obtain ⟨T, hkeep⟩ := keepsVote_handleAppendEntriesReply
        (s.hosts b.leader).node.lock b.term out reply fails
      exact ⟨S, h.section_of_keepsVote (same_of_hosts_eq hs'.hosts) T fails hkeep hs'.elections⟩
  | propose p command hp =>
      exact ⟨S, h.section_of_keepsVote (fun _ => ⟨rfl, rfl⟩) 0 false
        (by rw [hzero]; exact Locked.keepsVote_propose _ _) rfl⟩
  | proposeSync p command hp s' hs' =>
      exact ⟨S, h.section_of_keepsVote (same_of_hosts_eq hs'.hosts) 0 false
        (by rw [hzero]; exact Locked.keepsVote_proposeSync _ _ _) hs'.elections⟩
  | idle op p r s' hr hs' =>
      exact ⟨S, h.section_of_keepsVote (same_of_hosts_eq hs'.hosts) 0 false
        (by rw [hzero]; exact keepsVote_idle hr) hs'.elections⟩
  | confirmCompaction p req hp =>
      exact ⟨S, h.section_of_keepsVote (fun _ => ⟨rfl, rfl⟩) 0 false
        (by rw [hzero]; exact Locked.keepsVote_confirmCompaction _ _) rfl⟩
  | pollWait op p ph hp hop hfrom hph hpos hph' =>
      exact ⟨S, h.section_of_keepsVote (same_setHost s rfl rfl) 0 false
        (by rw [hzero]; exact .refl _) rfl⟩
  | pollWriteFile p file hp hpoll =>
      exact ⟨S, h.section_of_keepsVote (same_setHost s rfl rfl) 0 false
        (by rw [hzero]; exact .write_one _ (.writeFile file) trivial) rfl⟩
  | pollRewriteLog p file hp hpoll =>
      exact ⟨S, h.section_of_keepsVote (same_setHost s rfl rfl) 0 false
        (by rw [hzero]; exact .write_one _ (.rewriteLog [file.anchor]) trivial) rfl⟩
  | pollRestore p file hp hpoll =>
      exact ⟨S, h.section_of_keepsVote (same_setHost s rfl rfl) 0 false
        (by rw [hzero]; exact .refl _) rfl⟩
  | pollAdopt p file hp hpoll =>
      exact ⟨S, h.section_of_keepsVote (same_setHost s rfl rfl) 0 false
        (by rw [hzero]; exact Locked.keepsVote_adoptSnapshot _ _) rfl⟩
  | pollCompact p file hp hpoll =>
      exact ⟨S, h.section_of_keepsVote (same_setHost s rfl rfl) 0 false
        (by rw [hzero]; exact Locked.keepsVote_pollCompact _ _) rfl⟩

/-- A finished critical section. -/
theorem VoteInv.finish {c : Config} {s : Cluster} {o : Outcome} (h : VoteInv c S s)
    (hs : SectionVotes c S s o S') : VoteInv c S' (o.around.finish c o.host o.result) := by
  have hother : ∀ q, q ≠ o.host → ((o.around.finish c o.host o.result).hosts q) =
      o.around.hosts q := fun q hq => Cluster.hosts_finish_of_ne _ _ _ _ hq
  have hnode := Cluster.node_finish o.around c o.host o.result
  have hdisk : ((o.around.finish c o.host o.result).hosts o.host).disk =
      (s.hosts o.host).disk.applyAll o.result.writes := by
    rw [Cluster.hosts_finish, (hs.same o.host).2]
  refine ⟨?_, ?_, ?_, ?_, hs.elections⟩
  · intro q hq
    by_cases hqp : q = o.host
    · subst hqp
      rw [hnode]
      exact hs.identity hq
    · rw [hother q hqp, (hs.same q).1]
      exact h.identity q hq
  · intro q hq
    by_cases hqp : q = o.host
    · subst hqp
      rw [hnode, hdisk]
      exact (hs.tracked hq).node
    · rw [hother q hqp, (hs.same q).1, (hs.same q).2]
      exact (h.nodes q hq).of_same fun T v => ⟨hs.others q T v hqp, fun hv => hs.grows hv⟩
  · intro q hq hl
    by_cases hqp : q = o.host
    · subst hqp
      rw [hnode] at hl ⊢
      exact (hs.leader hq hl).1
    · rw [hother q hqp, (hs.same q).1] at hl ⊢
      exact (h.leaders q hq hl).mono hs.grows
  · intro q hq hl
    by_cases hqp : q = o.host
    · subst hqp
      rw [hnode] at hl ⊢
      exact (hs.leader hq hl).2
    · rw [hother q hqp, (hs.same q).1] at hl ⊢
      exact hs.grows (h.own q hq hl)

/-- A restart falls back to what was saved. -/
theorem VoteInv.restart {c : Config} {s : Cluster} (h : VoteInv c S s) {p : String}
    {ws : List DiskWrite} (hS : S ⊆ S')
    (hothers : ∀ q T v, q ≠ p → (q, T, v) ∈ S' → (q, T, v) ∈ S)
    (hd : p ∈ c.addrs → SavedVotes S' p ((s.hosts p).disk.applyAll ws)) :
    VoteInv c S' (s.restart c p ws) := by
  have hother : ∀ q, q ≠ p → (s.restart c p ws).hosts q = s.hosts q := fun q hq =>
    Cluster.hosts_restart_of_ne s c p ws hq
  have hself := Cluster.hosts_restart s c p ws
  refine ⟨?_, ?_, ?_, ?_, fun call hcall => (h.elections call hcall).mono hS⟩
  · intro q hq
    by_cases hqp : q = p
    · subst hqp
      rw [hself]
      exact ⟨rfl, rfl⟩
    · rw [hother q hqp]
      exact h.identity q hq
  · intro q hq
    by_cases hqp : q = p
    · subst hqp
      rw [hself]
      exact ⟨hd hq, le_refl _, fun _ _ => rfl⟩
    · rw [hother q hqp]
      exact (h.nodes q hq).of_same fun T v => ⟨hothers q T v hqp, fun hv => hS hv⟩
  · intro q hq hl
    by_cases hqp : q = p
    · subst hqp
      rw [hself] at hl
      exact absurd hl (by simp [Config.boot, Config.newNode, newNode])
    · rw [hother q hqp] at hl ⊢
      exact (h.leaders q hq hl).mono hS
  · intro q hq hl
    by_cases hqp : q = p
    · subst hqp
      rw [hself] at hl
      exact absurd hl (by simp [Config.boot, Config.newNode, newNode])
    · rw [hother q hqp] at hl ⊢
      exact hS (h.own q hq hl)

/-- **Every step keeps the invariant**, and saved votes stay saved. -/
theorem VoteInv.step {c : Config} {s s' : Cluster} {a : Action} (h : VoteInv c S s)
    (hs : step c s a = some s') : ∃ S', S ⊆ S' ∧ VoteInv c S' s' := by
  cases stepView hs with
  | run op o ho =>
      obtain ⟨S', hS'⟩ := h.effect (exec_effect ho)
      exact ⟨S', hS'.grows, h.finish hS'⟩
  | crash p hp =>
      exact ⟨S, subset_rfl, h.restart subset_rfl (fun _ _ _ _ h => h)
        fun _ => (h.nodes p hp).disk⟩
  | crashDuring op o k ho =>
      obtain ⟨S₁, hS₁⟩ := h.effect (exec_effect ho)
      by_cases hp : o.host ∈ c.addrs
      · obtain ⟨S', hS, hS', hd⟩ := (hS₁.tracked hp).crash k
        exact ⟨S', hS, h.restart hS (fun q T v hq hv => hS₁.others q T v hq (hS' hv)) fun _ => hd⟩
      · exact ⟨S, subset_rfl, h.restart subset_rfl (fun _ _ _ _ h => h)
          fun h' => absurd h' hp⟩
  | publish file => exact ⟨S, subset_rfl, ⟨h.identity, h.nodes, h.leaders, h.own, h.elections⟩⟩

theorem VoteInv.run {c : Config} {s s' : Cluster} {as : List Action} (h : VoteInv c S s)
    (hr : run c s as = some s') : ∃ S', S ⊆ S' ∧ VoteInv c S' s' := by
  induction as generalizing s S with
  | nil =>
      simp only [B5KvStore.run, Option.some.injEq] at hr
      subst hr
      exact ⟨S, subset_rfl, h⟩
  | cons a as ih =>
      simp only [B5KvStore.run, Option.bind_eq_some_iff] at hr
      obtain ⟨s₁, hs₁, hr⟩ := hr
      obtain ⟨S₁, hS₁, h₁⟩ := h.step hs₁
      obtain ⟨S', hS', h'⟩ := ih h₁ hr
      exact ⟨S', hS₁.trans hS', h'⟩

/-- Two majorities of saved votes in one term are for one candidate. -/
theorem VoteInv.won_unique {c : Config} {s : Cluster} (h : VoteInv c S s) {p q : String} {T : Nat}
    (hp : p ∈ c.addrs) (hq : q ∈ c.addrs) (hwp : Won c S p T) (hwq : Won c S q T) : p = q := by
  obtain ⟨W, hW, hcard, hvp⟩ := hwp
  obtain ⟨W', hW', hcard', hvq⟩ := hwq
  obtain ⟨w, hw⟩ := Finset.inter_nonempty_of_card_lt_card_add_card hW hW' (by omega)
  rw [Finset.mem_inter] at hw
  have hmem : w ∈ c.addrs := List.mem_toFinset.1 (hW hw.1)
  exact c.ids_inj p hp q hq
    ((h.nodes w hmem).disk.unique T _ _ (hvp w hw.1) (hvq w hw.2))

/-- **Election safety.**  Whatever crashes and whichever `SaveState` calls fail,
no two nodes are ever leaders of one term, at the same time or at different
times of a run. -/
theorem election_safety (c : Config) (as bs : List Action) (s₁ s₂ : Cluster) (p q : String)
    (h₁ : run c c.init as = some s₁) (h₂ : run c s₁ bs = some s₂) (hp : p ∈ c.addrs)
    (hq : q ∈ c.addrs) (hlp : (s₁.hosts p).node.role = .leader)
    (hlq : (s₂.hosts q).node.role = .leader)
    (hT : (s₁.hosts p).node.currentTerm = (s₂.hosts q).node.currentTerm) : p = q := by
  obtain ⟨S₁, -, hinv₁⟩ := (VoteInv.init c).run h₁
  obtain ⟨S₂, hS, hinv₂⟩ := hinv₁.run h₂
  have hwp := (hinv₁.leaders p hp hlp).mono hS
  rw [hT] at hwp
  exact hinv₂.won_unique hp hq hwp (hinv₂.leaders q hq hlq)

/-- Node `a` leads term 1 and goes on to do so while `c`, which has crashed and knows of nothing,
elects `b` in term 2: in term 1 there is no other leader. -/
theorem election_safety_trio : ∃ s₁ s₂,
    run trio trio.init (winElection "a" "b" 0) = some s₁ ∧
    run trio s₁ (.crash "c" :: winElection "b" "c" 1) = some s₂ ∧
    (s₁.hosts "a").node.role = .leader ∧ (s₁.hosts "a").node.currentTerm = 1 ∧
    (s₂.hosts "a").node.role = .leader ∧ (s₂.hosts "a").node.currentTerm = 1 ∧
    (s₂.hosts "b").node.role = .leader ∧ (s₂.hosts "b").node.currentTerm = 2 ∧
    ∀ q ∈ trio.addrs, (s₂.hosts q).node.role = .leader → (s₂.hosts q).node.currentTerm = 1 →
      "a" = q := by
  obtain ⟨s₁, h₁, ⟨hrole₁, hterm₁⟩, hnext⟩ := exists_of_run (fun s₁ : Cluster =>
    ((s₁.hosts "a").node.role = .leader ∧ (s₁.hosts "a").node.currentTerm = 1) ∧
      (run trio s₁ (.crash "c" :: winElection "b" "c" 1)).any (fun s₂ => decide
        ((s₂.hosts "a").node.role = .leader ∧ (s₂.hosts "a").node.currentTerm = 1 ∧
          (s₂.hosts "b").node.role = .leader ∧ (s₂.hosts "b").node.currentTerm = 2)) = true)
    (show (run trio trio.init (winElection "a" "b" 0)).any _ = true by decide +kernel)
  obtain ⟨s₂, h₂, hrole₂, hterm₂, hb⟩ := exists_of_run _ hnext
  exact ⟨s₁, s₂, h₁, h₂, hrole₁, hterm₁, hrole₂, hterm₂, hb.1, hb.2, fun q hq hrole hterm =>
    election_safety trio _ _ s₁ s₂ "a" q h₁ h₂ (by decide) hq hrole₁ hrole
      (hterm₁.trans hterm.symm)⟩

end B5KvStore
