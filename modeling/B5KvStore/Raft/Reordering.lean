import B5KvStore.Raft.Frame
import B5KvStore.Raft.Specs

/-!
# Requests of one term, in any order

Every round of a leader sends its requests from goroutines of their own, so a follower
sees them in any order, more than once, or not at all.  Whatever arrives, the follower
keeps what it has acknowledged.  Neither log has been compacted: both have the offset `0`.

* `BuiltBy`, `Node.FollowsIn` — a leader's requests, and a follower that may get them.
* `Locked.mergeEntriesLocked_uncompacted` — what merging makes of the log.
* `Node.receive_cases` — one delivery.
* `appendEntries_any_order` — any number of them.
-/

namespace B5KvStore

variable {T : Nat} {L G : List LogEntry} {n : Node} {s : Locked} {req : AppendEntriesRequest}

/-- A request the leader of term `T` has built for some peer, with whatever `nextIndex` it
had, out of a log that has grown to `L` since. -/
def BuiltBy (T : Nat) (L : List LogEntry) (req : AppendEntriesRequest) : Prop :=
  ∃ (l : Node) (peer : String), l.role = .leader ∧ l.currentTerm = T ∧ l.logOffset = 0 ∧
    l.log <+: L ∧ l.commitIndex ≤ l.lastLogIndexLocked ∧
    req = (l.buildAppendEntriesRequest peer).req

/-- A follower in term `T` whose log and the log `L` match: where two entries have the same
term, the logs agree up to there.  Terms start at one. -/
structure Node.FollowsIn (T : Nat) (L : List LogEntry) (n : Node) : Prop where
  term : n.currentTerm = T
  role : n.role = .follower
  offset : n.logOffset = 0
  agree : AgreeOnTerms n.log L
  pos : ∀ e ∈ n.log, 0 < e.term

/-- A request is delivered: what the follower does, and its reply. -/
def Node.receive (n : Node) (req : AppendEntriesRequest) :
    Locked × Except RaftError AppendEntriesReply :=
  n.lock.appendEntries req noFaults

/-- The reply reports success. -/
def Node.accepts (n : Node) (req : AppendEntriesRequest) : Bool :=
  match (n.receive req).2 with
  | .ok reply => reply.success
  | .error _ => false

/-- Requests are delivered one after the other. -/
def Node.deliver (n : Node) : List AppendEntriesRequest → Node
  | [] => n
  | req :: reqs => (n.receive req).1.node.deliver reqs

/-- How far the accepted ones among the requests reach. -/
def Node.reached (n : Node) : List AppendEntriesRequest → Nat
  | [] => 0
  | req :: reqs => max (if n.accepts req then req.prevLogIndex + req.entries.length else 0)
      ((n.receive req).1.node.reached reqs)

/-! ## Merging -/

/-- Past the consistency check the request starts where both logs agree. -/
theorem Node.agree_of_checkPrev_uncompacted (hoff : n.logOffset = 0)
    (hagree : AgreeOnTerms n.log G) (hpos : ∀ e ∈ n.log, 0 < e.term) (hsent : SentFrom G req)
    (hcheck : n.checkPrev req = none) :
    req.prevLogIndex ≤ n.log.length ∧ req.prevLogIndex ≤ G.length ∧
      req.entries = G.drop req.prevLogIndex ∧
      n.log.take req.prevLogIndex = G.take req.prevLogIndex := by
  have hview : LogView n.log n.logOffset n.log := by rw [hoff]; exact .full _
  rcases Node.agree_of_checkPrev hview hagree
    (fun i e he => hpos e (List.mem_of_getElem? he)) hsent hcheck with h0 | ⟨-, hF, hG, hent, htake⟩
  · have hprev : req.prevLogIndex = 0 := by omega
    rcases hsent with ⟨-, hent, -⟩ | ⟨hlt, -⟩ | ⟨hlt, -⟩
    · exact ⟨by omega, by omega, hent, by rw [hprev]; rfl⟩
    · omega
    · omega
  · exact ⟨hF, hG, hent, htake⟩

/-- **Merging** leaves a log alone that holds all the leader's log held, and makes it the
leader's otherwise. -/
theorem Locked.mergeEntriesLocked_uncompacted (hoff : s.node.logOffset = 0)
    (hagree : AgreeOnTerms s.node.log G) (hpos : ∀ e ∈ s.node.log, 0 < e.term)
    (hsent : SentFrom G req) (hcheck : s.node.checkPrev req = none) :
    G <+: s.node.log ∧ s.mergeEntriesLocked req.prevLogIndex req.entries = s ∨
      ¬ G <+: s.node.log ∧ ∃ ws, s.mergeEntriesLocked req.prevLogIndex req.entries =
        ⟨{ s.node with log := G }, ws, s.events⟩ := by
  obtain ⟨hF, hG, hent, htake⟩ :=
    s.node.agree_of_checkPrev_uncompacted hoff hagree hpos hsent hcheck
  have hskip : skipCompacted s.node.logOffset (req.prevLogIndex + 1) req.entries =
      (req.prevLogIndex + 1, req.entries) := by
    rw [hoff]
    cases req.entries with
    | nil => rfl
    | cons e es =>
        unfold skipCompacted
        rw [if_neg (by omega)]
  have hmatch : Matches G s.node.logOffset (req.prevLogIndex + 1) req.entries :=
    hsent.matches (Or.inl ⟨hG, hent⟩)
  have hres := Locked.mergeLoop_spec (by rw [hoff]; exact .full _) hagree (Or.inl hoff) hmatch
    (Nat.succ_pos _) (Or.inr (by omega)) hF htake
  have hlen : req.prevLogIndex + 1 - 1 + req.entries.length = G.length := by
    rw [hent, List.length_drop]
    omega
  rw [hlen] at hres
  unfold Locked.mergeEntriesLocked
  rw [hskip]
  dsimp only
  generalize s.mergeLoop (req.prevLogIndex + 1) req.entries = r at hres ⊢
  cases hres with
  | covered hle heq =>
      rw [List.take_length] at heq
      exact Or.inl ⟨List.prefix_iff_eq_take.2 heq.symm, by rw [if_pos rfl]⟩
  | extend hlt heq =>
      have hne : G.drop s.node.log.length ≠ [] := by
        rw [ne_eq, List.drop_eq_nil_iff]
        omega
      refine Or.inr ⟨fun hpre => ?_, (s.appendLog (G.drop s.node.log.length)).writes, ?_⟩
      · have := hpre.length_le
        omega
      · rw [if_neg hne]
        have hlog : s.node.log ++ G.drop s.node.log.length = G := by
          conv_rhs => rw [← List.take_append_drop s.node.log.length G]
          rw [← heq]
        simp only [Locked.appendLog, Locked.modify, Locked.write, hlog]
  | conflict idx hidx hoff' hF' hL' heq hne =>
      have hne' : G.drop (idx - 1) ≠ [] := by
        rw [ne_eq, List.drop_eq_nil_iff]
        omega
      refine Or.inr ⟨fun hpre => hne ?_, s.writes ++ [.truncateLogFrom idx] ++
        appendLogEntries (G.drop (idx - 1)), ?_⟩
      · exact ReplicatedLog.take_eq_of_isPrefix hpre hL'
      · rw [if_neg hne']
        have hlog : s.node.log.take (idx - s.node.logOffset - 1) ++ G.drop (idx - 1) = G := by
          rw [hoff, Nat.sub_zero, heq, List.take_append_drop]
        simp only [Locked.appendLog, Locked.modify, Locked.write, hlog]

/-- Following a commit index within the log. -/
theorem Locked.followCommit_of_le {C : Nat} (hC : C ≤ s.node.lastLogIndexLocked) :
    C ≤ (s.followCommit C).node.commitIndex ∧
      s.node.commitIndex ≤ (s.followCommit C).node.commitIndex ∧
      ∃ ci k w wake es, s.followCommit C =
        ⟨{ s.node with commitIndex := ci, lastApplied := k, waiters := w, applyWake := wake },
          s.writes, s.events ++ es⟩ := by
  unfold Locked.followCommit
  split
  · rename_i hlt
    have hmin : min64 C s.node.lastLogIndexLocked = C := by
      unfold min64
      split <;> omega
    obtain ⟨k, w, wake, es, heq, -⟩ := (s.modify fun n =>
      { n with commitIndex := min64 C n.lastLogIndexLocked }).applyCommittedLocked_frame
    rw [heq]
    simp only [Locked.node_modify, hmin]
    exact ⟨le_refl _, hlt.le, _, _, _, _, _, rfl⟩
  · rename_i hge
    exact ⟨by omega, le_refl _, s.node.commitIndex, s.node.lastApplied, s.node.waiters,
      s.node.applyWake, [], by rw [List.append_nil]⟩

/-! ## One delivery -/

/-- The follower remembers who the leader is. -/
def Node.heardFrom (n : Node) (req : AppendEntriesRequest) : Node :=
  { n with currentLeader := req.leaderId }

theorem Locked.setRoleLocked_follower (h : s.node.role = .follower) :
    s.setRoleLocked .follower = s := by
  unfold Locked.setRoleLocked
  rw [if_neg (by simp [h])]
  obtain ⟨node, writes, events⟩ := s
  cases node
  dsimp only at h
  subst h
  rfl

/-- The node follows the sender of a request that is not of an earlier term, and then checks
where the request starts. -/
theorem Locked.acceptEntries_eq (h : s.node.currentTerm ≤ req.term) :
    s.acceptEntries req =
      match ((s.setRoleLocked .follower).modify fun n =>
          { n with currentLeader := req.leaderId }).node.checkPrev req with
      | some rejection => ((s.setRoleLocked .follower).modify fun n =>
          { n with currentLeader := req.leaderId }, rejection)
      | none => ((((s.setRoleLocked .follower).modify fun n =>
            { n with currentLeader := req.leaderId }).mergeEntriesLocked req.prevLogIndex
              req.entries).followCommit req.leaderCommit,
          { term := s.node.currentTerm, success := true }) := by
  obtain ⟨w, es, hrole, -⟩ := s.setRoleLocked_spec .follower
  unfold Locked.acceptEntries
  rw [if_neg (by omega)]
  dsimp only
  cases hcheck : Node.checkPrev _ req with
  | some rejection => rfl
  | none =>
      dsimp only
      rw [Locked.ite_mergeEntriesLocked]
      obtain ⟨log, ws, heq⟩ := ((s.setRoleLocked .follower).modify fun n =>
        { n with currentLeader := req.leaderId }).mergeEntriesLocked_frame req.prevLogIndex
          req.entries
      rw [heq, hrole]
      rfl

/-- What a follower does with a request of its term. -/
theorem Node.receive_eq (hrole : n.role = .follower) (hT : req.term = n.currentTerm) :
    n.receive req = match (n.heardFrom req).checkPrev req with
      | some rejection => ((n.heardFrom req).lock, .ok rejection)
      | none => (((n.heardFrom req).lock.mergeEntriesLocked req.prevLogIndex
            req.entries).followCommit req.leaderCommit,
          .ok { term := n.currentTerm, success := true }) := by
  have hlock : ((n.lock.setRoleLocked .follower).modify fun n =>
      { n with currentLeader := req.leaderId }) = (n.heardFrom req).lock := by
    rw [Locked.setRoleLocked_follower hrole]
    rfl
  unfold Node.receive Locked.appendEntries
  rw [Locked.observeRequest_of_le _ (show req.term ≤ n.lock.node.currentTerm from hT.le)]
  dsimp only
  rw [Locked.acceptEntries_eq (show n.lock.node.currentTerm ≤ req.term from hT.ge), hlock]
  have hnode : (n.heardFrom req).lock.node = n.heardFrom req := rfl
  rw [hnode]
  cases hcheck : (n.heardFrom req).checkPrev req with
  | some rejection => rfl
  | none => rfl

/-- The consistency check looks at the log below the request only. -/
theorem Node.checkPrev_of_take_eq {n' : Node} (hoff : n.logOffset = 0) (hoff' : n'.logOffset = 0)
    (htake : n'.log.take req.prevLogIndex = n.log.take req.prevLogIndex)
    (h : n.checkPrev req = none) : n'.checkPrev req = none := by
  unfold Node.checkPrev at h ⊢
  rw [hoff] at h
  rw [hoff']
  split
  · rename_i hlt
    have hentry : n'.entryAtLocked req.prevLogIndex = n.entryAtLocked req.prevLogIndex := by
      rw [Node.entryAtLocked_eq (F := n'.log) (by rw [hoff']; exact .full _) hlt (Or.inl hoff'),
        Node.entryAtLocked_eq (F := n.log) (by rw [hoff]; exact .full _) hlt (Or.inl hoff)]
      exact ReplicatedLog.getElem?_eq_of_take_eq htake (by omega)
    rw [if_pos hlt] at h
    rw [hentry]
    -- the two checks differ in the rejections they would give
    cases he : n.entryAtLocked req.prevLogIndex with
    | none => simp [he] at h
    | some e =>
        have hterm : e.term = req.prevLogTerm := by simpa [he] using h
        simp [hterm]
  · rfl

theorem BuiltBy.sentFrom (h : BuiltBy T L req) :
    req.term = T ∧ ∃ G, G <+: L ∧ SentFrom G req ∧ req.leaderCommit ≤ G.length := by
  obtain ⟨l, peer, -, hT, hoff, hpre, hcommit, rfl⟩ := h
  have hview : LogView l.log l.logOffset l.log := by rw [hoff]; exact .full _
  refine ⟨hT, l.log, hpre, Node.sentFrom_buildAppendEntriesRequest hview peer, ?_⟩
  rw [Node.lastLogIndexLocked_eq hview] at hcommit
  exact hcommit

/-- The logs of a growing log match. -/
theorem AgreeOnTerms.of_isPrefix (h : G <+: L) : AgreeOnTerms G L := by
  intro i x y hx _ _
  have hi := (List.getElem?_eq_some_iff.1 hx).1
  exact (ReplicatedLog.take_eq_of_isPrefix h (by omega)).symm

theorem AgreeOnTerms.isPrefix {F : List LogEntry} (h : AgreeOnTerms F L) (hG : G <+: L) :
    AgreeOnTerms F G := by
  intro i x y hx hy hterm
  have hi := (List.getElem?_eq_some_iff.1 hy).1
  have hL : L[i]? = some y := by
    rw [← hy]
    exact ReplicatedLog.getElem?_eq_of_take_eq (ReplicatedLog.take_eq_of_isPrefix hG (le_refl _)) hi
  rw [h i x y hx hL hterm]
  exact ReplicatedLog.take_eq_of_isPrefix hG (by omega)

/-- A follower that holds what the request is about has nothing to do. -/
theorem Node.receive_again (h : n.FollowsIn T L) (hT : req.term = T) (hGL : G <+: L)
    (hsent : SentFrom G req) (hpre : G <+: n.log) (hleader : n.currentLeader = req.leaderId)
    (hcommit : req.leaderCommit ≤ n.commitIndex) (hcheck : n.checkPrev req = none) :
    n.receive req = (n.lock, .ok { term := n.currentTerm, success := true }) := by
  have hsame : n.heardFrom req = n := by
    unfold Node.heardFrom
    rw [← hleader]
  rw [Node.receive_eq h.role (hT.trans h.term.symm), hsame, hcheck]
  dsimp only
  rcases Locked.mergeEntriesLocked_uncompacted (s := n.lock) h.offset (h.agree.isPrefix hGL) h.pos
    hsent hcheck with ⟨-, hmerge⟩ | ⟨hnot, -⟩
  · rw [hmerge]
    unfold Locked.followCommit
    rw [if_neg (show ¬ n.lock.node.commitIndex < req.leaderCommit from Nat.not_lt.2 hcommit)]
  · exact absurd hpre hnot

/-- **One delivery**: the request is rejected, or the log holds afterwards what the leader
held, and delivering the request again changes nothing. -/
theorem Node.receive_cases (h : n.FollowsIn T L) (hL : ∀ e ∈ L, 0 < e.term)
    (hreq : BuiltBy T L req) :
    (n.receive req).1.node.FollowsIn T L ∧
    (∀ j ≤ L.length, n.log.take j = L.take j → (n.receive req).1.node.log.take j = L.take j) ∧
    n.commitIndex ≤ (n.receive req).1.node.commitIndex ∧
    (n.accepts req = true → req.prevLogIndex + req.entries.length ≤ L.length ∧
      (n.receive req).1.node.log.take (req.prevLogIndex + req.entries.length) =
        L.take (req.prevLogIndex + req.entries.length)) ∧
    (n.receive req).1.node.receive req = ((n.receive req).1.node.lock, (n.receive req).2) := by
  obtain ⟨hT, G, hGL, hsent, hcommit⟩ := hreq.sentFrom
  have hterm : req.term = n.currentTerm := hT.trans h.term.symm
  have heq := n.receive_eq h.role hterm
  have hagree : AgreeOnTerms (n.heardFrom req).log G := h.agree.isPrefix hGL
  cases hcheck : (n.heardFrom req).checkPrev req with
  | some rejection =>
      rw [hcheck] at heq
      have hagain : (n.heardFrom req).receive req = ((n.heardFrom req).lock, .ok rejection) := by
        rw [Node.receive_eq (n := n.heardFrom req) h.role hterm]
        have : (n.heardFrom req).heardFrom req = n.heardFrom req := rfl
        rw [this, hcheck]
      have hrej : n.accepts req = false := by
        unfold Node.accepts
        rw [heq]
        exact Node.success_of_checkPrev hcheck
      rw [heq]
      refine ⟨⟨h.term, h.role, h.offset, h.agree, h.pos⟩, fun _ _ hj => hj, le_refl _, ?_, hagain⟩
      rw [hrej]
      exact fun hfalse => absurd hfalse (by simp)
  | none =>
      rw [hcheck] at heq
      dsimp only at heq
      obtain ⟨hprevF, hprevG, hent, htake⟩ := (n.heardFrom req).agree_of_checkPrev_uncompacted
        h.offset hagree h.pos hsent hcheck
      have hlen : req.prevLogIndex + req.entries.length = G.length := by
        rw [hent, List.length_drop]
        omega
      -- whatever happens, the merged log extends what the leader held
      obtain ⟨log, ws, hmerge, hpre, hkeep, hpos, hagree'⟩ : ∃ log ws,
          (n.heardFrom req).lock.mergeEntriesLocked req.prevLogIndex req.entries =
            ⟨{ n.heardFrom req with log := log }, ws, []⟩ ∧ G <+: log ∧
          (∀ j ≤ L.length, n.log.take j = L.take j → log.take j = L.take j) ∧
          (∀ e ∈ log, 0 < e.term) ∧ AgreeOnTerms log L := by
        rcases Locked.mergeEntriesLocked_uncompacted (s := (n.heardFrom req).lock) h.offset hagree
          h.pos hsent hcheck with ⟨hpre, hsame⟩ | ⟨hnot, ws, hset⟩
        · exact ⟨n.log, [], hsame, hpre, fun _ _ hj => hj, h.pos, h.agree⟩
        · refine ⟨G, ws, hset, List.prefix_refl G, ?_, fun e he => hL e (hGL.subset he),
            .of_isPrefix hGL⟩
          intro j hj hjeq
          by_cases hle : j ≤ G.length
          · exact (ReplicatedLog.take_eq_of_isPrefix hGL hle).symm
          · refine absurd (List.prefix_iff_eq_take.2 ?_) hnot
            have := ReplicatedLog.take_eq_of_le hjeq (Nat.le_of_not_le hle)
            exact (List.prefix_iff_eq_take.1 hGL).trans this.symm
      rw [hmerge] at heq
      have hlast : req.leaderCommit ≤
          ({ n.heardFrom req with log := log } : Node).lastLogIndexLocked := by
        unfold Node.lastLogIndexLocked
        exact hcommit.trans (hpre.length_le.trans (Nat.le_add_left _ _))
      obtain ⟨hC, hci, ci, k, w, wake, es, hfollow⟩ := Locked.followCommit_of_le
        (s := ⟨{ n.heardFrom req with log := log }, ws, []⟩) hlast
      rw [hfollow] at heq hC hci
      have hagain : (n.receive req).1.node.receive req =
          ((n.receive req).1.node.lock, (n.receive req).2) := by
        rw [heq]
        refine Node.receive_again ⟨h.term, h.role, h.offset, hagree', hpos⟩ hT hGL hsent hpre rfl hC
          (Node.checkPrev_of_take_eq h.offset h.offset ?_ hcheck)
        rw [ReplicatedLog.take_eq_of_isPrefix hpre hprevG]
        exact htake.symm
      refine ⟨?_, ?_, ?_, ?_, hagain⟩
      · rw [heq]
        exact ⟨h.term, h.role, h.offset, hagree', hpos⟩
      · rw [heq]
        exact hkeep
      · rw [heq]
        exact hci
      · rw [heq, hlen]
        intro _
        exact ⟨hGL.length_le, (ReplicatedLog.take_eq_of_isPrefix hpre (le_refl _)).trans
          (ReplicatedLog.take_eq_of_isPrefix hGL (le_refl _)).symm⟩

/-! ## Any number of deliveries -/

theorem Node.deliver_follows (hL : ∀ e ∈ L, 0 < e.term) {reqs : List AppendEntriesRequest}
    (hreqs : ∀ req ∈ reqs, BuiltBy T L req) (h : n.FollowsIn T L) :
    (n.deliver reqs).FollowsIn T L ∧
      ∀ j ≤ L.length, n.log.take j = L.take j → (n.deliver reqs).log.take j = L.take j := by
  induction reqs generalizing n with
  | nil => exact ⟨h, fun _ _ hj => hj⟩
  | cons req reqs ih =>
      obtain ⟨h', hkeep, -⟩ := n.receive_cases h hL (hreqs req (List.mem_cons_self ..))
      obtain ⟨h'', hkeep'⟩ := ih (fun r hr => hreqs r (List.mem_cons_of_mem req hr)) h'
      exact ⟨h'', fun j hj heq => hkeep' j hj (hkeep j hj heq)⟩

theorem Node.deliver_reached (hL : ∀ e ∈ L, 0 < e.term) {reqs : List AppendEntriesRequest}
    (hreqs : ∀ req ∈ reqs, BuiltBy T L req) (h : n.FollowsIn T L) :
    n.reached reqs ≤ L.length ∧
      (n.deliver reqs).log.take (n.reached reqs) = L.take (n.reached reqs) := by
  induction reqs generalizing n with
  | nil => exact ⟨Nat.zero_le _, rfl⟩
  | cons req reqs ih =>
      obtain ⟨h', -, -, haccept, -⟩ := n.receive_cases h hL (hreqs req (List.mem_cons_self ..))
      have hreqs' : ∀ r ∈ reqs, BuiltBy T L r := fun r hr => hreqs r (List.mem_cons_of_mem req hr)
      obtain ⟨hle, heq⟩ := ih hreqs' h'
      unfold Node.reached Node.deliver
      by_cases hacc : n.accepts req = true
      · obtain ⟨hle', heq'⟩ := haccept hacc
        rw [if_pos hacc]
        refine ⟨max_le hle' hle, ?_⟩
        rcases max_choice (req.prevLogIndex + req.entries.length)
          ((n.receive req).1.node.reached reqs) with hmax | hmax
        · rw [hmax]
          exact (Node.deliver_follows hL hreqs' h').2 _ hle' heq'
        · rw [hmax]
          exact heq
      · rw [if_neg hacc, Nat.zero_max]
        exact ⟨hle, heq⟩

/-- **Order and repetition do not matter.**  A follower gets requests of its term's leader
in any order, any of them, any number of times.  Afterwards its log agrees with the
leader's as far as any accepted request reached; and one more delivery loses nothing the
two logs share, does not lower the commit index, and changes nothing the second time. -/
theorem appendEntries_any_order (T : Nat) (L : List LogEntry) (n : Node)
    (reqs : List AppendEntriesRequest) (hL : ∀ e ∈ L, 0 < e.term) (hn : n.FollowsIn T L)
    (hreqs : ∀ req ∈ reqs, BuiltBy T L req) :
    (n.reached reqs ≤ L.length ∧
      (n.deliver reqs).log.take (n.reached reqs) = L.take (n.reached reqs)) ∧
    ∀ req, BuiltBy T L req →
      (∀ j ≤ L.length, (n.deliver reqs).log.take j = L.take j →
        ((n.deliver reqs).receive req).1.node.log.take j = L.take j) ∧
      (n.deliver reqs).commitIndex ≤ ((n.deliver reqs).receive req).1.node.commitIndex ∧
      ((n.deliver reqs).receive req).1.node.receive req =
        (((n.deliver reqs).receive req).1.node.lock, ((n.deliver reqs).receive req).2) := by
  refine ⟨Node.deliver_reached hL hreqs hn, fun req hreq => ?_⟩
  obtain ⟨-, hkeep, hcommit, -, hagain⟩ :=
    (n.deliver reqs).receive_cases (Node.deliver_follows hL hreqs hn).1 hL hreq
  exact ⟨hkeep, hcommit, hagain⟩

/-- The leader `a` of term 1 with the first `k` of two entries, to send from the start. -/
def pairSender (k : Nat) : Node :=
  { newNode "a" "a" ["b"] 10 Disk.empty with
    role := .leader, currentTerm := 1, log := [⟨1, 1, [7]⟩, ⟨1, 2, [8]⟩].take k
    nextIndex := (∅ : IndexMap).insert "b" 1 }

/-- The follower `b`, with an empty log. -/
def pairReceiver : Node := { newNode "b" "b" ["a"] 10 Disk.empty with currentTerm := 1 }

/-- The request with both entries, and the older one with the first. -/
def pairRequests : List AppendEntriesRequest :=
  [((pairSender 2).buildAppendEntriesRequest "b").req,
    ((pairSender 1).buildAppendEntriesRequest "b").req]

/-- The older request arrives last and takes nothing away. -/
theorem appendEntries_any_order_pair : pairReceiver.reached pairRequests = 2 ∧
    (pairReceiver.deliver pairRequests).log.take 2 = [⟨1, 1, [7]⟩, ⟨1, 2, [8]⟩] := by
  have hreached : pairReceiver.reached pairRequests = 2 := by decide
  have h := (appendEntries_any_order 1 [⟨1, 1, [7]⟩, ⟨1, 2, [8]⟩] pairReceiver pairRequests
    (by decide) ⟨rfl, rfl, rfl,
      fun i x y hx => absurd hx (by simp [show pairReceiver.log = [] from rfl]),
      by simp [show pairReceiver.log = [] from rfl]⟩ (by
        intro req hreq
        rcases List.mem_cons.1 hreq with rfl | hreq
        · exact ⟨pairSender 2, "b", rfl, rfl, rfl, by decide, by decide, rfl⟩
        · obtain rfl := List.mem_singleton.1 hreq
          exact ⟨pairSender 1, "b", rfl, rfl, rfl, by decide, by decide, rfl⟩)).1.2
  rw [hreached] at h
  exact ⟨hreached, h⟩

end B5KvStore
