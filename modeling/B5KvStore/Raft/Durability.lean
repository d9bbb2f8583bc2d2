import B5KvStore.Raft.Frame
import B5KvStore.Raft.Specs

/-!
# Which replies are backed by `state.json`

`RequestVote` and `AppendEntries` record the term of a request before they go on,
and give up with an error if that fails.  The term stays in memory all the same,
so the next call of the same term finds nothing to record and answers in a term
that is on no disk.

* `HandlerCall`, `Process.serve` — calls of the two handlers, one after another.
* `HandlerCall.handle_spec` — what one call does to terms, in memory and on disk.
* `Steady` — no call is answered while the term of an earlier one is unsaved.
* `replies_durable_iff` — that is exactly when every reply is backed by the disk.
-/

namespace B5KvStore

/-- A call of one of the two handlers, and which of its `SaveState` calls fail. -/
inductive HandlerCall where
  | requestVote (req : RequestVoteRequest) (f : SaveFaults)
  | appendEntries (req : AppendEntriesRequest) (f : SaveFaults)
  deriving DecidableEq

/-- A node and its data directory. -/
structure Process where
  node : Node
  disk : Disk

namespace HandlerCall

/-- The term of the request. -/
def term : HandlerCall → Nat
  | requestVote req _ => req.term
  | appendEntries req _ => req.term

def faults : HandlerCall → SaveFaults
  | requestVote _ f => f
  | appendEntries _ f => f

/-- What the handler does, and the term its reply carries. -/
def handle (n : Node) : HandlerCall → Locked × Except RaftError Nat
  | requestVote req f =>
      let r := n.lock.requestVote req f
      (r.1, r.2.map RequestVoteReply.term)
  | appendEntries req f =>
      let r := n.lock.appendEntries req f
      (r.1, r.2.map AppendEntriesReply.term)

/-- A node that is already in the term of the call votes for its candidate. -/
def grants (n : Node) : HandlerCall → Bool
  | requestVote req _ =>
      req.term = n.currentTerm ∧ (n.votedFor = "" ∨ n.votedFor = req.candidateId) ∧
        isLogAtLeastAsUpToDate req.lastLogTerm req.lastLogIndex n.lastLogTermLocked
          n.lastLogIndexLocked
  | appendEntries _ _ => false

/-- Whether the node's term is unsaved after the call, given whether it was before. -/
def unsaved (n : Node) (c : HandlerCall) (before : Bool) : Bool :=
  if n.currentTerm < c.term then c.faults.observe
  else before && !(c.grants n && !c.faults.vote)

end HandlerCall

namespace Process

/-- The process after a call, and the term of the reply. -/
def serve (s : Process) (c : HandlerCall) : Process × Except RaftError Nat :=
  (⟨(c.handle s.node).1.node, s.disk.applyAll (c.handle s.node).1.writes⟩, (c.handle s.node).2)

/-- The replies to a sequence of calls, each with what is on disk by then. -/
def answers (s : Process) : List HandlerCall → List (Except RaftError Nat × Disk)
  | [] => []
  | c :: cs => ((s.serve c).2, (s.serve c).1.disk) :: (s.serve c).1.answers cs

end Process

/-- While the node's term is unsaved, the only calls that arrive bring a later term
or get its vote, and so save the state again. -/
def Steady (before : Bool) (s : Process) : List HandlerCall → Prop
  | [] => True
  | c :: cs => (before = true → s.node.currentTerm < c.term ∨ c.grants s.node = true) ∧
      Steady (c.unsaved s.node before) (s.serve c).1 cs

/-! ## One call -/

namespace Locked

/-- Every reply of `AppendEntries` carries the node's term. -/
theorem term_acceptEntries (s : Locked) (req : AppendEntriesRequest) :
    (s.acceptEntries req).2.term = s.node.currentTerm := by
  have hdown : ((s.setRoleLocked .follower).modify fun n =>
      { n with currentLeader := req.leaderId }).node.currentTerm = s.node.currentTerm :=
    (keepsVote_setRoleLocked_follower s).currentTerm
  unfold acceptEntries
  split
  · rfl
  · dsimp only
    split
    · rename_i rejection hrej
      unfold Node.checkPrev at hrej
      split at hrej
      · split at hrej
        · rw [Option.some.injEq] at hrej
          rw [← hrej]
          exact hdown
        · split at hrej
          · rw [Option.some.injEq] at hrej
            rw [← hrej]
            exact hdown
          · exact absurd hrej (by simp)
      · exact absurd hrej (by simp)
    · dsimp only
      split
      · exact hdown
      · exact (keepsVote_mergeEntriesLocked _ _ _).currentTerm.trans hdown

/-- What `castVote` does once the node has reached the term of the request. -/
theorem castVote_of_le (s : Locked) (req : RequestVoteRequest) (f : SaveFaults)
    (hT : req.term ≤ s.node.currentTerm) :
    s.castVote req f.vote =
      if (HandlerCall.requestVote req f).grants s.node then
        let s' := s.modify fun n => { n with votedFor := req.candidateId }
        if f.vote then (s', .error .saveState)
        else (s'.write [.saveState s.node.currentTerm req.candidateId],
          .ok ⟨s.node.currentTerm, true⟩)
      else (s, .ok ⟨s.node.currentTerm, false⟩) := by
  unfold castVote HandlerCall.grants
  by_cases hlt : req.term < s.node.currentTerm
  · rw [if_pos hlt, if_neg (by simp; omega)]
  · rw [if_neg hlt]
    have heq : req.term = s.node.currentTerm := by omega
    simp only [heq, true_and, decide_eq_true_eq]
    split
    · unfold persistStateLocked
      by_cases hv : f.vote = true <;> simp [hv]
    · rfl

end Locked

namespace HandlerCall

variable (n : Node) (c : HandlerCall)

/-- What a call does to the node's term, to `state.json` and to the caller. -/
inductive Handled : Locked × Except RaftError Nat → Prop
  /-- A later term could not be saved. -/
  | refused (r : Locked) (hT : n.currentTerm < c.term) (hf : c.faults.observe = true)
      (hterm : r.node.currentTerm = c.term) (hw : r.writes = []) : Handled (r, .error .saveState)
  /-- A later term was saved, and the handler went on. -/
  | raised (r : Locked) (reply : Except RaftError Nat) (hT : n.currentTerm < c.term)
      (hf : c.faults.observe = false) (hterm : r.node.currentTerm = c.term)
      (hdisk : ∀ d : Disk, (d.applyAll r.writes).loadState.1 = c.term)
      (hreply : ∀ T, reply = .ok T → T = c.term) : Handled (r, reply)
  /-- The vote was given in the node's own term. -/
  | voted (r : Locked) (reply : Except RaftError Nat) (hT : c.term ≤ n.currentTerm)
      (hg : c.grants n = true) (hterm : r.node.currentTerm = n.currentTerm)
      (hfail : c.faults.vote = true → reply = .error .saveState ∧ r.writes = [])
      (hsave : c.faults.vote = false → reply = .ok n.currentTerm ∧
        ∀ d : Disk, (d.applyAll r.writes).loadState.1 = n.currentTerm) : Handled (r, reply)
  /-- Nothing had to be saved. -/
  | answered (r : Locked) (hT : c.term ≤ n.currentTerm) (hg : c.grants n = false)
      (hterm : r.node.currentTerm = n.currentTerm)
      (hdisk : ∀ d : Disk, (d.applyAll r.writes).loadState.1 = d.loadState.1) :
      Handled (r, .ok n.currentTerm)

/-- A higher term whose `SaveState` call fails ends every handler. -/
theorem observeRequest_fails (s : Locked) {T : Nat} (hT : s.node.currentTerm < T) :
    ∃ r, s.observeRequest T true = (r, some .saveState) ∧ r.node.currentTerm = T ∧
      r.writes = s.writes := by
  obtain ⟨w, es, heq, -⟩ := (s.modify fun n =>
    { n with currentTerm := T, votedFor := "" }).setRoleLocked_spec .follower
  rw [s.observeRequest_of_lt hT]
  unfold Locked.observeTermLocked
  rw [if_neg (by omega)]
  dsimp only
  rw [heq]
  exact ⟨_, rfl, rfl, rfl⟩

theorem loadState_keeps (d : Disk) {ws : List DiskWrite} (h : ∀ w ∈ ws, w.KeepsState) :
    (d.applyAll ws).loadState = d.loadState := by
  unfold Disk.loadState
  rw [Disk.state_applyAll h]

theorem handle_requestVote (req : RequestVoteRequest) (f : SaveFaults) :
    Handled n (requestVote req f) ((requestVote req f).handle n) := by
  unfold handle Locked.requestVote
  dsimp only
  rcases Nat.lt_or_ge n.currentTerm req.term with hlt | hge
  · cases hf : f.observe with
    | true =>
        obtain ⟨r, heq, hterm, hw⟩ := observeRequest_fails n.lock hlt
        rw [heq]
        exact .refused r hlt hf hterm hw
    | false =>
        obtain ⟨w, es, heq, -⟩ := n.lock.observeTermLocked_spec hlt
        rw [n.lock.observeRequest_of_lt hlt, heq]
        dsimp only
        rw [Locked.castVote_of_le _ req f (le_refl _)]
        -- the vote, if it is given, is saved with the same term
        split
        · dsimp only
          split
          · exact .raised _ _ hlt hf rfl (fun d => rfl) (fun T h => nomatch h)
          · exact .raised _ _ hlt hf rfl (fun d => rfl) (fun T h => (Except.ok.inj h).symm)
        · exact .raised _ _ hlt hf rfl (fun d => rfl) (fun T h => (Except.ok.inj h).symm)
  · rw [n.lock.observeRequest_of_le hge]
    dsimp only
    rw [Locked.castVote_of_le _ req f hge]
    split
    · rename_i hg
      dsimp only
      split
      · rename_i hv
        exact .voted _ _ hge hg rfl (fun _ => ⟨rfl, rfl⟩) (fun h => by
          rw [show f.vote = false from h] at hv; exact absurd hv (by simp))
      · rename_i hv
        exact .voted _ _ hge hg rfl (fun h => absurd h hv) (fun _ => ⟨rfl, fun d => rfl⟩)
    · rename_i hg
      exact .answered _ hge (Bool.eq_false_of_not_eq_true hg) rfl (fun d => rfl)

theorem handle_appendEntries (req : AppendEntriesRequest) (f : SaveFaults) :
    Handled n (appendEntries req f) ((appendEntries req f).handle n) := by
  unfold handle Locked.appendEntries
  dsimp only
  rcases Nat.lt_or_ge n.currentTerm req.term with hlt | hge
  · cases hf : f.observe with
    | true =>
        obtain ⟨r, heq, hterm, hw⟩ := observeRequest_fails n.lock hlt
        rw [heq]
        exact .refused r hlt hf hterm hw
    | false =>
        obtain ⟨w, es, heq, -⟩ := n.lock.observeTermLocked_spec hlt
        rw [n.lock.observeRequest_of_lt hlt, heq]
        dsimp only
        generalize hs : Locked.mk _ _ _ = s
        have hkeep := s.keepsVote_acceptEntries req
        obtain ⟨ws, hws, hk⟩ := hkeep.writes
        have hterm : s.node.currentTerm = req.term := by rw [← hs]
        refine .raised _ _ hlt hf (hkeep.currentTerm.trans hterm) (fun d => ?_) (fun T h => ?_)
        · rw [hws, Disk.applyAll_append, loadState_keeps _ hk, ← hs]
          rfl
        · rw [← Except.ok.inj h, s.term_acceptEntries req]
          exact hterm
  · rw [n.lock.observeRequest_of_le hge]
    dsimp only
    have hkeep := n.lock.keepsVote_acceptEntries req
    obtain ⟨ws, hws, hk⟩ := hkeep.writes
    have hreply : (n.lock.acceptEntries req).2.term = n.currentTerm := n.lock.term_acceptEntries req
    have hok : Except.map AppendEntriesReply.term
        (Except.ok (n.lock.acceptEntries req).2 : Except RaftError AppendEntriesReply) =
        .ok n.currentTerm := by
      rw [← hreply]
      rfl
    rw [hok]
    refine .answered _ hge rfl hkeep.currentTerm (fun d => ?_)
    rw [hws]
    exact congrArg Prod.fst (loadState_keeps d hk)

/-- **One call.** -/
theorem handle_spec : Handled n c (c.handle n) := by
  cases c with
  | requestVote req f => exact handle_requestVote n req f
  | appendEntries req f => exact handle_appendEntries n req f

end HandlerCall

/-! ## A sequence of calls -/

/-- The term in memory is the one on disk, unless it is unsaved. -/
def Saved (before : Bool) (s : Process) : Prop :=
  if before then s.disk.loadState.1 < s.node.currentTerm
  else s.disk.loadState.1 = s.node.currentTerm

/-- The step: a call is answered in a saved term unless the node's term was unsaved
and stays so. -/
theorem Saved.serve {before : Bool} {s : Process} (h : Saved before s) (c : HandlerCall) :
    Saved (c.unsaved s.node before) (s.serve c).1 ∧
      ((∀ T, (s.serve c).2 = .ok T → T ≤ (s.serve c).1.disk.loadState.1) ↔
        (before = true → s.node.currentTerm < c.term ∨ c.grants s.node = true)) := by
  have hle : s.disk.loadState.1 ≤ s.node.currentTerm := by
    unfold Saved at h
    split at h
    · exact h.le
    · exact h.le
  unfold Process.serve HandlerCall.unsaved
  have hspec := c.handle_spec s.node
  generalize c.handle s.node = r at hspec
  cases hspec with
  | refused r hT hf hterm hw =>
      rw [if_pos hT, hf]
      refine ⟨?_, iff_of_true (fun T hr => nomatch hr) (fun _ => Or.inl hT)⟩
      simp only [Saved, hw, Disk.applyAll_nil, hterm, if_true]
      omega
  | raised r reply hT hf hterm hdisk hreply =>
      rw [if_pos hT, hf]
      refine ⟨?_, iff_of_true (fun T hr => ?_) (fun _ => Or.inl hT)⟩
      · simp [Saved, hdisk, hterm]
      · rw [hreply T hr, hdisk]
  | voted r reply hT hg hterm hfail hsave =>
      rw [if_neg (by omega), hg]
      cases hv : c.faults.vote with
      | true =>
          obtain ⟨hrep, hw⟩ := hfail hv
          refine ⟨?_, iff_of_true (fun T hr => ?_) (fun _ => Or.inr rfl)⟩
          · simpa [Saved, hw, hterm] using h
          · rw [hrep] at hr
            exact nomatch hr
      | false =>
          obtain ⟨hrep, hdisk⟩ := hsave hv
          refine ⟨?_, iff_of_true (fun T hr => ?_) (fun _ => Or.inr rfl)⟩
          · simp [Saved, hdisk, hterm]
          · rw [hrep] at hr
            rw [hdisk, ← Except.ok.inj hr]
  | answered r hT hg hterm hdisk =>
      rw [if_neg (by omega), hg]
      refine ⟨by simpa [Saved, hdisk, hterm] using h, ?_⟩
      -- the reply carries the node's term, which is saved or not
      cases before with
      | true =>
          have hlt : s.disk.loadState.1 < s.node.currentTerm := h
          refine iff_of_false (fun hall => ?_) (fun himp => ?_)
          · have := hall _ rfl
            simp only [hdisk] at this
            omega
          · have := himp rfl
            simp at this
            omega
      | false =>
          have heq : s.disk.loadState.1 = s.node.currentTerm := h
          refine iff_of_true (fun T hr => ?_) (fun hb => nomatch hb)
          rw [hdisk, heq, Except.ok.inj hr]

/-- The run: the same for every call of a sequence. -/
theorem Saved.answers {before : Bool} {s : Process} (h : Saved before s)
    (calls : List HandlerCall) :
    (∀ a ∈ s.answers calls, ∀ T, a.1 = .ok T → T ≤ a.2.loadState.1) ↔ Steady before s calls := by
  induction calls generalizing before s with
  | nil => exact iff_of_true (fun a ha => nomatch ha) trivial
  | cons c cs ih =>
      obtain ⟨hnext, hiff⟩ := h.serve c
      simp only [Process.answers, Steady, List.forall_mem_cons]
      rw [ih hnext, hiff]

/-- **Terms are durable before they are acted on**, whichever `SaveState` calls
fail, exactly if no call is answered while the node's term is unsaved: every reply
carries a term that is in `state.json` by then, so that a node restarted at that
moment is in no earlier one. -/
theorem replies_durable_iff (s : Process) (hs : s.disk.loadState.1 = s.node.currentTerm)
    (calls : List HandlerCall) :
    (∀ a ∈ s.answers calls, ∀ T, a.1 = .ok T → T ≤ a.2.loadState.1 ∧
      ∀ id address peers cap, T ≤ (newNode id address peers cap a.2).currentTerm) ↔
    Steady false s calls := by
  rw [← Saved.answers (show Saved false s from hs) calls]
  exact ⟨fun h a ha T hT => (h a ha T hT).1, fun h a ha T hT => ⟨h a ha T hT, fun _ _ _ _ =>
    h a ha T hT⟩⟩

/-- A brand-new process. -/
def Process.fresh : Process := ⟨newNode "a" "a" ["b", "c"] 1000 Disk.empty, Disk.empty⟩

/-- A heartbeat. -/
def heartbeat (term : Nat) (f : SaveFaults) : HandlerCall :=
  .appendEntries ⟨term, "b", 0, 0, [], 0⟩ f

/-- Term 6 cannot be saved, and the heartbeat that brought it is not answered; the next one brings
term 7, which is saved. -/
theorem replies_durable_fresh :
    (∀ a ∈ Process.fresh.answers [heartbeat 5 noFaults, heartbeat 6 ⟨true, false⟩,
        heartbeat 7 noFaults], ∀ T, a.1 = .ok T →
      T ≤ a.2.loadState.1 ∧
        ∀ id address peers cap, T ≤ (newNode id address peers cap a.2).currentTerm) ∧
    (Process.fresh.answers [heartbeat 5 noFaults, heartbeat 6 ⟨true, false⟩,
      heartbeat 7 noFaults]).map (fun a => (a.1, a.2.loadState.1)) =
      [(.ok 5, 5), (.error .saveState, 5), (.ok 7, 7)] :=
  ⟨(replies_durable_iff Process.fresh rfl _).2 ⟨by decide, by decide, by decide, trivial⟩,
    by decide⟩

/-- The first heartbeat fails to save term 5, the second is accepted in it with
nothing on disk. -/
theorem unsaved_term_answered :
    Process.fresh.disk.loadState.1 = Process.fresh.node.currentTerm ∧
    ∃ a ∈ Process.fresh.answers [heartbeat 5 ⟨true, false⟩, heartbeat 5 noFaults],
      a.1 = .ok 5 ∧ a.2.loadState.1 < 5 := by
  decide

end B5KvStore
