import Mathlib.Data.Finset.Max
import Mathlib.Data.Prod.Lex
import B5KvStore.Cluster.Applied
import B5KvStore.Raft.LogRepair

/-!
# A majority can always elect a leader

Whatever has happened to a cluster, crashes, failed `SaveState` calls and snapshots included, any
majority of its processes that can talk to each other can go on without the rest: one of them
with the best log times out until its term is above all of theirs, and gets their votes.

* `Brings` — what some processes can do by themselves.
* `Campaign` — an election with the votes that are still to be cast; `Campaign.vote`.
* `Brings.retire` — a leader that is past its term steps down.
* `election_available`.
-/

namespace B5KvStore

/-! ## Schedules -/

/-- A critical section that runs to its end without failure, and has nothing to do with
snapshots. -/
def Action.Smooth : Action → Prop
  | .run op => op.NoFaults ∧ op.snapshotting = false
  | _ => False

theorem Action.Smooth.plain {act : Action} (h : act.Smooth) : act.Plain := by
  cases act with
  | run op => exact h
  | crash p => exact absurd h id
  | crashDuring op k => exact absurd h id
  | publish file => exact absurd h id

/-- The processes of `Q` can bring the cluster from the one state to the other, by themselves and
without failures. -/
def Brings (c : Config) (Q : List String) (s s' : Cluster) : Prop :=
  ∃ bs, (∀ act ∈ bs, act.Smooth) ∧ run c s bs = some s' ∧ ∀ r, r ∉ Q → s'.hosts r = s.hosts r

namespace Brings

variable {c : Config} {Q : List String} {s s' s'' : Cluster}

theorem refl (s : Cluster) : Brings c Q s s := ⟨[], by simp, rfl, fun _ _ => rfl⟩

theorem trans (h : Brings c Q s s') (h' : Brings c Q s' s'') : Brings c Q s s'' := by
  obtain ⟨bs, hbs, hrun, hsame⟩ := h
  obtain ⟨bs', hbs', hrun', hsame'⟩ := h'
  refine ⟨bs ++ bs', fun act hact => ?_, ?_, fun r hr => (hsame' r hr).trans (hsame r hr)⟩
  · rcases List.mem_append.1 hact with hact | hact
    · exact hbs act hact
    · exact hbs' act hact
  · rw [run_eq_exec] at hrun hrun' ⊢
    rw [Runs.exec_append, hrun]
    exact hrun'

/-- One critical section of a process of `Q`. -/
theorem of_exec {op : Op} {o : Outcome} (ho : exec c s op = some o)
    (hop : op.NoFaults ∧ op.snapshotting = false) (hhost : o.host ∈ Q) :
    Brings c Q s (o.around.finish c o.host o.result) := by
  refine ⟨[.run op], fun act hact => ?_, ?_, fun r hr => ?_⟩
  · rw [List.mem_singleton.1 hact]
    exact hop
  · simp [run, step, ho]
  · exact (exec_effect ho).hosts_finish_other fun heq => hr (heq ▸ hhost)

end Brings

/-- Every node has the log it had. -/
def SameLogs (s s' : Cluster) : Prop :=
  ∀ r, (s'.hosts r).node.log = (s.hosts r).node.log ∧
    (s'.hosts r).node.logOffset = (s.hosts r).node.logOffset

theorem SameLogs.trans {s s' s'' : Cluster} (h : SameLogs s s') (h' : SameLogs s' s'') :
    SameLogs s s'' := fun r => ⟨(h' r).1.trans (h r).1, (h' r).2.trans (h r).2⟩

/-- What an election changes: terms become `T` at most, and logs stay what they are. -/
structure Elects (T : Nat) (s s' : Cluster) : Prop where
  terms : ∀ r, (s'.hosts r).node.currentTerm = (s.hosts r).node.currentTerm ∨
    (s'.hosts r).node.currentTerm = T
  logs : SameLogs s s'

namespace Elects

variable {T : Nat} {s s' s'' : Cluster}

theorem trans (h : Elects T s s') (h' : Elects T s' s'') : Elects T s s'' where
  terms r := (h'.terms r).elim (fun heq => heq ▸ h.terms r) Or.inr
  logs := h.logs.trans h'.logs

/-- Only one process changes. -/
theorem of_host {p : String} (hother : ∀ u, u ≠ p → s'.hosts u = s.hosts u)
    (hterm : (s'.hosts p).node.currentTerm = T)
    (hlog : (s'.hosts p).node.log = (s.hosts p).node.log)
    (hoff : (s'.hosts p).node.logOffset = (s.hosts p).node.logOffset) : Elects T s s' := by
  refine ⟨fun u => ?_, fun u => ?_⟩
  · by_cases hu : u = p
    · exact Or.inr (hu ▸ hterm)
    · exact Or.inl (by rw [hother u hu])
  · by_cases hu : u = p
    · exact hu ▸ ⟨hlog, hoff⟩
    · rw [hother u hu]
      exact ⟨rfl, rfl⟩

end Elects

/-! ## The handlers, when all goes well -/

/-- A node that has just started an election. -/
def Node.standing (n : Node) : Node :=
  { n with role := .candidate, currentTerm := n.currentTerm + 1, votedFor := n.id }

/-- The election it holds. -/
def Node.campaign (n : Node) : Election where
  req := ⟨n.currentTerm, n.id, n.lastLogIndexLocked, n.lastLogTermLocked⟩
  quorum := quorumSize (n.peers.length + 1)
  votes := 1
  calls p := if p ∈ n.peers ∧ 1 < quorumSize (n.peers.length + 1) then .sent else .finished

theorem Locked.startElection_eq {n : Node} (h : n.role ≠ .leader) :
    n.lock.startElection false = (⟨n.standing, [.saveState (n.currentTerm + 1) n.id], []⟩,
      some n.standing.campaign) := by
  simp [Locked.startElection, Locked.setRoleLocked, Locked.persistStateLocked, Node.lock, h,
    Node.standing, Node.campaign, Node.lastLogIndexLocked, Node.lastLogTermLocked, Locked.modify,
    Locked.write]
  rfl

/-- A node that has not voted in the term of a candidate with a log as good as its own votes for
it. -/
theorem Locked.castVote_granted (s : Locked) {req : RequestVoteRequest}
    (hT : s.node.currentTerm = req.term) (hvote : s.node.votedFor = "")
    (hup : isLogAtLeastAsUpToDate req.lastLogTerm req.lastLogIndex s.node.lastLogTermLocked
      s.node.lastLogIndexLocked = true) :
    ∃ r, s.castVote req false = (r, .ok ⟨req.term, true⟩) ∧
      r.node = { s.node with votedFor := req.candidateId } := by
  unfold Locked.castVote
  rw [if_neg (by rw [hT]; exact lt_irrefl _), if_pos ⟨Or.inl hvote, hup⟩, ← hT]
  exact ⟨_, rfl, rfl⟩

theorem Locked.requestVote_granted {n : Node} {req : RequestVoteRequest}
    (hT : n.currentTerm < req.term)
    (hup : isLogAtLeastAsUpToDate req.lastLogTerm req.lastLogIndex n.lastLogTermLocked
      n.lastLogIndexLocked = true) :
    ∃ r, n.lock.requestVote req noFaults = (r, .ok ⟨req.term, true⟩) ∧
      r.node.currentTerm = req.term ∧ r.node.log = n.log ∧ r.node.logOffset = n.logOffset := by
  obtain ⟨w, es, heq, -⟩ := n.lock.observeTermLocked_spec hT
  obtain ⟨r, hr, hnode⟩ := Locked.castVote_granted ⟨{ n with
    currentTerm := req.term, votedFor := "", role := .follower, waiters := w },
    n.lock.writes ++ [.saveState req.term ""], n.lock.events ++ es⟩ rfl rfl hup
  refine ⟨r, ?_, ?_⟩
  · unfold Locked.requestVote
    rw [Locked.observeRequest_of_lt _ hT]
    dsimp only [noFaults]
    rw [heq]
    exact hr
  · rw [hnode]
    exact ⟨rfl, rfl, rfl⟩

/-- A candidate that has won. -/
def Node.elected (n : Node) : Node :=
  { n with
    role := .leader
    currentLeader := n.address
    nextIndex := n.peers.foldl (fun m p => m.insert p (n.lastLogIndexLocked + 1)) ∅
    matchIndex := n.peers.foldl (fun m p => m.insert p 0) ∅ }

/-- The vote is counted. -/
theorem Locked.handleRequestVoteReply_granted {n : Node} {e : Election}
    (hrole : n.role = .candidate) (hT : n.currentTerm = e.req.term) :
    ∃ r, n.lock.handleRequestVoteReply e ⟨e.req.term, true⟩ false = (r, e.votes + 1) ∧
      r.node = if e.quorum ≤ e.votes + 1 then n.elected else n := by
  unfold Locked.handleRequestVoteReply
  rw [if_neg (by simp [Node.lock, hT]), if_neg (by simp [Node.lock, hrole, hT])]
  dsimp only
  refine ⟨_, rfl, ?_⟩
  by_cases hq : e.quorum ≤ e.votes + 1
  · obtain ⟨n', heq, hn'⟩ := n.lock.becomeLeaderLocked_spec hrole
    rw [if_pos ⟨rfl, hq⟩, if_pos hq, heq]
    exact hn'
  · rw [if_neg fun h => hq h.2, if_neg hq]
    rfl

/-! ## An election -/

/-- The log of `p` is at least as up to date as that of `q`. -/
def Cluster.UpToDate (s : Cluster) (p q : String) : Prop :=
  isLogAtLeastAsUpToDate (s.hosts p).node.lastLogTermLocked (s.hosts p).node.lastLogIndexLocked
    (s.hosts q).node.lastLogTermLocked (s.hosts q).node.lastLogIndexLocked = true

instance Cluster.decidableUpToDate (s : Cluster) (p q : String) : Decidable (s.UpToDate p q) :=
  inferInstanceAs (Decidable (_ = true))

theorem SameLogs.upToDate {s s' : Cluster} (h : SameLogs s s') {p q : String} :
    s'.UpToDate p q ↔ s.UpToDate p q := by
  unfold Cluster.UpToDate Node.lastLogTermLocked Node.lastLogIndexLocked
  rw [(h p).1, (h p).2, (h q).1, (h q).2]

/-- Process `p` holds the `k`-th election of the run and has so many votes; the processes of `V`
will vote for it when they are asked. -/
structure Campaign (c : Config) (s : Cluster) (p : String) (k votes : Nat) (V : List String) :
    Prop where
  candidate : (s.hosts p).node.role = .candidate
  call : ∃ calls, s.elections[k]? = some ⟨p, (s.hosts p).epoch,
      { (s.hosts p).node.campaign with votes := votes, calls := calls }⟩ ∧
    ∀ q ∈ V, calls q = .sent
  voters : ∀ q ∈ V, q ∈ c.addrs ∧ q ≠ p ∧
    (s.hosts q).node.currentTerm < (s.hosts p).node.currentTerm ∧ s.UpToDate p q

section

variable {c : Config} {Q V : List String} {s : Cluster} {p q : String} {k votes : Nat}

/-- The voter. -/
theorem Brings.requestVote {call : ElectionCall} (hk : s.elections[k]? = some call)
    (hq : q ∈ Q) (hmem : q ∈ c.addrs) (hsent : call.election.calls q = .sent)
    (hT : (s.hosts q).node.currentTerm < call.election.req.term)
    (hup : isLogAtLeastAsUpToDate call.election.req.lastLogTerm call.election.req.lastLogIndex
      (s.hosts q).node.lastLogTermLocked (s.hosts q).node.lastLogIndexLocked = true) :
    ∃ s', Brings c Q s s' ∧ (∀ u, u ≠ q → s'.hosts u = s.hosts u) ∧
      Elects call.election.req.term s s' ∧
      s'.elections[k]? = some { call with election := { call.election with
        calls := Function.update call.election.calls q
          (.answered ⟨call.election.req.term, true⟩) } } := by
  obtain ⟨r, hr, hterm, hlog, hoff⟩ := Locked.requestVote_granted hT hup
  have hexec : exec c s (.requestVote k q noFaults) = some ⟨q, r, s.setElection k { call with
      election := { call.election with
        calls := Function.update call.election.calls q
          (.answered ⟨call.election.req.term, true⟩) } }⟩ := by
    simp [exec, hk, hmem, hsent, hr, replyPhase, guard]
  have hother : ∀ u, u ≠ q → _ := fun u hu => (exec_effect hexec).hosts_finish_other hu
  refine ⟨_, .of_exec hexec ⟨rfl, rfl⟩ hq, hother, .of_host hother ?_ ?_ ?_,
    List.getElem?_set_self (List.getElem?_eq_some_iff.1 hk).1⟩
  · rw [Cluster.node_finish]
    exact hterm
  · rw [Cluster.node_finish]
    exact hlog
  · rw [Cluster.node_finish]
    exact hoff

/-- The candidate. -/
theorem Brings.requestVoteReply {call : ElectionCall} (hk : s.elections[k]? = some call)
    (hp : call.candidate ∈ Q) (hepoch : call.epoch = (s.hosts call.candidate).epoch)
    (hrole : (s.hosts call.candidate).node.role = .candidate)
    (hT : (s.hosts call.candidate).node.currentTerm = call.election.req.term)
    (hans : call.election.calls q = .answered ⟨call.election.req.term, true⟩) :
    ∃ s', Brings c Q s s' ∧ (∀ u, u ≠ call.candidate → s'.hosts u = s.hosts u) ∧
      (s'.hosts call.candidate).epoch = (s.hosts call.candidate).epoch ∧
      (s'.hosts call.candidate).node =
        (if call.election.quorum ≤ call.election.votes + 1 then
          (s.hosts call.candidate).node.elected else (s.hosts call.candidate).node) ∧
      s'.elections[k]? = some { call with election := { call.election with
        votes := call.election.votes + 1
        calls := Function.update call.election.calls q .finished } } := by
  obtain ⟨r, hr, hnode⟩ := Locked.handleRequestVoteReply_granted hrole hT
  have hexec : exec c s (.requestVoteReply k q false) = some ⟨call.candidate, r,
      s.setElection k { call with election := { call.election with
        votes := call.election.votes + 1
        calls := Function.update call.election.calls q .finished } }⟩ := by
    simp [exec, hk, hepoch, hans, hr, guard]
  have heff := exec_effect hexec
  refine ⟨_, .of_exec hexec ⟨rfl, rfl⟩ hp, fun u hu => heff.hosts_finish_other hu,
    heff.epoch_finish _, ?_, List.getElem?_set_self (List.getElem?_eq_some_iff.1 hk).1⟩
  rw [Cluster.node_finish]
  exact hnode

/-- One more process is asked for its vote, and the vote is counted. -/
theorem Campaign.vote (h : Campaign c s p k votes (q :: V)) (hnd : (q :: V).Nodup) (hp : p ∈ Q)
    (hq : q ∈ Q) :
    ∃ s', Brings c Q s s' ∧ Elects (s.hosts p).node.currentTerm s s' ∧
      (s'.hosts p).node = (if quorumSize ((s.hosts p).node.peers.length + 1) ≤ votes + 1 then
        (s.hosts p).node.elected else (s.hosts p).node) ∧
      (¬ quorumSize ((s.hosts p).node.peers.length + 1) ≤ votes + 1 →
        Campaign c s' p k (votes + 1) V) := by
  obtain ⟨calls, hk, hsent⟩ := h.call
  obtain ⟨hmem, hne, hlt, hup⟩ := h.voters q (List.mem_cons_self ..)
  obtain ⟨s₁, hb₁, hother₁, helects₁, hk₁⟩ := Brings.requestVote hk hq hmem
    (hsent q (List.mem_cons_self ..)) hlt hup
  have hp₁ := hother₁ p hne.symm
  obtain ⟨s₂, hb₂, hother₂, hepoch₂, hnode₂, hk₂⟩ := Brings.requestVoteReply (c := c) (Q := Q)
    (q := q) hk₁ hp (by rw [hp₁]) (by rw [hp₁]; exact h.candidate) (by rw [hp₁]; rfl)
    (Function.update_self ..)
  dsimp only at hother₂ hepoch₂ hnode₂
  rw [hp₁] at hepoch₂ hnode₂
  have helects₂ : Elects (s.hosts p).node.currentTerm s₁ s₂ := by
    refine .of_host hother₂ ?_ ?_ ?_
    · rw [hnode₂]
      split <;> rfl
    · rw [hnode₂, hp₁]
      split <;> rfl
    · rw [hnode₂, hp₁]
      split <;> rfl
  have helects := helects₁.trans helects₂
  refine ⟨s₂, hb₁.trans hb₂, helects, hnode₂, fun hmore => ?_⟩
  have hsame : (s₂.hosts p).node = (s.hosts p).node := hnode₂.trans (if_neg hmore)
  refine ⟨by rw [hsame]; exact h.candidate, ⟨Function.update (Function.update calls q
    (.answered ⟨(s.hosts p).node.currentTerm, true⟩)) q .finished, ?_, fun u hu => ?_⟩,
    fun u hu => ?_⟩
  · rw [hk₂, hsame, hepoch₂]
    rfl
  · have huq : u ≠ q := fun heq => (List.nodup_cons.1 hnd).1 (heq ▸ hu)
    rw [Function.update_of_ne huq, Function.update_of_ne huq]
    exact hsent u (List.mem_cons_of_mem q hu)
  · have huq : u ≠ q := fun heq => (List.nodup_cons.1 hnd).1 (heq ▸ hu)
    obtain ⟨humem, hup, hult, huup⟩ := h.voters u (List.mem_cons_of_mem q hu)
    refine ⟨humem, hup, ?_, helects.logs.upToDate.2 huup⟩
    rw [hother₂ u hup, hother₁ u huq, hsame]
    exact hult

/-- With the votes that are left the candidate wins. -/
theorem Campaign.win (h : Campaign c s p k votes V) (hnd : V.Nodup) (hp : p ∈ Q)
    (hV : ∀ q ∈ V, q ∈ Q) (hvotes : votes < quorumSize ((s.hosts p).node.peers.length + 1))
    (henough : quorumSize ((s.hosts p).node.peers.length + 1) ≤ votes + V.length) :
    ∃ s', Brings c Q s s' ∧ Elects (s.hosts p).node.currentTerm s s' ∧
      (s'.hosts p).node = (s.hosts p).node.elected := by
  induction V generalizing s votes with
  | nil =>
      rw [List.length_nil] at henough
      omega
  | cons q V ih =>
      obtain ⟨s₁, hb₁, helects₁, hnode₁, hrest⟩ := h.vote hnd hp (hV q (List.mem_cons_self ..))
      by_cases hq : quorumSize ((s.hosts p).node.peers.length + 1) ≤ votes + 1
      · rw [if_pos hq] at hnode₁
        exact ⟨s₁, hb₁, helects₁, hnode₁⟩
      · rw [if_neg hq] at hnode₁
        rw [List.length_cons] at henough
        obtain ⟨s₂, hb₂, helects₂, hnode₂⟩ := ih (hrest hq) (List.nodup_cons.1 hnd).2
          (fun u hu => hV u (List.mem_cons_of_mem q hu)) (by rw [hnode₁]; omega)
          (by rw [hnode₁]; omega)
        rw [hnode₁] at helects₂ hnode₂
        exact ⟨s₂, hb₁.trans hb₂, helects₁.trans helects₂, hnode₂⟩

/-- The only member of a cluster elects itself. -/
theorem Brings.solo (hp : p ∈ Q) (hk : s.elections[k]? =
      some ⟨p, (s.hosts p).epoch, (s.hosts p).node.campaign⟩)
    (hrole : (s.hosts p).node.role = .candidate)
    (hquorum : quorumSize ((s.hosts p).node.peers.length + 1) ≤ 1) :
    ∃ s', Brings c Q s s' ∧ Elects (s.hosts p).node.currentTerm s s' ∧
      (s'.hosts p).node = (s.hosts p).node.elected := by
  have hexec : exec c s (.soloElection k) =
      some ⟨p, (s.hosts p).node.lock.soloElection (s.hosts p).node.campaign, s⟩ := by
    have hq : (s.hosts p).node.campaign.quorum ≤ 1 := hquorum
    simp [exec, hk, hq, guard]
  have hnode : ((s.hosts p).node.lock.soloElection (s.hosts p).node.campaign).node =
      (s.hosts p).node.elected := by
    obtain ⟨n', heq, hn'⟩ := (s.hosts p).node.lock.becomeLeaderLocked_spec hrole
    unfold Locked.soloElection
    rw [if_pos ⟨hrole, rfl⟩, heq]
    exact hn'
  have hother : ∀ u, u ≠ p → _ := fun u hu => (exec_effect hexec).hosts_finish_other hu
  refine ⟨_, .of_exec hexec ⟨trivial, rfl⟩ hp, .of_host hother ?_ ?_ ?_, ?_⟩
  · rw [Cluster.node_finish, hnode]
    rfl
  · rw [Cluster.node_finish, hnode]
    rfl
  · rw [Cluster.node_finish, hnode]
    rfl
  · rw [Cluster.node_finish, hnode]

/-- A process starts an election. -/
theorem Brings.stand (hp : p ∈ Q) (hmem : p ∈ c.addrs) (hrole : (s.hosts p).node.role ≠ .leader) :
    ∃ s', Brings c Q s s' ∧ (∀ u, u ≠ p → s'.hosts u = s.hosts u) ∧
      (s'.hosts p).node = (s.hosts p).node.standing ∧
      s'.elections[s.elections.length]? =
        some ⟨p, (s'.hosts p).epoch, (s.hosts p).node.standing.campaign⟩ := by
  have hexec : exec c s (.startElection p false) = some ⟨p,
      ⟨(s.hosts p).node.standing, [.saveState ((s.hosts p).node.currentTerm + 1)
        (s.hosts p).node.id], []⟩, { s with elections := s.elections ++
          [⟨p, (s.hosts p).epoch, (s.hosts p).node.standing.campaign⟩] }⟩ := by
    simp [exec, hmem, Locked.startElection_eq hrole, guard]
  have heff := exec_effect hexec
  refine ⟨_, .of_exec hexec ⟨rfl, rfl⟩ hp, fun u hu => heff.hosts_finish_other hu,
    Cluster.node_finish .., ?_⟩
  rw [heff.epoch_finish]
  exact List.getElem?_concat_length ..

/-- It does so until its term is above `B`. -/
theorem Brings.standAbove (B : Nat) (hp : p ∈ Q) (hmem : p ∈ c.addrs)
    (hrole : (s.hosts p).node.role ≠ .leader) :
    ∃ s', ∃ k T : Nat, Brings c Q s s' ∧ (∀ u, u ≠ p → s'.hosts u = s.hosts u) ∧ B < T ∧
      (s'.hosts p).node = { (s.hosts p).node with
        role := .candidate, currentTerm := T, votedFor := (s.hosts p).node.id } ∧
      s'.elections[k]? = some ⟨p, (s'.hosts p).epoch, (s'.hosts p).node.campaign⟩ := by
  obtain ⟨d, hd⟩ : ∃ d, d = B - (s.hosts p).node.currentTerm := ⟨_, rfl⟩
  induction d generalizing s with
  | zero =>
      obtain ⟨s', hb, hother, hnode, hcall⟩ := Brings.stand hp hmem hrole
      refine ⟨s', s.elections.length, (s.hosts p).node.currentTerm + 1, hb, hother, by omega,
        hnode, ?_⟩
      rw [hnode]
      exact hcall
  | succ d ih =>
      obtain ⟨s₁, hb₁, hother₁, hnode₁, -⟩ := Brings.stand (Q := Q) hp hmem hrole
      have hterm₁ : (s₁.hosts p).node.currentTerm = (s.hosts p).node.currentTerm + 1 := by
        rw [hnode₁]
        rfl
      have hrole₁ : (s₁.hosts p).node.role ≠ .leader := by
        rw [hnode₁]
        exact Role.noConfusion
      obtain ⟨s', k, T, hb, hother, hT, hnode, hcall⟩ := ih hrole₁ (by omega)
      refine ⟨s', k, T, hb₁.trans hb, fun u hu => (hother u hu).trans (hother₁ u hu), hT, ?_, hcall⟩
      rw [hnode, hnode₁]
      rfl

end

/-! ## One round of requests -/

theorem Node.find_request {n : Node} {q : String} (hq : q ∈ n.peers) :
    n.buildAppendEntriesRequestsLocked.find? (fun o => o.peer = q) =
      some (n.buildAppendEntriesRequest q) := by
  have hfind : ∀ us : List String, q ∈ us →
      (us.map n.buildAppendEntriesRequest).find? (fun o => o.peer = q) =
        some (n.buildAppendEntriesRequest q) := by
    intro us hus
    induction us with
    | nil => exact absurd hus List.not_mem_nil
    | cons u us ih =>
        rw [List.map_cons, List.find?_cons]
        have hpeer : (n.buildAppendEntriesRequest u).peer = u := rfl
        by_cases hu : u = q
        · subst hu
          simp [hpeer]
        · rw [hpeer, decide_eq_false hu]
          exact ih (List.mem_of_ne_of_mem (Ne.symm hu) hus)
  exact hfind n.peers hq

/-- Without failures every request is answered. -/
theorem Node.receive_ok (n : Node) (req : AppendEntriesRequest) :
    ∃ reply, (n.receive req).2 = .ok reply := by
  unfold Node.receive Locked.appendEntries
  by_cases hT : n.currentTerm < req.term
  · obtain ⟨w, es, heq, -⟩ := n.lock.observeTermLocked_spec hT
    rw [Locked.observeRequest_of_lt _ hT]
    dsimp only [noFaults]
    rw [heq]
    exact ⟨_, rfl⟩
  · rw [Locked.observeRequest_of_le _ (Nat.le_of_not_lt hT)]
    exact ⟨_, rfl⟩

theorem exchange_eq {l f : Node} {q : String} {reply : AppendEntriesReply}
    (h : (f.receive (l.buildAppendEntriesRequest q).req).2 = .ok reply) :
    exchange q l f = ((l.lock.handleAppendEntriesReplyLocked q
      (l.buildAppendEntriesRequest q).prevIndex (l.buildAppendEntriesRequest q).numEntries reply
      false).node, (f.receive (l.buildAppendEntriesRequest q).req).1.node, reply.success) := by
  unfold exchange
  dsimp only
  rw [h]

/-- The leader `p` and the follower `q` have exchanged a request and its reply. -/
structure Exchanged (s s' : Cluster) (p q : String) : Prop where
  others : ∀ u, u ≠ p → u ≠ q → s'.hosts u = s.hosts u
  epochs : ∀ u, (s'.hosts u).epoch = (s.hosts u).epoch
  leader : (s'.hosts p).node = (exchange q (s.hosts p).node (s.hosts q).node).1
  follower : (s'.hosts q).node = (exchange q (s.hosts p).node (s.hosts q).node).2.1
  /-- Whom the two have told what. -/
  proposals : ∃ reply, ((s.hosts q).node.receive
      ((s.hosts p).node.buildAppendEntriesRequest q).req).2 = .ok reply ∧
    s'.proposals = ((s.hosts p).node.lock.handleAppendEntriesReplyLocked q
        ((s.hosts p).node.buildAppendEntriesRequest q).prevIndex
        ((s.hosts p).node.buildAppendEntriesRequest q).numEntries reply false).events.foldl
      Cluster.notify (((s.hosts q).node.receive
        ((s.hosts p).node.buildAppendEntriesRequest q).req).1.events.foldl
          Cluster.notify s.proposals)

section

variable {c : Config} {Q : List String} {s : Cluster} {p q : String}

/-- A critical section that only looks at the node changes nothing. -/
theorem Cluster.finish_lock (s : Cluster) (c : Config) (p : String) :
    s.finish c p (s.hosts p).node.lock = s := by
  unfold Cluster.finish Cluster.setHost Node.lock
  dsimp only [List.foldl_nil]
  rw [Disk.applyAll_nil, List.map_nil, List.append_nil, Function.update_eq_self]

/-- The leader sends a round of requests. -/
theorem Brings.broadcast (hp : p ∈ Q) (hmem : p ∈ c.addrs)
    (hrole : (s.hosts p).node.role = .leader) :
    Brings c Q s (s.send p (s.hosts p).node.buildAppendEntriesRequestsLocked none) := by
  have hexec : exec c s (.broadcastAppendEntries p) = some ⟨p, (s.hosts p).node.lock,
      s.send p (s.hosts p).node.buildAppendEntriesRequestsLocked none⟩ := by
    simp [exec, hmem, hrole, guard, look]
  have hb := Brings.of_exec hexec ⟨trivial, rfl⟩ hp
  exact (Cluster.finish_lock _ c p).subst (motive := Brings c Q s) hb

theorem Brings.exchange (hp : p ∈ Q) (hq : q ∈ Q) (hmem : p ∈ c.addrs) (hmem' : q ∈ c.addrs)
    (hne : q ≠ p) (hrole : (s.hosts p).node.role = .leader) (hpeer : q ∈ (s.hosts p).node.peers) :
    ∃ s', Brings c Q s s' ∧ Exchanged s s' p q := by
  have hfind := Node.find_request hpeer
  obtain ⟨reply, hreply⟩ := (s.hosts q).node.receive_ok
    ((s.hosts p).node.buildAppendEntriesRequest q).req
  obtain ⟨s₁, hs₁⟩ : ∃ s₁, s₁ = s.send p (s.hosts p).node.buildAppendEntriesRequestsLocked none :=
    ⟨_, rfl⟩
  have hb₁ : Brings c Q s s₁ := hs₁ ▸ Brings.broadcast hp hmem hrole
  have hhosts₁ : s₁.hosts = s.hosts := by rw [hs₁]; rfl
  obtain ⟨b, hb⟩ : ∃ b : Broadcast, b = ⟨p, (s.hosts p).epoch, (s.hosts p).node.currentTerm,
    (s.hosts p).node.buildAppendEntriesRequestsLocked, fun _ => .sent, none⟩ := ⟨_, rfl⟩
  have hk₁ : s₁.broadcasts[s.broadcasts.length]? = some b := by
    rw [hs₁, hb]
    exact List.getElem?_concat_length ..
  have hexec₂ : exec c s₁ (.appendEntries s.broadcasts.length q noFaults) = some ⟨q,
      ((s.hosts q).node.receive ((s.hosts p).node.buildAppendEntriesRequest q).req).1,
      s₁.setBroadcast s.broadcasts.length { b with
        calls := Function.update b.calls q (.answered reply) }⟩ := by
    unfold Node.receive at hreply ⊢
    simp [exec, hk₁, hb, hfind, hmem', hhosts₁, hreply, guard, replyPhase]
  have heff₂ := exec_effect hexec₂
  have hb₂ := Brings.of_exec hexec₂ ⟨rfl, rfl⟩ hq
  have hother₂ : ∀ u, u ≠ q → _ := fun u hu => heff₂.hosts_finish_other hu
  have hepoch₂ : ∀ u, _ := fun u => heff₂.epoch_finish u
  generalize hs₂ : (s₁.setBroadcast s.broadcasts.length { b with
    calls := Function.update b.calls q (.answered reply) }).finish c q
    ((s.hosts q).node.receive ((s.hosts p).node.buildAppendEntriesRequest q).req).1 = s₂
    at hb₂ hother₂ hepoch₂
  have hk₂ : s₂.broadcasts[s.broadcasts.length]? = some { b with
      calls := Function.update b.calls q (.answered reply) } := by
    rw [← hs₂]
    exact List.getElem?_set_self (List.getElem?_eq_some_iff.1 hk₁).1
  have hp₂ : s₂.hosts p = s.hosts p := by rw [hother₂ p hne.symm, hhosts₁]
  have hexec₃ : exec c s₂ (.appendEntriesReply s.broadcasts.length q false) = some ⟨p,
      (s.hosts p).node.lock.handleAppendEntriesReplyLocked q
        ((s.hosts p).node.buildAppendEntriesRequest q).prevIndex
        ((s.hosts p).node.buildAppendEntriesRequest q).numEntries reply false,
      s₂.setBroadcast s.broadcasts.length { b with
        calls := Function.update (Function.update b.calls q (.answered reply)) q .finished }⟩ := by
    have hhandle : (s.hosts p).node.lock.handleAppendEntriesReply (s.hosts p).node.currentTerm
        ((s.hosts p).node.buildAppendEntriesRequest q) reply false =
        ((s.hosts p).node.lock.handleAppendEntriesReplyLocked q
          ((s.hosts p).node.buildAppendEntriesRequest q).prevIndex
          ((s.hosts p).node.buildAppendEntriesRequest q).numEntries reply false,
          decide (reply.term = (s.hosts p).node.currentTerm ∧ reply.success = true)) := by
      unfold Locked.handleAppendEntriesReply
      rw [if_neg (by simp [Node.lock, hrole])]
      rfl
    simp [exec, hk₂, hb, hfind, hp₂, hhandle, guard]
  have heff₃ := exec_effect hexec₃
  refine ⟨_, (hb₁.trans hb₂).trans (.of_exec hexec₃ ⟨rfl, rfl⟩ hp), ⟨fun u hup huq => ?_,
    fun u => ?_, ?_, ?_, reply, hreply, ?_⟩⟩
  · rw [heff₃.hosts_finish_other hup, hother₂ u huq, hhosts₁]
  · rw [heff₃.epoch_finish, hepoch₂, hhosts₁]
  · rw [Cluster.node_finish, exchange_eq hreply]
  · rw [heff₃.hosts_finish_other hne, ← hs₂, Cluster.node_finish, exchange_eq hreply]
  · rw [Cluster.proposals_finish, ← hs₂, hs₁]
    rfl

/-- A leader that is past its term steps down when it hears so. -/
theorem exchange_stale {l f : Node} (q : String) (hlt : l.currentTerm < f.currentTerm) :
    (exchange q l f).2.1 = f ∧ ∃ w, (exchange q l f).1 = { l with
      currentTerm := f.currentTerm, votedFor := "", role := .follower, waiters := w } := by
  have hreceive : f.receive (l.buildAppendEntriesRequest q).req =
      (f.lock, .ok { term := f.currentTerm, success := false }) := by
    have hreq : (l.buildAppendEntriesRequest q).req.term = l.currentTerm := rfl
    unfold Node.receive Locked.appendEntries
    rw [Locked.observeRequest_of_le _ (by rw [hreq]; exact hlt.le)]
    dsimp only
    unfold Locked.acceptEntries
    rw [if_pos (by rw [hreq]; exact hlt)]
    rfl
  obtain ⟨w, es, heq, -⟩ := l.lock.observeTermLocked_spec hlt
  rw [exchange_eq (congrArg Prod.snd hreceive), hreceive]
  refine ⟨rfl, w, ?_⟩
  dsimp only
  unfold Locked.handleAppendEntriesReplyLocked
  rw [if_pos (by exact hlt)]
  dsimp only
  rw [heq]
  rfl

/-- **Elections.**  Process `p` of a majority `Q`, with a log as good as those of all of `Q`, can be
elected by `Q`, in a term above `B` and above those of all of `Q`. -/
theorem Brings.elect (hQ : Q.Nodup) (hsub : ∀ q ∈ Q, q ∈ c.addrs)
    (hmaj : c.addrs.length < 2 * Q.length) (hp : p ∈ Q)
    (hpeers : (s.hosts p).node.peers = c.peersOf p) (hrole : (s.hosts p).node.role ≠ .leader)
    (hup : ∀ q ∈ Q, s.UpToDate p q) (B : Nat) (hB : ∀ q ∈ Q, (s.hosts q).node.currentTerm ≤ B) :
    ∃ s', ∃ T : Nat, Brings c Q s s' ∧ Elects T s s' ∧ B < T ∧
      (s'.hosts p).node = ({ (s.hosts p).node with
        role := .candidate
        currentTerm := T
        votedFor := (s.hosts p).node.id } : Node).elected := by
  have hmem := hsub p hp
  obtain ⟨s₁, k, T, hb₁, hother₁, hT, hnode₁, hcall₁⟩ := Brings.standAbove B hp hmem hrole
  have hpeers₁ : (s₁.hosts p).node.peers = c.peersOf p := by
    rw [hnode₁]
    exact hpeers
  have hterm₁ : (s₁.hosts p).node.currentTerm = T := by rw [hnode₁]
  have helects₁ : Elects T s s₁ := .of_host hother₁ hterm₁ (by rw [hnode₁]) (by rw [hnode₁])
  have hlen : (s₁.hosts p).node.peers.length + 1 = c.addrs.length := by
    rw [hpeers₁]
    exact length_peersOf hmem
  by_cases hsolo : quorumSize c.addrs.length ≤ 1
  · obtain ⟨s₂, hb₂, helects₂, hnode₂⟩ := Brings.solo hp hcall₁ (by rw [hnode₁])
      (by rw [hlen]; exact hsolo)
    rw [hterm₁] at helects₂
    exact ⟨s₂, T, hb₁.trans hb₂, helects₁.trans helects₂, hT, by rw [hnode₂, hnode₁]⟩
  · have hcampaign : Campaign c s₁ p k 1 (Q.erase p) := by
      refine ⟨by rw [hnode₁], ⟨_, hcall₁, fun q hq => ?_⟩, fun q hq => ?_⟩
      · obtain ⟨hne, hq⟩ := hQ.mem_erase_iff.1 hq
        refine if_pos ⟨?_, by rw [hlen]; omega⟩
        rw [hpeers₁]
        exact c.nodup.mem_erase_iff.2 ⟨hne, hsub q hq⟩
      · obtain ⟨hne, hq⟩ := hQ.mem_erase_iff.1 hq
        refine ⟨hsub q hq, hne, ?_, helects₁.logs.upToDate.2 (hup q hq)⟩
        rw [hother₁ q hne, hterm₁]
        exact lt_of_le_of_lt (hB q hq) hT
    have henough : quorumSize c.addrs.length ≤ 1 + (Q.erase p).length := by
      have := List.length_pos_of_mem hp
      rw [List.length_erase_of_mem hp]
      unfold quorumSize
      omega
    obtain ⟨s₂, hb₂, helects₂, hnode₂⟩ := hcampaign.win (hQ.erase p) hp
      (fun q hq => List.mem_of_mem_erase hq) (by rw [hlen]; omega) (by rw [hlen]; exact henough)
    rw [hterm₁] at helects₂
    exact ⟨s₂, T, hb₁.trans hb₂, helects₁.trans helects₂, hT, by rw [hnode₂, hnode₁]⟩

/-- Among the processes of `Q` there is one with the best log. -/
theorem exists_upToDate (s : Cluster) (hp : p ∈ Q) : ∃ q ∈ Q, ∀ u ∈ Q, s.UpToDate q u := by
  obtain ⟨q, hq, hmax⟩ := Finset.exists_max_image Q.toFinset
    (fun u => toLex ((s.hosts u).node.lastLogTermLocked, (s.hosts u).node.lastLogIndexLocked))
    ⟨p, List.mem_toFinset.2 hp⟩
  refine ⟨q, List.mem_toFinset.1 hq, fun u hu => ?_⟩
  have hle := hmax u (List.mem_toFinset.2 hu)
  rw [Prod.Lex.toLex_le_toLex] at hle
  unfold Cluster.UpToDate isLogAtLeastAsUpToDate
  rcases hle with hlt | ⟨heq, hle⟩
  · rw [if_pos (by exact (ne_of_lt hlt).symm)]
    exact decide_eq_true hlt
  · rw [if_neg (by exact not_not_intro heq.symm)]
    exact decide_eq_true hle

/-- A leader of `Q` that is past its term steps down. -/
theorem Brings.retire (hp : p ∈ Q) (hq : q ∈ Q) (hmem : p ∈ c.addrs) (hmem' : q ∈ c.addrs)
    (hrole : (s.hosts p).node.role = .leader) (hpeers : (s.hosts p).node.peers = c.peersOf p)
    (hlt : (s.hosts p).node.currentTerm < (s.hosts q).node.currentTerm) :
    ∃ s', Brings c Q s s' ∧ Elects (s.hosts q).node.currentTerm s s' ∧
      (s'.hosts p).node.role = .follower ∧ (s'.hosts p).node.peers = (s.hosts p).node.peers := by
  have hne : q ≠ p := by
    rintro rfl
    exact lt_irrefl _ hlt
  obtain ⟨s', hb, hex⟩ := Brings.exchange hp hq hmem hmem' hne hrole
    (hpeers ▸ c.nodup.mem_erase_iff.2 ⟨hne, hmem'⟩)
  obtain ⟨hf, w, hl⟩ := exchange_stale q hlt
  have hleader := hex.leader.trans hl
  have hfollower := hex.follower.trans hf
  refine ⟨s', hb, ⟨fun u => ?_, fun u => ?_⟩, by rw [hleader], by rw [hleader]⟩
  · by_cases hup : u = p
    · subst hup
      exact Or.inr (by rw [hleader])
    · by_cases huq : u = q
      · subst huq
        exact Or.inr (by rw [hfollower])
      · exact Or.inl (by rw [hex.others u hup huq])
  · by_cases hup : u = p
    · subst hup
      rw [hleader]
      exact ⟨rfl, rfl⟩
    · by_cases huq : u = q
      · subst huq
        rw [hfollower]
        exact ⟨rfl, rfl⟩
      · rw [hex.others u hup huq]
        exact ⟨rfl, rfl⟩

/-- The terms of `Q` have a bound. -/
theorem exists_bound (s : Cluster) (Q : List String) :
    ∃ B, ∀ q ∈ Q, (s.hosts q).node.currentTerm ≤ B :=
  ⟨Q.toFinset.sup fun q => (s.hosts q).node.currentTerm, fun _ hq =>
    Finset.le_sup (f := fun q => (s.hosts q).node.currentTerm) (List.mem_toFinset.2 hq)⟩

theorem Elects.terms_le {T B : Nat} {s' : Cluster} (h : Elects T s s')
    (hB : (s.hosts p).node.currentTerm ≤ B) (hT : T ≤ B) : (s'.hosts p).node.currentTerm ≤ B := by
  rcases h.terms p with heq | heq
  · rw [heq]
    exact hB
  · rw [heq]
    exact hT

/-- The process leads, and no process of `Q` has a higher term. -/
structure Cluster.LedBy (s : Cluster) (Q : List String) (p : String) : Prop where
  role : (s.hosts p).node.role = .leader
  terms : ∀ q ∈ Q, (s.hosts q).node.currentTerm ≤ (s.hosts p).node.currentTerm

/-- A process with the best log of the majority `Q` can come to lead it. -/
theorem Brings.lead (hQ : Q.Nodup) (hsub : ∀ q ∈ Q, q ∈ c.addrs)
    (hmaj : c.addrs.length < 2 * Q.length) (hp : p ∈ Q)
    (hpeers : (s.hosts p).node.peers = c.peersOf p) (hup : ∀ q ∈ Q, s.UpToDate p q) :
    ∃ s', Brings c Q s s' ∧ s'.LedBy Q p ∧ SameLogs s s' := by
  have hsame : SameLogs s s := fun _ => ⟨rfl, rfl⟩
  by_cases hled : s.LedBy Q p
  · exact ⟨s, .refl s, hled, hsame⟩
  · -- unless `p` is a follower, it becomes one
    obtain ⟨t, hb, hlogs, hrole, hpeers⟩ : ∃ t, Brings c Q s t ∧ SameLogs s t ∧
        (t.hosts p).node.role ≠ .leader ∧ (t.hosts p).node.peers = c.peersOf p := by
      by_cases hrole : (s.hosts p).node.role = .leader
      · obtain ⟨q, hq, hlt⟩ : ∃ q ∈ Q,
            (s.hosts p).node.currentTerm < (s.hosts q).node.currentTerm := by
          by_contra hno
          push Not at hno
          exact hled ⟨hrole, hno⟩
        obtain ⟨t, hb, helects, hdown, hpeers'⟩ := Brings.retire hp hq (hsub p hp) (hsub q hq)
          hrole hpeers hlt
        exact ⟨t, hb, helects.logs, by rw [hdown]; exact Role.noConfusion, hpeers'.trans hpeers⟩
      · exact ⟨s, .refl s, hsame, hrole, hpeers⟩
    obtain ⟨B, hB⟩ := exists_bound t Q
    obtain ⟨s', T, hb', helects, hT, hnode⟩ := Brings.elect hQ hsub hmaj hp hpeers hrole
      (fun q hq => hlogs.upToDate.2 (hup q hq)) B hB
    have hterm : (s'.hosts p).node.currentTerm = T := by rw [hnode]; rfl
    refine ⟨s', hb.trans hb', ⟨by rw [hnode]; rfl, fun q hq => ?_⟩, hlogs.trans helects.logs⟩
    rw [hterm]
    exact helects.terms_le ((hB q hq).trans hT.le) (le_refl T)

end

/-- **Elections never wedge.**  After any run, with whatever crashes between whole file writes,
failed `SaveState` calls and snapshots, any majority `Q` of the members can bring itself under a
leader: without failures, and without the other processes, which are left as they are.  The leader is one of `Q`, no process of
`Q` has a higher term or a better log, and no log changes on the way. -/
theorem election_available (c : Config) (as : List Action) (s : Cluster) (Q : List String)
    (hrun : run c c.init as = some s) (hQ : Q.Nodup) (hsub : ∀ q ∈ Q, q ∈ c.addrs)
    (hmaj : c.addrs.length < 2 * Q.length) :
    ∃ s', ∃ p ∈ Q, Brings c Q s s' ∧ s'.LedBy Q p ∧ (∀ q ∈ Q, s'.UpToDate p q) ∧ SameLogs s s' := by
  obtain ⟨S, -, hinv⟩ := (VoteInv.init c).run hrun
  obtain ⟨u, hu⟩ : ∃ u, u ∈ Q := List.exists_mem_of_length_pos (by omega)
  obtain ⟨p, hp, hup⟩ := exists_upToDate s hu
  obtain ⟨s', hb, hled, hlogs⟩ := Brings.lead hQ hsub hmaj hp (hinv.identity p (hsub p hp)).2 hup
  exact ⟨s', p, hp, hb, hled, fun q hq => hlogs.upToDate.2 (hup q hq), hlogs⟩

/-- Node `a` was leader and has crashed; the other two elect a leader. -/
theorem election_available_isolated : ∃ s s', run trio trio.init
      (winElection "a" "b" 0 ++ [.run (.propose "a" (putBytes 120 49)), .crash "a"]) = some s ∧
    ∃ p ∈ ["b", "c"], Brings trio ["b", "c"] s s' ∧ s'.LedBy ["b", "c"] p := by
  obtain ⟨s, hrun, -⟩ := exists_of_run (fun _ : Cluster => True)
    (by decide +kernel : (run trio trio.init (winElection "a" "b" 0 ++
      [.run (.propose "a" (putBytes 120 49)), .crash "a"])).any _ = true)
  obtain ⟨s', p, hp, hb, hled, -⟩ := election_available trio _ s ["b", "c"] hrun (by decide)
    (by decide) (by decide)
  exact ⟨s, s', hrun, p, hp, hb, hled⟩

end B5KvStore
