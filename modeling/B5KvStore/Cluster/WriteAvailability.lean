import B5KvStore.Cluster.Acknowledged
import B5KvStore.Cluster.Availability
import B5KvStore.Cluster.CommitEvidence
import B5KvStore.Cluster.LogRepair
import B5KvStore.Cluster.Reports

/-!
# A majority can go on taking writes

A majority of the processes that can talk to each other elects the one with the best log, hands it
the command, and repairs the other logs from its log.  All of this can fail in one place only: a
log that the leader is never able to repair.  Where that is not so the command is committed, and
the client is told.

* `Brings.follow`, `Brings.electAgain` — a new election, whoever leads.
* `Brings.accept` — the leader accepts a command.
* `Spreading` — the entry on its way to the others; `Spreading.repair`.
* `write_available`.
-/

namespace B5KvStore

section

variable {c : Config} {Q : List String} {s s' : Cluster} {p q : String} {S : Votes}

/-! ## A new election -/

theorem Brings.voteInv (hb : Brings c Q s s') (h : VoteInv c S s) : ∃ S', VoteInv c S' s' := by
  obtain ⟨bs, -, hrun, -⟩ := hb
  obtain ⟨S', -, h'⟩ := h.run hrun
  exact ⟨S', h'⟩

/-- A node that is asked for its vote in a later term follows. -/
theorem Locked.requestVote_follower {n : Node} {req : RequestVoteRequest}
    (hT : n.currentTerm < req.term) :
    (n.lock.requestVote req noFaults).1.node.role = .follower ∧
      (n.lock.requestVote req noFaults).1.node.currentTerm = req.term ∧
      (n.lock.requestVote req noFaults).1.node.log = n.log ∧
      (n.lock.requestVote req noFaults).1.node.logOffset = n.logOffset := by
  have hcast : ∀ s : Locked, ∃ v,
      (s.castVote req false).1.node = { s.node with votedFor := v } := by
    intro s
    unfold Locked.castVote
    split
    · exact ⟨_, rfl⟩
    · split
      · exact ⟨_, rfl⟩
      · exact ⟨_, rfl⟩
  obtain ⟨w, es, heq, -⟩ := n.lock.observeTermLocked_spec hT
  unfold Locked.requestVote
  rw [Locked.observeRequest_of_lt _ hT]
  dsimp only [noFaults]
  rw [heq]
  dsimp only
  obtain ⟨v, hv⟩ := hcast ⟨{ n with
    currentTerm := req.term, votedFor := "", role := .follower, waiters := w },
    n.lock.writes ++ [.saveState req.term ""], n.lock.events ++ es⟩
  have hnode : (Locked.castVote ⟨{ n.lock.node with
    currentTerm := req.term, votedFor := "", role := .follower, waiters := w },
    n.lock.writes ++ [.saveState req.term ""], n.lock.events ++ es⟩ req false).1.node = _ := hv
  rw [hnode]
  exact ⟨rfl, rfl, rfl, rfl⟩

/-- Process `q` starts an election and asks `p` for its vote, which makes `p` a follower. -/
theorem Brings.challenge (h : VoteInv c S s) (hsize : 2 ≤ c.addrs.length) (hp : p ∈ Q) (hq : q ∈ Q)
    (hmem : p ∈ c.addrs) (hmem' : q ∈ c.addrs) (hne : p ≠ q)
    (hrole : (s.hosts q).node.role ≠ .leader) :
    ∃ t, Brings c Q s t ∧ SameLogs s t ∧ (t.hosts p).node.role = .follower := by
  obtain ⟨s₁, k, T, hb₁, hother₁, hT, hnode₁, hk₁⟩ := Brings.standAbove
    (s.hosts p).node.currentTerm hq hmem' hrole
  have hlogs₁ : SameLogs s s₁ := (Elects.of_host (T := T) hother₁ (by rw [hnode₁])
    (by rw [hnode₁]) (by rw [hnode₁])).logs
  have hpeers : (s₁.hosts q).node.peers = c.peersOf q := by
    rw [hnode₁]
    exact (h.identity q hmem').2
  have hterm : (s₁.hosts q).node.campaign.req.term = T := by rw [hnode₁]; rfl
  have hlt : (s₁.hosts p).node.currentTerm < (s₁.hosts q).node.campaign.req.term := by
    rw [hother₁ p hne, hterm]
    exact hT
  have hsent : (s₁.hosts q).node.campaign.calls p = .sent := by
    refine if_pos ⟨hpeers ▸ c.nodup.mem_erase_iff.2 ⟨hne, hmem⟩, ?_⟩
    rw [hpeers, length_peersOf hmem']
    unfold quorumSize
    omega
  obtain ⟨hfollower, -, hlog, hoff⟩ := Locked.requestVote_follower hlt
  have hexec : exec c s₁ (.requestVote k p noFaults) = some ⟨p,
      ((s₁.hosts p).node.lock.requestVote (s₁.hosts q).node.campaign.req noFaults).1,
      s₁.setElection k ⟨q, (s₁.hosts q).epoch, { (s₁.hosts q).node.campaign with
        calls := Function.update (s₁.hosts q).node.campaign.calls p (replyPhase
          ((s₁.hosts p).node.lock.requestVote (s₁.hosts q).node.campaign.req noFaults).2) }⟩⟩ := by
    simp [exec, hk₁, hmem, hsent, guard]
  have hother : ∀ u, u ≠ p → _ := fun u hu => (exec_effect hexec).hosts_finish_other hu
  refine ⟨_, hb₁.trans (.of_exec hexec ⟨rfl, rfl⟩ hp), hlogs₁.trans fun u => ?_, ?_⟩
  · by_cases hu : u = p
    · subst hu
      rw [Cluster.node_finish]
      exact ⟨hlog, hoff⟩
    · rw [hother u hu]
      exact ⟨rfl, rfl⟩
  · rw [Cluster.node_finish]
    exact hfollower

/-- Whatever `p` is, the processes of `Q` can make it something else than a leader. -/
theorem Brings.follow (h : VoteInv c S s) (hsize : 2 ≤ c.addrs.length) (hp : p ∈ Q) (hq : q ∈ Q)
    (hmem : p ∈ c.addrs) (hmem' : q ∈ c.addrs) (hne : p ≠ q) :
    ∃ t, Brings c Q s t ∧ SameLogs s t ∧ (t.hosts p).node.role ≠ .leader := by
  by_cases hrole : (s.hosts p).node.role = .leader
  · obtain ⟨t, hb, hlogs, hq'⟩ : ∃ t, Brings c Q s t ∧ SameLogs s t ∧
        ((t.hosts q).node.role ≠ .leader ∨ (t.hosts p).node.role ≠ .leader) := by
      by_cases hrole' : (s.hosts q).node.role = .leader
      · -- of two leaders the one with the lower term steps down
        have hterms : (s.hosts p).node.currentTerm ≠ (s.hosts q).node.currentTerm := fun heq =>
          hne (h.won_unique hmem hmem' (h.leaders p hmem hrole) (heq ▸ h.leaders q hmem' hrole'))
        rcases Nat.lt_or_gt_of_ne hterms with hlt | hlt
        · obtain ⟨t, hb, helects, hdown, -⟩ := Brings.retire hp hq hmem hmem' hrole
            (h.identity p hmem).2 hlt
          exact ⟨t, hb, helects.logs, Or.inr (by rw [hdown]; exact Role.noConfusion)⟩
        · obtain ⟨t, hb, helects, hdown, -⟩ := Brings.retire hq hp hmem' hmem hrole'
            (h.identity q hmem').2 hlt
          exact ⟨t, hb, helects.logs, Or.inl (by rw [hdown]; exact Role.noConfusion)⟩
      · exact ⟨s, .refl s, fun _ => ⟨rfl, rfl⟩, Or.inl hrole'⟩
    rcases hq' with hq' | hp'
    · obtain ⟨S', h'⟩ := hb.voteInv h
      obtain ⟨t', hb', hlogs', hdown⟩ := Brings.challenge h' hsize hp hq hmem hmem' hne hq'
      exact ⟨t', hb.trans hb', hlogs.trans hlogs', by rw [hdown]; exact Role.noConfusion⟩
    · exact ⟨t, hb, hlogs, hp'⟩
  · exact ⟨s, .refl s, fun _ => ⟨rfl, rfl⟩, hrole⟩

theorem at_foldl_insert {ps : List String} {q : String} (x : Nat) (m : IndexMap) (hq : q ∈ ps) :
    IndexMap.at (ps.foldl (fun m p => m.insert p x) m) q = x := by
  have hkeep : ∀ (us : List String) (m : IndexMap), IndexMap.at m q = x →
      IndexMap.at (us.foldl (fun m p => m.insert p x) m) q = x := by
    intro us
    induction us with
    | nil => exact fun _ hm => hm
    | cons u us ih =>
        intro m hm
        refine ih _ ?_
        by_cases hu : u = q
        · subst hu
          exact IndexMap.at_insert m u x
        · unfold IndexMap.at at hm ⊢
          rw [AList.lookup_insert_ne (Ne.symm hu)]
          exact hm
  induction ps generalizing m with
  | nil => exact absurd hq List.not_mem_nil
  | cons u us ih =>
      rcases List.mem_cons.1 hq with rfl | hq
      · exact hkeep us _ (IndexMap.at_insert m q x)
      · exact ih _ hq

/-- A leader that has just been elected, in a term no entry of its log is from. -/
structure Node.Fresh (n : Node) (T : Nat) : Prop where
  role : n.role = .leader
  term : n.currentTerm = T
  next : ∀ q ∈ n.peers, n.nextIndex.at q = n.lastLogIndexLocked + 1
  new : ∀ e ∈ n.log, e.term < T

/-- A process with the best log of the majority `Q` can be elected, even if it leads already. -/
theorem Brings.electAgain (h : VoteInv c S s) (hsize : 2 ≤ c.addrs.length) (hQ : Q.Nodup)
    (hsub : ∀ q ∈ Q, q ∈ c.addrs) (hmaj : c.addrs.length < 2 * Q.length) (hp : p ∈ Q)
    (hup : ∀ q ∈ Q, s.UpToDate p q) :
    ∃ s', ∃ T : Nat, Brings c Q s s' ∧ SameLogs s s' ∧ (s'.hosts p).node.Fresh T ∧
      ∀ q ∈ Q, (s'.hosts q).node.currentTerm ≤ T := by
  obtain ⟨q, hq, hne⟩ : ∃ q ∈ Q, p ≠ q := by
    by_contra hno
    push Not at hno
    have hsub' : Q.length ≤ [p].length :=
      (hQ.subperm fun u hu => List.mem_singleton.2 (hno u hu).symm).length_le
    rw [List.length_singleton] at hsub'
    omega
  obtain ⟨t, hb, hlogs, hrole⟩ := Brings.follow h hsize hp hq (hsub p hp) (hsub q hq) hne
  obtain ⟨S', h'⟩ := hb.voteInv h
  obtain ⟨B, hB⟩ := exists_bound t Q
  obtain ⟨B', hB'⟩ : ∃ B', ∀ e ∈ (t.hosts p).node.log, e.term ≤ B' :=
    ⟨((t.hosts p).node.log.map LogEntry.term).toFinset.sup id, fun e he =>
      Finset.le_sup (f := id) (List.mem_toFinset.2 (List.mem_map_of_mem he))⟩
  obtain ⟨s', T, hb', helects, hT, hnode⟩ := Brings.elect hQ hsub hmaj hp
    (h'.identity p (hsub p hp)).2 hrole (fun u hu => hlogs.upToDate.2 (hup u hu)) (max B B')
    fun u hu => (hB u hu).trans (le_max_left _ _)
  refine ⟨s', T, hb.trans hb', hlogs.trans helects.logs, ⟨by rw [hnode]; rfl, by rw [hnode]; rfl,
    fun u hu => ?_, fun e he => ?_⟩, fun u hu => ?_⟩
  · rw [hnode] at hu ⊢
    exact at_foldl_insert _ _ hu
  · rw [(helects.logs p).1] at he
    exact lt_of_le_of_lt ((hB' e he).trans (le_max_right _ _)) hT
  · exact helects.terms_le (((hB u hu).trans (le_max_left _ _)).trans hT.le) (le_refl T)

/-! ## The command -/

/-- The leader accepts a command, and the call waits. -/
theorem Brings.accept (hp : p ∈ Q) (hmem : p ∈ c.addrs)
    (hrole : (s.hosts p).node.role = .leader) (command : List UInt8) :
    ∃ s', Brings c Q s s' ∧ (∀ u, u ≠ p → s'.hosts u = s.hosts u) ∧
      (s'.hosts p).node = { (s.hosts p).node with
        log := (s.hosts p).node.log ++ [⟨(s.hosts p).node.currentTerm,
          (s.hosts p).node.lastLogIndexLocked + 1, command⟩]
        waiters := (s.hosts p).node.waiters.insert ((s.hosts p).node.lastLogIndexLocked + 1)
          s.proposals.length } ∧
      s'.proposals = s.proposals ++ [⟨p, (s.hosts p).epoch,
        (s.hosts p).node.lastLogIndexLocked + 1, (s.hosts p).node.currentTerm, command, none,
        false⟩] := by
  have hsync : (s.hosts p).node.lock.proposeSync command s.proposals.length =
      (((s.hosts p).node.lock.appendLocalLocked command).modify fun n => { n with
        waiters := n.waiters.insert ((s.hosts p).node.lastLogIndexLocked + 1) s.proposals.length },
      .ok ((s.hosts p).node.lastLogIndexLocked + 1, (s.hosts p).node.currentTerm)) := by
    unfold Locked.proposeSync
    rw [if_neg (by simp [Node.lock, hrole])]
    rfl
  have hexec : exec c s (.proposeSync p command) = some ⟨p,
      ((s.hosts p).node.lock.appendLocalLocked command).modify fun n => { n with
        waiters := n.waiters.insert ((s.hosts p).node.lastLogIndexLocked + 1) s.proposals.length },
      { s with proposals := s.proposals ++ [⟨p, (s.hosts p).epoch,
        (s.hosts p).node.lastLogIndexLocked + 1, (s.hosts p).node.currentTerm, command, none,
        false⟩] }⟩ := by
    simp [exec, hmem, hsync, guard]
  have heff := exec_effect hexec
  exact ⟨_, .of_exec hexec ⟨trivial, rfl⟩ hp, fun u hu => heff.hosts_finish_other hu,
    Cluster.node_finish .., rfl⟩

end

/-! ## The leader's side of a reply -/

/-- The log holds an entry for every index up to the commit index that is not applied yet. -/
def Node.Ready (n : Node) : Prop :=
  ∀ j, n.lastApplied < j → j ≤ n.commitIndex → ∃ e, n.entryAtLocked j = some e ∧ e.index = j

namespace Locked

/-- Applying an entry concerns only who waits for its index. -/
theorem applyEntryLocked_waiters (s : Locked) (e : LogEntry) :
    ∃ w, (s.applyEntryLocked e).node = { s.node with waiters := w } ∧
      ∀ i, i ≠ e.index → w.lookup i = s.node.waiters.lookup i := by
  unfold applyEntryLocked
  dsimp only
  split
  · exact ⟨_, rfl, fun i hi => AList.lookup_erase_ne hi⟩
  · exact ⟨_, rfl, fun _ _ => rfl⟩

/-- Whoever waits for an entry that is applied is told. -/
theorem applyLoop_notifies {i ch : Nat} (fuel : Nat) (s : Locked) (hready : s.node.Ready)
    (hfuel : s.node.lastApplied + fuel = s.node.commitIndex)
    (hch : s.node.waiters.lookup i = some ch) (hlt : s.node.lastApplied < i)
    (hle : i ≤ s.node.commitIndex) : .notified ch none ∈ (applyLoop fuel s).events := by
  induction fuel generalizing s with
  | zero => omega
  | succ fuel ih =>
      obtain ⟨e, he, hindex⟩ := hready (s.node.lastApplied + 1) (by omega) (by omega)
      have hstep : applyLoop (fuel + 1) s = applyLoop fuel
          ((s.modify fun n => { n with lastApplied := n.lastApplied + 1 }).applyEntryLocked e) := by
        have he' : (s.modify fun n =>
            { n with lastApplied := n.lastApplied + 1 }).node.entryAtLocked
            (s.node.lastApplied + 1) = some e := he
        conv_lhs => unfold applyLoop
        rw [if_pos (by omega)]
        dsimp only [node_modify]
        dsimp only [node_modify] at he'
        rw [he']
      rw [hstep]
      by_cases hi : i = s.node.lastApplied + 1
      · -- the entry that is applied next
        have hmem : .notified ch none ∈ ((s.modify fun n =>
            { n with lastApplied := n.lastApplied + 1 }).applyEntryLocked e).events := by
          unfold applyEntryLocked
          have hch' : s.node.waiters.lookup e.index = some ch := by rw [hindex, ← hi]; exact hch
          simp [hch']
        obtain ⟨k, w, es, heq, -⟩ := applyLoop_frame fuel ((s.modify fun n =>
          { n with lastApplied := n.lastApplied + 1 }).applyEntryLocked e)
        rw [heq]
        exact List.mem_append_left _ hmem
      · obtain ⟨w, hnode, hw⟩ := (s.modify fun n =>
          { n with lastApplied := n.lastApplied + 1 }).applyEntryLocked_waiters e
        refine ih _ (fun j hj hj' => ?_) ?_ ?_ ?_ ?_
        · rw [hnode] at hj hj' ⊢
          exact hready j (by simp only [node_modify] at hj; omega) hj'
        · rw [hnode]
          simp only [node_modify]
          omega
        · rw [hnode]
          dsimp only
          rw [hw i (by omega)]
          exact hch
        · rw [hnode]
          simp only [node_modify]
          omega
        · rw [hnode]
          exact hle

theorem applyCommittedLocked_notifies {i ch : Nat} (s : Locked) (hready : s.node.Ready)
    (hch : s.node.waiters.lookup i = some ch) (hlt : s.node.lastApplied < i)
    (hle : i ≤ s.node.commitIndex) : .notified ch none ∈ s.applyCommittedLocked.events := by
  have hmem := applyLoop_notifies (s.node.commitIndex - s.node.lastApplied) s hready (by omega) hch
    hlt hle
  unfold applyCommittedLocked
  dsimp only
  split
  · exact hmem
  · exact hmem

/-- The commit rule does nothing, or it commits an entry and tells who waits for what is applied
then. -/
theorem advanceLoop_cases (s : Locked) (M : Nat) :
    s.advanceLoop M = s ∨ ∃ N k w wake es, N ≤ M ∧ s.node.commitIndex < N ∧ s.node.Evidence N ∧
      s.advanceLoop M = ⟨{ s.node with
        commitIndex := N, lastApplied := k, waiters := w, applyWake := wake }, s.writes,
        s.events ++ .advancedCommit { s.node with commitIndex := N } :: es⟩ ∧
      (∀ x ∈ es, (∃ msg, x = .applied msg) ∨ ∃ ch, x = .notified ch none) ∧
      (({ s.node with commitIndex := N } : Node).Ready → ∀ i ch,
        s.node.waiters.lookup i = some ch → s.node.lastApplied < i → i ≤ N →
        .notified ch none ∈ (s.advanceLoop M).events) := by
  induction M with
  | zero => exact Or.inl rfl
  | succ M ih =>
      unfold advanceLoop
      split
      · rename_i hlt
        split
        · rename_i hev
          dsimp only
          obtain ⟨k, w, wake, es, heq, -, hes⟩ := applyCommittedLocked_frame
            ((s.modify fun n => { n with commitIndex := M + 1 }).emit
              [.advancedCommit (s.modify fun n => { n with commitIndex := M + 1 }).node])
          refine Or.inr ⟨M + 1, k, w, wake, es, le_refl _, hlt, hev, ?_, fun x hx => ?_, ?_⟩
          · rw [heq]
            simp
          · refine (hes x hx).imp_right ?_
            rintro ⟨-, -, ch, -, -, -, rfl⟩
            exact ⟨ch, rfl⟩
          · exact fun hready i ch hch hi hi' =>
              applyCommittedLocked_notifies _ hready hch hi hi'
        · rcases ih with heq | ⟨N, k, w, wake, es, hN, hrest⟩
          · exact Or.inl heq
          · exact Or.inr ⟨N, k, w, wake, es, hN.trans (Nat.le_succ M), hrest⟩
      · exact Or.inl rfl

theorem advanceLoop_keeps (s : Locked) (M : Nat) :
    (s.advanceLoop M).node.role = s.node.role ∧
      (s.advanceLoop M).node.nextIndex = s.node.nextIndex := by
  rcases s.advanceLoop_cases M with heq | ⟨N, k, w, wake, es, -, -, -, heq, -⟩
  · rw [heq]
    exact ⟨rfl, rfl⟩
  · rw [heq]
    exact ⟨rfl, rfl⟩

/-- The commit rule tells nobody anything but that their entry is committed. -/
theorem advanceLoop_outcomes (n : Node) (M : Nat) {ch : Nat} {outcome : Option RaftError}
    (h : .notified ch outcome ∈ (n.lock.advanceLoop M).events) : outcome = none := by
  rcases n.lock.advanceLoop_cases M with heq | ⟨N, k, w, wake, es, -, -, -, heq, hes, -⟩
  · rw [heq] at h
    exact absurd h List.not_mem_nil
  · rw [heq] at h
    rcases List.mem_cons.1 h with hx | hx
    · cases hx
    · rcases hes _ hx with ⟨msg, hx⟩ | ⟨ch', hx⟩
      · cases hx
      · cases hx
        rfl

/-- If the entry at `i` is the only one there can be evidence for, the commit rule does nothing or
tells who waits for it. -/
theorem advanceLoop_tells {n : Node} {i : Nat} (M : Nat) (happlied : n.lastApplied = n.commitIndex)
    (hready : ∀ j, 0 < j → j ≤ i → ∃ e, n.entryAtLocked j = some e ∧ e.index = j)
    (honly : ∀ N, n.Evidence N → N = i) :
    n.lock.advanceLoop M = n.lock ∨ n.commitIndex < i ∧
      ∀ ch, n.waiters.lookup i = some ch → .notified ch none ∈ (n.lock.advanceLoop M).events := by
  rcases n.lock.advanceLoop_cases M with heq | ⟨N, k, w, wake, es, -, hlt, hev, -, -, htell⟩
  · exact Or.inl heq
  · obtain rfl := honly N hev
    have hlt' : n.commitIndex < N := hlt
    refine Or.inr ⟨hlt', fun ch hch => htell (fun j hj hle => ?_) N ch hch ?_ (le_refl N)⟩
    · exact hready j (Nat.zero_lt_of_lt hj) hle
    · exact happlied ▸ hlt'

end Locked

/-! ## What a call is told -/

section

variable {es : List NodeEvent} {ps : List Proposal} {k : Nat} {call : Proposal}

/-- A call that no value is sent to stays what it is. -/
theorem notifyAll_of_notMem (hk : ps[k]? = some call) (hno : ∀ outcome, .notified k outcome ∉ es) :
    ∃ call', (es.foldl Cluster.notify ps)[k]? = some call' ∧ SameCall call call' ∧
      call'.chan = call.chan := by
  have hself : SameCalls ps ps := rfl
  obtain ⟨call', hk', -⟩ := hself.stays es hk
  obtain ⟨call₀, hk₀, hsame, hchan⟩ := notifyAll_getElem? hk'
  obtain rfl : call = call₀ := Option.some.inj (hk.symm.trans hk₀)
  refine ⟨call', hk', hsame, hchan.resolve_right ?_⟩
  rintro ⟨outcome, hmem, -⟩
  exact hno outcome hmem

/-- A call that is only ever told `nil`. -/
theorem notifyAll_of_mem (hk : ps[k]? = some call)
    (hall : ∀ outcome, .notified k outcome ∈ es → outcome = none)
    (hmem : call.chan = some none ∨ .notified k none ∈ es) :
    ∃ call', (es.foldl Cluster.notify ps)[k]? = some call' ∧ SameCall call call' ∧
      call'.chan = some none := by
  induction es generalizing ps call with
  | nil => exact ⟨call, hk, .refl call, hmem.resolve_right List.not_mem_nil⟩
  | cons x es ih =>
      have hrest : ∀ outcome, .notified k outcome ∈ es → outcome = none := fun outcome h =>
        hall outcome (List.mem_cons_of_mem x h)
      by_cases hx : x = .notified k none
      · subst hx
        have hk₁ : (Cluster.notify ps (.notified k none))[k]? =
            some { call with chan := some none } := by
          simp [Cluster.notify, hk]
        obtain ⟨call', hk', hsame, hchan⟩ := ih hk₁ hrest (Or.inl rfl)
        exact ⟨call', hk', ⟨hsame.leader, hsame.index, hsame.term, hsame.entry⟩, hchan⟩
      · have hother : ∀ outcome, .notified k outcome ∉ [x] := by
          intro outcome hin
          obtain rfl := List.mem_singleton.1 hin
          exact hx (by rw [hall outcome (List.mem_cons_self ..)])
        obtain ⟨call₁, hk₁, hsame₁, hchan₁⟩ := notifyAll_of_notMem hk hother
        have hmem₁ : call₁.chan = some none ∨ .notified k none ∈ es := by
          refine hmem.imp (fun h => hchan₁.trans h) fun h => ?_
          exact (List.mem_cons.1 h).resolve_left (Ne.symm hx)
        obtain ⟨call', hk', hsame, hchan⟩ := ih hk₁ hrest hmem₁
        exact ⟨call', hk', hsame₁.trans hsame, hchan⟩

end

/-! ## One round of repair -/

theorem IndexMap.at_insert_of_ne {m : IndexMap} {p q : String} (k : Nat) (h : q ≠ p) :
    IndexMap.at (m.insert p k) q = IndexMap.at m q := by
  unfold IndexMap.at
  rw [AList.lookup_insert_ne h]

/-- A request that is not stale is answered in its own term. -/
theorem Node.receive_term {f : Node} {req : AppendEntriesRequest} {reply : AppendEntriesReply}
    (hT : f.currentTerm ≤ req.term) (h : (f.receive req).2 = .ok reply) :
    reply.term = req.term := by
  obtain ⟨s, -, -, hterm, hreceive⟩ := Node.receive_of_le hT
  rw [hreceive] at h
  cases hcheck : s.node.checkPrev req with
  | none =>
      rw [hcheck] at h
      obtain rfl := Except.ok.inj h
      rfl
  | some rejection =>
      rw [hcheck] at h
      obtain rfl := Except.ok.inj h
      rw [← hterm]
      unfold Node.checkPrev at hcheck
      split at hcheck
      · split at hcheck
        · obtain rfl := Option.some.inj hcheck
          rfl
        · split at hcheck
          · obtain rfl := Option.some.inj hcheck
            rfl
          · exact absurd hcheck (by simp)
      · exact absurd hcheck (by simp)

/-- Requests go up to the end of the log. -/
theorem Node.buildAppendEntriesRequest_covers {n : Node} {q : String} (hoff : n.logOffset = 0)
    (hnext : 0 < n.nextIndex.at q) :
    n.log.length ≤ (n.buildAppendEntriesRequest q).prevIndex +
      (n.buildAppendEntriesRequest q).numEntries := by
  unfold Node.buildAppendEntriesRequest
  dsimp only
  rw [if_neg (by omega), Node.filterMap_entryAtLocked n (by omega), List.length_drop, hoff]
  omega

/-- What the leader makes of a success. -/
theorem Locked.handleAppendEntriesReplyLocked_success {n : Node} {q : String} {prev num : Nat}
    {reply : AppendEntriesReply} (hT : reply.term = n.currentTerm) (hs : reply.success = true) :
    n.lock.handleAppendEntriesReplyLocked q prev num reply false =
      (n.recordMatch q (prev + num)).lock.advanceLoop n.lastLogIndexLocked := by
  unfold Locked.handleAppendEntriesReplyLocked
  rw [if_neg (by rw [hT]; exact lt_irrefl _), if_pos hs]
  rfl

section

variable {n : Node} {L : List LogEntry} {e : LogEntry}

theorem Node.recordMatch_eq (n : Node) (q : String) (m : Nat) :
    ∃ mi ni, n.recordMatch q m = { n with matchIndex := mi, nextIndex := ni } :=
  ⟨_, _, rfl⟩

theorem Node.at_recordMatch (n : Node) (q : String) (m : Nat) :
    m ≤ (n.recordMatch q m).matchIndex.at q ∧
      ∀ u, n.matchIndex.at u ≤ (n.recordMatch q m).matchIndex.at u := by
  unfold Node.recordMatch
  dsimp only
  split
  · rename_i hlt
    refine ⟨(IndexMap.at_insert ..).ge, fun u => ?_⟩
    by_cases hu : u = q
    · subst hu
      rw [IndexMap.at_insert]
      exact hlt.le
    · rw [IndexMap.at_insert_of_ne _ hu]
  · exact ⟨by omega, fun _ => le_refl _⟩

theorem Node.next_recordMatch (n : Node) (q : String) (m : Nat) {u : String} (hu : u ≠ q) :
    (n.recordMatch q m).nextIndex.at u = n.nextIndex.at u := by
  unfold Node.recordMatch
  dsimp only
  split
  · exact IndexMap.at_insert_of_ne _ hu
  · rfl

/-- The entries of a log that is not compacted. -/
theorem Node.entryAtLocked_whole (hoff : n.logOffset = 0) {j : Nat} (hj : 0 < j) :
    n.entryAtLocked j = n.log[j - 1]? :=
  Node.entryAtLocked_eq (by rw [hoff]; exact .full _) hj (Or.inl hoff)

/-- The only entry of its term. -/
theorem eq_of_term (hlog : n.log = L ++ [e]) (hoff : n.logOffset = 0)
    (hnew : ∀ x ∈ L, x.term < e.term) {N : Nat}
    (h : (n.entryAtLocked N).map LogEntry.term = some e.term) : N = L.length + 1 := by
  obtain ⟨x, hx, hterm⟩ := Option.map_eq_some_iff.1 h
  obtain ⟨hpos, hle⟩ := Node.inside_of_entryAtLocked hx
  rw [Node.entryAtLocked_whole hoff (by omega), hlog] at hx
  unfold Node.lastLogIndexLocked at hle
  rw [hlog, hoff, List.length_append, List.length_singleton] at hle
  by_contra hne
  rw [List.getElem?_append_left (by omega)] at hx
  exact absurd (hnew x (List.mem_of_getElem? hx)) (by omega)

end

/-- A call that the leader `p` has accepted with the entry `e`: it waits for it, or has been told
that it is committed. -/
def Pending (s : Cluster) (p : String) (k : Nat) (e : LogEntry) : Prop :=
  ∃ call, s.proposals[k]? = some call ∧ call.leader = p ∧ call.entry = e ∧
    (call.chan = some none ∨ call.chan = none ∧
      (s.hosts p).node.waiters.lookup e.index = some k ∧ (s.hosts p).node.commitIndex < e.index)

/-- The leader `p` has `e` at the end of its log, the first entry of its term.  The processes in
`done` have acknowledged it; those in `todo` have logs that can be repaired. -/
structure Spreading (c : Config) (L : List LogEntry) (e : LogEntry) (s : Cluster) (p : String)
    (k : Nat) (todo done : List String) : Prop where
  role : (s.hosts p).node.role = .leader
  term : (s.hosts p).node.currentTerm = e.term
  peers : (s.hosts p).node.peers = c.peersOf p
  log : (s.hosts p).node.log = L ++ [e]
  offset : (s.hosts p).node.logOffset = 0
  pending : Pending s p k e
  evident : done ≠ [] → (s.hosts p).node.Evidence e.index →
    e.index ≤ (s.hosts p).node.commitIndex
  acked : ∀ q ∈ done, e.index ≤ (s.hosts p).node.matchIndex.at q
  rest : ∀ q ∈ todo, (s.hosts q).node.currentTerm ≤ e.term ∧ (s.hosts q).node.logOffset = 0 ∧
    0 < (s.hosts p).node.nextIndex.at q ∧
    Repairable (L ++ [e]) (s.hosts q).node.log ((s.hosts p).node.nextIndex.at q - 1)

section

variable {c : Config} {Q : List String} {a : Model} {s s' : Cluster} {p q : String} {k : Nat}
  {L : List LogEntry} {e : LogEntry} {todo done : List String}

/-- What the follower does tells nobody who waits at the leader. -/
theorem Exchanged.unheard (h : Promises c a s) (hne : q ≠ p) {call : Proposal}
    (hk : s.proposals[k]? = some call) (hleader : call.leader = p) (req : AppendEntriesRequest)
    (outcome : Option RaftError) :
    .notified k outcome ∉ ((s.hosts q).node.receive req).1.events := by
  intro hmem
  obtain ⟨-, es, heq, hes⟩ := Locked.Routine.appendEntries (s.hosts q).node.lock req noFaults
  have hin : .notified k outcome ∈ es := by
    have hmem' : .notified k outcome ∈
        ((s.hosts q).node.lock.appendEntries req noFaults).1.events := hmem
    rw [heq] at hmem'
    exact hmem'
  obtain ⟨i, hi⟩ := hes _ hin
  obtain ⟨-, -, call', hk', hleader', -⟩ := h.waiting q i k hi
  obtain rfl : call = call' := Option.some.inj (hk.symm.trans hk')
  exact hne (hleader'.symm.trans hleader)

/-- The processes that are not involved are as they were, seen from the leader too. -/
theorem Spreading.rest_of_others (h : Spreading c L e s p k (q :: todo) done)
    (hnd : (q :: todo).Nodup) (hp : p ∉ q :: todo) (hex : Exchanged s s' p q)
    (hnext : ∀ u, u ≠ q → (s'.hosts p).node.nextIndex.at u = (s.hosts p).node.nextIndex.at u) :
    ∀ u ∈ todo, (s'.hosts u).node.currentTerm ≤ e.term ∧ (s'.hosts u).node.logOffset = 0 ∧
      0 < (s'.hosts p).node.nextIndex.at u ∧
      Repairable (L ++ [e]) (s'.hosts u).node.log ((s'.hosts p).node.nextIndex.at u - 1) := by
  intro u hu
  have huq : u ≠ q := fun heq => (List.nodup_cons.1 hnd).1 (heq ▸ hu)
  have hup : u ≠ p := fun heq => hp (heq ▸ List.mem_cons_of_mem q hu)
  rw [hex.others u hup huq, hnext u huq]
  exact h.rest u (List.mem_cons_of_mem q hu)

/-- The two face each other. -/
theorem Spreading.facing (h : Spreading c L e s p k (q :: todo) done) (hv : ClusterView c a s)
    (hmem : p ∈ c.addrs) (hmem' : q ∈ c.addrs) :
    Facing q (s.hosts p).node (s.hosts q).node := by
  obtain ⟨hterm, hoff, hnext, -⟩ := h.rest q (List.mem_cons_self ..)
  exact ⟨h.offset, hoff, hv.coexist hmem hmem' h.offset hoff, by rw [h.term]; exact hterm, hnext⟩

/-- The follower rejects the request, and the leader moves back. -/
theorem Spreading.rejected (h : Spreading c L e s p k (q :: todo) done) (hnd : (q :: todo).Nodup)
    (hp : p ∉ q :: todo) (hprom : Promises c a s)
    (hface : Facing q (s.hosts p).node (s.hosts q).node) (hex : Exchanged s s' p q)
    {j : Nat} (hj : nextPrev (s.hosts p).node.log (s.hosts q).node.log
      ((s.hosts p).node.nextIndex.at q - 1) = some j) :
    Spreading c L e s' p k (q :: todo) done ∧
      (s'.hosts p).node.nextIndex.at q < (s.hosts p).node.nextIndex.at q := by
  have hne : q ≠ p := fun heq => hp (heq ▸ List.mem_cons_self ..)
  obtain ⟨hterm, hoff, hnext, hrep⟩ := h.rest q (List.mem_cons_self ..)
  have hback : j < (s.hosts p).node.nextIndex.at q - 1 ∧
      Repairable (L ++ [e]) (s.hosts q).node.log j := by
    have hlogs := hface.logs
    rw [h.log] at hlogs hj
    exact hlogs.repairable_iff.1 hrep j hj
  rcases hface.exchange_cases with ⟨hnone, -⟩ | ⟨j', hj', hfalse, hl, hlog, hoff', hterm'⟩
  · rw [hj] at hnone
    exact absurd hnone (by simp)
  obtain rfl : j = j' := Option.some.inj (hj.symm.trans hj')
  have hleader := hex.leader.trans hl
  have hat : (s'.hosts p).node.nextIndex.at q = j + 1 := by
    rw [hleader]
    exact IndexMap.at_insert ..
  obtain ⟨reply, hreply, hprops⟩ := hex.proposals
  have hsilent : ((s.hosts p).node.lock.handleAppendEntriesReplyLocked q
      ((s.hosts p).node.buildAppendEntriesRequest q).prevIndex
      ((s.hosts p).node.buildAppendEntriesRequest q).numEntries reply false).events = [] := by
    have hrt : reply.term = (s.hosts p).node.currentTerm := Node.receive_term hface.term hreply
    have hrej : reply.success = false := by
      rw [exchange_eq hreply] at hfalse
      exact hfalse
    unfold Locked.handleAppendEntriesReplyLocked
    rw [if_neg (by rw [hrt]; exact lt_irrefl _), if_neg (by rw [hrej]; exact Bool.false_ne_true)]
    rfl
  rw [hsilent] at hprops
  obtain ⟨call, hk, hcl, hentry, hchan⟩ := h.pending
  obtain ⟨call', hk', hsame, hchan'⟩ := notifyAll_of_notMem hk
    (Exchanged.unheard hprom hne hk hcl ((s.hosts p).node.buildAppendEntriesRequest q).req)
  have hmap : ∀ u, u ≠ q → (s'.hosts p).node.nextIndex.at u = (s.hosts p).node.nextIndex.at u := by
    intro u hu
    rw [hleader]
    exact IndexMap.at_insert_of_ne _ hu
  refine ⟨⟨by rw [hleader]; exact h.role, by rw [hleader]; exact h.term,
    by rw [hleader]; exact h.peers, by rw [hleader]; exact h.log, by rw [hleader]; exact h.offset,
    ⟨call', hprops ▸ hk', hsame.leader.trans hcl, hsame.entry.trans hentry, ?_⟩, ?_, ?_, ?_⟩, ?_⟩
  · rw [hchan', hleader]
    exact hchan
  · rw [hleader]
    exact h.evident
  · rw [hleader]
    exact h.acked
  · intro u hu
    rcases List.mem_cons.1 hu with rfl | hu
    · rw [hat, hex.follower, hlog, hoff', hterm']
      exact ⟨h.term.le, rfl, Nat.succ_pos j, hback.2⟩
    · exact h.rest_of_others hnd hp hex hmap u hu
  · omega

/-- The log of a member that has not compacted it. -/
theorem ClusterView.log_whole (h : ClusterView c a s) (hp : p ∈ c.addrs)
    (hoff : (s.hosts p).node.logOffset = 0) : (s.hosts p).node.log = a.log p := by
  rcases (h.nodes p hp).log with ⟨-, hlog⟩ | ⟨hpos, -⟩
  · exact hlog
  · omega

/-- The follower accepts the request, and the leader looks whether that commits the entry. -/
theorem Spreading.accepted (h : Spreading c L e s p k (q :: todo) done) (hnd : (q :: todo).Nodup)
    (hp : p ∉ q :: todo) (hv : ClusterView c a s) (hprom : Promises c a s) (hmem : p ∈ c.addrs)
    (hface : Facing q (s.hosts p).node (s.hosts q).node) (hex : Exchanged s s' p q)
    (hnew : ∀ x ∈ L, x.term < e.term) (hindex : e.index = L.length + 1)
    (hj : nextPrev (s.hosts p).node.log (s.hosts q).node.log
      ((s.hosts p).node.nextIndex.at q - 1) = none) :
    Spreading c L e s' p k todo (q :: done) := by
  have hne : q ≠ p := fun heq => hp (heq ▸ List.mem_cons_self ..)
  have hlast : (s.hosts p).node.lastLogIndexLocked = e.index := by
    unfold Node.lastLogIndexLocked
    rw [h.offset, h.log, List.length_append, List.length_singleton, hindex, Nat.zero_add]
  obtain ⟨reply, hreply, hprops⟩ := hex.proposals
  have hok : reply.success = true := by
    rcases hface.exchange_cases with ⟨-, htrue, -⟩ | ⟨j, hj', -⟩
    · rw [exchange_eq hreply] at htrue
      exact htrue
    · rw [hj] at hj'
      exact absurd hj' (by simp)
  have hrt : reply.term = (s.hosts p).node.currentTerm := Node.receive_term hface.term hreply
  have hleader := hex.leader
  rw [exchange_eq hreply] at hleader
  dsimp only at hleader
  rw [Locked.handleAppendEntriesReplyLocked_success hrt hok, hlast] at hleader hprops
  have hcover := Node.buildAppendEntriesRequest_covers h.offset hface.next
  generalize ((s.hosts p).node.buildAppendEntriesRequest q).prevIndex +
    ((s.hosts p).node.buildAppendEntriesRequest q).numEntries = m at hleader hprops hcover
  obtain ⟨hge, hmono⟩ := (s.hosts p).node.at_recordMatch q m
  have hnext : ∀ u, u ≠ q → _ := fun u hu => (s.hosts p).node.next_recordMatch q m hu
  obtain ⟨mi, ni, hn₀⟩ := (s.hosts p).node.recordMatch_eq q m
  rw [hn₀] at hleader hprops hge hmono hnext
  -- the node once the reply is recorded
  obtain ⟨n, hn⟩ : ∃ n : Node, n = { (s.hosts p).node with matchIndex := mi, nextIndex := ni } :=
    ⟨_, rfl⟩
  rw [← hn] at hleader hprops
  have honly : ∀ N, n.Evidence N → N = e.index := by
    intro N hN
    have hterm := hN.1
    rw [hn] at hterm
    exact hindex ▸ eq_of_term h.log h.offset hnew (hterm.trans (congrArg some h.term))
  have hplaced : Placed (s.hosts p).node.log := by
    rw [hv.log_whole hmem h.offset]
    exact placed_log hv.reach p
  have hready : ∀ j, 0 < j → j ≤ e.index → ∃ x, n.entryAtLocked j = some x ∧ x.index = j := by
    intro j hpos hle
    have hj : (s.hosts p).node.entryAtLocked j = (s.hosts p).node.log[j - 1]? :=
      Node.entryAtLocked_whole h.offset hpos
    have hlen : j - 1 < (s.hosts p).node.log.length := by
      rw [h.log, List.length_append, List.length_singleton]
      omega
    have hx := List.getElem?_eq_getElem hlen
    refine ⟨_, by rw [hn]; exact hj.trans hx, ?_⟩
    rw [hplaced _ _ hx]
    omega
  have happlied : n.lastApplied = n.commitIndex := by rw [hn]; exact (hv.nodes p hmem).applied
  obtain ⟨hsame, -, hscan, -⟩ := n.lock.advanceLoop_evidence e.index
  obtain ⟨hrole, hnext'⟩ := n.lock.advanceLoop_keeps e.index
  have htells := Locked.advanceLoop_tells e.index happlied hready honly
  have hmi : (s'.hosts p).node.matchIndex = mi := by rw [hleader, hsame.matchIndex]; exact hn ▸ rfl
  have hni : (s'.hosts p).node.nextIndex = ni := by rw [hleader, hnext']; exact hn ▸ rfl
  refine ⟨?_, ?_, ?_, ?_, ?_, ?_, fun _ hev => ?_, fun u hu => ?_, ?_⟩
  · rw [hleader, hrole]
    exact hn ▸ h.role
  · rw [hleader, hsame.currentTerm]
    exact hn ▸ h.term
  · rw [hleader, hsame.peers]
    exact hn ▸ h.peers
  · rw [hleader, hsame.log]
    exact hn ▸ h.log
  · rw [hleader, hsame.logOffset]
    exact hn ▸ h.offset
  · obtain ⟨call, hk, hcl, hentry, hchan⟩ := h.pending
    obtain ⟨call₁, hk₁, hsame₁, hchan₁⟩ := notifyAll_of_notMem hk
      (Exchanged.unheard hprom hne hk hcl ((s.hosts p).node.buildAppendEntriesRequest q).req)
    have hwait : n.waiters = (s.hosts p).node.waiters := hn ▸ rfl
    have hcommit : n.commitIndex = (s.hosts p).node.commitIndex := hn ▸ rfl
    rcases htells with heq | ⟨-, htell⟩
    · -- the entry is not committed yet
      rw [heq] at hprops hleader
      refine ⟨call₁, hprops ▸ hk₁, hsame₁.leader.trans hcl, hsame₁.entry.trans hentry, ?_⟩
      rw [hchan₁, hleader]
      exact hchan.imp_right fun ⟨hnone, hlook, hlt⟩ => ⟨hnone, hwait ▸ hlook, hcommit ▸ hlt⟩
    · obtain ⟨call₂, hk₂, hsame₂, hchan₂⟩ := notifyAll_of_mem hk₁
        (fun outcome => Locked.advanceLoop_outcomes n e.index) (hchan.imp (fun h => hchan₁.trans h)
          fun ⟨_, hlook, _⟩ => htell k (hwait ▸ hlook))
      exact ⟨call₂, hprops ▸ hk₂, (hsame₁.trans hsame₂).leader.trans hcl,
        (hsame₁.trans hsame₂).entry.trans hentry, Or.inl hchan₂⟩
  · rw [hleader] at hev ⊢
    exact hscan e.index (le_refl _) (hsame.iff.1 hev)
  · rw [hmi]
    rcases List.mem_cons.1 hu with rfl | hu
    · rw [h.log, List.length_append, List.length_singleton] at hcover
      exact (hindex.trans_le hcover).trans hge
    · exact (h.acked u hu).trans (hmono u)
  · refine h.rest_of_others hnd hp hex fun u hu => ?_
    rw [hni]
    exact hnext u hu

/-! ## All of the majority -/

/-- What is known of every state that a run with safe snapshots leads to. -/
def Viewed (c : Config) (s : Cluster) : Prop := ∃ a, ClusterView c a s ∧ Promises c a s

theorem Brings.safe (hb : Brings c Q s s') :
    ∃ bs, Runs.Along (step c) Safe s bs ∧ Runs.exec (step c) s bs = some s' := by
  obtain ⟨bs, hsmooth, hrun, -⟩ := hb
  exact ⟨bs, .of_forall fun act hact t => (hsmooth act hact).plain.safe t,
    run_eq_exec c s bs ▸ hrun⟩

theorem Brings.viewed (hb : Brings c Q s s') (h : Viewed c s) : Viewed c s' := by
  obtain ⟨bs, hsafe, hrun⟩ := hb.safe
  refine Runs.invariant (I := Viewed c) ?_ h hsafe hrun
  rintro t act t' ⟨a, hv, hprom⟩ hsafe hs
  obtain ⟨a', -, hv', hprom'⟩ := hprom.step hv hsafe hs
  exact ⟨a', hv', hprom'⟩

/-- Every call is still there. -/
theorem Brings.calls_le (hb : Brings c Q s s') (h : Viewed c s) :
    s.proposals.length ≤ s'.proposals.length := by
  obtain ⟨bs, hsafe, hrun⟩ := hb.safe
  refine (Runs.invariant (I := fun t => Viewed c t ∧ s.proposals.length ≤ t.proposals.length) ?_
    ⟨h, le_refl _⟩ hsafe hrun).2
  rintro t act t' ⟨⟨a, hv, hprom⟩, hle⟩ hsafe hs
  obtain ⟨a', -, hv', hprom'⟩ := hprom.step hv hsafe hs
  refine ⟨⟨a', hv', hprom'⟩, hle.trans ?_⟩
  by_contra hlt
  obtain ⟨call', hk', -⟩ := step_call_stays (hprom.waited hv) hs
    (List.getElem?_eq_getElem (Nat.lt_of_not_le hlt))
  exact absurd (List.getElem?_eq_some_iff.1 hk').1 (lt_irrefl _)

/-- Round after round, the follower accepts the entry in the end. -/
theorem Spreading.repair (next : Nat) (h : Spreading c L e s p k (q :: todo) done)
    (hat : (s.hosts p).node.nextIndex.at q = next) (hview : Viewed c s) (hnd : (q :: todo).Nodup)
    (hp : p ∉ q :: todo) (hpQ : p ∈ Q) (hqQ : q ∈ Q) (hmem : p ∈ c.addrs) (hmem' : q ∈ c.addrs)
    (hnew : ∀ x ∈ L, x.term < e.term) (hindex : e.index = L.length + 1) :
    ∃ s', Brings c Q s s' ∧ Spreading c L e s' p k todo (q :: done) := by
  induction next using Nat.strong_induction_on generalizing s with
  | h next ih =>
      obtain ⟨a, hv, hprom⟩ := id hview
      have hne : q ≠ p := fun heq => hp (heq ▸ List.mem_cons_self ..)
      have hface := h.facing hv hmem hmem'
      obtain ⟨s₁, hb, hex⟩ := Brings.exchange hpQ hqQ hmem hmem' hne h.role
        (h.peers ▸ c.nodup.mem_erase_iff.2 ⟨hne, hmem'⟩)
      cases hj : nextPrev (s.hosts p).node.log (s.hosts q).node.log
          ((s.hosts p).node.nextIndex.at q - 1) with
      | none => exact ⟨s₁, hb, h.accepted hnd hp hv hprom hmem hface hex hnew hindex hj⟩
      | some j =>
          obtain ⟨h₁, hlt⟩ := h.rejected hnd hp hprom hface hex hj
          obtain ⟨s', hb', h'⟩ := ih _ (hat ▸ hlt) h₁ rfl (hb.viewed hview)
          exact ⟨s', hb.trans hb', h'⟩

/-- One follower after the other accepts the entry. -/
theorem Spreading.spread (h : Spreading c L e s p k todo done) (hview : Viewed c s)
    (hnd : todo.Nodup) (hp : p ∉ todo) (hpQ : p ∈ Q) (htodo : ∀ q ∈ todo, q ∈ Q)
    (hsub : ∀ q ∈ Q, q ∈ c.addrs) (hnew : ∀ x ∈ L, x.term < e.term)
    (hindex : e.index = L.length + 1) :
    ∃ s', Brings c Q s s' ∧ Spreading c L e s' p k [] (todo.reverse ++ done) := by
  induction todo generalizing s done with
  | nil => exact ⟨s, .refl s, h⟩
  | cons q todo ih =>
      have hq := htodo q (List.mem_cons_self ..)
      obtain ⟨s₁, hb, h₁⟩ := h.repair _ rfl hview hnd hp hpQ hq (hsub p hpQ) (hsub q hq) hnew hindex
      obtain ⟨s', hb', h'⟩ := ih h₁ (hb.viewed hview) (List.nodup_cons.1 hnd).2
        (fun hin => hp (List.mem_cons_of_mem q hin))
        (fun u hu => htodo u (List.mem_cons_of_mem q hu))
      refine ⟨s', hb.trans hb', ?_⟩
      rw [List.reverse_cons, List.append_assoc]
      exact h'

/-- Whoever has acknowledged the entry is counted. -/
theorem le_matchCount {n : Node} {V : List String} {i : Nat} (hV : V.Nodup) (hi : 0 < i)
    (h : ∀ q ∈ V, i ≤ n.matchIndex.at q) : 1 + V.length ≤ Locked.matchCount n i := by
  have hsub : V ⊆ (n.matchIndex.entries.filter fun m => i ≤ m.2).map Sigma.fst := by
    intro q hq
    have hle := h q hq
    unfold IndexMap.at at hle
    cases hlook : n.matchIndex.lookup q with
    | none =>
        rw [hlook, Option.getD_none] at hle
        omega
    | some m =>
        rw [hlook, Option.getD_some] at hle
        exact List.mem_map.2 ⟨⟨q, m⟩, List.mem_filter.2 ⟨AList.mem_lookup_iff.1 hlook,
          decide_eq_true hle⟩, rfl⟩
  have hlen := (hV.subperm hsub).length_le
  rw [List.length_map] at hlen
  unfold Locked.matchCount
  omega

/-- Once a majority has acknowledged the entry, the call has been told. -/
theorem Spreading.told (h : Spreading c L e s p k [] done) (hdone : done.Nodup)
    (hmaj : quorumSize c.addrs.length ≤ 1 + done.length) (hsome : done ≠ [])
    (hmem : p ∈ c.addrs) (hindex : e.index = L.length + 1) :
    ∃ call, s.proposals[k]? = some call ∧ call.leader = p ∧ call.entry = e ∧
      call.chan = some none := by
  have hev : (s.hosts p).node.Evidence e.index := by
    constructor
    · rw [Node.entryAtLocked_whole h.offset (by omega), h.log, hindex, Nat.add_sub_cancel,
        List.getElem?_concat_length, h.term]
      rfl
    · rw [h.peers, length_peersOf hmem]
      exact hmaj.trans (le_matchCount hdone (by omega) h.acked)
  obtain ⟨call, hk, hcl, hentry, hchan⟩ := h.pending
  refine ⟨call, hk, hcl, hentry, hchan.resolve_right ?_⟩
  rintro ⟨-, -, hlt⟩
  exact absurd (h.evident hsome hev) (by omega)

end

/-- A longer log has more terms. -/
theorem Repairable.append {L F : List LogEntry} {prev : Nat} (h : Repairable L F prev)
    (es : List LogEntry) : Repairable (L ++ es) F prev := by
  have hterm : ∀ t, HasTerm L t → HasTerm (L ++ es) t := fun t ⟨e, he, ht⟩ =>
    ⟨e, List.mem_append_left es he, ht⟩
  refine h.imp_right (Or.imp (fun ⟨e, he, ht⟩ => ⟨e, he, hterm _ ht⟩) (And.imp_right ?_))
  exact Or.imp (hterm _) (Or.imp_right (hterm _))

/-- The process `p` is elected, and accepts the command. -/
theorem Spreading.start {c : Config} {Q : List String} {s : Cluster} {p : String}
    {S : Votes} (command : List UInt8) (hinv : VoteInv c S s) (hview : Viewed c s)
    (hsize : 2 ≤ c.addrs.length) (hQ : Q.Nodup) (hsub : ∀ q ∈ Q, q ∈ c.addrs)
    (hmaj : c.addrs.length < 2 * Q.length) (hp : p ∈ Q) (hup : ∀ q ∈ Q, s.UpToDate p q)
    (hoff : ∀ q ∈ Q, (s.hosts q).node.logOffset = 0)
    (hrep : ∀ q ∈ Q, q ≠ p → Repairable (s.hosts p).node.log (s.hosts q).node.log
      (s.hosts p).node.log.length) :
    ∃ s', ∃ k T : Nat, Brings c Q s s' ∧ s.proposals.length ≤ k ∧
      (∀ x ∈ (s.hosts p).node.log, x.term < T) ∧ Spreading c (s.hosts p).node.log
        ⟨T, (s.hosts p).node.log.length + 1, command⟩ s' p k (Q.erase p) [] := by
  have hmem := hsub p hp
  obtain ⟨s₁, T, hb₁, hlogs₁, hfresh, hterms⟩ := Brings.electAgain hinv hsize hQ hsub hmaj hp hup
  obtain ⟨S₁, hinv₁⟩ := hb₁.voteInv hinv
  obtain ⟨a₁, hv₁, -⟩ := hb₁.viewed hview
  obtain ⟨s₂, hb₂, hothers₂, hnode₂, hprops₂⟩ := Brings.accept hp hmem hfresh.role command
  have hoff₁ : (s₁.hosts p).node.logOffset = 0 := (hlogs₁ p).2.trans (hoff p hp)
  have hpeers₁ := (hinv₁.identity p hmem).2
  have hlast : (s₁.hosts p).node.lastLogIndexLocked = (s.hosts p).node.log.length := by
    unfold Node.lastLogIndexLocked
    rw [(hlogs₁ p).1, hoff₁, Nat.zero_add]
  have hcommit : (s₁.hosts p).node.commitIndex ≤ (s.hosts p).node.log.length := by
    rw [← (hlogs₁ p).1, hv₁.log_whole hmem hoff₁]
    exact (hv₁.nodes p hmem).known.1
  rw [hlast, (hlogs₁ p).1, hfresh.term] at hnode₂
  rw [hlast, hfresh.term] at hprops₂
  have hk₂ : s₂.proposals[s₁.proposals.length]? = some ⟨p, (s₁.hosts p).epoch,
      (s.hosts p).node.log.length + 1, T, command, none, false⟩ := by
    rw [hprops₂]
    exact List.getElem?_concat_length ..
  refine ⟨s₂, s₁.proposals.length, T, hb₁.trans hb₂, hb₁.calls_le hview,
    fun x hx => hfresh.new x ((hlogs₁ p).1 ▸ hx),
    ⟨by rw [hnode₂]; exact hfresh.role, by rw [hnode₂]; exact hfresh.term,
      by rw [hnode₂]; exact hpeers₁, by rw [hnode₂], by rw [hnode₂]; exact hoff₁,
      ⟨_, hk₂, rfl, rfl, Or.inr ⟨rfl, ?_, ?_⟩⟩, fun hne => absurd rfl hne,
      fun q hq => absurd hq List.not_mem_nil, fun q hq => ?_⟩⟩
  · rw [hnode₂]
    exact AList.lookup_insert _
  · rw [hnode₂]
    exact Nat.lt_succ_of_le hcommit
  · obtain ⟨hne, hq⟩ := hQ.mem_erase_iff.1 hq
    have hnext : (s₂.hosts p).node.nextIndex.at q = (s.hosts p).node.log.length + 1 := by
      rw [hnode₂, ← hlast]
      exact hfresh.next q (hpeers₁ ▸ c.nodup.mem_erase_iff.2 ⟨hne, hsub q hq⟩)
    rw [hnext, hothers₂ q hne, (hlogs₁ q).1, (hlogs₁ q).2]
    exact ⟨hterms q hq, hoff q hq, Nat.succ_pos _, (hrep q hq hne).append _⟩

/-- **Writes go through** in a cluster of two or more.  After any run in which no `SaveState` call
fails and snapshots are used safely, take a majority `Q` and a member `p` of it with the best log
of `Q`, such that all of `Q` have their whole log in memory and the log of `p` can repair the
others from its end.  Then `Q` can, without failures and without the other processes, take a new
call with any command, and answer it with success. -/
theorem write_available (c : Config) (as : List Action) (s : Cluster) (Q : List String)
    (p : String) (command : List UInt8) (hok : Runs.Along (step c) Safe c.init as)
    (hrun : run c c.init as = some s) (hsize : 2 ≤ c.addrs.length) (hQ : Q.Nodup)
    (hsub : ∀ q ∈ Q, q ∈ c.addrs) (hmaj : c.addrs.length < 2 * Q.length) (hp : p ∈ Q)
    (hup : ∀ q ∈ Q, s.UpToDate p q) (hoff : ∀ q ∈ Q, (s.hosts q).node.logOffset = 0)
    (hrep : ∀ q ∈ Q, q ≠ p → Repairable (s.hosts p).node.log (s.hosts q).node.log
      (s.hosts p).node.log.length) :
    ∃ s', ∃ k call, Brings c Q s s' ∧ s.proposals.length ≤ k ∧ s'.proposals[k]? = some call ∧
      call.leader = p ∧ call.command = command ∧ call.chan = some none := by
  obtain ⟨S, -, hinv⟩ := (VoteInv.init c).run hrun
  have hview : Viewed c s := Promises.run hok hrun
  obtain ⟨s₁, k, T, hb₁, hle, hnew, h₁⟩ := Spreading.start command hinv hview hsize hQ hsub hmaj hp
    hup hoff hrep
  obtain ⟨s₂, hb₂, h₂⟩ := h₁.spread (hb₁.viewed hview) (hQ.erase p)
    (fun hin => (hQ.mem_erase_iff.1 hin).1 rfl) hp (fun q hq => List.mem_of_mem_erase hq) hsub
    hnew rfl
  rw [List.append_nil] at h₂
  have hlen : (Q.erase p).reverse.length = Q.length - 1 := by
    rw [List.length_reverse, List.length_erase_of_mem hp]
  obtain ⟨call, hk, hcl, hentry, hchan⟩ := h₂.told (List.nodup_reverse.2 (hQ.erase p))
    (by rw [hlen]; unfold quorumSize; omega) (List.ne_nil_of_length_pos (by omega)) (hsub p hp) rfl
  exact ⟨s₂, k, call, hb₁.trans hb₂, hle, hk, hcl, congrArg LogEntry.command hentry, hchan⟩

/-- Node `a` has an entry that nobody else has, and `b` has crashed; together with `c`, node `a`
takes another write. -/
theorem write_available_unreplicated : ∃ s s', run trio trio.init
      (winElection "a" "b" 0 ++ [.run (.propose "a" (putBytes 120 49)), .crash "b"]) = some s ∧
    ∃ (k : Nat) (call : Proposal), Brings trio ["a", "c"] s s' ∧ s'.proposals[k]? = some call ∧
      call.command = putBytes 120 50 ∧ call.chan = some none := by
  obtain ⟨s, hrun, hup, hoff, hlog⟩ := exists_of_run (fun s : Cluster =>
      (∀ q ∈ ["a", "c"], s.UpToDate "a" q) ∧
      (∀ q ∈ ["a", "c"], (s.hosts q).node.logOffset = 0) ∧
      (s.hosts "a").node.log.length = 1 ∧ (s.hosts "c").node.log = [])
    (by decide +kernel : (run trio trio.init (winElection "a" "b" 0 ++
      [.run (.propose "a" (putBytes 120 49)), .crash "b"])).any _ = true)
  have hplain : ∀ act ∈ winElection "a" "b" 0 ++
      [.run (.propose "a" (putBytes 120 49)), .crash "b"], act.Plain := by decide
  obtain ⟨s', k, call, hb, -, hk, -, hcmd, hchan⟩ := write_available trio _ s ["a", "c"] "a"
    (putBytes 120 50) (.of_forall fun act hact s => (hplain act hact).safe s) hrun (by decide)
    (by decide) (by decide) (by decide) (by decide) hup hoff fun q hq hne => by
      obtain rfl : q = "c" := by simpa [hne] using hq
      rw [hlog.1, hlog.2]
      exact Or.inr (Or.inr ⟨Or.inl Nat.zero_lt_one, Or.inr (Or.inl rfl)⟩)
  exact ⟨s, s', hrun, k, call, hb, hk, hcmd, hchan⟩

end B5KvStore
