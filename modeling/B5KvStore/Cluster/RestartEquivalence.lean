import B5KvStore.Raft.Restart
import B5KvStore.Cluster.AppendOnly

/-!
# A node and its data directory

Every critical section leaves a node as its data directory would rebuild it.  The
catch-up is the exception: it writes the snapshot and a new `log.dat` without the
lock, and changes memory only at the end.  What another section appends to `log.dat`
in the meantime is lost from memory and stays on disk.

* `CatchUpAlone` — nothing touches the log while a catch-up is writing.
* `LogPhase` — how node and directory relate in each phase of the poll loop.
* `Effect.keeps` — one critical section.
* `restart_equivalence` — every state of every run.
-/

namespace B5KvStore

/-- The catch-up has written files and has not updated the node yet. -/
def PollPhase.writing : PollPhase → Bool
  | .written _ | .rewritten _ | .restored _ => true
  | _ => false

/-- While a catch-up is writing, nothing else changes the log of the node, and the
snapshot it writes is not older than the node's own; and nobody sends other entries for
the anchor's index. -/
def Op.CatchUpAlone (s : Cluster) : Op → Prop
  | .propose p _ | .proposeSync p _ => (s.hosts p).node.role = .leader →
      (s.hosts p).poll.writing = false
  | .confirmCompaction p _ => (s.hosts p).poll.writing = false
  | .appendEntries k peer _ => ∀ b, s.broadcasts[k]? = some b → ∀ out ∈ b.reqs, out.peer = peer →
      out.req.entries ≠ [] →
      (s.hosts peer).poll.writing = false ∧ (s.hosts peer).node.AnchorAgrees out.req
  | .pollWriteFile p => ∀ file, (s.hosts p).poll = .fetched file →
      (s.hosts p).node.anchorIndex ≤ file.lastIncludedIndex
  | _ => True

/-- The same for a step. -/
def CatchUpAlone (s : Cluster) : Action → Prop
  | .run op | .crashDuring op _ => op.CatchUpAlone s
  | _ => True

instance Op.decidableCatchUpAlone (s : Cluster) : (op : Op) → Decidable (op.CatchUpAlone s)
  | .propose p _ => inferInstanceAs
      (Decidable ((s.hosts p).node.role = .leader → (s.hosts p).poll.writing = false))
  | .proposeSync p _ => inferInstanceAs
      (Decidable ((s.hosts p).node.role = .leader → (s.hosts p).poll.writing = false))
  | .confirmCompaction p _ => inferInstanceAs (Decidable ((s.hosts p).poll.writing = false))
  | .appendEntries k peer _ => inferInstanceAs (Decidable (∀ b ∈ s.broadcasts[k]?,
      ∀ out ∈ b.reqs, out.peer = peer → out.req.entries ≠ [] →
        (s.hosts peer).poll.writing = false ∧ ∀ e ∈ out.req.entries,
          e.index = (s.hosts peer).node.anchorIndex →
            ((s.hosts peer).node.entryAtLocked (s.hosts peer).node.anchorIndex).map LogEntry.term =
              some e.term))
  | .pollWriteFile p => decidable_of_iff (∀ file ∈ (s.hosts p).poll.fetched?,
      (s.hosts p).node.anchorIndex ≤ file.lastIncludedIndex)
      (by simp only [Op.CatchUpAlone, PollPhase.fetched?_eq_some])
  | .startElection .. | .soloElection .. | .requestVote .. | .requestVoteReply ..
  | .broadcastAppendEntries .. | .appendEntriesReply .. | .proposeReturn .. | .proposeCancel ..
  | .startRead .. | .requestReadIndex .. | .confirmLeadership .. | .readIndexFailed ..
  | .readIndexReply .. | .readApplied .. | .readTimeout .. | .getStatus .. | .getValue ..
  | .pollInfo .. | .pollDecide .. | .pollFetch .. | .pollAbort .. | .pollRewriteLog ..
  | .pollRestore .. | .pollAdopt .. | .pollCompact .. => instDecidableTrue

instance decidableCatchUpAlone (s : Cluster) : (a : Action) → Decidable (CatchUpAlone s a)
  | .run op => inferInstanceAs (Decidable (op.CatchUpAlone s))
  | .crashDuring op _ => inferInstanceAs (Decidable (op.CatchUpAlone s))
  | .crash _ | .publish _ => instDecidableTrue

/-! ## The phases of the poll loop -/

/-- Node and directory: in step, or with the new snapshot on disk already. -/
def LogPhase (ph : PollPhase) (n : Node) (d : Disk) : Prop :=
  match ph with
  | .fetched file => 0 < file.lastIncludedIndex ∧ Recovered n d
  | .written file => 0 < file.lastIncludedIndex ∧ n.Positional ∧
      d.loadState = (n.currentTerm, n.votedFor) ∧
      ∃ es, Holds d d file es ∧ PlacedFrom (file.lastIncludedIndex + 1) es
  | .rewritten file | .restored file => 0 < file.lastIncludedIndex ∧ n.Positional ∧
      d.loadState = (n.currentTerm, n.votedFor) ∧ Holds d d file []
  | _ => Recovered n d

namespace LogPhase

variable {ph ph' : PollPhase} {n : Node} {d : Disk} {r : Locked} {file : File}

theorem recovered (h : LogPhase ph n d) (hw : ph.writing = false) : Recovered n d := by
  cases ph with
  | idle => exact h
  | informed t => exact h
  | catchingUp => exact h
  | compacting t => exact h
  | fetched f => exact h.2
  | written f => exact absurd hw (by simp [PollPhase.writing])
  | rewritten f => exact absurd hw (by simp [PollPhase.writing])
  | restored f => exact absurd hw (by simp [PollPhase.writing])
  | compactFetched f => exact h

theorem of_recovered (h : Recovered n d) (hph : ph.writing = false)
    (hpos : ∀ file, ph = .fetched file → 0 < file.lastIncludedIndex) : LogPhase ph n d := by
  cases ph with
  | idle => exact h
  | informed t => exact h
  | catchingUp => exact h
  | compacting t => exact h
  | fetched f => exact ⟨hpos f rfl, h⟩
  | written f => exact absurd hph (by simp [PollPhase.writing])
  | rewritten f => exact absurd hph (by simp [PollPhase.writing])
  | restored f => exact absurd hph (by simp [PollPhase.writing])
  | compactFetched f => exact h

/-- Another node and directory in the same phase. -/
theorem of_eq (h : LogPhase ph n d) (hw : ph.writing = false) {n' : Node} {d' : Disk}
    (h' : Recovered n' d') : LogPhase ph n' d' := by
  refine of_recovered h' hw fun file hph => ?_
  subst hph
  exact h.1

theorem loadState (h : LogPhase ph n d) : d.loadState = (n.currentTerm, n.votedFor) := by
  cases hw : ph.writing with
  | false => exact (h.recovered hw).loadState
  | true =>
      cases ph with
      | written f => exact h.2.2.1
      | rewritten f => exact h.2.2.1
      | restored f => exact h.2.2.1
      | _ => exact absurd hw (by simp [PollPhase.writing])

theorem positional (h : LogPhase ph n d) : n.Positional := by
  cases hw : ph.writing with
  | false => exact (h.recovered hw).positional
  | true =>
      cases ph with
      | written f => exact h.2.1
      | rewritten f => exact h.2.1
      | restored f => exact h.2.1
      | _ => exact absurd hw (by simp [PollPhase.writing])

theorem rebuilds (h : LogPhase ph n d) : d.Rebuilds := by
  cases hw : ph.writing with
  | false => exact (h.recovered hw).rebuilds
  | true =>
      cases ph with
      | written f =>
          obtain ⟨hpos, -, -, es, hholds, hes⟩ := h
          exact hholds.rebuilds hpos hes
      | rewritten f => exact h.2.2.2.rebuilds h.1 (.nil _)
      | restored f => exact h.2.2.2.rebuilds h.1 (.nil _)
      | _ => exact absurd hw (by simp [PollPhase.writing])

/-- A section that leaves the log alone. -/
theorem keepsLog (h : LogPhase ph n d) (hk : KeepsLog n.lock r) (hs : Saves d r) :
    LogPhase ph r.node (d.applyAll r.writes) ∧ ∀ k, (d.applyAll (r.writes.take k)).Rebuilds := by
  obtain ⟨ws, hws, hkeep⟩ := hk.writes
  rw [show n.lock.writes ++ ws = ws from rfl] at hws
  have hcrash : ∀ k, (d.applyAll (r.writes.take k)).Rebuilds := by
    intro k
    obtain ⟨hlog, hsnap⟩ := Disk.log_applyAll
      (fun w hw => hkeep w (hws ▸ List.mem_of_mem_take hw) : ∀ w ∈ r.writes.take k, w.KeepsLog) d
    exact h.rebuilds.congr hlog hsnap
  refine ⟨?_, hcrash⟩
  obtain ⟨hlog, hsnap⟩ := Disk.log_applyAll (hws ▸ hkeep : ∀ w ∈ r.writes, w.KeepsLog) d
  have hlatest : (d.applyAll r.writes).latest = d.latest := by
    unfold Disk.latest
    rw [hsnap]
  have hpositional : r.node.Positional := by
    unfold Node.Positional
    rw [hk.log, hk.logOffset]
    exact h.positional
  have hholds : ∀ {f : File} {es : List LogEntry}, Holds d d f es →
      Holds (d.applyAll r.writes) (d.applyAll r.writes) f es :=
    fun hh => ⟨hlatest ▸ hh.latest, hlog ▸ hh.log, rfl⟩
  cases hw : ph.writing with
  | false => exact h.of_eq hw ((h.recovered hw).congr hlog hsnap hk.log hk.logOffset hk.path hs)
  | true =>
      cases ph with
      | written f =>
          obtain ⟨hpos, -, -, es, hh, hes⟩ := h
          exact ⟨hpos, hpositional, hs, es, hholds hh, hes⟩
      | rewritten f => exact ⟨h.1, hpositional, hs, hholds h.2.2.2⟩
      | restored f => exact ⟨h.1, hpositional, hs, hholds h.2.2.2⟩
      | _ => exact absurd hw (by simp [PollPhase.writing])

/-- The snapshot file is written. -/
theorem writeFile (h : LogPhase (.fetched file) n d) (hA : n.anchorIndex ≤ file.lastIncludedIndex) :
    LogPhase (.written file) n (d.apply (.writeFile file)) := by
  obtain ⟨hpos, hrec⟩ := h
  obtain ⟨hlatest, hlog, -⟩ := hrec.holds_writeFile hA
  exact ⟨hpos, hrec.positional, hrec.loadState, _, ⟨hlatest, hlog, rfl⟩, hrec.placed_drop hpos hA⟩

/-- `log.dat` is replaced by the anchor. -/
theorem rewriteLog (h : LogPhase (.written file) n d) :
    LogPhase (.rewritten file) n (d.apply (.rewriteLog [file.anchor])) := by
  obtain ⟨hpos, hn, hload, es, hholds, -⟩ := h
  refine ⟨hpos, hn, hload, hholds.latest, ?_, rfl⟩
  simp [Disk.apply, File.anchor]

/-- Memory follows. -/
theorem adopt (h : LogPhase (.restored file) n d) :
    Kept d (n.lock.adoptSnapshot file) := by
  obtain ⟨hpos, hn, hload, hholds⟩ := h
  have hw : (n.lock.adoptSnapshot file).writes = superseded n file.lastIncludedIndex := by
    unfold Locked.adoptSnapshot
    rw [Locked.replaceSnapshotFileLocked_eq]
    rfl
  have hvote := n.lock.keepsVote_adoptSnapshot file
  obtain ⟨hpath, hoff, hlog⟩ := n.lock.node_adoptSnapshot file
  have hkeep : ∀ k, Holds d (d.applyAll ((superseded n file.lastIncludedIndex).take k)) file [] :=
    fun k => hholds.superseded fun w hw => List.mem_of_mem_take hw
  refine ⟨?_, fun k => by rw [hw]; exact (hkeep k).rebuilds hpos (.nil _)⟩
  have hall := hkeep (superseded n file.lastIncludedIndex).length
  rw [List.take_length] at hall
  rw [hw]
  refine hall.recovered hpos (.nil _) hlog hoff hpath ?_
  rw [hvote.currentTerm, hvote.votedFor]
  refine Eq.trans ?_ hload
  unfold Disk.loadState
  rw [hall.state]

end LogPhase

/-! ## Steps -/

/-- Every node is in step with its directory, and requests are in order. -/
structure InStep (s : Cluster) : Prop where
  hosts : ∀ p, LogPhase (s.hosts p).poll (s.hosts p).node (s.hosts p).disk
  requests : ∀ b ∈ s.broadcasts, ∀ out ∈ b.reqs,
    PlacedFrom (out.req.prevLogIndex + 1) out.req.entries

/-- A request without entries. -/
theorem Locked.keepsLog_appendEntries_of_nil (s : Locked) {req : AppendEntriesRequest}
    (f : SaveFaults) (hreq : req.entries = []) : KeepsLog s (s.appendEntries req f).1 := by
  have hobs := s.keepsLog_observeRequest req.term f.observe
  unfold appendEntries
  split
  · rename_i r err heq
    rw [heq] at hobs
    exact hobs
  · rename_i r heq
    rw [heq] at hobs
    refine hobs.trans ?_
    dsimp only
    unfold acceptEntries
    have hdown := (r.keepsLog_setRoleLocked .follower).trans
      (.modify (f := fun n => { n with currentLeader := req.leaderId }) rfl rfl rfl rfl)
    split
    · exact .refl r
    · dsimp only
      split
      · exact hdown
      · exact hdown.trans (keepsLog_followCommit _ _)

/-- What a critical section does to memory and directory. -/
structure SectionKept (s : Cluster) (o : Outcome) : Prop where
  log : LogPhase (o.around.hosts o.host).poll o.result.node
    ((s.hosts o.host).disk.applyAll o.result.writes)
  crash : ∀ k, ((s.hosts o.host).disk.applyAll (o.result.writes.take k)).Rebuilds
  requests : ∀ b ∈ o.around.broadcasts, ∀ out ∈ b.reqs,
    PlacedFrom (out.req.prevLogIndex + 1) out.req.entries

/-- Sections that leave the log and the poll loop alone. -/
theorem InStep.section_keepsLog {s : Cluster} {o : Outcome} (h : InStep s)
    (hk : KeepsLog (s.hosts o.host).node.lock o.result) (hs : Saves (s.hosts o.host).disk o.result)
    (hpoll : (o.around.hosts o.host).poll = (s.hosts o.host).poll)
    (hreq : ∀ b ∈ o.around.broadcasts, ∀ out ∈ b.reqs,
      PlacedFrom (out.req.prevLogIndex + 1) out.req.entries) : SectionKept s o := by
  obtain ⟨hlog, hcrash⟩ := (h.hosts o.host).keepsLog hk hs
  exact ⟨by rw [hpoll]; exact hlog, hcrash, hreq⟩

/-- Sections that change the log while no catch-up is writing. -/
theorem InStep.section_kept {s : Cluster} {o : Outcome} (h : InStep s)
    (hk : Kept (s.hosts o.host).disk o.result) (hw : (s.hosts o.host).poll.writing = false)
    (hpoll : (o.around.hosts o.host).poll = (s.hosts o.host).poll ∨
      (o.around.hosts o.host).poll = .idle)
    (hreq : ∀ b ∈ o.around.broadcasts, ∀ out ∈ b.reqs,
      PlacedFrom (out.req.prevLogIndex + 1) out.req.entries) : SectionKept s o := by
  refine ⟨?_, hk.crash, hreq⟩
  rcases hpoll with hpoll | hpoll
  · rw [hpoll]
    exact (h.hosts o.host).of_eq hw hk.node
  · rw [hpoll]
    exact hk.node

/-- Requests do not change when they are answered. -/
theorem placed_setBroadcast {s : Cluster} {k : Nat} {b : Broadcast}
    (calls : String → CallPhase AppendEntriesReply)
    (h : ∀ b ∈ s.broadcasts, ∀ out ∈ b.reqs, PlacedFrom (out.req.prevLogIndex + 1) out.req.entries)
    (hk : s.broadcasts[k]? = some b) :
    ∀ b' ∈ (s.setBroadcast k { b with calls := calls }).broadcasts, ∀ out ∈ b'.reqs,
      PlacedFrom (out.req.prevLogIndex + 1) out.req.entries := by
  intro b' hb'
  rcases List.mem_or_eq_of_mem_set hb' with hold | rfl
  · exact h b' hold
  · exact h b (List.mem_of_getElem? hk)

/-- **One critical section** keeps memory and directory in step. -/
theorem Effect.keeps {c : Config} {s : Cluster} {op : Op} {o : Outcome} (heff : Effect c s op o)
    (h : InStep s) (hf : op.NoFaults) (hok : op.CatchUpAlone s) : SectionKept s o := by
  have hsave : Saves (s.hosts o.host).disk (s.hosts o.host).node.lock := (h.hosts o.host).loadState
  have hrefl : ∀ s' : Cluster, s'.hosts = s.hosts → s'.broadcasts = s.broadcasts →
      SectionKept s ⟨o.host, (s.hosts o.host).node.lock, s'⟩ := by
    intro s' hhosts hb
    exact h.section_keepsLog (.refl _) hsave (by dsimp only; rw [hhosts])
      (by dsimp only; rw [hb]; exact h.requests)
  cases heff with
  | startElection p fails hp =>
      obtain rfl : fails = false := hf
      exact h.section_keepsLog (Locked.keepsLog_startElection _ _) hsave.startElection rfl h.requests
  | soloElection k call hk hepoch hq =>
      exact h.section_keepsLog (Locked.keepsLog_soloElection _ _) (hsave.soloElection _) rfl
        h.requests
  | requestVote k call peer f hk hp hsent =>
      obtain rfl : f = noFaults := hf
      exact h.section_keepsLog (Locked.keepsLog_requestVote _ _ _) (hsave.requestVote _) rfl
        h.requests
  | requestVoteReply k call peer fails reply hk hepoch hans =>
      obtain rfl : fails = false := hf
      exact h.section_keepsLog (Locked.keepsLog_handleRequestVoteReply _ _ _ _)
        (hsave.handleRequestVoteReply _ _) rfl h.requests
  | broadcast op p read s' hp hrole hs' =>
      refine h.section_keepsLog (.refl _) hsave (by dsimp only; rw [hs'.hosts]; rfl) ?_
      intro b hb
      rw [hs'.broadcasts] at hb
      rcases List.mem_append.1 hb with hold | hnew
      · exact h.requests b hold
      · rw [List.mem_singleton.1 hnew]
        intro out hout
        obtain ⟨q, -, rfl⟩ := List.mem_map.1 hout
        exact (h.hosts p).positional.placed_request q
  | appendEntries k b out peer f hk hout hpeer hp hsent =>
      obtain rfl : f = noFaults := hf
      have hreq := h.requests b (List.mem_of_getElem? hk) out hout
      have hreqs := placed_setBroadcast (Function.update b.calls peer (replyPhase
        ((s.hosts peer).node.lock.appendEntries out.req noFaults).2)) h.requests hk
      by_cases hnil : out.req.entries = []
      · exact h.section_keepsLog (Locked.keepsLog_appendEntries_of_nil _ _ hnil)
          ((hsave.observeRequest out.req.term).keepsVote
            (keepsVote_appendEntries (s.hosts peer).node.lock out.req noFaults)) rfl hreqs
      · obtain ⟨hw, hagree⟩ := hok b hk out hout hpeer hnil
        exact h.section_kept ((Kept.lock ((h.hosts peer).recovered hw)).appendEntries hreq hagree) hw
          (Or.inl rfl) hreqs
  | appendEntriesReply k b out peer fails reply s' hk hout hfind hpeer hepoch hans hs' =>
      obtain rfl : fails = false := hf
      obtain ⟨T, hkeep⟩ := keepsVote_handleAppendEntriesReply
        (s.hosts b.leader).node.lock b.term out reply false
      refine h.section_keepsLog (Locked.keepsLog_handleAppendEntriesReply _ _ _ _ _)
        ((hsave.observeRequest _).keepsVote hkeep) (by dsimp only; rw [hs'.hosts]; rfl) ?_
      rw [hs'.broadcasts]
      exact placed_setBroadcast _ h.requests hk
  | propose p command hp =>
      by_cases hrole : (s.hosts p).node.role = .leader
      · have hw := hok hrole
        exact h.section_kept ((Kept.lock ((h.hosts p).recovered hw)).propose command) hw
          (Or.inl rfl) h.requests
      · have heq : (s.hosts p).node.lock.propose command = (s.hosts p).node.lock := by
          unfold Locked.propose
          rw [if_pos (show (s.hosts p).node.lock.node.role ≠ .leader from hrole)]
        rw [heq]
        exact hrefl s rfl rfl
  | proposeSync p command hp s' hs' =>
      by_cases hrole : (s.hosts p).node.role = .leader
      · have hw := hok hrole
        exact h.section_kept ((Kept.lock ((h.hosts p).recovered hw)).proposeSync command _) hw
          (Or.inl (by dsimp only; rw [hs'.hosts])) (by rw [hs'.broadcasts]; exact h.requests)
      · have heq : ((s.hosts p).node.lock.proposeSync command s.proposals.length).1 =
            (s.hosts p).node.lock := by
          unfold Locked.proposeSync
          rw [if_pos (show (s.hosts p).node.lock.node.role ≠ .leader from hrole)]
        rw [heq]
        exact hrefl s' hs'.hosts hs'.broadcasts
  | idle op p r s' hr hs' =>
      exact h.section_keepsLog (keepsLog_idle hr) (hsave.keepsVote (keepsVote_idle hr))
        (by dsimp only; rw [hs'.hosts]) (by rw [hs'.broadcasts]; exact h.requests)
  | confirmCompaction p req hp =>
      exact h.section_kept (.confirmCompaction ((h.hosts p).recovered hok) req) hok (Or.inl rfl)
        h.requests
  | pollWait op p ph hp hop hfrom hph hpos hph' =>
      have hw : (s.hosts p).poll.writing = false := by
        cases hpoll : (s.hosts p).poll with
        | written f => rw [hpoll] at hfrom; exact absurd hfrom (by simp [PollPhase.catchUpFile?])
        | rewritten f => rw [hpoll] at hfrom; exact absurd hfrom (by simp [PollPhase.catchUpFile?])
        | restored f => rw [hpoll] at hfrom; exact absurd hfrom (by simp [PollPhase.catchUpFile?])
        | _ => rfl
      have hrec := (h.hosts p).recovered hw
      have hph'' : ph.writing = false := by
        cases ph with
        | written f => exact absurd rfl (hph' f).1
        | rewritten f => exact absurd rfl (hph' f).2.1
        | restored f => exact absurd rfl (hph' f).2.2
        | _ => rfl
      refine ⟨?_, (Kept.lock hrec).crash, h.requests⟩
      simp only [Cluster.setPoll, Cluster.setHost, Function.update_self]
      exact .of_recovered hrec hph'' hpos
  | pollWriteFile p file hp hpoll =>
      have hphase := h.hosts p
      rw [hpoll] at hphase
      have hnext := hphase.writeFile (hok file hpoll)
      refine ⟨?_, fun k => ?_, h.requests⟩
      · simp only [Cluster.setPoll, Cluster.setHost, Function.update_self]
        exact hnext
      · cases k with
        | zero => exact hphase.rebuilds
        | succ k =>
            rw [Locked.writes_write, show (s.hosts p).node.lock.writes = [] from rfl,
              List.nil_append, List.take_succ_cons, List.take_nil]
            exact hnext.rebuilds
  | pollRewriteLog p file hp hpoll =>
      have hphase := h.hosts p
      rw [hpoll] at hphase
      have hnext := hphase.rewriteLog
      refine ⟨?_, fun k => ?_, h.requests⟩
      · simp only [Cluster.setPoll, Cluster.setHost, Function.update_self]
        exact hnext
      · cases k with
        | zero => exact hphase.rebuilds
        | succ k =>
            rw [Locked.writes_write, show (s.hosts p).node.lock.writes = [] from rfl,
              List.nil_append, List.take_succ_cons, List.take_nil]
            exact hnext.rebuilds
  | pollRestore p file hp hpoll =>
      have hphase := h.hosts p
      rw [hpoll] at hphase
      refine ⟨?_, fun k => ?_, h.requests⟩
      · simp only [Cluster.setHost, Function.update_self]
        exact hphase
      · rw [show (s.hosts p).node.lock.writes = [] from rfl, List.take_nil]
        exact hphase.rebuilds
  | pollAdopt p file hp hpoll =>
      have hphase := h.hosts p
      rw [hpoll] at hphase
      refine ⟨?_, hphase.adopt.crash, h.requests⟩
      simp only [Cluster.setPoll, Cluster.setHost, Function.update_self]
      exact hphase.adopt.node
  | pollCompact p file hp hpoll =>
      have hw : (s.hosts p).poll.writing = false := by rw [hpoll]; rfl
      refine h.section_kept (.pollCompact ((h.hosts p).recovered hw)) hw (Or.inr ?_) h.requests
      simp [Cluster.setPoll, Cluster.setHost]

theorem InStep.init (c : Config) : InStep c.init where
  hosts p := by
    have h : Disk.empty.Rebuilds := fun n k e hk => by
      rw [(n.restart_of_none (by simp [Disk.empty, Disk.latest])).1] at hk
      exact absurd hk (by simp [Disk.empty])
    have hrec := h.recovered (c.newNode p Disk.empty)
    unfold Config.newNode at hrec
    rwa [Node.restart_newNode] at hrec
  requests := by simp [Config.init]

/-- **Every step** keeps memory and directory in step. -/
theorem InStep.step {c : Config} {s s' : Cluster} {a : Action} (h : InStep s) (hf : a.NoFaults)
    (hok : CatchUpAlone s a) (hs : step c s a = some s') : InStep s' := by
  have hrestart : ∀ {q : String} {ws : List DiskWrite},
      ((s.hosts q).disk.applyAll ws).Rebuilds → InStep (s.restart c q ws) := by
    intro q ws hd
    refine ⟨fun p => ?_, h.requests⟩
    by_cases hq : p = q
    · subst hq
      rw [Cluster.hosts_restart]
      have hrec := hd.recovered (c.newNode p ((s.hosts p).disk.applyAll ws))
      unfold Config.newNode at hrec
      rwa [Node.restart_newNode] at hrec
    · rw [Cluster.hosts_restart_of_ne _ _ _ _ hq]
      exact h.hosts p
  cases stepView hs with
  | run op o ho =>
      have heff := exec_effect ho
      have hsec := heff.keeps h hf hok
      refine ⟨fun p => ?_, hsec.requests⟩
      by_cases hp : p = o.host
      · subst hp
        rw [Cluster.hosts_finish, (heff.same o.host).2.1]
        exact hsec.log
      · rw [heff.hosts_finish_other hp]
        exact h.hosts p
  | crash p _ => exact hrestart (h.hosts p).rebuilds
  | crashDuring op o k ho => exact hrestart (((exec_effect ho).keeps h hf hok).crash k)
  | publish file => exact ⟨h.hosts, h.requests⟩

/-- **Restart equivalence.**  In every run without I/O errors in which catch-ups are left
alone, a node that is not catching up is the node its data directory rebuilds, and its
entries are at their places. -/
theorem restart_equivalence (c : Config) (as : List Action) (s : Cluster) (p : String)
    (hrun : run c c.init as = some s)
    (hok : Runs.Along (step c) (fun s a => a.NoFaults ∧ CatchUpAlone s a) c.init as)
    (hidle : (s.hosts p).poll.catchUpFile? = none) :
    SameState (c.newNode p (s.hosts p).disk) (s.hosts p).node ∧ (s.hosts p).node.Positional := by
  have hinv : InStep s := Runs.invariant (fun s a s' h hok hs => h.step hok.1 hok.2 hs)
    (InStep.init c) hok (run_eq_exec c c.init as ▸ hrun)
  have hw : (s.hosts p).poll.writing = false := by
    cases hpoll : (s.hosts p).poll with
    | written f => rw [hpoll] at hidle; exact absurd hidle (by simp [PollPhase.catchUpFile?])
    | rewritten f => rw [hpoll] at hidle; exact absurd hidle (by simp [PollPhase.catchUpFile?])
    | restored f => rw [hpoll] at hidle; exact absurd hidle (by simp [PollPhase.catchUpFile?])
    | _ => rfl
  have hrec := (hinv.hosts p).recovered hw
  obtain ⟨hlog, hoff, -⟩ := restart_congr (s.hosts p).node
    (c.newNode p (s.hosts p).disk) (rfl : (s.hosts p).disk.log = _) rfl
  exact ⟨⟨hrec.same.currentTerm, hrec.same.votedFor, hoff.trans hrec.same.logOffset,
    hlog.trans hrec.same.log⟩, hrec.positional⟩

/-- A leader that has restarted, caught up to a snapshot and compacted its log, and its follower,
whose log was never compacted. -/
theorem restart_equivalence_trio : ∃ s,
    run trio trio.init (leaderAdopts ++ leaderCompacts) = some s ∧
    (s.hosts "a").node.log = [⟨2, 3, []⟩, ⟨2, 4, putBytes 120 52⟩, ⟨2, 5, putBytes 120 53⟩] ∧
    (s.hosts "a").node.logOffset = 2 ∧ (s.hosts "b").node.logOffset = 0 ∧
    (∀ p ∈ ["a", "b"], SameState (trio.newNode p (s.hosts p).disk) (s.hosts p).node ∧
      (s.hosts p).node.Positional) := by
  obtain ⟨s, hs, hidle, hrest⟩ := exists_of_run (fun s : Cluster =>
    (∀ p ∈ ["a", "b"], (s.hosts p).poll.catchUpFile?.isNone = true) ∧
      (s.hosts "a").node.log = [⟨2, 3, []⟩, ⟨2, 4, putBytes 120 52⟩, ⟨2, 5, putBytes 120 53⟩] ∧
      (s.hosts "a").node.logOffset = 2 ∧ (s.hosts "b").node.logOffset = 0)
    (show (run trio trio.init (leaderAdopts ++ leaderCompacts)).any _ = true by decide +kernel)
  have hok : Runs.Along (step trio) (fun s a => a.NoFaults ∧ CatchUpAlone s a) trio.init
      (leaderAdopts ++ leaderCompacts) := by decide +kernel
  exact ⟨s, hs, hrest.1, hrest.2.1, hrest.2.2, fun p hp =>
    restart_equivalence trio _ s p hs hok (Option.isNone_iff_eq_none.1 (hidle p hp))⟩

/-- Node `b` is catching up to a snapshot of the first entry; after it has rewritten
`log.dat`, the leader sends it two entries. -/
def appendDuringCatchUp : List Action :=
  winElection "a" "c" 0 ++ [.run (.propose "a" (putBytes 120 49))] ++ replicate "a" "c" 0 ++
  [.publish ⟨KVMap.apply (fun _ => none) ⟨.put, "x", "1"⟩, 1, 1⟩] ++ fetchSnapshot "b" ++
  [.run (.pollWriteFile "b"), .run (.pollRewriteLog "b"),
    .run (.propose "a" (putBytes 120 50))] ++ replicate "a" "b" 1 ++
  [.run (.pollRestore "b"), .run (.pollAdopt "b")]

/-- The node has adopted the snapshot and holds nothing else; what its directory
rebuilds has the second entry too. -/
theorem restart_differs : ∃ s, run trio trio.init appendDuringCatchUp = some s ∧
    (s.hosts "b").poll.catchUpFile? = none ∧
    (s.hosts "b").node.log = [⟨1, 1, []⟩] ∧
    (trio.newNode "b" (s.hosts "b").disk).log = [⟨1, 1, []⟩, ⟨1, 2, putBytes 120 50⟩] := by
  obtain ⟨s, hs, hidle, hlog, hdisk⟩ := exists_of_run (fun s : Cluster =>
    (s.hosts "b").poll.catchUpFile?.isNone = true ∧ (s.hosts "b").node.log = [⟨1, 1, []⟩] ∧
    (trio.newNode "b" (s.hosts "b").disk).log = [⟨1, 1, []⟩, ⟨1, 2, putBytes 120 50⟩])
    (show (run trio trio.init appendDuringCatchUp).any _ = true by decide +kernel)
  exact ⟨s, hs, Option.isNone_iff_eq_none.1 hidle, hlog, hdisk⟩

end B5KvStore
