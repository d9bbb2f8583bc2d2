import B5KvStore.Raft.Restart
import B5KvStore.Cluster.Simulation

/-!
# Where entries come from

A compacted log starts with an anchor, which stands for an entry but has no command, and a
leader may send it.  Followers do not take it: the request gives no term for the entry before
the anchor, so that it is only accepted by a follower whose own log starts at or above it.  The
anchor of index 1 is the exception.  Nothing comes before it, and it passes for an entry.

* `createdBy` — the entries that leaders have created in a run.
* `Traced` — all that is stored, sent or applied, apart from anchors, was created by a leader.
* `entries_created` — every run in which snapshots are used safely.
-/

namespace B5KvStore

open ReplicatedLog (CommittedAt)

/-! ## Entries that leaders create -/

/-- The entry `appendLocalLocked` creates when the operation runs. -/
def Op.creates (s : Cluster) : Op → Option LogEntry
  | .propose p command | .proposeSync p command =>
      if (s.hosts p).node.role = .leader then
        some ⟨(s.hosts p).node.currentTerm, (s.hosts p).node.lastLogIndexLocked + 1, command⟩
      else none
  | _ => none

/-- The entry a step creates: it exists once it has been written. -/
def created (s : Cluster) : Action → Option LogEntry
  | .run op => op.creates s
  | .crashDuring op k => if 0 < k then op.creates s else none
  | _ => none

/-- The entries created in a run. -/
def createdBy (c : Config) : Cluster → List Action → List LogEntry
  | _, [] => []
  | s, a :: as => (created s a).toList ++ ((step c s a).map fun s' => createdBy c s' as).getD []

theorem createdBy_cons {c : Config} {s s' : Cluster} {a : Action} {as : List Action}
    (hs : step c s a = some s') :
    createdBy c s (a :: as) = (created s a).toList ++ createdBy c s' as := by
  rw [createdBy, hs]
  rfl

/-! ## One process -/

/-- Above its anchor the log consists of entries from `C`. -/
def Node.From (C : Set LogEntry) (n : Node) : Prop :=
  ∀ k e, n.log[k]? = some e → n.logOffset = 0 ∨ 0 < k → e ∈ C

/-- What the directory holds above its snapshots is from `C`. -/
def Disk.From (C : Set LogEntry) (d : Disk) : Prop :=
  ∀ e ∈ d.log, e ∈ C ∨ ∃ g ∈ d.snapshots, e.index ≤ g.lastIncludedIndex

/-- The request carries entries from `C`, apart from an anchor at its start. -/
def AppendEntriesRequest.From (C : Set LogEntry) (req : AppendEntriesRequest) : Prop :=
  (req.prevLogIndex = 0 ∨ 0 < req.prevLogTerm → ∀ e ∈ req.entries, e ∈ C) ∧
    ∀ e ∈ req.entries.tail, e ∈ C

/-- A critical section on a directory that stays in order at each of its writes, with what it has
appended to `log.dat`. -/
structure Locked.From (C : Set LogEntry) (d : Disk) (s : Locked) : Prop where
  node : s.node.From C
  disk : ∀ k, (d.applyAll (s.writes.take k)).From C
  records : ∀ e, .appendRecord e ∈ s.writes → e ∈ C

/-- What a node has to know about a request before it merges its entries: they are in order, and
the one for the anchor's index has the anchor's term. -/
structure Node.Compatible (n : Node) (req : AppendEntriesRequest) : Prop where
  placed : PlacedFrom (req.prevLogIndex + 1) req.entries
  term : ∀ e, n.entryAtLocked req.prevLogIndex = some e → 0 < e.term
  nonempty : 0 < n.logOffset → n.log ≠ []
  anchor : 0 < n.logOffset → ∀ e ∈ req.entries, e.index = n.logOffset + 1 →
    (n.entryAtLocked (n.logOffset + 1)).map LogEntry.term = some e.term

section

variable {C C' : Set LogEntry} {d : Disk} {n : Node} {s s' : Locked} {req : AppendEntriesRequest}
  {file : File}

theorem Node.From.mono (h : n.From C) (hC : C ⊆ C') : n.From C' :=
  fun k e hk hpos => hC (h k e hk hpos)

theorem Disk.From.mono (h : d.From C) (hC : C ⊆ C') : d.From C' :=
  fun e he => (h e he).imp_left fun h => hC h

theorem AppendEntriesRequest.From.mono (h : req.From C) (hC : C ⊆ C') : req.From C' :=
  ⟨fun hp e he => hC (h.1 hp e he), fun e he => hC (h.2 e he)⟩

theorem Node.Compatible.keepsLog (h : s.node.Compatible req) (hk : KeepsLog s s') :
    s'.node.Compatible req where
  placed := h.placed
  term e he := h.term e (hk.entryAtLocked _ ▸ he)
  nonempty hpos := by
    rw [hk.log]
    exact h.nonempty (hk.logOffset ▸ hpos)
  anchor hpos := by
    rw [hk.logOffset, hk.entryAtLocked]
    exact h.anchor (hk.logOffset ▸ hpos)

/-- The requests of a leader. -/
theorem Node.From.request (h : n.From C) (p : String) :
    (n.buildAppendEntriesRequest p).req.From C := by
  unfold Node.buildAppendEntriesRequest AppendEntriesRequest.From
  dsimp only
  generalize hnext : (if n.nextIndex.at p ≤ n.logOffset then n.logOffset + 1
    else n.nextIndex.at p) = next
  have hpos : n.logOffset < next := by
    rw [← hnext]
    split <;> omega
  rw [n.filterMap_entryAtLocked hpos]
  have hmem : ∀ {j : Nat}, n.logOffset = 0 ∨ 0 < j → ∀ e ∈ n.log.drop j, e ∈ C := by
    intro j hj e he
    obtain ⟨k, hk⟩ := List.mem_iff_getElem?.1 he
    rw [List.getElem?_drop] at hk
    exact h _ e hk (hj.imp_right fun hj => by omega)
  refine ⟨fun hp => hmem ?_, ?_⟩
  · -- an anchor at the start comes without the term of the entry before it
    rcases hp with hp | hp
    · exact Or.inl (by omega)
    · rcases Nat.eq_or_lt_of_le hpos with heq | hlt
      · rw [show next - 1 = n.logOffset by omega, n.entryAtLocked_eq_none (le_refl _)] at hp
        split at hp <;> exact absurd hp (Nat.lt_irrefl 0)
      · exact Or.inr (by omega)
  · rw [List.tail_drop]
    exact hmem (Or.inr (Nat.succ_pos _))

/-- A process that is started. -/
theorem Disk.From.boot (h : d.From C) (hfiles : ∀ f ∈ d.snapshots, 2 ≤ f.lastIncludedIndex)
    (c : Config) (p : String) : (c.newNode p d).From C := by
  unfold Node.From Config.newNode newNode
  cases hl : d.latest with
  | none =>
      rw [Option.filter_none]
      have hall : ∀ e ∈ d.log, e ∈ C := fun e he => (h e he).resolve_right fun ⟨g, hg, _⟩ => by
        rw [latest_eq_none.1 hl] at hg
        exact absurd hg List.not_mem_nil
      cases hlog : d.log with
      | nil => exact fun k e hk _ => absurd hk (by simp)
      | cons x xs =>
          rw [hlog] at hall
          exact fun k e hk _ => hall e (List.mem_of_getElem? hk)
  | some f =>
      have hf := hfiles f (latest_mem hl).1
      rw [Option.filter_some, if_pos (by simp; omega)]
      intro k e hk hpos
      dsimp only at hk hpos
      cases k with
      | zero => omega
      | succ k =>
          rw [List.getElem?_cons_succ] at hk
          obtain ⟨he, hlt⟩ := List.mem_filter.1 (List.mem_of_getElem? hk)
          rw [decide_eq_true_eq] at hlt
          refine (h e he).resolve_right fun ⟨g, hg, hle⟩ => ?_
          have := (latest_mem hl).2 g hg
          omega

namespace Locked.From

theorem mono (h : s.From C d) (hC : C ⊆ C') : s.From C' d :=
  ⟨h.node.mono hC, fun k => (h.disk k).mono hC, fun e he => hC (h.records e he)⟩

theorem lock (hn : n.From C) (hd : d.From C) : n.lock.From C d :=
  ⟨hn, fun k => by rw [show n.lock.writes = [] from rfl, List.take_nil]; exact hd,
    fun e he => absurd he List.not_mem_nil⟩

/-- The directory as the section has left it so far. -/
theorem whole (h : s.From C d) : (d.applyAll s.writes).From C := by
  have := h.disk s.writes.length
  rwa [List.take_length] at this

/-- More writes. -/
theorem write (h : s.From C d) {ws : List DiskWrite} (hws : s'.writes = s.writes ++ ws)
    (hnode : s'.node.From C) (hdisk : ∀ k, ((d.applyAll s.writes).applyAll (ws.take k)).From C)
    (hrec : ∀ e, .appendRecord e ∈ ws → e ∈ C) : s'.From C d := by
  refine ⟨hnode, fun k => ?_, fun e he => ?_⟩
  · rw [hws, List.take_append]
    rcases Nat.lt_or_ge k s.writes.length with hlt | hge
    · rw [show k - s.writes.length = 0 by omega, List.take_zero, List.append_nil]
      exact h.disk k
    · rw [List.take_of_length_le hge, Disk.applyAll_append]
      exact hdisk _
  · rw [hws] at he
    exact (List.mem_append.1 he).elim (h.records e) (hrec e)

/-- One more write. -/
theorem write_one (h : s.From C d) {w : DiskWrite} (hws : s'.writes = s.writes ++ [w])
    (hnode : s'.node.From C) (hdisk : ((d.applyAll s.writes).apply w).From C)
    (hrec : ∀ e, w = .appendRecord e → e ∈ C) : s'.From C d := by
  refine h.write hws hnode (fun k => ?_) fun e he => hrec e (List.mem_singleton.1 he).symm
  cases k with
  | zero => exact h.whole
  | succ k =>
      rw [List.take_succ_cons, List.take_nil]
      exact hdisk

theorem keepsLog (h : s.From C d) (hk : KeepsLog s s') : s'.From C d := by
  obtain ⟨ws, hws, hkeep⟩ := hk.writes
  refine h.write hws ?_ (fun k => ?_) fun e he => absurd (hkeep _ he) id
  · unfold Node.From
    rw [hk.log, hk.logOffset]
    exact h.node
  · obtain ⟨hlog, hsnap⟩ := Disk.log_applyAll
      (fun w hw => hkeep w (List.mem_of_mem_take hw)) (d.applyAll s.writes)
    unfold Disk.From
    rw [hlog, hsnap]
    exact h.whole

theorem appendLog (h : s.From C d) {es : List LogEntry} (hes : ∀ e ∈ es, e ∈ C) :
    (s.appendLog es).From C d := by
  refine h.write rfl (fun k e hk hpos => ?_) (fun k => ?_) fun e he => ?_
  · rcases Nat.lt_or_ge k s.node.log.length with hlt | hge
    · exact h.node k e (by rwa [← List.getElem?_append_left hlt]) hpos
    · refine hes e (List.mem_of_getElem? (i := k - s.node.log.length) ?_)
      rwa [← List.getElem?_append_right hge]
  · rw [show (appendLogEntries es).take k = appendLogEntries (es.take k) by
      simp [appendLogEntries, List.map_take], applyAll_appendLogEntries]
    intro e he
    rcases List.mem_append.1 he with he | he
    · exact h.whole e he
    · exact Or.inl (hes e (List.mem_of_mem_take he))
  · obtain ⟨x, hx, heq⟩ := List.mem_map.1 he
    cases heq
    exact hes e hx

theorem cut (h : s.From C d) (idx : Nat) :
    ((s.write [.truncateLogFrom idx]).modify fun n =>
      { n with log := n.log.take (idx - n.logOffset - 1) }).From C d := by
  refine h.write_one rfl (fun k e hk hpos => ?_) (fun e he => ?_) fun e he => nomatch he
  · simp only [node_modify, node_write] at hk hpos
    rw [List.getElem?_take] at hk
    split at hk
    · exact h.node k e hk hpos
    · exact absurd hk (by simp)
  · exact h.whole e (List.mem_of_mem_filter he)

/-- **Merging**: what a follower appends was created by a leader. -/
theorem mergeEntriesLocked (h : s.From C d) (hreq : req.From C) (hc : s.node.Compatible req)
    (hcheck : s.node.checkPrev req = none) :
    (s.mergeEntriesLocked req.prevLogIndex req.entries).From C d := by
  -- an anchor is at the index of the follower's own anchor, or below
  have hfrom : ∀ e ∈ req.entries, (0 < s.node.logOffset → s.node.logOffset + 1 < e.index) →
      e ∈ C := by
    intro e he hidx
    by_cases hreal : req.prevLogIndex = 0 ∨ 0 < req.prevLogTerm
    · exact hreq.1 hreal e he
    · have hle : req.prevLogIndex ≤ s.node.logOffset := by
        by_contra hlt
        unfold Node.checkPrev at hcheck
        rw [if_pos (by omega)] at hcheck
        cases hentry : s.node.entryAtLocked req.prevLogIndex with
        | none =>
            rw [hentry] at hcheck
            exact absurd hcheck (by simp)
        | some x =>
            have hx := hc.term x hentry
            rw [hentry] at hcheck
            dsimp only at hcheck
            rw [if_pos (by omega)] at hcheck
            exact absurd hcheck (by simp)
      obtain ⟨k, hk⟩ := List.mem_iff_getElem?.1 he
      have hplace := hc.placed k e hk
      have hlt := hidx (by omega)
      cases k with
      | zero => omega
      | succ k =>
          refine hreq.2 e (List.mem_of_getElem? (i := k) ?_)
          rw [List.getElem?_tail]
          exact hk
  rcases s.mergeEntriesLocked_cases hc.placed (s.node.prev_le_of_checkPrev hcheck) with heq |
    ⟨rest, hrest, hmem, heq⟩ | ⟨idx, rest, hoff, hle, hrest, -, hmem, ⟨x, hx, hidx, hterm⟩, heq⟩
  · rw [heq]
    exact h
  · rw [heq]
    refine h.appendLog fun e he => hfrom e (hmem e he) fun hpos => ?_
    have hlen := List.length_pos_of_ne_nil (hc.nonempty hpos)
    have := hrest.lt_of_mem he
    unfold Node.lastLogIndexLocked at this
    omega
  · rw [heq]
    refine (h.cut idx).appendLog fun e he => hfrom e (hmem e he) fun hpos => ?_
    have hge := hrest.lt_of_mem he
    rcases Nat.lt_or_eq_of_le hoff with hlt | hanchor
    · exact lt_of_lt_of_le hlt hge
    · subst hanchor
      exact absurd (hc.anchor hpos x hx hidx) hterm

/-- **`AppendEntries`.** -/
theorem appendEntries (h : s.From C d) (hreq : req.From C)
    (hc : s.node.currentTerm ≤ req.term → s.node.Compatible req) (f : SaveFaults) :
    (s.appendEntries req f).1.From C d := by
  by_cases hT : s.node.currentTerm ≤ req.term
  · have hobs := s.keepsLog_observeRequest req.term f.observe
    have hc := hc hT
    unfold Locked.appendEntries
    generalize s.observeRequest req.term f.observe = r at hobs ⊢
    obtain ⟨r, err⟩ := r
    cases err with
    | some err => exact h.keepsLog hobs
    | none =>
        dsimp only at hobs ⊢
        unfold acceptEntries
        split
        · exact h.keepsLog hobs
        · have hdown := hobs.trans ((r.keepsLog_setRoleLocked .follower).trans
            (.modify (f := fun n => { n with currentLeader := req.leaderId }) rfl rfl rfl rfl))
          generalize ((r.setRoleLocked .follower).modify fun n =>
            { n with currentLeader := req.leaderId }) = t at hdown
          dsimp only
          cases hcheck : t.node.checkPrev req with
          | some rejection => exact h.keepsLog hdown
          | none =>
              dsimp only
              rw [ite_mergeEntriesLocked]
              exact ((h.keepsLog hdown).mergeEntriesLocked hreq (hc.keepsLog hdown) hcheck).keepsLog
                (keepsLog_followCommit _ _)
  · have hstale : (s.appendEntries req f).1 = s := by
      unfold Locked.appendEntries observeRequest acceptEntries
      rw [if_neg (by omega)]
      dsimp only
      rw [if_pos (by omega)]
    rw [hstale]
    exact h

/-! ### Snapshots -/

theorem writeFile (h : s.From C d) (file : File) : (s.write [.writeFile file]).From C d := by
  refine h.write_one rfl h.node (fun e he => ?_) fun e he => nomatch he
  refine (h.whole e he).imp_right ?_
  rintro ⟨g, hg, hle⟩
  by_cases hidx : g.lastIncludedIndex = file.lastIncludedIndex
  · exact ⟨file, List.mem_cons_self .., hidx ▸ hle⟩
  · exact ⟨g, List.mem_cons_of_mem _ (List.mem_filter.2 ⟨hg, by simpa using hidx⟩), hle⟩

/-- A file may go if a later one is there. -/
theorem replaceSnapshotFileLocked (h : s.From C d) {A : Nat}
    (hnew : ∀ old, s.node.currentSnapshotPath = some old → old ≠ A →
      ∃ g ∈ (d.applyAll s.writes).snapshots, old < g.lastIncludedIndex) :
    (s.replaceSnapshotFileLocked A).From C d := by
  unfold Locked.replaceSnapshotFileLocked
  dsimp only
  cases hold : s.node.currentSnapshotPath with
  | none => exact ⟨h.node, h.disk, h.records⟩
  | some old =>
      dsimp only
      split
      · rename_i hne
        obtain ⟨g, hg, hlt⟩ := hnew old hold hne
        refine h.write_one rfl h.node (fun e he => ?_) fun e he => nomatch he
        refine (h.whole e he).imp_right ?_
        rintro ⟨g', hg', hle⟩
        by_cases hidx : g'.lastIncludedIndex = old
        · exact ⟨g, List.mem_filter.2 ⟨hg, by simp; omega⟩, by omega⟩
        · exact ⟨g', List.mem_filter.2 ⟨hg', by simpa using hidx⟩, hle⟩
      · exact ⟨h.node, h.disk, h.records⟩

/-- A file is not removed in favour of itself. -/
theorem mem_snapshots_superseded (h : file ∈ d.snapshots) (n : Node) :
    file ∈ (d.applyAll (superseded n file.lastIncludedIndex)).snapshots := by
  unfold superseded
  cases n.currentSnapshotPath with
  | none => exact h
  | some old =>
      dsimp only
      by_cases hne : old = file.lastIncludedIndex
      · rw [if_neg (not_not.2 hne)]
        exact h
      · rw [if_pos hne]
        exact List.mem_filter.2 ⟨h, decide_eq_true fun heq => hne heq.symm⟩

theorem compactLocked (h : s.From C d) (hlt : s.node.logOffset + 1 < file.lastIncludedIndex)
    (hpath : ∀ old, s.node.currentSnapshotPath = some old → old ≤ s.node.logOffset + 1) :
    (s.compactLocked file).1.From C d := by
  unfold Locked.compactLocked
  cases s.node.entryAtLocked file.lastIncludedIndex with
  | none => exact h
  | some _ =>
      dsimp only
      have h₁ := h.writeFile file
      have hin : file ∈ (d.applyAll (s.write [.writeFile file]).writes).snapshots := by
        rw [writes_write, Disk.applyAll_append]
        exact List.mem_cons_self ..
      have h₂ := h₁.replaceSnapshotFileLocked (A := file.lastIncludedIndex) fun old hold _ =>
        ⟨file, hin, (hpath old hold).trans_lt hlt⟩
      rw [replaceSnapshotFileLocked_eq] at h₂ ⊢
      have hkept := mem_snapshots_superseded hin (s.write [.writeFile file]).node
      rw [← Disk.applyAll_append] at hkept
      have htail : ∀ e ∈ s.node.log.drop (file.lastIncludedIndex - s.node.logOffset), e ∈ C := by
        intro e he
        obtain ⟨k, hk⟩ := List.mem_iff_getElem?.1 he
        rw [List.getElem?_drop] at hk
        exact h.node _ e hk (Or.inr (by omega))
      refine h₂.write_one rfl (fun k e hk hpos => ?_) (fun e he => ?_) fun e he => nomatch he
      · simp only [node_modify, node_write] at hk hpos
        cases k with
        | zero => omega
        | succ k =>
            rw [List.getElem?_cons_succ] at hk
            exact htail e (List.mem_of_getElem? hk)
      · rcases List.mem_cons.1 he with rfl | he
        · exact Or.inr ⟨file, hkept, le_refl _⟩
        · exact Or.inl (htail e he)

theorem adoptSnapshot (h : s.From C d) (hA : 2 ≤ file.lastIncludedIndex)
    (hfile : ∃ g ∈ (d.applyAll s.writes).snapshots, file.lastIncludedIndex ≤ g.lastIncludedIndex)
    (hpath : ∀ old, s.node.currentSnapshotPath = some old → old ≤ file.lastIncludedIndex) :
    (s.adoptSnapshot file).From C d := by
  unfold Locked.adoptSnapshot
  have h₁ := h.replaceSnapshotFileLocked (A := file.lastIncludedIndex) fun old hold hne => by
    obtain ⟨g, hg, hle⟩ := hfile
    have := hpath old hold
    exact ⟨g, hg, by omega⟩
  refine ⟨fun k e hk hpos => ?_, h₁.disk, h₁.records⟩
  simp only [node_modify] at hk hpos
  cases k with
  | zero => omega
  | succ k => exact absurd hk (by simp)

end Locked.From

end

/-! ## Requests and the abstract log -/

section

variable {F : List LogEntry} {req : AppendEntriesRequest}

theorem SentFrom.placed (h : SentFrom F req) (hF : Placed F) :
    PlacedFrom (req.prevLogIndex + 1) req.entries := by
  have hdrop : ∀ j, PlacedFrom (j + 1) (F.drop j) := by
    intro j k e hk
    rw [List.getElem?_drop] at hk
    rw [hF _ e hk]
    omega
  rcases h with ⟨-, heq, -⟩ | ⟨-, heq, -⟩ | ⟨-, -, e, -, heq⟩
  · rw [heq]
    exact hdrop _
  · rw [heq]
    exact .nil _
  · rw [heq]
    exact .cons rfl (hdrop _)

/-- Every entry of a request, an anchor included, has the term of the entry it stands for. -/
theorem SentFrom.term_eq (h : SentFrom F req) (hF : Placed F) {e : LogEntry} {i : Nat}
    (he : e ∈ req.entries) (hidx : e.index = i + 1) :
    (F[i]?).map LogEntry.term = some e.term := by
  have hdrop : ∀ j, e ∈ F.drop j → (F[i]?).map LogEntry.term = some e.term := by
    intro j hin
    obtain ⟨k, hk⟩ := List.mem_iff_getElem?.1 hin
    rw [List.getElem?_drop] at hk
    have := hF _ e hk
    rw [show i = j + k by omega, hk]
    rfl
  rcases h with ⟨-, heq, -⟩ | ⟨-, heq, -⟩ | ⟨-, -, x, hx, heq⟩
  · exact hdrop _ (heq ▸ he)
  · rw [heq] at he
    exact absurd he List.not_mem_nil
  · rw [heq] at he
    rcases List.mem_cons.1 he with rfl | he
    · rw [show i = req.prevLogIndex by simpa using hidx.symm, hx]
      rfl
    · exact hdrop _ he

end

section

variable {c : Config} {a a' : Model} {s s' : Cluster} {op : Op} {o : Outcome} {p : String}
  {n : Node} {C : Set LogEntry}

/-- The requests under way are compatible with every log. -/
theorem NodeView.compatible (h : NodeView c a p n) (hr : c.Reaches a) {req : AppendEntriesRequest}
    (hreq : RequestView a req) (hT : n.currentTerm ≤ req.term) : n.Compatible req := by
  obtain ⟨l, L, m, hled, hm, hsent, -, -⟩ := hreq
  have hplaced : Placed (L.take m) :=
    (placed_of_sound hr (hr.inv.logs.sound_led _ _ _ hled)).take m
  have hview := h.log
  refine ⟨hsent.placed hplaced, fun e he => ?_, fun hpos hnil => ?_, fun hpos e he hidx => ?_⟩
  · have hterm := n.term_entryAtLocked hview (Node.inside_of_entryAtLocked he).1
    rw [he] at hterm
    obtain ⟨x, hx, hxt⟩ := Option.map_eq_some_iff.1 hterm.symm
    rw [← hxt]
    exact term_pos_of_sound hr (hr.inv.logs.sound_log p) hx
  · have := hview.length
    have hlt := hview.offset_lt hpos
    rw [hnil, List.length_nil] at this
    omega
  · obtain ⟨hlen, htake⟩ := (h.take_anchor hr hled hT).resolve_left (by omega)
    have hL := hsent.term_eq hplaced he hidx
    rw [List.getElem?_take] at hL
    split at hL
    · rw [n.term_entryAtLocked hview (by omega : n.logOffset < n.logOffset + 1),
        Nat.add_sub_cancel, ReplicatedLog.getElem?_eq_of_take_eq htake (by omega)]
      exact hL
    · exact absurd hL (by simp)

/-- The path of the snapshot file is the index of the anchor. -/
theorem NodeView.path_eq (h : NodeView c a p n) {old : Nat}
    (hold : n.currentSnapshotPath = some old) : old = n.logOffset + 1 ∧ 0 < n.logOffset := by
  rw [h.path] at hold
  split at hold
  · exact absurd hold (by simp)
  · rename_i hoff
    exact ⟨(Option.some.inj hold).symm, Nat.pos_of_ne_zero hoff⟩

end

/-! ## The cluster -/

/-- **Everything comes from leaders**: what is stored, sent or applied is from `C`, apart from
anchors. -/
structure Traced (C : Set LogEntry) (c : Config) (s : Cluster) : Prop where
  nodes : ∀ p ∈ c.addrs, (s.hosts p).node.From C
  disks : ∀ p ∈ c.addrs, (s.hosts p).disk.From C
  requests : ∀ b ∈ s.broadcasts, ∀ out ∈ b.reqs, out.req.From C
  applied : ∀ ev ∈ s.history, ∀ msg, ev.what = .applied msg →
    ⟨msg.term, msg.index, msg.command⟩ ∈ C

/-- Only members apply entries. -/
theorem ClusterView.applied_member {c : Config} {a : Model} {s : Cluster} {op : Op} {o : Outcome}
    (h : ClusterView c a s) (heff : Effect c s op o) {msg : ApplyMsg}
    (hmsg : .applied msg ∈ o.result.events) : o.host ∈ c.addrs := by
  cases heff with
  | startElection p fails hp => exact hp
  | soloElection k call hk hepoch hq =>
      exact (h.elections call (List.mem_of_getElem? hk)).1.member
  | requestVote k call peer f hk hp hsent => exact hp
  | requestVoteReply k call peer fails reply hk hepoch hans =>
      exact (h.elections call (List.mem_of_getElem? hk)).1.member
  | broadcast op p read s' hp hrole hs' hcalls => exact hp
  | appendEntries k b out peer f hk hout hpeer hp hsent => exact hp
  | appendEntriesReply k b out peer fails reply s' hk hout hfind hpeer hepoch hans hs' hcalls =>
      exact (h.broadcasts b (List.mem_of_getElem? hk)).member
  | propose p command hp => exact hp
  | proposeSync p command hp s' hs' hcalls => exact hp
  | idle op p r s' hr hs' hop hcalls hret =>
      cases hr with
      | look => exact absurd hmsg List.not_mem_nil
      | returned i outcome => exact absurd hmsg (by simp [Node.lock])
      | waiters i => exact absurd hmsg List.not_mem_nil
      | leader l => exact absurd hmsg List.not_mem_nil
  | confirmCompaction p req hp => exact hp
  | pollWait op p ph hp hop hfrom hph hpos hph' hfetch => exact hp
  | pollWriteFile p file hp hpoll => exact hp
  | pollRewriteLog p file hp hpoll => exact hp
  | pollRestore p file hp hpoll => exact hp
  | pollAdopt p file hp hpoll => exact hp
  | pollCompact p file hp hpoll => exact hp

theorem Locked.logOffset_appendEntries (s : Locked) (req : AppendEntriesRequest) (f : SaveFaults) :
    (s.appendEntries req f).1.node.logOffset = s.node.logOffset := by
  have hobs := (s.keepsLog_observeRequest req.term f.observe).logOffset
  unfold appendEntries
  generalize s.observeRequest req.term f.observe = r at hobs ⊢
  obtain ⟨r, err⟩ := r
  cases err with
  | some err => exact hobs
  | none =>
      dsimp only at hobs ⊢
      refine Eq.trans ?_ hobs
      unfold acceptEntries
      split
      · rfl
      · have hdown := ((r.keepsLog_setRoleLocked .follower).trans
          (.modify (f := fun n => { n with currentLeader := req.leaderId }) rfl rfl rfl rfl)).logOffset
        generalize ((r.setRoleLocked .follower).modify fun n =>
          { n with currentLeader := req.leaderId }) = t at hdown
        dsimp only
        split
        · exact hdown
        · rw [ite_mergeEntriesLocked, (keepsLog_followCommit _ _).logOffset]
          obtain ⟨log, ws, heq⟩ := t.mergeEntriesLocked_frame req.prevLogIndex req.entries
          rw [heq]
          exact hdown

/-- A section that applies entries does not move the anchor. -/
theorem Effect.logOffset_of_applied {c : Config} {s : Cluster} {op : Op} {o : Outcome}
    (h : Effect c s op o) {msg : ApplyMsg} (hmsg : .applied msg ∈ o.result.events) :
    o.result.node.logOffset = (s.hosts o.host).node.logOffset ∧ ∀ p, op ≠ .pollAdopt p := by
  have hkeep : ∀ {r : Locked}, KeepsLog (s.hosts o.host).node.lock r →
      r.node.logOffset = (s.hosts o.host).node.logOffset := fun hk => hk.logOffset
  have hsilent : ∀ {r : Locked}, r.events = [] → .applied msg ∉ r.events := fun hr hin => by
    rw [hr] at hin
    exact absurd hin List.not_mem_nil
  cases h with
  | startElection p fails hp => exact ⟨hkeep (Locked.keepsLog_startElection _ _), nofun⟩
  | soloElection k call hk hepoch hq => exact ⟨hkeep (Locked.keepsLog_soloElection _ _), nofun⟩
  | requestVote k call peer f hk hp hsent => exact ⟨hkeep (Locked.keepsLog_requestVote _ _ _), nofun⟩
  | requestVoteReply k call peer fails reply hk hepoch hans =>
      exact ⟨hkeep (Locked.keepsLog_handleRequestVoteReply _ _ _ _), nofun⟩
  | broadcast op p read s' hp hrole hs' hcalls => exact absurd hmsg (hsilent rfl)
  | appendEntries k b out peer f hk hout hpeer hp hsent =>
      exact ⟨Locked.logOffset_appendEntries _ _ _, nofun⟩
  | appendEntriesReply k b out peer fails reply s' hk hout hfind hpeer hepoch hans hs' hcalls =>
      exact ⟨hkeep (Locked.keepsLog_handleAppendEntriesReply _ _ _ _ _), nofun⟩
  | propose p command hp =>
      dsimp only
      unfold Locked.propose
      split <;> exact ⟨rfl, nofun⟩
  | proposeSync p command hp s' hs' hcalls =>
      dsimp only
      unfold Locked.proposeSync
      split <;> exact ⟨rfl, nofun⟩
  | idle op p r s' hr hs' hop hcalls hret =>
      cases hr with
      | look => exact absurd hmsg (hsilent rfl)
      | returned i outcome => exact absurd hmsg (by simp [Node.lock])
      | waiters i => exact absurd hmsg (hsilent rfl)
      | leader l => exact absurd hmsg (hsilent rfl)
  | confirmCompaction p req hp =>
      refine absurd hmsg (hsilent ?_)
      rcases (s.hosts p).node.lock.confirmCompaction_cases req with heq | ⟨file, heq⟩
      · rw [heq]
        rfl
      · rw [heq]
        exact Locked.events_compactLocked _ _
  | pollWait op p ph hp hop hfrom hph hpos hph' hfetch => exact absurd hmsg (hsilent rfl)
  | pollWriteFile p file hp hpoll => exact absurd hmsg (hsilent rfl)
  | pollRewriteLog p file hp hpoll => exact absurd hmsg (hsilent rfl)
  | pollRestore p file hp hpoll => exact absurd hmsg (hsilent rfl)
  | pollAdopt p file hp hpoll =>
      refine absurd hmsg (hsilent ?_)
      unfold Locked.adoptSnapshot
      rw [Locked.replaceSnapshotFileLocked_eq]
      rfl
  | pollCompact p file hp hpoll =>
      refine absurd hmsg (hsilent ?_)
      rcases (s.hosts p).node.lock.pollCompact_cases file with heq | heq
      · rw [heq]
        rfl
      · rw [heq]
        exact Locked.events_compactLocked _ _

namespace Traced

variable {c : Config} {a a' : Model} {s s' : Cluster} {op : Op} {o : Outcome} {C C' : Set LogEntry}

theorem init (c : Config) : Traced ∅ c c.init where
  nodes p _ k e hk _ := absurd hk (by simp [Config.init, Config.boot, Config.newNode, newNode,
    Disk.empty, Disk.latest])
  disks p _ e he := absurd he List.not_mem_nil
  requests := by simp [Config.init]
  applied := by simp [Config.init]

theorem mono (h : Traced C c s) (hC : C ⊆ C') : Traced C' c s :=
  ⟨fun p hp => (h.nodes p hp).mono hC, fun p hp => (h.disks p hp).mono hC,
    fun b hb out hout => (h.requests b hb out hout).mono hC,
    fun ev hev msg hmsg => hC (h.applied ev hev msg hmsg)⟩

/-- **One critical section.** -/
theorem section_from (h : Traced C c s) (hv : ClusterView c a s) (heff : Effect c s op o)
    (hok : op.SafeSnapshots s) (hp : o.host ∈ c.addrs) :
    o.result.From (C ∪ {e | op.creates s = some e}) (s.hosts o.host).disk := by
  have hlock : (s.hosts o.host).node.lock.From C (s.hosts o.host).disk :=
    .lock (h.nodes _ hp) (h.disks _ hp)
  have hsub : C ⊆ C ∪ {e | op.creates s = some e} := Set.subset_union_left
  have hkeep : ∀ {r : Locked}, KeepsLog (s.hosts o.host).node.lock r →
      r.From (C ∪ {e | op.creates s = some e}) (s.hosts o.host).disk :=
    fun hk => (hlock.keepsLog hk).mono hsub
  have hn := hv.nodes _ hp
  have hpath : ∀ old, (s.hosts o.host).node.lock.node.currentSnapshotPath = some old →
      old ≤ (s.hosts o.host).node.lock.node.logOffset + 1 := fun old hold => (hn.path_eq hold).1.le
  have happend : (s.hosts o.host).node.role = .leader → ∀ command,
      op.creates s = some ⟨(s.hosts o.host).node.currentTerm,
        (s.hosts o.host).node.lastLogIndexLocked + 1, command⟩ →
      ((s.hosts o.host).node.lock.appendLocalLocked command).From
        (C ∪ {e | op.creates s = some e}) (s.hosts o.host).disk := by
    intro _ command hcr
    refine (hlock.mono hsub).appendLog fun e he => ?_
    rw [List.mem_singleton.1 he]
    exact Or.inr hcr
  cases heff with
  | startElection p fails hp => exact hkeep (Locked.keepsLog_startElection _ _)
  | soloElection k call hk hepoch hq => exact hkeep (Locked.keepsLog_soloElection _ _)
  | requestVote k call peer f hk hp hsent => exact hkeep (Locked.keepsLog_requestVote _ _ _)
  | requestVoteReply k call peer fails reply hk hepoch hans =>
      exact hkeep (Locked.keepsLog_handleRequestVoteReply _ _ _ _)
  | broadcast op p read s' hp hrole hs' hcalls => exact hkeep (.refl _)
  | appendEntries k b out peer f hk hout hpeer hp hsent =>
      have hb := List.mem_of_getElem? hk
      exact (hlock.appendEntries (h.requests b hb out hout)
        (hn.compatible hv.reach ((hv.broadcasts b hb).sent out hout).1) f).mono hsub
  | appendEntriesReply k b out peer fails reply s' hk hout hfind hpeer hepoch hans hs' hcalls =>
      exact hkeep (Locked.keepsLog_handleAppendEntriesReply _ _ _ _ _)
  | propose p command hp =>
      dsimp only at happend ⊢
      unfold Locked.propose
      split
      · exact hkeep (.refl _)
      · rename_i hl
        rw [not_not] at hl
        exact happend hl command (if_pos hl)
  | proposeSync p command hp s' hs' hcalls =>
      dsimp only at happend ⊢
      unfold Locked.proposeSync
      split
      · exact hkeep (.refl _)
      · rename_i hl
        rw [not_not] at hl
        dsimp only
        exact (happend hl command (if_pos hl)).keepsLog (.modify rfl rfl rfl rfl)
  | idle op p r s' hr hs' hop hcalls hret => exact hkeep (keepsLog_idle hr)
  | confirmCompaction p req hp =>
      dsimp only
      unfold Locked.confirmCompaction
      split
      · exact hkeep (.refl _)
      · split
        · exact hkeep (.refl _)
        · split
          · exact hkeep (.refl _)
          · split
            · exact hkeep (.refl _)
            · rename_i hlt _ _ file _ hidx
              rw [not_not] at hidx
              exact (hlock.compactLocked (by rw [hidx]; exact not_le.1 hlt) hpath).mono hsub
  | pollWait op p ph hp hop hfrom hph hpos hph' hfetch => exact hkeep (.refl _)
  | pollWriteFile p file hp hpoll => exact (hlock.writeFile file).mono hsub
  | pollRewriteLog p file hp hpoll =>
      have hpv := hv.polls p hp
      rw [hpoll] at hpv
      obtain ⟨-, g, hg, hle⟩ := hpv
      refine Locked.From.mono (hlock.write_one rfl hlock.node (fun e he => Or.inr ⟨g, hg, ?_⟩)
        fun e he => nomatch he) hsub
      rw [List.mem_singleton.1 he]
      exact hle
  | pollRestore p file hp hpoll => exact hkeep (.refl _)
  | pollAdopt p file hp hpoll =>
      have hpv := hv.polls p hp
      rw [hpoll] at hpv
      obtain ⟨⟨hA, -⟩, hg⟩ := hpv
      have hcov : Covers s p file := hok file (by rw [hpoll]; rfl)
      refine (hlock.adoptSnapshot hA hg fun old hold => ?_).mono hsub
      obtain ⟨hold, hoff⟩ := hn.path_eq hold
      have hlen := hn.log.length
      have hlt := hn.log.offset_lt hoff
      unfold Covers Node.lastLogIndexLocked at hcov
      dsimp only at hold hlen hlt
      omega
  | pollCompact p file hp hpoll =>
      dsimp only
      unfold Locked.pollCompact
      split
      · rename_i hlt
        exact (hlock.compactLocked hlt.1 hpath).mono hsub
      · exact hkeep (.refl _)

/-- What a critical section applies. -/
theorem section_applied (hv : ClusterView c a s) (heff : Effect c s op o)
    {lo : Nat} (hs : SectionStep c a s op o lo a') (hfrom : o.result.node.From C)
    {msg : ApplyMsg} (hmsg : .applied msg ∈ o.result.events) :
    ⟨msg.term, msg.index, msg.command⟩ ∈ C := by
  have hp := hv.applied_member heff hmsg
  obtain ⟨hoff, hop⟩ := heff.logOffset_of_applied hmsg
  have hview := hs.member hp
  have hn := hv.nodes _ hp
  have hlo := hs.applied hop
  -- it is an entry of the abstract log, above what was applied before
  have hin : msg ∈ o.result.events.filterMap NodeEvent.msg? := List.mem_filterMap.2 ⟨_, hmsg, rfl⟩
  rw [hview.applied, List.mem_map] at hin
  obtain ⟨e, he, rfl⟩ := hin
  obtain ⟨k, hk⟩ := List.mem_iff_getElem?.1 he
  rw [List.getElem?_drop, List.getElem?_take] at hk
  split at hk
  · -- the anchor is not above what was applied before
    have habove : o.result.node.logOffset = 0 ∨ o.result.node.logOffset + 1 ≤ lo := by
      rw [hoff, hlo, hn.applied]
      exact hn.anchor
    have hle : o.result.node.logOffset ≤ lo + k := by omega
    refine hfrom (lo + k - o.result.node.logOffset) e ?_ (habove.imp_right fun h => by omega)
    rw [hview.node.log.getElem?_pos (habove.imp_right fun h => by omega),
      show o.result.node.logOffset + (lo + k - o.result.node.logOffset) = lo + k by omega]
    exact hk
  · exact absurd hk (by simp)

/-- A restart. -/
theorem restart (h : Traced C c s) (q : String) {ws : List DiskWrite}
    (hd : q ∈ c.addrs → ((s.hosts q).disk.applyAll ws).From C)
    (hv : ClusterView c a' (s.restart c q ws)) : Traced C c (s.restart c q ws) := by
  refine ⟨fun p hp => ?_, fun p hp => ?_, h.requests, h.applied⟩
  · by_cases hq : p = q
    · subst hq
      have hfiles := (hv.disks p hp).files
      rw [Cluster.hosts_restart] at hfiles ⊢
      exact (hd hp).boot (fun f hf => (hfiles f hf).1) c p
    · rw [Cluster.hosts_restart_of_ne _ _ _ _ hq]
      exact h.nodes p hp
  · by_cases hq : p = q
    · subst hq
      rw [Cluster.hosts_restart]
      exact hd hp
    · rw [Cluster.hosts_restart_of_ne _ _ _ _ hq]
      exact h.disks p hp

/-- **One safe step.** -/
theorem step (h : Traced C c s) (hv : ClusterView c a s) {act : Action} (hok : Safe s act)
    (hs : B5KvStore.step c s act = some s') :
    Traced (C ∪ {e | created s act = some e}) c s' := by
  have hsub : C ⊆ C ∪ {e | created s act = some e} := Set.subset_union_left
  obtain ⟨q, a', -, hv'⟩ := hv.step hok hs
  cases stepView hs with
  | run op o ho =>
      have heff := exec_effect ho
      obtain ⟨lo, a₁, hsec⟩ := hv.effect heff hok.1 hok.2
      have hfrom := fun hp => h.section_from hv heff hok.2 hp
      refine ⟨fun p hp => ?_, fun p hp => ?_, fun b hb => ?_, fun ev hev msg hmsg => ?_⟩
      · by_cases hq : p = o.host
        · subst hq
          rw [Cluster.node_finish]
          exact (hfrom hp).node
        · rw [heff.hosts_finish_other hq]
          exact (h.nodes p hp).mono hsub
      · by_cases hq : p = o.host
        · subst hq
          rw [heff.disk_finish]
          exact (hfrom hp).whole
        · rw [heff.hosts_finish_other hq]
          exact (h.disks p hp).mono hsub
      · cases heff.round hb with
        | old b₀ calls hb₀ heq hcalls =>
            subst heq
            exact fun out hout => (h.requests b₀ hb₀ out hout).mono hsub
        | new read hrole hres heq =>
            have hmem : o.host ∈ c.addrs := by
              have := (hv'.broadcasts b hb).member
              rwa [heq] at this
            subst heq
            intro out hout
            obtain ⟨q, -, rfl⟩ := List.mem_map.1 hout
            exact ((h.nodes _ hmem).request q).mono hsub
      · rw [Cluster.history_finish] at hev
        rcases List.mem_append.1 hev with hev | hev
        · rw [heff.same_rest.2] at hev
          exact hsub (h.applied ev hev msg hmsg)
        · obtain ⟨x, hx, rfl⟩ := List.mem_map.1 hev
          subst hmsg
          exact section_applied hv heff hsec (hfrom (hv.applied_member heff hx)).node hx
  | crash q _ => exact (h.mono hsub).restart q (fun hq => (h.disks q hq).mono hsub) hv'
  | crashDuring op o k ho =>
      refine (h.mono hsub).restart o.host (fun hp => ?_) hv'
      rcases Nat.eq_zero_or_pos k with rfl | hk
      · exact (h.disks _ hp).mono hsub
      · have hcr : created s (.crashDuring op k) = op.creates s := if_pos hk
        rw [hcr]
        exact (h.section_from hv (exec_effect ho) hok.2 hp).disk k
  | publish file =>
      have h' := h.mono hsub
      exact ⟨h'.nodes, h'.disks, h'.requests, h'.applied⟩

/-- **Safe runs.** -/
theorem run (h : Traced C c s) (hv : ClusterView c a s) {as : List Action}
    (hok : Runs.Along (B5KvStore.step c) Safe s as) (hrun : B5KvStore.run c s as = some s') :
    Traced (C ∪ {e | e ∈ createdBy c s as}) c s' ∧ ∃ a', ClusterView c a' s' := by
  induction as generalizing s C a with
  | nil =>
      cases hrun
      exact ⟨h.mono Set.subset_union_left, a, hv⟩
  | cons act as ih =>
      obtain ⟨t, ht, hrun⟩ := Option.bind_eq_some_iff.1 hrun
      obtain ⟨q, a₁, -, hv₁⟩ := hv.step hok.1 ht
      obtain ⟨hend, hvend⟩ := ih (h.step hv hok.1 ht) hv₁ (hok.2 t ht) hrun
      refine ⟨hend.mono ?_, hvend⟩
      rintro e ((he | he) | he)
      · exact Or.inl he
      · refine Or.inr (show e ∈ createdBy c s (act :: as) from ?_)
        rw [createdBy_cons ht, show created s act = some e from he]
        exact List.mem_append_left _ (List.mem_singleton.2 rfl)
      · refine Or.inr (show e ∈ createdBy c s (act :: as) from ?_)
        rw [createdBy_cons ht]
        exact List.mem_append_right _ he

end Traced

/-- **Anchors are never taken for entries**, in every run in which no disk write fails and
snapshots are used safely: whatever a follower appends to its log when it merges the entries of
a request, and whatever is handed to `ApplyFn`, was created by a leader. -/
theorem entries_created (c : Config) (as : List Action) (s : Cluster)
    (hok : Runs.Along (step c) Safe c.init as) (hrun : run c c.init as = some s) :
    (∀ k peer f o, Safe s (.run (.appendEntries k peer f)) →
      exec c s (.appendEntries k peer f) = some o →
      ∀ e, .appendRecord e ∈ o.result.writes → e ∈ createdBy c c.init as) ∧
    ∀ ev ∈ s.history, ∀ msg, ev.what = .applied msg →
      ⟨msg.term, msg.index, msg.command⟩ ∈ createdBy c c.init as := by
  obtain ⟨h, a, hv⟩ := (Traced.init c).run (ClusterView.init c) hok hrun
  rw [Set.empty_union] at h
  refine ⟨fun k peer f o hsafe ho e he => ?_, h.applied⟩
  have heff := exec_effect ho
  have hp : o.host ∈ c.addrs := by
    simp only [exec, Option.bind_eq_bind, Option.bind_eq_some_iff, guard_eq_some, exists_const,
      Option.some.injEq] at ho
    obtain ⟨b, -, out, -, ⟨hp, -⟩, rfl⟩ := ho
    exact hp
  rcases (h.section_from hv heff hsafe.2 hp).records e he with hin | hin
  · exact hin
  · exact absurd hin (by simp [Op.creates])

/-- The entry a write appends to `log.dat`. -/
def DiskWrite.record? : DiskWrite → Option LogEntry
  | .appendRecord e => some e
  | _ => none

theorem DiskWrite.record?_eq_some {w : DiskWrite} {e : LogEntry} :
    w.record? = some e ↔ w = .appendRecord e := by
  cases w <;> simp [DiskWrite.record?]

/-- The leader `a` compacts its log, `c` catches up to the snapshot, and `a` sends its anchor and
the entry above it. -/
def sendAnchor : List Action :=
  winElection "a" "b" 0 ++
  [.run (.propose "a" (putBytes 120 49)), .run (.propose "a" (putBytes 120 50))] ++
  replicate "a" "b" 0 ++
  [.publish ⟨KVMap.apply (fun _ => none) ⟨.put, "x", "2"⟩, 2, 1⟩,
    .run (.confirmCompaction "a" ⟨2, .ok ⟨KVMap.apply (fun _ => none) ⟨.put, "x", "2"⟩, 2, 1⟩⟩)] ++
  replicate "a" "c" 1 ++ fetchSnapshot "c" ++ adoptFetched "c" ++
  [.run (.propose "a" (putBytes 121 49)), .run (.broadcastAppendEntries "a")]

/-- Node `c` appends the entry and leaves its own anchor as it is. -/
theorem entries_created_sendAnchor : ∃ s o, run trio trio.init sendAnchor = some s ∧
    exec trio s (.appendEntries 2 "c" noFaults) = some o ∧
    .appendRecord ⟨1, 3, putBytes 121 49⟩ ∈ o.result.writes ∧
    ⟨1, 3, putBytes 121 49⟩ ∈ createdBy trio trio.init sendAnchor := by
  obtain ⟨s, hrun, hexec⟩ := exists_of_run (fun s : Cluster =>
    (exec trio s (.appendEntries 2 "c" noFaults)).any (fun o => decide
      (⟨1, 3, putBytes 121 49⟩ ∈ o.result.writes.filterMap DiskWrite.record?)) = true)
    (show (run trio trio.init sendAnchor).any _ = true by decide +kernel)
  obtain ⟨o, ho, hin⟩ := (Option.any_eq_true _ _).1 hexec
  obtain ⟨w, hw, hrec⟩ := List.mem_filterMap.1 (of_decide_eq_true hin)
  rw [DiskWrite.record?_eq_some.1 hrec] at hw
  have h := entries_created trio sendAnchor s (by decide +kernel) hrun
  exact ⟨s, o, hrun, ho, hw, h.1 2 "c" noFaults o ⟨rfl, trivial⟩ ho _ hw⟩

/-- Node `b` catches up to a snapshot of the first entry and leads `c`, which has no log. -/
def sendFirstAnchor : List Action :=
  winElection "a" "b" 0 ++ [.run (.propose "a" (putBytes 120 49))] ++ replicate "a" "b" 0 ++
  [.publish ⟨KVMap.apply (fun _ => none) ⟨.put, "x", "1"⟩, 1, 1⟩] ++
  fetchSnapshot "b" ++ adoptFetched "b" ++ winElection "b" "c" 1 ++
  replicate "b" "c" 1 ++ replicate "b" "c" 2

/-- The anchor of index 1 is appended and applied as an entry without a command. -/
theorem anchor_applied : ∃ s, run trio trio.init sendFirstAnchor = some s ∧
    (s.hosts "c").node.entryAtLocked 1 = some ⟨1, 1, []⟩ ∧
    ⟨"c", 0, .applied ⟨1, 1, []⟩⟩ ∈ s.history ∧
    createdBy trio trio.init sendFirstAnchor = [⟨1, 1, putBytes 120 49⟩] :=
  exists_of_run (fun s : Cluster => (s.hosts "c").node.entryAtLocked 1 = some ⟨1, 1, []⟩ ∧
    (⟨"c", 0, .applied ⟨1, 1, []⟩⟩ : Event) ∈ s.history ∧
    createdBy trio trio.init sendFirstAnchor = [⟨1, 1, putBytes 120 49⟩]) (by decide +kernel)

end B5KvStore
