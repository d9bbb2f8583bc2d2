import B5KvStore.Cluster.Leaders

/-!
# Compaction and catch-up

Compaction and the steps of `catchUpFromSnapshot` as steps of the abstract protocol.
Compacting changes nothing there: the anchor stands for committed entries the node
holds.  Catching up installs a committed prefix, provided the node's log is no longer
than the snapshot.

* `Simulates.compactLocked`.
* `Simulates.writeFile`, `Simulates.rewriteLog`, `Simulates.adoptSnapshot`.
-/

namespace B5KvStore

open ReplicatedLog (Known Backed CommittedAt Extends)

variable {c : Config} {a a' a₀ : Model} {p : String} {d : Disk} {lo : Nat} {s s' : Locked}
  {n : Node} {file : File}

/-- What the log holds above an index is what the full log holds. -/
theorem LogView.drop_eq {F log : List LogEntry} {off A : Nat} (h : LogView F off log)
    (hA : off + 1 ≤ A) : log.drop (A - off) = F.drop A := by
  apply List.ext_getElem?
  intro i
  rw [List.getElem?_drop, List.getElem?_drop, h.getElem?_pos (Or.inr (by omega))]
  congr 1
  omega

/-- With a snapshot on disk there is a latest one. -/
theorem exists_latest {g : File} (hg : g ∈ d.snapshots) :
    ∃ f, d.latest = some f ∧ g.lastIncludedIndex ≤ f.lastIncludedIndex := by
  cases hl : d.latest with
  | none =>
      rw [latest_eq_none.1 hl] at hg
      exact absurd hg (by simp)
  | some f => exact ⟨f, rfl, (latest_mem hl).2 g hg⟩

/-- The anchor of a snapshot is not above it. -/
theorem filter_anchor {A : Nat} (h : file.lastIncludedIndex ≤ A) (es : List LogEntry) :
    (file.anchor :: es).filter (fun e => A < e.index) = es.filter (fun e => A < e.index) := by
  refine List.filter_cons_of_neg ?_
  rw [decide_eq_true_eq]
  exact not_lt.2 h

theorem mem_writeFile (d : Disk) (file : File) : file ∈ (d.apply (.writeFile file)).snapshots :=
  List.mem_cons_self ..

/-- Writing a snapshot supersedes at most one of the same index. -/
theorem writeFile_covers (d : Disk) (file : File) :
    ∀ f ∈ d.snapshots, ∃ g ∈ (d.apply (.writeFile file)).snapshots,
      f.lastIncludedIndex ≤ g.lastIncludedIndex := by
  intro f hf
  by_cases heq : f.lastIncludedIndex = file.lastIncludedIndex
  · exact ⟨file, mem_writeFile d file, heq.le⟩
  · exact ⟨f, List.mem_cons_of_mem _ (List.mem_filter.2 ⟨hf, by simpa using heq⟩), le_refl _⟩

/-- Removing a snapshot that a later one supersedes. -/
theorem removeFile_covers {i : Nat} {g : File} (hg : g ∈ d.snapshots)
    (hi : i < g.lastIncludedIndex) :
    ∀ f ∈ d.snapshots, ∃ g ∈ (d.apply (.removeFile i)).snapshots,
      f.lastIncludedIndex ≤ g.lastIncludedIndex := by
  intro f hf
  by_cases heq : f.lastIncludedIndex = i
  · exact ⟨g, List.mem_filter.2 ⟨hg, by simp; omega⟩, by omega⟩
  · exact ⟨f, List.mem_filter.2 ⟨hf, by simpa using heq⟩, le_refl _⟩

namespace Simulates

/-! ## Compaction -/

/-- The files a compaction leaves behind. -/
theorem diskView_compact (h : Simulates c a₀ p d lo s a) (hr : c.Reaches a₀)
    (hoff : s.node.logOffset + 1 < file.lastIncludedIndex) {d' : Disk} (hd : DiskView c a p d')
    (hmem : file ∈ d'.snapshots) :
    DiskView c a p (d'.apply (.rewriteLog (file.anchor ::
      s.node.log.drop (file.lastIncludedIndex - s.node.logOffset)))) := by
  obtain ⟨f, hf, hle⟩ := exists_latest hmem
  refine hd.rewriteLog hf ?_
  rw [h.node.log.drop_eq (by omega), filter_anchor hle]
  exact (placed_log (h.reaches hr) p).filter_drop hle

/-- **`compactLocked`** with a snapshot of committed entries the node has applied. -/
theorem compactLocked (h : Simulates c a₀ p d lo s a) (hr : c.Reaches a₀)
    (hoff : s.node.logOffset + 1 < file.lastIncludedIndex)
    (hA : file.lastIncludedIndex ≤ s.node.lastApplied) (hfile : CommittedFile a file) :
    Simulates c a₀ p d lo (s.compactLocked file).1 a := by
  have hra := h.reaches hr
  obtain ⟨e, he, hte⟩ := hfile
  have hAc : file.lastIncludedIndex ≤ s.node.commitIndex := by rw [← h.node.applied]; exact hA
  have hget := h.node.known.getElem? hra.inv hAc he
  have hview : FileView a p file := ⟨by omega, e, h.node.known.backed he.pos hAc hget, hte⟩
  have hentry : (s.node.entryAtLocked file.lastIncludedIndex).map LogEntry.term = some e.term := by
    rw [s.node.term_entryAtLocked h.node.log (by omega), hget]
    rfl
  obtain ⟨x, hx, -⟩ := Option.map_eq_some_iff.1 hentry
  -- the node afterwards
  have hnode : NodeView c a p { s.node with
      log := file.anchor :: s.node.log.drop (file.lastIncludedIndex - s.node.logOffset)
      logOffset := file.lastIncludedIndex - 1
      currentSnapshotPath := some file.lastIncludedIndex } := by
    refine ⟨h.node.id, h.node.peers, h.node.term, h.node.vote, h.node.role,
      h.node.log.compact hoff hget hte, ?_, Or.inr ?_, h.node.known, h.node.applied, h.node.matched⟩
    · dsimp only
      rw [if_neg (by omega)]
      congr 1
      omega
    · dsimp only
      omega
  have hd₁ := h.disk.writeFile hra hview
  have hmem := mem_writeFile (d.applyAll s.writes) file
  unfold Locked.compactLocked
  rw [hx]
  dsimp only
  unfold Locked.replaceSnapshotFileLocked
  dsimp only
  rw [show (s.write [.writeFile file]).node.currentSnapshotPath = s.node.currentSnapshotPath from rfl,
    h.node.path]
  by_cases h0 : s.node.logOffset = 0
  · rw [if_pos h0]
    refine h.writes .refl rfl [.writeFile file, .rewriteLog _]
      (List.append_assoc ..) ?_ ?_ (List.append_nil _).symm .nil hnode rfl
    · intro k hk
      by_cases h1 : k = 1
      · subst h1
        exact hd₁
      · rw [List.take_of_length_le (by simp only [List.length_cons, List.length_nil]; omega)]
        exact h.diskView_compact hr hoff hd₁ hmem
    · exact writeFile_covers _ file
  · rw [if_neg h0]
    dsimp only
    rw [if_pos (by omega)]
    have hd₂ := hd₁.removeFile hra hmem hoff
    have hmem₂ : file ∈ (((d.applyAll s.writes).apply (.writeFile file)).apply
        (.removeFile (s.node.logOffset + 1))).snapshots :=
      List.mem_filter.2 ⟨hmem, by simp; omega⟩
    refine h.writes .refl rfl
      [.writeFile file, .removeFile (s.node.logOffset + 1), .rewriteLog _]
      (by simp [Locked.write, Locked.modify]; rfl) ?_ ?_ (List.append_nil _).symm .nil
      hnode rfl
    · intro k hk
      by_cases h1 : k = 1
      · subst h1
        exact hd₁
      by_cases h2 : k = 2
      · subst h2
        exact hd₂
      rw [List.take_of_length_le (by simp only [List.length_cons, List.length_nil]; omega)]
      exact h.diskView_compact hr hoff hd₂ hmem₂
    · intro f hf
      obtain ⟨g, hg, hle⟩ := writeFile_covers _ file f hf
      obtain ⟨g', hg', hle'⟩ := removeFile_covers hmem hoff g hg
      exact ⟨g', hg', hle.trans hle'⟩

theorem confirmCompaction (h : Simulates c a₀ p d lo s a) (hr : c.Reaches a₀) {req : CompactionAck}
    (hfile : ∀ file, req.stateMachineSnapshot = .ok file → CommittedFile a file) :
    Simulates c a₀ p d lo (s.confirmCompaction req).1 a := by
  unfold Locked.confirmCompaction
  split
  · exact h
  · split
    · exact h
    · split
      · exact h
      · rename_i file hreq
        split
        · exact h
        · rename_i hoff hA heq
          rw [not_not] at heq
          exact h.compactLocked hr (by omega) (by omega) (hfile file hreq)

theorem pollCompact (h : Simulates c a₀ p d lo s a) (hr : c.Reaches a₀)
    (hfile : 0 < file.lastIncludedIndex → CommittedFile a file) :
    Simulates c a₀ p d lo (s.pollCompact file) a := by
  unfold Locked.pollCompact
  split
  · rename_i hcond
    exact h.compactLocked hr hcond.1 hcond.2 (hfile (by omega))
  · exact h

/-! ## Catching up -/

/-- The snapshot file is written. -/
theorem writeFile (h : Simulates c a₀ p d lo s a) (hr : c.Reaches a₀) (hfile : FileView a p file) :
    Simulates c a₀ p d lo (s.write [.writeFile file]) a := by
  refine h.writes .refl rfl [.writeFile file] rfl ?_ (writeFile_covers _ file)
    (List.append_nil _).symm .nil h.node rfl
  intro k hk
  rw [List.take_of_length_le (by rw [List.length_singleton]; omega)]
  exact h.disk.writeFile (h.reaches hr) hfile

/-- `log.dat` is replaced by the anchor, under a snapshot that covers the log. -/
theorem rewriteLog (h : Simulates c a₀ p d lo s a) {g : File}
    (hg : g ∈ (d.applyAll s.writes).snapshots)
    (hle : file.lastIncludedIndex ≤ g.lastIncludedIndex)
    (hlast : s.node.lastLogIndexLocked ≤ file.lastIncludedIndex) :
    Simulates c a₀ p d lo (s.write [.rewriteLog [file.anchor]]) a := by
  obtain ⟨f, hf, hgf⟩ := exists_latest hg
  rw [s.node.lastLogIndexLocked_eq h.node.log] at hlast
  refine h.write .refl rfl rfl (h.disk.rewriteLog hf ?_) (fun _ => rfl) (List.append_nil _).symm .nil
    h.node rfl
  rw [List.drop_eq_nil_of_le (by omega), filter_anchor (hle.trans hgf)]
  rfl

/-- **The end of `catchUpFromSnapshot`**, for a log that the snapshot covers: the
abstract participant has installed a committed prefix. -/
theorem adoptSnapshot (hn : NodeView c a p n) (hd : DiskView c a p d) (hr : c.Reaches a)
    (hfile : FileView a p file) {g : File} (hg : g ∈ d.snapshots)
    (hle : file.lastIncludedIndex ≤ g.lastIncludedIndex)
    (hlast : n.lastLogIndexLocked ≤ file.lastIncludedIndex) :
    ∃ a', Simulates c a p d file.lastIncludedIndex (n.lock.adoptSnapshot file) a' := by
  obtain ⟨hA, e, hb, hte⟩ := hfile
  obtain ⟨a', hm, hterm, hvote, hrole, -, hacks, hcom, hknown, he, hdrop⟩ := hb.adopt hr.inv
  rw [n.lastLogIndexLocked_eq hn.log] at hlast
  rw [List.drop_eq_nil_of_le hlast] at hdrop
  have hcommit := hn.known.1
  have hoff := hn.log.offset_lt
  obtain ⟨f, hf, hgf⟩ := exists_latest hg
  have hd' : DiskView c a' p d := by
    refine ⟨by rw [hterm]; exact hd.term, by rw [hvote]; exact hd.vote, hd.files_moves hr hm,
      Or.inr ⟨f, hf, ?_⟩⟩
    rw [hd.filter_log hr (fun f' hf' => by rw [hf, Option.some.injEq] at hf'; rw [hf']),
      List.drop_eq_nil_of_le (by omega), List.drop_eq_nil_of_le]
    have := List.drop_eq_nil_iff.1 hdrop
    omega
  have hC : (if n.commitIndex < file.lastIncludedIndex then file.lastIncludedIndex
      else n.commitIndex) = file.lastIncludedIndex := by
    split <;> omega
  have hnode : NodeView c a' p { n with
      log := [file.anchor]
      logOffset := file.lastIncludedIndex - 1
      currentSnapshotPath := some file.lastIncludedIndex
      commitIndex := file.lastIncludedIndex
      lastApplied := file.lastIncludedIndex } := by
    refine ⟨hn.id, hn.peers, by rw [hterm]; exact hn.term, by rw [hvote]; exact hn.vote,
      by rw [hrole]; exact hn.role, ?_, ?_, Or.inr (by dsimp only; omega), hknown, rfl, ?_⟩
    · have hview := LogView.anchor (t := file.lastIncludedTerm) hA he hte
      rw [hdrop] at hview
      exact hview
    · dsimp only
      rw [if_neg (by omega)]
      congr 1
      omega
    · intro hl q m hq
      rw [hacks]
      exact hn.matched hl q m hq
  have hfin : ∀ ws : List DiskWrite, (∀ k, DiskView c a' p (d.applyAll (ws.take k))) →
      (∀ f ∈ d.snapshots, ∃ g ∈ (d.applyAll ws).snapshots,
        f.lastIncludedIndex ≤ g.lastIncludedIndex) →
      Simulates c a p d file.lastIncludedIndex ⟨{ n with
        log := [file.anchor]
        logOffset := file.lastIncludedIndex - 1
        currentSnapshotPath := some file.lastIncludedIndex
        commitIndex := file.lastIncludedIndex
        lastApplied := file.lastIncludedIndex }, ws, []⟩ a' := by
    intro ws hws hcov
    refine ⟨hm, hcom, hnode, ?_, fun k => ⟨a', hm, hcom, hws k⟩, hcov, .nil, rfl⟩
    have := hws ws.length
    rwa [List.take_length] at this
  refine ⟨a', ?_⟩
  unfold Locked.adoptSnapshot Locked.replaceSnapshotFileLocked
  dsimp only [Node.lock]
  rw [hn.path]
  by_cases h0 : n.logOffset = 0
  · rw [if_pos h0]
    simp only [Locked.modify, hn.applied, hC]
    exact hfin [] (fun k => by rw [List.take_nil]; exact hd') (fun f hf => ⟨f, hf, le_refl _⟩)
  · rw [if_neg h0]
    dsimp only
    by_cases hne : n.logOffset + 1 = file.lastIncludedIndex
    · rw [if_neg (not_not.2 hne)]
      simp only [Locked.modify, hn.applied, hC]
      exact hfin [] (fun k => by rw [List.take_nil]; exact hd') (fun f hf => ⟨f, hf, le_refl _⟩)
    · -- the old snapshot is superseded
      have hlt : n.logOffset + 1 < g.lastIncludedIndex := by
        have := hoff (Nat.pos_of_ne_zero h0)
        omega
      rw [if_pos hne]
      simp only [Locked.modify, Locked.write, hn.applied, hC, List.nil_append]
      refine hfin [.removeFile (n.logOffset + 1)] ?_ (removeFile_covers hg hlt)
      intro k
      cases k with
      | zero => exact hd'
      | succ k =>
          rw [List.take_of_length_le (by simp)]
          exact hd'.removeFile (hr.steps hm) hg hlt

end Simulates

end B5KvStore
