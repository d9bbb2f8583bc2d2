import B5KvStore.Raft.Frame
import B5KvStore.Raft.LogView

/-!
# Starting again from the data directory

What `NewNode` makes of a data directory, and what it makes of one that
`compactLocked` or `catchUpFromSnapshot` has left in the middle of its writes.
Both write the snapshot first and the log afterwards, and `NewNode` keeps whatever
`log.dat` holds above the latest snapshot, so a snapshot that contradicts the log
is put in front of entries that never followed it.

* `latest_writeFile`, `latest_writeFile_of_lt` — the latest snapshot after a write.
* `Node.restart_of_latest`, `Node.restart_of_none` — the log that is recovered.
* `crash_atomic_iff` — when every crash leaves the log before or the log after.
-/

namespace B5KvStore

/-! ## The latest snapshot -/

theorem better_some (b f : File) : Disk.better (some b) f =
    if b.lastIncludedIndex < f.lastIncludedIndex then some f else some b := rfl

theorem foldl_better_spec (fs : List File) (o : Option File) :
    (fs.foldl Disk.better o = none ↔ o = none ∧ fs = []) ∧
    ∀ f, fs.foldl Disk.better o = some f → (f ∈ fs ∨ o = some f) ∧
      (∀ g ∈ fs, g.lastIncludedIndex ≤ f.lastIncludedIndex) ∧
      ∀ g, o = some g → g.lastIncludedIndex ≤ f.lastIncludedIndex := by
  induction fs generalizing o with
  | nil =>
      refine ⟨by simp, fun f hf => ⟨Or.inr hf, by simp, fun g hg => ?_⟩⟩
      rw [List.foldl_nil, hg, Option.some.injEq] at hf
      rw [hf]
  | cons x fs ih =>
      rw [List.foldl_cons]
      obtain ⟨b, hb, hxb, hob, hcase⟩ : ∃ b, Disk.better o x = some b ∧
          x.lastIncludedIndex ≤ b.lastIncludedIndex ∧
          (∀ g, o = some g → g.lastIncludedIndex ≤ b.lastIncludedIndex) ∧
          (b = x ∨ o = some b) := by
        cases o with
        | none => exact ⟨x, rfl, le_refl _, by simp, Or.inl rfl⟩
        | some g =>
            by_cases hlt : g.lastIncludedIndex < x.lastIncludedIndex
            · exact ⟨x, by simp [Disk.better, hlt], le_refl _, by rintro g' ⟨⟩; exact hlt.le,
                Or.inl rfl⟩
            · exact ⟨g, by simp [Disk.better, hlt], by omega, by rintro g' ⟨⟩; exact le_refl _,
                Or.inr rfl⟩
      obtain ⟨hnone, hsome⟩ := ih (Disk.better o x)
      refine ⟨?_, fun f hf => ?_⟩
      · rw [hnone, hb]
        simp
      · obtain ⟨hmem, hle, ho⟩ := hsome f hf
        have hbf := ho b hb
        refine ⟨?_, ?_, fun g hg => (hob g hg).trans hbf⟩
        · rcases hmem with hmem | hmem
          · exact Or.inl (List.mem_cons_of_mem x hmem)
          · rw [hb, Option.some.injEq] at hmem
            subst hmem
            rcases hcase with rfl | hcase
            · exact Or.inl (List.mem_cons_self ..)
            · exact Or.inr hcase
        · intro g hg
          rcases List.mem_cons.1 hg with rfl | hg
          · exact hxb.trans hbf
          · exact hle g hg

theorem latest_eq_none {d : Disk} : d.latest = none ↔ d.snapshots = [] := by
  unfold Disk.latest
  rw [(foldl_better_spec d.snapshots none).1]
  simp

theorem latest_mem {d : Disk} {f : File} (h : d.latest = some f) :
    f ∈ d.snapshots ∧ ∀ g ∈ d.snapshots, g.lastIncludedIndex ≤ f.lastIncludedIndex := by
  obtain ⟨hmem, hle, -⟩ := (foldl_better_spec d.snapshots none).2 f h
  exact ⟨hmem.resolve_right (by simp), hle⟩

/-- Nothing at or below the best so far replaces it. -/
theorem foldl_better_of_le {fs : List File} {f : File}
    (h : ∀ g ∈ fs, g.lastIncludedIndex ≤ f.lastIncludedIndex) :
    fs.foldl Disk.better (some f) = some f := by
  induction fs with
  | nil => rfl
  | cons g fs ih =>
      have hg := h g (List.mem_cons_self ..)
      rw [List.foldl_cons, better_some, if_neg (by omega)]
      exact ih fun g' hg' => h g' (List.mem_cons_of_mem g hg')

/-- Files below the best one may come and go. -/
theorem foldl_better_filter {g : File} (keep : File → Bool) {fs : List File} {o o' : Option File}
    (ho : ∀ b, o = some b → b.lastIncludedIndex < g.lastIncludedIndex)
    (ho' : ∀ b, o' = some b → b.lastIncludedIndex < g.lastIncludedIndex)
    (hkeep : ∀ f ∈ fs, g.lastIncludedIndex ≤ f.lastIncludedIndex → keep f = true)
    (h : fs.foldl Disk.better o = some g) : (fs.filter keep).foldl Disk.better o' = some g := by
  have hstep : ∀ {x : Option File} {z : File},
      (∀ b, x = some b → b.lastIncludedIndex < g.lastIncludedIndex) →
      (z.lastIncludedIndex < g.lastIncludedIndex →
        ∀ b, Disk.better x z = some b → b.lastIncludedIndex < g.lastIncludedIndex) ∧
      (g.lastIncludedIndex ≤ z.lastIncludedIndex → Disk.better x z = some z) := by
    intro x z hx
    cases x with
    | none =>
        refine ⟨fun hz b hb => ?_, fun _ => rfl⟩
        rw [← Option.some.inj hb]
        exact hz
    | some y =>
        have hy := hx y rfl
        rw [better_some]
        constructor
        · intro hz b hb
          split at hb
          · rw [← Option.some.inj hb]
            exact hz
          · rw [← Option.some.inj hb]
            exact hy
        · intro hz
          rw [if_pos (by omega)]
  induction fs generalizing o o' with
  | nil => exact absurd (ho g h) (lt_irrefl _)
  | cons z fs ih =>
      have hkeep' : ∀ f ∈ fs, g.lastIncludedIndex ≤ f.lastIncludedIndex → keep f = true :=
        fun f hf => hkeep f (List.mem_cons_of_mem z hf)
      rw [List.foldl_cons] at h
      rcases Nat.lt_or_ge z.lastIncludedIndex g.lastIncludedIndex with hz | hz
      · have hz' := (hstep ho).1 hz
        cases hk : keep z with
        | true =>
            rw [List.filter_cons_of_pos hk, List.foldl_cons]
            exact ih hz' ((hstep ho').1 hz) hkeep' h
        | false =>
            rw [List.filter_cons_of_neg (by simp [hk])]
            exact ih hz' ho' hkeep' h
      · -- the best one itself: nothing after it is better
        rw [List.filter_cons_of_pos (hkeep z (List.mem_cons_self ..) hz), List.foldl_cons,
          (hstep ho').2 hz]
        rw [(hstep ho).2 hz] at h
        obtain ⟨-, hle, hzg⟩ := (foldl_better_spec fs (some z)).2 g h
        have hzg := hzg z rfl
        have hall : ∀ f ∈ fs, f.lastIncludedIndex ≤ z.lastIncludedIndex :=
          fun f hf => (hle f hf).trans hz
        rw [foldl_better_of_le hall] at h
        rw [foldl_better_of_le fun f hf => hall f (List.mem_of_mem_filter hf), h]

/-- A new snapshot that is no older than the others is the latest. -/
theorem latest_writeFile {d : Disk} {f : File}
    (h : ∀ g ∈ d.snapshots, g.lastIncludedIndex ≤ f.lastIncludedIndex) :
    (d.apply (.writeFile f)).latest = some f := by
  unfold Disk.latest Disk.apply
  rw [List.foldl_cons]
  exact foldl_better_of_le fun g hg => h g (List.mem_of_mem_filter hg)

/-- An older one is not. -/
theorem latest_writeFile_of_lt {d : Disk} {f g : File} (hg : d.latest = some g)
    (hlt : f.lastIncludedIndex < g.lastIncludedIndex) :
    (d.apply (.writeFile f)).latest = some g := by
  unfold Disk.latest Disk.apply
  rw [List.foldl_cons]
  refine foldl_better_filter _ (fun b (hb : none = some b) => nomatch hb) ?_ ?_ hg
  · rintro b ⟨⟩
    exact hlt
  · intro x hx hle
    simp
    omega

/-- Removing another file does not change which one is the latest. -/
theorem latest_removeFile {d : Disk} {f : File} {i : Nat} (hf : d.latest = some f)
    (hne : f.lastIncludedIndex ≠ i) : (d.apply (.removeFile i)).latest = some f := by
  unfold Disk.latest Disk.apply
  refine foldl_better_filter _ (fun b (hb : none = some b) => nomatch hb)
    (fun b (hb : none = some b) => nomatch hb) ?_ hf
  intro x hx hle
  have := (latest_mem hf).2 x hx
  simp
  omega

/-! ## What is recovered -/

/-- `NewNode` for the process that runs `n`, on a data directory. -/
def Node.restart (n : Node) (d : Disk) : Node :=
  newNode n.id n.address n.peers n.logCapacityEntries d

theorem Node.restart_newNode (id address : String) (peers : List String) (cap : Nat) (d d' : Disk) :
    (newNode id address peers cap d').restart d = newNode id address peers cap d := by
  have hcap : (if cap = 0 then defaultLogCapacityEntries else cap) ≠ 0 := by
    split
    · decide
    · assumption
  unfold Node.restart newNode
  dsimp only
  rw [if_neg hcap]

/-- Entries in order, from index `i` on. -/
def PlacedFrom (i : Nat) (es : List LogEntry) : Prop := ∀ k e, es[k]? = some e → e.index = i + k

namespace PlacedFrom

variable {i : Nat} {es es' : List LogEntry}

theorem nil (i : Nat) : PlacedFrom i [] := fun k e h => absurd h (by simp)

theorem drop (h : PlacedFrom i es) (j : Nat) : PlacedFrom (i + j) (es.drop j) := by
  intro k e hk
  rw [List.getElem?_drop] at hk
  rw [h _ e hk]
  omega

theorem take (h : PlacedFrom i es) (j : Nat) : PlacedFrom i (es.take j) := by
  intro k e hk
  rw [List.getElem?_take] at hk
  split at hk
  · exact h k e hk
  · exact absurd hk (by simp)

theorem append (h : PlacedFrom i es) (h' : PlacedFrom (i + es.length) es') :
    PlacedFrom i (es ++ es') := by
  intro k e hk
  rcases Nat.lt_or_ge k es.length with hlt | hge
  · rw [List.getElem?_append_left hlt] at hk
    exact h k e hk
  · rw [List.getElem?_append_right hge] at hk
    rw [h' _ e hk]
    omega

theorem cons {e : LogEntry} (he : e.index = i) (h : PlacedFrom (i + 1) es) :
    PlacedFrom i (e :: es) := by
  intro k x hk
  cases k with
  | zero =>
      rw [← Option.some.inj hk]
      exact he
  | succ k =>
      rw [List.getElem?_cons_succ] at hk
      rw [h k x hk]
      omega

theorem lt_of_mem {e : LogEntry} (h : PlacedFrom i es) (he : e ∈ es) : i ≤ e.index := by
  obtain ⟨k, hk⟩ := List.mem_iff_getElem?.1 he
  have := h k e hk
  omega

/-- Entries above an index are what follows it. -/
theorem filter_lt (h : PlacedFrom (i + 1) es) {A : Nat} (hA : i ≤ A) :
    es.filter (fun e => A < e.index) = es.drop (A - i) := by
  conv_lhs => rw [← List.take_append_drop (A - i) es]
  rw [List.filter_append]
  have h1 : (es.take (A - i)).filter (fun e => A < e.index) = [] := by
    rw [List.filter_eq_nil_iff]
    intro e he
    obtain ⟨k, hk⟩ := List.mem_iff_getElem?.1 he
    rw [List.getElem?_take] at hk
    split at hk
    · have := h k e hk
      simp
      omega
    · exact absurd hk (by simp)
  have h2 : (es.drop (A - i)).filter (fun e => A < e.index) = es.drop (A - i) := by
    rw [List.filter_eq_self]
    intro e he
    have := (h.drop (A - i)).lt_of_mem he
    simp
    omega
  rw [h1, h2, List.nil_append]

end PlacedFrom

/-- Each entry's index is its position. -/
def Node.Positional (n : Node) : Prop := ∀ k e, n.log[k]? = some e → e.index = n.logOffset + k + 1

theorem Node.positional_iff (n : Node) : n.Positional ↔ PlacedFrom (n.logOffset + 1) n.log := by
  unfold Node.Positional PlacedFrom
  refine forall_congr' fun k => forall_congr' fun e => ?_
  rw [Nat.add_right_comm]

/-- The index of the anchor, `0` if the log has none.  The path of a snapshot is set together with
the log that starts at it, since `RewriteLog` cannot fail here: the offset `0` goes with no path
or the path of a snapshot of one entry.  In a node that has a longer one with the offset `0`, as
after a failed `RewriteLog`, this is not the anchor. -/
def Node.anchorIndex (n : Node) : Nat :=
  if n.logOffset = 0 then n.currentSnapshotPath.getD 0 else n.logOffset + 1

namespace Node

variable {n : Node} {d : Disk} {f : File}

theorem restart_of_latest (n : Node) (hf : d.latest = some f) (hpos : 0 < f.lastIncludedIndex) :
    (n.restart d).log = f.anchor :: d.log.filter (fun e => f.lastIncludedIndex < e.index) ∧
    (n.restart d).logOffset = f.lastIncludedIndex - 1 ∧
    (n.restart d).currentSnapshotPath = some f.lastIncludedIndex := by
  unfold restart newNode
  rw [hf, Option.filter_some, if_pos (by simpa using hpos)]
  exact ⟨rfl, rfl, rfl⟩

theorem restart_of_none (n : Node) (h : ∀ f, d.latest = some f → f.lastIncludedIndex = 0) :
    (n.restart d).log = d.log ∧ (n.restart d).currentSnapshotPath = none ∧
    (n.restart d).logOffset = (d.log.head?.map LogEntry.index).getD 0 - 1 := by
  have hnone : d.latest.filter (fun f => 0 < f.lastIncludedIndex) = none := by
    cases hl : d.latest with
    | none => rfl
    | some f => simp [h f hl]
  unfold restart newNode
  rw [hnone]
  dsimp only
  cases hd : d.log with
  | nil => exact ⟨rfl, rfl, rfl⟩
  | cons e es => exact ⟨rfl, rfl, rfl⟩

theorem Positional.filter_drop (h : n.Positional) {A : Nat} (hA : n.logOffset ≤ A) :
    n.log.filter (fun e => A < e.index) = n.log.drop (A - n.logOffset) :=
  ((n.positional_iff).1 h).filter_lt hA

end Node

/-- `r` has the persistent state of `n`: term, vote and log. -/
structure SameState (r n : Node) : Prop where
  currentTerm : r.currentTerm = n.currentTerm
  votedFor : r.votedFor = n.votedFor
  logOffset : r.logOffset = n.logOffset
  log : r.log = n.log

/-- `r` is `n` up to entries that a snapshot covers: more of the log may have given
way to an anchor. -/
structure Replays (r n : Node) : Prop where
  currentTerm : r.currentTerm = n.currentTerm
  votedFor : r.votedFor = n.votedFor
  last : r.lastLogIndexLocked = n.lastLogIndexLocked
  offset : n.logOffset ≤ r.logOffset
  term : ∀ i, r.logOffset < i →
    (r.entryAtLocked i).map LogEntry.term = (n.entryAtLocked i).map LogEntry.term
  entry : ∀ i, r.logOffset + 1 < i → r.entryAtLocked i = n.entryAtLocked i

/-- The node is what `NewNode` would make of its data directory. -/
structure Recovered (n : Node) (d : Disk) : Prop where
  same : SameState (n.restart d) n
  path : (n.restart d).currentSnapshotPath = n.currentSnapshotPath
  positional : n.Positional

theorem SameState.entryAtLocked {r n : Node} (h : SameState r n) (i : Nat) :
    r.entryAtLocked i = n.entryAtLocked i := by
  unfold Node.entryAtLocked
  rw [h.logOffset, h.log]

theorem SameState.replays {r n : Node} (h : SameState r n) : Replays r n where
  currentTerm := h.currentTerm
  votedFor := h.votedFor
  last := by unfold Node.lastLogIndexLocked; rw [h.logOffset, h.log]
  offset := h.logOffset.ge
  term i _ := by rw [h.entryAtLocked]
  entry i _ := h.entryAtLocked i

namespace Recovered

variable {n : Node} {d : Disk} {f file : File}

/-- The latest snapshot, if there is one, is the node's own. -/
theorem latest_le (h : Recovered n d) (hf : d.latest = some f) :
    f.lastIncludedIndex ≤ n.anchorIndex := by
  rcases Nat.eq_zero_or_pos f.lastIncludedIndex with h0 | hpos
  · omega
  · obtain ⟨-, hoff, hpath⟩ := n.restart_of_latest hf hpos
    rw [h.same.logOffset] at hoff
    rw [h.path] at hpath
    unfold Node.anchorIndex
    rw [hpath, Option.getD_some]
    split <;> omega

theorem snapshot_le (h : Recovered n d) {A : Nat} (hA : n.anchorIndex ≤ A) :
    ∀ g ∈ d.snapshots, g.lastIncludedIndex ≤ A := by
  intro g hg
  cases hl : d.latest with
  | none =>
      rw [latest_eq_none.1 hl] at hg
      exact absurd hg (by simp)
  | some f => exact ((latest_mem hl).2 g hg).trans ((h.latest_le hl).trans hA)

/-- Above the anchor `log.dat` holds the entries of the log. -/
theorem filter_log (h : Recovered n d) {A : Nat} (hA : n.anchorIndex ≤ A) :
    d.log.filter (fun e => A < e.index) = n.log.drop (A - n.logOffset) := by
  have hoff : n.logOffset ≤ A := by
    unfold Node.anchorIndex at hA
    split at hA <;> omega
  rw [← h.positional.filter_drop hoff, ← h.same.log]
  by_cases hz : ∀ f, d.latest = some f → f.lastIncludedIndex = 0
  · rw [(n.restart_of_none hz).1]
  · rw [not_forall] at hz
    obtain ⟨f, hf⟩ := hz
    rw [Classical.not_imp] at hf
    obtain ⟨hf, hne⟩ := hf
    have hle := h.latest_le hf
    have hanchor : ¬ decide (A < f.anchor.index) = true := by
      rw [decide_eq_true_eq, show f.anchor.index = f.lastIncludedIndex from rfl]
      omega
    rw [(n.restart_of_latest hf (by omega)).1, List.filter_cons, if_neg hanchor,
      List.filter_filter]
    congr 1
    funext e
    rw [Bool.eq_iff_iff]
    simp only [Bool.and_eq_true, decide_eq_true_eq]
    omega

end Recovered

/-! ## Writes that stop halfway -/

/-- After any number of the writes `ws`, the rebuilt node is the one rebuilt before
them, up to entries a snapshot covers, or the one rebuilt after all of them; and it
has entries after the anchor of `file` only if the log had that anchor's term
there. -/
def CrashAtomic (n : Node) (d : Disk) (file : File) (ws : List DiskWrite) : Prop :=
  ∀ k, (Replays (n.restart (d.applyAll (ws.take k))) (n.restart d) ∨
      SameState (n.restart (d.applyAll (ws.take k))) (n.restart (d.applyAll ws))) ∧
    ((n.restart (d.applyAll (ws.take k))).log.head? = some file.anchor →
      1 < (n.restart (d.applyAll (ws.take k))).log.length →
      (n.entryAtLocked file.lastIncludedIndex).map LogEntry.term = some file.lastIncludedTerm)

/-- The log ends with the snapshot or holds its last entry. -/
def Node.Continues (n : Node) (file : File) : Prop :=
  n.lastLogIndexLocked ≤ file.lastIncludedIndex ∨
    (n.entryAtLocked file.lastIncludedIndex).map LogEntry.term = some file.lastIncludedTerm

/-- The removal of the snapshot file that a new one supersedes. -/
def superseded (n : Node) (newPath : Nat) : List DiskWrite :=
  match n.currentSnapshotPath with
  | none => []
  | some old => if old ≠ newPath then [.removeFile old] else []

theorem Locked.replaceSnapshotFileLocked_eq (s : Locked) (newPath : Nat) :
    s.replaceSnapshotFileLocked newPath =
      ⟨{ s.node with currentSnapshotPath := some newPath },
        s.writes ++ superseded s.node newPath, s.events⟩ := by
  unfold replaceSnapshotFileLocked superseded
  dsimp only
  cases s.node.currentSnapshotPath with
  | none => simp [modify]
  | some old =>
      dsimp only
      split <;> simp [modify, write]

theorem mem_superseded {n : Node} {i : Nat} {w : DiskWrite} (h : w ∈ superseded n i) :
    ∃ old, old ≠ i ∧ n.currentSnapshotPath = some old ∧ w = .removeFile old := by
  unfold superseded at h
  split at h
  · exact absurd h (by simp)
  · rename_i old hold
    split at h
    · rename_i hne
      exact ⟨old, hne, hold, List.mem_singleton.1 h⟩
    · exact absurd h (by simp)

theorem Locked.events_compactLocked (s : Locked) (file : File) :
    (s.compactLocked file).1.events = s.events := by
  unfold compactLocked
  split
  · rfl
  · dsimp only
    rw [replaceSnapshotFileLocked_eq]
    rfl

theorem Locked.writes_compactLocked {n : Node} {file : File} {e : LogEntry}
    (he : n.entryAtLocked file.lastIncludedIndex = some e) :
    (n.lock.compactLocked file).1.writes = .writeFile file ::
      (superseded n file.lastIncludedIndex ++
        [.rewriteLog (file.anchor :: n.log.drop (file.lastIncludedIndex - n.logOffset))]) := by
  unfold compactLocked
  rw [show n.lock.node = n from rfl, he]
  dsimp only
  rw [replaceSnapshotFileLocked_eq]
  rfl

theorem Locked.writes_catchUpFromSnapshot {n : Node} {file : File}
    (hpos : 0 < file.lastIncludedIndex) :
    (n.lock.catchUpFromSnapshot file).writes = .writeFile file :: .rewriteLog [file.anchor] ::
      superseded n file.lastIncludedIndex := by
  unfold catchUpFromSnapshot adoptSnapshot
  rw [if_neg (by omega), replaceSnapshotFileLocked_eq]
  rfl

/-- The directory `d'` holds the snapshot `file` as its latest, above it the entries
`es`, and the state of `d`. -/
structure Holds (d d' : Disk) (file : File) (es : List LogEntry) : Prop where
  latest : d'.latest = some file
  log : d'.log.filter (fun e => file.lastIncludedIndex < e.index) = es
  state : d'.state = d.state

namespace Holds

variable {d d' : Disk} {file : File} {es : List LogEntry} {n : Node}

theorem removeFile (h : Holds d d' file es) {i : Nat} (hi : file.lastIncludedIndex ≠ i) :
    Holds d (d'.apply (.removeFile i)) file es :=
  ⟨latest_removeFile h.latest hi, h.log, h.state⟩

theorem rewriteLog (h : Holds d d' file es) {kept : List LogEntry}
    (hkept : kept.filter (fun e => file.lastIncludedIndex < e.index) = es) :
    Holds d (d'.apply (.rewriteLog kept)) file es := ⟨h.latest, hkept, h.state⟩

theorem superseded (h : Holds d d' file es) {ws : List DiskWrite}
    (hws : ∀ w ∈ ws, w ∈ superseded n file.lastIncludedIndex) :
    Holds d (d'.applyAll ws) file es := by
  induction ws generalizing d' with
  | nil => exact h
  | cons w ws ih =>
      obtain ⟨old, hne, -, rfl⟩ := mem_superseded (hws w (List.mem_cons_self ..))
      exact ih (h.removeFile (Ne.symm hne)) fun w' hw' => hws w' (List.mem_cons_of_mem _ hw')

/-- Both are rebuilt to the same log. -/
theorem sameState (h : Holds d d' file es) {d'' : Disk} (h' : Holds d d'' file es)
    (hpos : 0 < file.lastIncludedIndex) : SameState (n.restart d') (n.restart d'') := by
  obtain ⟨hlog, hoff, -⟩ := n.restart_of_latest h.latest hpos
  obtain ⟨hlog', hoff', -⟩ := n.restart_of_latest h'.latest hpos
  have hload : d'.loadState = d''.loadState := by
    unfold Disk.loadState
    rw [h.state, h'.state]
  exact ⟨congrArg Prod.fst hload, congrArg Prod.snd hload, by rw [hoff, hoff'],
    by rw [hlog, hlog', h.log, h'.log]⟩

theorem log_restart (h : Holds d d' file es) (hpos : 0 < file.lastIncludedIndex) :
    (n.restart d').log = file.anchor :: es := by
  rw [(n.restart_of_latest h.latest hpos).1, h.log]

/-- A snapshot of an entry of the log, in front of what follows it there. -/
theorem replays (h : Holds d d' file (n.log.drop (file.lastIncludedIndex - n.logOffset)))
    (hr : Recovered n d) (hpos : 0 < file.lastIncludedIndex)
    (hoff : n.logOffset < file.lastIncludedIndex)
    (hlast : file.lastIncludedIndex ≤ n.lastLogIndexLocked)
    (hterm : (n.entryAtLocked file.lastIncludedIndex).map LogEntry.term =
      some file.lastIncludedTerm) : Replays (n.restart d') (n.restart d) := by
  have hlog := h.log_restart (n := n) hpos
  have hroff := (n.restart_of_latest h.latest hpos).2.1
  have hload : d'.loadState = d.loadState := by
    unfold Disk.loadState
    rw [h.state]
  have hlen : (n.restart d').log.length = n.lastLogIndexLocked - file.lastIncludedIndex + 1 := by
    rw [hlog, List.length_cons, List.length_drop]
    unfold Node.lastLogIndexLocked
    omega
  have habove : ∀ i, (n.restart d').logOffset + 1 < i →
      (n.restart d').entryAtLocked i = n.entryAtLocked i := by
    intro i hi
    unfold Node.entryAtLocked
    unfold Node.lastLogIndexLocked at hlen hlast
    by_cases hout : n.logOffset + n.log.length < i
    · rw [if_pos (Or.inr (by omega)), if_pos (Or.inr hout)]
    · rw [if_neg (by omega), if_neg (by omega), hlog, hroff]
      obtain ⟨j, hj⟩ : ∃ j, i - (file.lastIncludedIndex - 1) - 1 = j + 1 :=
        ⟨i - file.lastIncludedIndex - 1, by omega⟩
      rw [hj, List.getElem?_cons_succ, List.getElem?_drop]
      congr 1
      omega
  refine ⟨congrArg Prod.fst hload, congrArg Prod.snd hload, ?_, ?_, ?_, ?_⟩
  · rw [hr.same.replays.last]
    unfold Node.lastLogIndexLocked at hlen hlast ⊢
    omega
  · rw [hr.same.logOffset, hroff]
    omega
  · intro i hi
    rw [hr.same.entryAtLocked]
    rcases Nat.lt_or_ge ((n.restart d').logOffset + 1) i with hlt | hge
    · rw [habove i hlt]
    · have hiA : i = file.lastIncludedIndex := by omega
      rw [hiA, hterm]
      unfold Node.entryAtLocked
      rw [if_neg (by omega), hlog, hroff, show file.lastIncludedIndex -
        (file.lastIncludedIndex - 1) - 1 = 0 by omega]
      rfl
  · intro i hi
    rw [hr.same.entryAtLocked, habove i hi]

end Holds

namespace Recovered

variable {n : Node} {d : Disk} {file : File}

theorem anchorIndex_le (h : Recovered n d) : n.anchorIndex ≤ n.logOffset + 1 := by
  unfold Node.anchorIndex
  split
  · rename_i h0
    rw [← h.path]
    by_cases hz : ∀ f, d.latest = some f → f.lastIncludedIndex = 0
    · rw [(n.restart_of_none hz).2.1]
      exact Nat.zero_le _
    · rw [not_forall] at hz
      obtain ⟨f, hf⟩ := hz
      rw [Classical.not_imp] at hf
      obtain ⟨-, hoff, hpath⟩ := n.restart_of_latest hf.1 (by omega)
      rw [h.same.logOffset] at hoff
      rw [hpath, Option.getD_some]
      omega
  · exact le_refl _

/-- What `compactLocked` keeps is what follows the snapshot. -/
theorem filter_kept (h : Recovered n d) (hA : n.anchorIndex ≤ file.lastIncludedIndex) :
    (file.anchor :: n.log.drop (file.lastIncludedIndex - n.logOffset)).filter
      (fun e => file.lastIncludedIndex < e.index) =
      n.log.drop (file.lastIncludedIndex - n.logOffset) := by
  have hoff : n.logOffset ≤ file.lastIncludedIndex := by
    unfold Node.anchorIndex at hA
    split at hA <;> omega
  rw [List.filter_cons, if_neg (by simp [File.anchor]), ← h.positional.filter_drop hoff,
    List.filter_filter]
  simp

/-- A log that starts with the anchor of `file` has its entry. -/
theorem term_of_head (h : Recovered n d) (hhead : n.log.head? = some file.anchor) :
    (n.entryAtLocked file.lastIncludedIndex).map LogEntry.term = some file.lastIncludedTerm := by
  rw [List.head?_eq_getElem?] at hhead
  have hidx : file.lastIncludedIndex = n.logOffset + 0 + 1 := h.positional 0 _ hhead
  have hlen := (List.getElem?_eq_some_iff.1 hhead).1
  unfold Node.entryAtLocked
  rw [if_neg (by omega), show file.lastIncludedIndex - n.logOffset - 1 = 0 by omega, hhead]
  rfl

/-- Before the first write. -/
theorem untouched (h : Recovered n d) (file : File) (ws : List DiskWrite) :
    (Replays (n.restart d) (n.restart d) ∨ SameState (n.restart d) (n.restart (d.applyAll ws))) ∧
      ((n.restart d).log.head? = some file.anchor → 1 < (n.restart d).log.length →
        (n.entryAtLocked file.lastIncludedIndex).map LogEntry.term =
          some file.lastIncludedTerm) := by
  refine ⟨Or.inl (SameState.replays ⟨rfl, rfl, rfl, rfl⟩), fun hhead _ => ?_⟩
  rw [h.same.log] at hhead
  exact h.term_of_head hhead

theorem crashAtomic_nil (h : Recovered n d) (file : File) : CrashAtomic n d file [] := by
  intro k
  rw [List.take_nil]
  exact h.untouched file []

/-- The snapshot is written, and nothing else yet. -/
theorem holds_writeFile (h : Recovered n d) (hA : n.anchorIndex ≤ file.lastIncludedIndex) :
    Holds d (d.apply (.writeFile file)) file
      (n.log.drop (file.lastIncludedIndex - n.logOffset)) where
  latest := latest_writeFile (h.snapshot_le hA)
  log := h.filter_log hA
  state := rfl

theorem offset_lt (hA : n.anchorIndex ≤ file.lastIncludedIndex)
    (hpos : 0 < file.lastIncludedIndex) : n.logOffset < file.lastIncludedIndex := by
  unfold Node.anchorIndex at hA
  split at hA <;> omega

/-- How much of the log follows the snapshot. -/
theorem length_drop_pos (hA : n.anchorIndex ≤ file.lastIncludedIndex)
    (hpos : 0 < file.lastIncludedIndex) :
    1 < (file.anchor :: n.log.drop (file.lastIncludedIndex - n.logOffset)).length ↔
      file.lastIncludedIndex < n.lastLogIndexLocked := by
  have hoff := offset_lt hA hpos
  rw [List.length_cons, List.length_drop]
  unfold Node.lastLogIndexLocked
  omega

/-- From its first write on, a compaction leaves the new log. -/
theorem holds_compact (h : Recovered n d) (hA : n.anchorIndex ≤ file.lastIncludedIndex) (k : Nat) :
    Holds d ((d.apply (.writeFile file)).applyAll ((superseded n file.lastIncludedIndex ++
        [DiskWrite.rewriteLog (file.anchor ::
          n.log.drop (file.lastIncludedIndex - n.logOffset))]).take k)) file
      (n.log.drop (file.lastIncludedIndex - n.logOffset)) := by
  have hmem : ∀ w ∈ (superseded n file.lastIncludedIndex).take k,
      w ∈ superseded n file.lastIncludedIndex := fun w hw => List.mem_of_mem_take hw
  have hfirst := (h.holds_writeFile hA).superseded hmem
  rw [List.take_append, Disk.applyAll_append]
  cases k - (superseded n file.lastIncludedIndex).length with
  | zero => exact hfirst
  | succ j =>
      rw [List.take_succ_cons, List.take_nil, Disk.applyAll_singleton]
      exact hfirst.rewriteLog (h.filter_kept hA)

/-- **Compaction** ends with the new log from its first write on. -/
theorem compactLocked_atomic_iff (h : Recovered n d) :
    CrashAtomic n d file (n.lock.compactLocked file).1.writes ↔
      n.entryAtLocked file.lastIncludedIndex = none ∨ n.Continues file := by
  cases he : n.entryAtLocked file.lastIncludedIndex with
  | none =>
      refine iff_of_true ?_ (Or.inl rfl)
      have hw : (n.lock.compactLocked file).1.writes = [] := by
        unfold Locked.compactLocked
        rw [show n.lock.node = n from rfl, he]
        rfl
      rw [hw]
      exact h.crashAtomic_nil file
  | some e =>
      have hin : n.logOffset < file.lastIncludedIndex ∧
          file.lastIncludedIndex ≤ n.lastLogIndexLocked := by
        unfold Node.entryAtLocked at he
        split at he
        · exact absurd he (by simp)
        · unfold Node.lastLogIndexLocked
          omega
      have hpos : 0 < file.lastIncludedIndex := by omega
      have hA : n.anchorIndex ≤ file.lastIncludedIndex := h.anchorIndex_le.trans (by omega)
      rw [Locked.writes_compactLocked he]
      have hholds := h.holds_compact hA
      have hall := hholds ((superseded n file.lastIncludedIndex ++
        [DiskWrite.rewriteLog (file.anchor ::
          n.log.drop (file.lastIncludedIndex - n.logOffset))]).length)
      rw [List.take_length] at hall
      constructor
      · intro hc
        right
        have hclean := (hc 1).2
        rw [List.take_succ_cons, List.take_zero, Disk.applyAll_singleton,
          (h.holds_writeFile hA).log_restart hpos] at hclean
        rcases Nat.lt_or_ge file.lastIncludedIndex n.lastLogIndexLocked with hlt | hge
        · exact Or.inr (hclean rfl ((length_drop_pos hA hpos).2 hlt))
        · exact Or.inl hge
      · intro hc k
        cases k with
        | zero => exact h.untouched file _
        | succ k =>
            have hk := hholds k
            refine ⟨Or.inr (hk.sameState hall hpos), fun _ hlen => ?_⟩
            rw [List.take_succ_cons, show d.applyAll (.writeFile file :: _) =
              (d.apply (.writeFile file)).applyAll _ from rfl, hk.log_restart hpos,
              length_drop_pos hA hpos] at hlen
            rcases hc with hc | hc | hc
            · exact absurd hc (by simp)
            · omega
            · exact hc

/-- Catching up to a snapshot at or above the anchor. -/
theorem catchUp_atomic_iff_of_le (h : Recovered n d) (hpos : 0 < file.lastIncludedIndex)
    (hA : n.anchorIndex ≤ file.lastIncludedIndex) :
    CrashAtomic n d file (n.lock.catchUpFromSnapshot file).writes ↔ n.Continues file := by
  have hoff := offset_lt hA hpos
  have hfile := h.holds_writeFile hA
  rw [Locked.writes_catchUpFromSnapshot hpos]
  -- once the log is rewritten, nothing but the anchor is left
  have hholds : ∀ k, Holds d (((d.apply (.writeFile file)).apply (.rewriteLog
      [file.anchor])).applyAll ((superseded n file.lastIncludedIndex).take k)) file [] := by
    intro k
    have hrewritten : Holds d ((d.apply (.writeFile file)).apply (.rewriteLog [file.anchor]))
        file [] := ⟨hfile.latest, by simp [Disk.apply, File.anchor], rfl⟩
    exact hrewritten.superseded (n := n) fun w hw => List.mem_of_mem_take hw
  have hall := hholds (superseded n file.lastIncludedIndex).length
  rw [List.take_length] at hall
  constructor
  · intro hc
    have hclean := (hc 1).2
    rw [List.take_succ_cons, List.take_zero, Disk.applyAll_singleton,
      hfile.log_restart hpos] at hclean
    rcases Nat.lt_or_ge file.lastIncludedIndex n.lastLogIndexLocked with hlt | hge
    · exact Or.inr (hclean rfl ((length_drop_pos hA hpos).2 hlt))
    · exact Or.inl hge
  · intro hc k
    match k with
    | 0 => exact h.untouched file _
    | 1 =>
        rw [List.take_succ_cons, List.take_zero, Disk.applyAll_singleton, hfile.log_restart hpos,
          length_drop_pos hA hpos]
        refine ⟨?_, fun _ hlt => hc.resolve_left (by omega)⟩
        rcases Nat.lt_or_ge file.lastIncludedIndex n.lastLogIndexLocked with hlt | hge
        · exact Or.inl (hfile.replays h hpos hoff hlt.le (hc.resolve_left (by omega)))
        · -- there is nothing after the snapshot to keep
          have hnil : n.log.drop (file.lastIncludedIndex - n.logOffset) = [] := by
            unfold Node.lastLogIndexLocked at hge
            exact List.drop_eq_nil_of_le (by omega)
          rw [hnil] at hfile
          exact Or.inr (hfile.sameState hall hpos)
    | k + 2 =>
        have hk := hholds k
        refine ⟨Or.inr (hk.sameState hall hpos), fun _ hlen => ?_⟩
        rw [List.take_succ_cons, List.take_succ_cons, show d.applyAll (.writeFile file ::
          .rewriteLog [file.anchor] :: _) = ((d.apply (.writeFile file)).apply
            (.rewriteLog [file.anchor])).applyAll _ from rfl, hk.log_restart hpos] at hlen
        exact absurd hlen (by simp)

/-- The snapshot file of the anchor. -/
theorem path_eq (h : Recovered n d) {g : File} (hg : d.latest = some g)
    (hgpos : 0 < g.lastIncludedIndex) :
    n.currentSnapshotPath = some g.lastIncludedIndex ∧ n.anchorIndex = g.lastIncludedIndex := by
  obtain ⟨-, hoff, hpath⟩ := n.restart_of_latest hg hgpos
  rw [h.path] at hpath
  rw [h.same.logOffset] at hoff
  refine ⟨hpath, ?_⟩
  unfold Node.anchorIndex
  rw [hpath, Option.getD_some]
  split <;> omega

/-- Without a snapshot file, the older snapshot is put in front of the whole log. -/
theorem not_crashAtomic_of_none (h : Recovered n d)
    (hz : ∀ f, d.latest = some f → f.lastIncludedIndex = 0) (hpos : 0 < file.lastIncludedIndex)
    (hA : file.lastIncludedIndex < n.anchorIndex) :
    ¬ CrashAtomic n d file (n.lock.catchUpFromSnapshot file).writes := by
  obtain ⟨hlog, hpath, hoff⟩ := n.restart_of_none hz
  rw [h.same.log] at hlog
  rw [h.path] at hpath
  rw [h.same.logOffset] at hoff
  have hanchor : n.anchorIndex = n.logOffset + 1 := by
    unfold Node.anchorIndex at hA ⊢
    rw [hpath, Option.getD_none] at hA ⊢
    split at hA
    · omega
    · rename_i h0
      rw [if_neg h0]
  have hne : n.log ≠ [] := by
    intro hnil
    rw [← hlog, hnil] at hoff
    simp at hoff
    omega
  have hsmall : ∀ g ∈ d.snapshots, g.lastIncludedIndex ≤ file.lastIncludedIndex := by
    intro g hg
    cases hl : d.latest with
    | none =>
        rw [latest_eq_none.1 hl] at hg
        exact absurd hg (by simp)
    | some f =>
        have := (latest_mem hl).2 g hg
        rw [hz f hl] at this
        omega
  have hfile : Holds d (d.apply (.writeFile file)) file
      (n.log.filter fun e => file.lastIncludedIndex < e.index) :=
    ⟨latest_writeFile hsmall, by rw [hlog]; rfl, rfl⟩
  have hpost : Holds d ((d.apply (.writeFile file)).apply (.rewriteLog [file.anchor])) file [] :=
    ⟨hfile.latest, by simp [Disk.apply, File.anchor], rfl⟩
  have hsup : superseded n file.lastIncludedIndex = [] := by
    unfold superseded
    rw [hpath]
  rw [Locked.writes_catchUpFromSnapshot hpos, hsup]
  intro hc
  rcases (hc 1).1 with hr | hs
  · have := hr.offset
    rw [h.same.logOffset, List.take_succ_cons, List.take_zero, Disk.applyAll_singleton,
      (n.restart_of_latest hfile.latest hpos).2.1] at this
    omega
  · have hlogs := hs.log
    rw [List.take_succ_cons, List.take_zero, Disk.applyAll_singleton, hfile.log_restart hpos,
      show d.applyAll [.writeFile file, .rewriteLog [file.anchor]] =
        (d.apply (.writeFile file)).apply (.rewriteLog [file.anchor]) from rfl,
      hpost.log_restart hpos, List.cons.injEq, List.filter_eq_nil_iff] at hlogs
    obtain ⟨e, he⟩ := List.exists_mem_of_ne_nil _ hne
    obtain ⟨k, hk⟩ := List.mem_iff_getElem?.1 he
    have hidx := h.positional k e hk
    exact hlogs.2 e he (by simp; omega)

/-- With one, the older snapshot is not seen before the log is gone. -/
theorem crashAtomic_iff_of_latest (h : Recovered n d) {g : File} (hg : d.latest = some g)
    (hpos : 0 < file.lastIncludedIndex) (hlt : file.lastIncludedIndex < g.lastIncludedIndex) :
    CrashAtomic n d file (n.lock.catchUpFromSnapshot file).writes ↔
      n.lastLogIndexLocked = g.lastIncludedIndex := by
  have hgpos : 0 < g.lastIncludedIndex := by omega
  obtain ⟨hpath, -⟩ := h.path_eq hg hgpos
  have hsup : superseded n file.lastIncludedIndex = [.removeFile g.lastIncludedIndex] := by
    unfold superseded
    rw [hpath]
    exact if_pos (by omega)
  obtain ⟨es, hes⟩ : ∃ es, d.log.filter (fun e => g.lastIncludedIndex < e.index) = es := ⟨_, rfl⟩
  have hbefore : Holds d d g es := ⟨hg, hes, rfl⟩
  have hfile : Holds d (d.apply (.writeFile file)) g es := ⟨latest_writeFile_of_lt hg hlt, hes, rfl⟩
  have hrewritten : Holds d ((d.apply (.writeFile file)).apply (.rewriteLog [file.anchor])) g [] :=
    ⟨hfile.latest, by simp [Disk.apply, File.anchor]; omega, rfl⟩
  have hlast : n.lastLogIndexLocked = g.lastIncludedIndex + es.length := by
    rw [← h.same.replays.last]
    unfold Node.lastLogIndexLocked
    rw [hbefore.log_restart hgpos, (n.restart_of_latest hg hgpos).2.1, List.length_cons]
    omega
  -- after the last write the latest snapshot is another one
  obtain ⟨g', hg', hne, hge⟩ : ∃ g', (((d.apply (.writeFile file)).apply (.rewriteLog
      [file.anchor])).apply (.removeFile g.lastIncludedIndex)).latest = some g' ∧
      g'.lastIncludedIndex ≠ g.lastIncludedIndex ∧
      file.lastIncludedIndex ≤ g'.lastIncludedIndex := by
    have hmem : file ∈ (((d.apply (.writeFile file)).apply (.rewriteLog
        [file.anchor])).apply (.removeFile g.lastIncludedIndex)).snapshots :=
      List.mem_filter.2 ⟨List.mem_cons_self .., by simp; omega⟩
    cases hl : (((d.apply (.writeFile file)).apply (.rewriteLog
        [file.anchor])).apply (.removeFile g.lastIncludedIndex)).latest with
    | none =>
        rw [latest_eq_none.1 hl] at hmem
        exact absurd hmem (by simp)
    | some g' =>
        obtain ⟨hin, hle⟩ := latest_mem hl
        exact ⟨g', rfl, by simpa using (List.mem_filter.1 hin).2, hle file hmem⟩
  have hpost := n.restart_of_latest hg' (by omega)
  rw [Locked.writes_catchUpFromSnapshot hpos, hsup]
  constructor
  · intro hc
    rcases (hc 2).1 with hr | hs
    · have := hr.last
      rw [h.same.replays.last] at this
      rw [← this]
      unfold Node.lastLogIndexLocked
      rw [show d.applyAll (List.take 2 [.writeFile file, .rewriteLog [file.anchor],
          .removeFile g.lastIncludedIndex]) = (d.apply (.writeFile file)).apply
            (.rewriteLog [file.anchor]) from rfl, hrewritten.log_restart hgpos,
        (n.restart_of_latest hrewritten.latest hgpos).2.1]
      simp
      omega
    · have hoff := hs.logOffset
      rw [show d.applyAll (List.take 2 [.writeFile file, .rewriteLog [file.anchor],
          .removeFile g.lastIncludedIndex]) = (d.apply (.writeFile file)).apply
            (.rewriteLog [file.anchor]) from rfl,
        (n.restart_of_latest hrewritten.latest hgpos).2.1,
        show d.applyAll [.writeFile file, .rewriteLog [file.anchor],
          .removeFile g.lastIncludedIndex] = ((d.apply (.writeFile file)).apply
            (.rewriteLog [file.anchor])).apply (.removeFile g.lastIncludedIndex) from rfl,
        hpost.2.1] at hoff
      omega
  · intro hc k
    have hnil : es = [] := List.length_eq_zero_iff.1 (by omega)
    subst hnil
    have hclean : g.anchor = file.anchor → False := by
      intro heq
      have := congrArg LogEntry.index heq
      simp only [File.anchor] at this
      omega
    match k with
    | 0 => exact h.untouched file _
    | 1 =>
        rw [show d.applyAll (List.take 1 [.writeFile file, .rewriteLog [file.anchor],
          .removeFile g.lastIncludedIndex]) = d.apply (.writeFile file) from rfl]
        refine ⟨Or.inl (hfile.sameState hbefore hgpos).replays, fun hhead _ => ?_⟩
        rw [hfile.log_restart hgpos] at hhead
        exact absurd (Option.some.inj hhead) hclean
    | 2 =>
        rw [show d.applyAll (List.take 2 [.writeFile file, .rewriteLog [file.anchor],
          .removeFile g.lastIncludedIndex]) = (d.apply (.writeFile file)).apply
            (.rewriteLog [file.anchor]) from rfl]
        refine ⟨Or.inl (hrewritten.sameState hbefore hgpos).replays, fun hhead _ => ?_⟩
        rw [hrewritten.log_restart hgpos] at hhead
        exact absurd (Option.some.inj hhead) hclean
    | k + 3 =>
        refine ⟨Or.inr ?_, fun _ hlen => ?_⟩
        · rw [List.take_of_length_le (by simp)]
          exact ⟨rfl, rfl, rfl, rfl⟩
        · rw [List.take_of_length_le (by simp), show d.applyAll [.writeFile file,
            .rewriteLog [file.anchor], .removeFile g.lastIncludedIndex] =
              ((d.apply (.writeFile file)).apply (.rewriteLog [file.anchor])).apply
                (.removeFile g.lastIncludedIndex) from rfl, hpost.1] at hlen
          have hnone : [file.anchor].filter (fun e => g'.lastIncludedIndex < e.index) = [] := by
            simp [File.anchor]
            omega
          rw [show (((d.apply (.writeFile file)).apply (.rewriteLog [file.anchor])).apply
            (.removeFile g.lastIncludedIndex)).log = [file.anchor] from rfl, hnone] at hlen
          exact absurd hlen (by simp)

/-- Catching up to a snapshot below the anchor. -/
theorem catchUp_atomic_iff_of_lt (h : Recovered n d) (hpos : 0 < file.lastIncludedIndex)
    (hA : file.lastIncludedIndex < n.anchorIndex) :
    CrashAtomic n d file (n.lock.catchUpFromSnapshot file).writes ↔
      n.currentSnapshotPath ≠ none ∧ n.lastLogIndexLocked = n.anchorIndex := by
  by_cases hz : ∀ f, d.latest = some f → f.lastIncludedIndex = 0
  · exact iff_of_false (h.not_crashAtomic_of_none hz hpos hA)
      fun hc => hc.1 (h.path.symm.trans (n.restart_of_none hz).2.1)
  · rw [not_forall] at hz
    obtain ⟨g, hg⟩ := hz
    rw [Classical.not_imp] at hg
    have hgpos : 0 < g.lastIncludedIndex := by omega
    obtain ⟨hpath, hanchor⟩ := h.path_eq hg.1 hgpos
    have hlt : file.lastIncludedIndex < g.lastIncludedIndex := by omega
    rw [h.crashAtomic_iff_of_latest hg.1 hpos hlt, hpath, hanchor]
    simp

end Recovered

/-- **Crash atomicity of compaction and catch-up.**  Compaction is atomic exactly if
the snapshot agrees with the log at its index or nothing follows there.  Catch-up
moreover needs a snapshot that is no older than the anchor, or a log that ends at
the anchor. -/
theorem crash_atomic_iff (n : Node) (d : Disk) (file : File) (h : Recovered n d) :
    (CrashAtomic n d file (n.lock.compactLocked file).1.writes ↔
      n.entryAtLocked file.lastIncludedIndex = none ∨ n.Continues file) ∧
    (CrashAtomic n d file (n.lock.catchUpFromSnapshot file).writes ↔
      file.lastIncludedIndex = 0 ∨
        if n.anchorIndex ≤ file.lastIncludedIndex then n.Continues file
        else n.currentSnapshotPath ≠ none ∧ n.lastLogIndexLocked = n.anchorIndex) := by
  refine ⟨h.compactLocked_atomic_iff, ?_⟩
  rcases Nat.eq_zero_or_pos file.lastIncludedIndex with h0 | hpos
  · refine iff_of_true ?_ (Or.inl h0)
    unfold Locked.catchUpFromSnapshot
    rw [if_pos h0]
    exact h.crashAtomic_nil file
  · rw [or_iff_right (by omega)]
    split
    · rename_i hA
      exact h.catchUp_atomic_iff_of_le hpos hA
    · rename_i hA
      exact h.catchUp_atomic_iff_of_lt hpos (by omega)

/-- A directory with two entries of term 1 in its log. -/
def twoEntries : Disk := { Disk.empty with log := [⟨1, 1, [1]⟩, ⟨1, 2, [2]⟩] }

/-- The node on it. -/
def twoEntriesNode : Node := newNode "a" "a" ["b", "c"] 1000 twoEntries

theorem recovered_twoEntries : Recovered twoEntriesNode twoEntries where
  same := ⟨rfl, rfl, rfl, rfl⟩
  path := rfl
  positional := by
    intro k e he
    match k with
    | 0 => exact Option.some.inj he ▸ rfl
    | 1 => exact Option.some.inj he ▸ rfl

/-- A snapshot of the first entry, as the log has it. -/
theorem crash_atomic_twoEntries :
    CrashAtomic twoEntriesNode twoEntries ⟨fun _ => none, 1, 1⟩
      (twoEntriesNode.lock.catchUpFromSnapshot ⟨fun _ => none, 1, 1⟩).writes :=
  ((crash_atomic_iff twoEntriesNode twoEntries ⟨fun _ => none, 1, 1⟩ recovered_twoEntries).2).2
    (Or.inr (Or.inr rfl))

/-- A snapshot of another first entry: a crash after its file is written leaves it in
front of the second entry of the old log. -/
theorem crash_mixes_logs : Recovered twoEntriesNode twoEntries ∧
    ¬ CrashAtomic twoEntriesNode twoEntries ⟨fun _ => none, 1, 2⟩
      (twoEntriesNode.lock.catchUpFromSnapshot ⟨fun _ => none, 1, 2⟩).writes := by
  refine ⟨recovered_twoEntries, fun hc => ?_⟩
  have hmixed := (hc 1).2 rfl (by decide)
  exact absurd hmixed (by decide)

end B5KvStore
