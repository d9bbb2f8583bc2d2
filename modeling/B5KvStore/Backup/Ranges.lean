import B5KvStore.Backup.Store
import B5KvStore.Raft.Recovery

/-!
# What a cycle downloads

`StreamLogRange` skips indices the log does not hold, and hands out the anchor like
any other entry.  So a cycle is complete exactly when the leader has not compacted
past the boundary of the backup, neither when it reported its status nor when it
serves the download.

* `Node.map_index_streamLogRange` — the indices of a download.
* `CycleEnv.checked_eq_verified` — which cycles reach `Store.Commit`.
* `gapless_cycle_iff` — when a cycle leaves nothing out.
-/

namespace B5KvStore

/-! ## Downloads -/

theorem filter_le_range' (a c hi : Nat) :
    (List.range' a c).filter (fun x => x ≤ hi) = List.range' a (min c (hi + 1 - a)) := by
  induction c generalizing a with
  | zero => simp
  | succ c ih =>
      rw [List.range'_succ]
      by_cases ha : a ≤ hi
      · rw [List.filter_cons_of_pos (by simpa using ha), ih,
          show min (c + 1) (hi + 1 - a) = min c (hi + 1 - (a + 1)) + 1 by omega, List.range'_succ]
      · rw [List.filter_cons_of_neg (by simpa using ha), ih,
          show min (c + 1) (hi + 1 - a) = 0 by omega,
          show min c (hi + 1 - (a + 1)) = 0 by omega]
        rfl

namespace Node

variable {n : Node}

theorem Positional.index_entryAtLocked (h : n.Positional) (i : Nat) :
    (n.entryAtLocked i).map LogEntry.index =
      if n.logOffset < i ∧ i ≤ n.lastLogIndexLocked then some i else none := by
  unfold entryAtLocked lastLogIndexLocked
  by_cases hi : i ≤ n.logOffset ∨ n.logOffset + n.log.length < i
  · rw [if_pos hi, if_neg (by omega)]
    rfl
  · rw [if_neg hi, if_pos (by omega), List.getElem?_eq_getElem (by omega), Option.map_some,
      h (i - n.logOffset - 1) _ (List.getElem?_eq_getElem (by omega))]
    congr 1
    omega

/-- A download consists of the indices of the range that the log holds. -/
theorem map_index_streamLogRange (h : n.Positional) (fromIndex toIndex : Nat) :
    (n.streamLogRange fromIndex toIndex).map LogEntry.index =
      (List.range' fromIndex (toIndex + 1 - fromIndex)).filter
        fun i => n.logOffset < i ∧ i ≤ n.lastLogIndexLocked := by
  unfold streamLogRange
  rw [List.map_filterMap, ← List.filterMap_eq_filter]
  congr 1
  funext i
  rw [h.index_entryAtLocked]
  simp [Option.guard]

end Node

/-! ## One cycle -/

/-- What a cycle meets on its way: the leader and its status, the node that serves
the download, the second look at who leads, and what fails. -/
structure CycleEnv where
  leader : String
  status : LogStatusReply
  node : Node
  streamFails : Bool
  view : Option String
  commitFails : Bool

namespace CycleEnv

/-- The entries the cycle asks for, as the node serves them. -/
def download (env : CycleEnv) (s : Store) : List LogEntry :=
  env.node.streamLogRange (s.fromIndex env.status) env.status.lastIndex

/-- The cycle after the download. -/
def streamed (env : CycleEnv) (s : Store) : Backup :=
  (Backup.start ⟨s, .idle⟩ env.leader env.status).stream env.node env.streamFails

/-- The cycle when it is about to commit. -/
def checked (env : CycleEnv) (decode : List UInt8 → Option KVCommand) (s : Store) : Backup :=
  ((env.streamed s).apply decode).verify env.view

/-- `runCycle`, when nothing comes between its steps. -/
def runCycle (env : CycleEnv) (decode : List UInt8 → Option KVCommand) (s : Store) : Backup :=
  ((env.checked decode s).commit env.commitFails).finish

/-- The cycle gets as far as `Store.Commit`: there is something to download, the
download arrives and decodes, and the leader is still the same. -/
structure Commits (env : CycleEnv) (decode : List UInt8 → Option KVCommand) (s : Store) : Prop where
  range : s.fromIndex env.status ≤ env.status.lastIndex
  arrives : env.streamFails = false
  nonempty : env.download s ≠ []
  decodes : ∀ e ∈ env.download s, (decode e.command).isSome
  view : env.view = some env.leader

variable {env : CycleEnv} {decode : List UInt8 → Option KVCommand} {s : Store}

theorem streamed_eq_downloaded {es : List LogEntry} {last : LogEntry} :
    (env.streamed s).cycle = .downloaded env.leader es last ↔
      s.fromIndex env.status ≤ env.status.lastIndex ∧ env.streamFails = false ∧
      es = env.download s ∧ es.getLast? = some last := by
  unfold streamed Backup.start Backup.stream
  by_cases hrange : env.status.lastIndex < s.fromIndex env.status
  · simp [hrange]
  · cases hfails : env.streamFails with
    | true => simp [hrange]
    | false =>
        simp only [if_neg hrange, Bool.false_eq_true, if_false]
        rw [show env.node.streamLogRange (s.fromIndex env.status) env.status.lastIndex =
          env.download s from rfl]
        cases hlast : (env.download s).getLast? with
        | none =>
            simp only [reduceCtorEq, true_and, false_iff]
            rintro ⟨-, rfl, h⟩
            rw [hlast] at h
            exact absurd h (by simp)
        | some e =>
            simp only [CyclePhase.downloaded.injEq, true_and]
            constructor
            · rintro ⟨rfl, rfl⟩
              exact ⟨by omega, rfl, hlast⟩
            · rintro ⟨-, rfl, h⟩
              rw [hlast] at h
              exact ⟨rfl, Option.some.inj h⟩

/-- Up to the download the store is only read. -/
theorem store_streamed : (env.streamed s).store = s := by
  unfold streamed Backup.stream
  split
  · split <;> rfl
  · rfl

theorem cycle_streamed (env : CycleEnv) (s : Store) : (env.streamed s).cycle = .idle ∨
    ∃ es last, (env.streamed s).cycle = .downloaded env.leader es last := by
  unfold streamed Backup.start Backup.stream
  by_cases hrange : env.status.lastIndex < s.fromIndex env.status
  · simp [hrange]
  · simp only [if_neg hrange]
    cases env.streamFails with
    | true => exact Or.inl rfl
    | false =>
        simp only [Bool.false_eq_true, if_false]
        cases hlast : (env.node.streamLogRange (s.fromIndex env.status)
            env.status.lastIndex).getLast? with
        | none => exact Or.inl rfl
        | some last => exact Or.inr ⟨_, last, rfl⟩

/-- A cycle is about to commit if nothing has stopped it, and only then. -/
theorem checked_eq_verified {last : LogEntry} :
    (env.checked decode s).cycle = .verified env.leader last ↔
      env.Commits decode s ∧ (env.download s).getLast? = some last := by
  constructor
  · intro h
    rcases cycle_streamed env s with hidle | ⟨es, l, hdown⟩
    · unfold checked Backup.apply Backup.verify at h
      simp [hidle] at h
    · obtain ⟨hrange, harr, rfl, hlast⟩ := streamed_eq_downloaded.1 hdown
      unfold checked Backup.apply Backup.verify at h
      rw [hdown, store_streamed] at h
      dsimp only at h
      split at h
      · rename_i hphase
        split at hphase
        · rename_i hok
          injection hphase with hl hlast'
          subst hl hlast'
          dsimp only at h
          split at h
          · rename_i hview
            injection h with _ hl
            subst hl
            refine ⟨⟨hrange, harr, ?_, (Store.apply_snd ..).1 hok, hview⟩, hlast⟩
            intro hnil
            rw [hnil] at hlast
            exact absurd hlast (by simp)
          · exact absurd h (by simp)
        · exact absurd hphase (by simp)
      · split at h <;> exact absurd h (by simp)
  · rintro ⟨hc, hlast⟩
    have hdown := streamed_eq_downloaded.2 ⟨hc.range, hc.arrives, rfl, hlast⟩
    unfold checked Backup.apply Backup.verify
    rw [hdown, store_streamed]
    simp [(Store.apply_snd ..).2 hc.decodes, hc.view]

theorem latest_apply_streamed : ((env.streamed s).apply decode).store.latest = s.latest := by
  unfold Backup.apply
  split
  · rw [store_streamed]
    exact s.latest_apply ..
  · rw [store_streamed]

theorem cycle_checked (env : CycleEnv) (decode : List UInt8 → Option KVCommand) (s : Store) :
    (env.checked decode s).cycle = .idle ∨
    ∃ last, (env.checked decode s).cycle = .verified env.leader last := by
  unfold checked Backup.apply Backup.verify
  rcases cycle_streamed env s with hidle | ⟨es, last, hdown⟩
  · simp [hidle]
  · rw [hdown]
    dsimp only
    by_cases hok : ((env.streamed s).store.apply decode es).2 = true
    · by_cases hview : env.view = some env.leader
      · exact Or.inr ⟨last, by simp [hok, hview]⟩
      · exact Or.inl (by simp [hok, hview])
    · exact Or.inl (by simp [hok])

theorem latest_checked (env : CycleEnv) (decode : List UInt8 → Option KVCommand) (s : Store) :
    (env.checked decode s).store.latest = s.latest := by
  unfold checked Backup.verify
  split <;> exact latest_apply_streamed ..

/-- The boundary moves to the last entry of a cycle that commits, and stays where
it is otherwise. -/
theorem latest_runCycle (env : CycleEnv) (decode : List UInt8 → Option KVCommand) (s : Store) :
    (env.runCycle decode s).store.latest =
      match (env.checked decode s).cycle, env.commitFails with
      | .verified _ last, false => (last.index, last.term, true)
      | _, _ => s.latest := by
  unfold runCycle Backup.commit
  rcases cycle_checked env decode s with hidle | ⟨last, hlast⟩
  · rw [hidle]
    dsimp only
    unfold Backup.finish
    rw [hidle]
    exact latest_checked env decode s
  · rw [hlast]
    cases env.commitFails with
    | true => exact latest_checked env decode s
    | false => rfl

end CycleEnv

/-! ## Complete cycles -/

/-- A cycle that commits has applied one entry for each index above the boundary, up
to the last one, and no anchor; a cycle that does not leaves the boundary alone. -/
structure GaplessCycle (env : CycleEnv) (decode : List UInt8 → Option KVCommand) (s : Store) :
    Prop where
  applied : ∀ last, (env.checked decode s).cycle = .verified env.leader last →
    ∃ es, (env.streamed s).cycle = .downloaded env.leader es last ∧
      es.map LogEntry.index =
        List.range' (s.lastIncludedIndex + 1) (last.index - s.lastIncludedIndex) ∧
      ∀ e ∈ es, env.node.anchorIndex < e.index
  unchanged : (∀ last, (env.checked decode s).cycle ≠ .verified env.leader last) ∨
      env.commitFails = true →
    (env.runCycle decode s).store.latest = s.latest

/-- The leader has not compacted past the boundary, neither by its status nor by the
time it serves the download. -/
def CycleEnv.Covers (env : CycleEnv) (s : Store) : Prop :=
  env.status.firstIndex ≤ s.lastIncludedIndex + 1 ∧ env.node.anchorIndex ≤ s.lastIncludedIndex

theorem Node.logOffset_le_of_anchorIndex_le {n : Node} {b : Nat} (h : n.anchorIndex ≤ b) :
    n.logOffset ≤ b := by
  unfold Node.anchorIndex at h
  split at h <;> omega

theorem CycleEnv.unchanged (env : CycleEnv) (decode : List UInt8 → Option KVCommand) (s : Store)
    (h : (∀ last, (env.checked decode s).cycle ≠ .verified env.leader last) ∨
      env.commitFails = true) :
    (env.runCycle decode s).store.latest = s.latest := by
  rw [latest_runCycle]
  rcases cycle_checked env decode s with hidle | ⟨last, hlast⟩
  · rw [hidle]
  · rcases h with h | h
    · exact absurd hlast (h last)
    · rw [h, hlast]

/-- A download from a leader that covers the boundary has every index above it. -/
theorem CycleEnv.Covers.map_index_download {env : CycleEnv} {s : Store} {last : LogEntry}
    (h : env.Covers s) (hpos : env.node.Positional)
    (hlast : (env.download s).getLast? = some last) :
    (env.download s).map LogEntry.index =
      List.range' (s.lastIncludedIndex + 1) (last.index - s.lastIncludedIndex) := by
  have hfrom : s.fromIndex env.status = s.lastIncludedIndex + 1 := by
    unfold Store.fromIndex
    rw [if_neg (by have := h.1; omega)]
  have hoff := Node.logOffset_le_of_anchorIndex_le h.2
  obtain ⟨k, hk⟩ : ∃ k, (env.download s).map LogEntry.index =
      List.range' (s.lastIncludedIndex + 1) k := by
    refine ⟨min (env.status.lastIndex + 1 - (s.lastIncludedIndex + 1))
      (env.node.lastLogIndexLocked + 1 - (s.lastIncludedIndex + 1)), ?_⟩
    unfold download
    rw [env.node.map_index_streamLogRange hpos, hfrom, ← filter_le_range']
    refine List.filter_congr fun i hi => ?_
    have := (List.mem_range'_1.1 hi).1
    simp
    omega
  -- the last index tells how many there are
  have hlen : last.index = s.lastIncludedIndex + k := by
    have hmap : ((env.download s).map LogEntry.index).getLast? = some last.index := by
      rw [List.getLast?_map, hlast]
      rfl
    rw [hk, List.getLast?_range'] at hmap
    split at hmap
    · exact absurd hmap (by simp)
    · have := Option.some.inj hmap
      omega
  rw [hk, hlen, Nat.add_sub_cancel_left]

theorem CycleEnv.covers_of_map_index {env : CycleEnv} {s : Store} {k : Nat}
    (hpos : env.node.Positional) (hne : env.download s ≠ [])
    (hmap : (env.download s).map LogEntry.index = List.range' (s.lastIncludedIndex + 1) k)
    (hreal : ∀ e ∈ env.download s, env.node.anchorIndex < e.index) : env.Covers s := by
  have hk : 0 < k := by
    rcases Nat.eq_zero_or_pos k with rfl | hk
    · rw [List.range'_zero, List.map_eq_nil_iff] at hmap
      exact absurd hmap hne
    · exact hk
  have hmem : s.lastIncludedIndex + 1 ∈ (env.download s).map LogEntry.index := by
    rw [hmap, List.mem_range'_1]
    omega
  obtain ⟨e, he, hidx⟩ := List.mem_map.1 hmem
  refine ⟨?_, ?_⟩
  · unfold download at hmem
    rw [env.node.map_index_streamLogRange hpos, List.mem_filter, List.mem_range'_1] at hmem
    have hfrom := hmem.1.1
    unfold Store.fromIndex at hfrom
    split at hfrom <;> omega
  · have := hreal e he
    omega

/-- **Complete cycles.**  A cycle leaves nothing out and applies no anchor if it does
not get as far as `Store.Commit`, or if the leader has not compacted past the
boundary, and in no other case. -/
theorem gapless_cycle_iff (env : CycleEnv) (decode : List UInt8 → Option KVCommand) (s : Store)
    (hpos : env.node.Positional) :
    GaplessCycle env decode s ↔ (env.Commits decode s → env.Covers s) := by
  constructor
  · intro h hc
    obtain ⟨last, hlast⟩ : ∃ last, (env.download s).getLast? = some last := by
      cases hl : (env.download s).getLast? with
      | none => exact absurd (List.getLast?_eq_none_iff.1 hl) hc.nonempty
      | some last => exact ⟨last, rfl⟩
    obtain ⟨es, hdown, hmap, hreal⟩ :=
      h.applied last (CycleEnv.checked_eq_verified.2 ⟨hc, hlast⟩)
    obtain ⟨-, -, rfl, -⟩ := CycleEnv.streamed_eq_downloaded.1 hdown
    exact CycleEnv.covers_of_map_index hpos hc.nonempty hmap hreal
  · intro h
    refine ⟨fun last hlast => ?_, env.unchanged decode s⟩
    obtain ⟨hc, hlast⟩ := CycleEnv.checked_eq_verified.1 hlast
    have hmap := (h hc).map_index_download hpos hlast
    refine ⟨env.download s, CycleEnv.streamed_eq_downloaded.2 ⟨hc.range, hc.arrives, rfl, hlast⟩,
      hmap, fun e he => ?_⟩
    have hmem := List.mem_map_of_mem (f := LogEntry.index) he
    rw [hmap, List.mem_range'_1] at hmem
    exact lt_of_le_of_lt (h hc).2 (by omega)

/-- A leader that has compacted its log up to index 5, and holds 6 and 7. -/
def compactedLeader : Node :=
  newNode "a" "a" ["b", "c"] 10
    ⟨some ⟨1, "a"⟩, [⟨1, 5, []⟩, ⟨1, 6, putBytes 120 49⟩, ⟨1, 7, putBytes 120 50⟩],
      [⟨KVMap.new, 5, 1⟩]⟩

/-- A cycle against that leader, in which nothing fails. -/
def compactedCycle : CycleEnv where
  leader := "a"
  status := compactedLeader.getLogStatus
  node := compactedLeader
  streamFails := false
  view := some "a"
  commitFails := false

theorem positional_compactedLeader : compactedLeader.Positional := by
  have hlog : compactedLeader.log =
    [⟨1, 5, []⟩, ⟨1, 6, putBytes 120 49⟩, ⟨1, 7, putBytes 120 50⟩] := by decide
  have hoff : compactedLeader.logOffset = 4 := by decide
  intro k e hk
  rw [hlog] at hk
  rw [hoff]
  match k, hk with
  | 0, hk => rw [← Option.some.inj hk]
  | 1, hk => rw [← Option.some.inj hk]
  | 2, hk => rw [← Option.some.inj hk]

/-- A store that is up to date with the leader's compaction. -/
def storeAtFive : Store := Store.newStore ⟨none, [], [⟨KVMap.new, 5, 1⟩]⟩

/-- The cycle is complete for a store whose boundary is the leader's anchor. -/
theorem gapless_cycle_storeAtFive : GaplessCycle compactedCycle decodePut storeAtFive :=
  (gapless_cycle_iff compactedCycle decodePut storeAtFive positional_compactedLeader).2
    fun _ => ⟨by decide, by decide⟩

/-- For a store that has lost its files it is not: indices 1 to 4 are missing, and the
anchor is applied as if it were a command. -/
theorem compacted_range_skipped : compactedCycle.node.Positional ∧
    ¬ GaplessCycle compactedCycle decodePut (Store.newStore Disk.empty) := by
  refine ⟨positional_compactedLeader, fun h => ?_⟩
  obtain ⟨es, hdown, hmap, -⟩ := h.applied ⟨1, 7, putBytes 120 50⟩ rfl
  obtain ⟨-, -, rfl, -⟩ := CycleEnv.streamed_eq_downloaded.1 hdown
  exact absurd hmap (by decide)

end B5KvStore
