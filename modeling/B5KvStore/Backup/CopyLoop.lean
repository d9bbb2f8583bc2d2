import B5KvStore.Backup.Ranges

/-!
# The copy loop of a download

`StreamLogRange` copies the entries of a range while it holds the node's lock.  Its loop
variable is a `uint64` that wraps around, and the last index of the range comes from the
caller: up to the largest `uint64` every value of the variable is in the range, and the loop
does not end.

* `Node.copyLoop` — the loop, for a number of rounds.
* `Node.copyLoop_eq` — below the top it ends with the download of the range.
* `Node.copyLoop_max` — at the top it goes on forever.
* `stream_log_range_iff` — when the loop ends with exactly the entries of the range.
-/

namespace B5KvStore

namespace Node

variable {n : Node}

/-- The loop of `StreamLogRange` for at most so many rounds; `none` if it is still running.
The indices of the log are far below the largest `uint64`. -/
def copyLoop (n : Node) (toIndex : UInt64) :
    Nat → UInt64 → List LogEntry → Option (List LogEntry)
  | 0, _, _ => none
  | rounds + 1, idx, entries =>
      if idx ≤ toIndex then
        copyLoop n toIndex rounds (idx + 1) (entries ++ (n.entryAtLocked idx.toNat).toList)
      else some entries

/-- The loop ends, and these entries are sent. -/
def Streams (n : Node) (fromIndex toIndex : UInt64) (entries : List LogEntry) : Prop :=
  ∃ rounds, n.copyLoop toIndex rounds fromIndex [] = some entries

/-- The entries are those of the log in the range, in increasing order and each once. -/
def ExactRange (n : Node) (fromIndex toIndex : UInt64) (entries : List LogEntry) : Prop :=
  (∀ e, e ∈ entries ↔ e ∈ n.log ∧ fromIndex.toNat ≤ e.index ∧ e.index ≤ toIndex.toNat) ∧
    entries.Pairwise fun e e' => e.index < e'.index

/-! ## The loop below the top -/

theorem streamLogRange_of_lt {fromIndex toIndex : Nat} (h : toIndex < fromIndex) :
    n.streamLogRange fromIndex toIndex = [] := by
  unfold streamLogRange
  rw [show toIndex + 1 - fromIndex = 0 by omega]
  rfl

theorem streamLogRange_of_le {fromIndex toIndex : Nat} (h : fromIndex ≤ toIndex) :
    n.streamLogRange fromIndex toIndex =
      (n.entryAtLocked fromIndex).toList ++ n.streamLogRange (fromIndex + 1) toIndex := by
  unfold streamLogRange
  rw [show toIndex + 1 - fromIndex = toIndex + 1 - (fromIndex + 1) + 1 by omega, List.range'_succ]
  cases he : n.entryAtLocked fromIndex with
  | none => rw [List.filterMap_cons_none he]; rfl
  | some e => rw [List.filterMap_cons_some he]; rfl

/-- **Below the top** the loop ends, with the entries of the range. -/
theorem copyLoop_eq {toIndex : UInt64} (htop : toIndex.toNat + 1 < UInt64.size) {rounds : Nat}
    (idx : UInt64) (entries : List LogEntry) (hrounds : toIndex.toNat + 1 - idx.toNat < rounds) :
    n.copyLoop toIndex rounds idx entries =
      some (entries ++ n.streamLogRange idx.toNat toIndex.toNat) := by
  -- the distance to the end of the range goes down with every round
  induction rounds generalizing idx entries with
  | zero => omega
  | succ rounds ih =>
      unfold copyLoop
      by_cases hle : idx ≤ toIndex
      · have hle' : idx.toNat ≤ toIndex.toNat := UInt64.le_iff_toNat_le.1 hle
        have hnext : (idx + 1).toNat = idx.toNat + 1 := by
          rw [UInt64.toNat_add, UInt64.toNat_one]
          exact Nat.mod_eq_of_lt (lt_of_le_of_lt (Nat.succ_le_succ hle') htop)
        rw [if_pos hle, ih (idx + 1) _ (by rw [hnext]; omega), hnext, streamLogRange_of_le hle',
          List.append_assoc]
      · have hlt : toIndex.toNat < idx.toNat :=
          Nat.lt_of_not_le fun h => hle (UInt64.le_iff_toNat_le.2 h)
        rw [if_neg hle, streamLogRange_of_lt hlt, List.append_nil]

/-- **At the top** every index is in the range, and the loop does not end. -/
theorem copyLoop_max {toIndex : UInt64} (htop : toIndex.toNat + 1 = UInt64.size) (rounds : Nat)
    (idx : UInt64) (entries : List LogEntry) : n.copyLoop toIndex rounds idx entries = none := by
  induction rounds generalizing idx entries with
  | zero => rfl
  | succ rounds ih =>
      have hle : idx ≤ toIndex := by
        have := idx.toNat_lt_size
        exact UInt64.le_iff_toNat_le.2 (by omega)
      unfold copyLoop
      rw [if_pos hle]
      exact ih (idx + 1) _

/-! ## What is sent -/

theorem Positional.mem_streamLogRange (h : n.Positional) {fromIndex toIndex : Nat} {e : LogEntry} :
    e ∈ n.streamLogRange fromIndex toIndex ↔
      e ∈ n.log ∧ fromIndex ≤ e.index ∧ e.index ≤ toIndex := by
  unfold streamLogRange
  rw [List.mem_filterMap]
  constructor
  · rintro ⟨i, hi, he⟩
    rw [List.mem_range'_1] at hi
    unfold entryAtLocked at he
    split at he
    · exact absurd he (by simp)
    · have := h _ _ he
      exact ⟨List.mem_of_getElem? he, by omega, by omega⟩
  · rintro ⟨he, hfrom, hto⟩
    obtain ⟨k, hk⟩ := List.mem_iff_getElem?.1 he
    have hidx := h k e hk
    have hlt := (List.getElem?_eq_some_iff.1 hk).1
    refine ⟨e.index, List.mem_range'_1.2 ⟨hfrom, by omega⟩, ?_⟩
    unfold entryAtLocked
    rw [if_neg (by omega), show e.index - n.logOffset - 1 = k by omega]
    exact hk

theorem Positional.exactRange_streamLogRange (h : n.Positional) (fromIndex toIndex : UInt64) :
    n.ExactRange fromIndex toIndex (n.streamLogRange fromIndex.toNat toIndex.toNat) := by
  refine ⟨fun e => h.mem_streamLogRange, List.pairwise_map.1 ?_⟩
  rw [map_index_streamLogRange h]
  exact List.Pairwise.filter _ List.pairwise_lt_range'

end Node

/-- **A download** ends with exactly the entries of the range that the log holds, unless the
range goes up to the largest `uint64`. -/
theorem stream_log_range_iff (n : Node) (fromIndex toIndex : UInt64) (hpos : n.Positional) :
    (∃ entries, n.Streams fromIndex toIndex entries ∧ n.ExactRange fromIndex toIndex entries) ↔
      toIndex.toNat + 1 < UInt64.size := by
  constructor
  · rintro ⟨entries, ⟨rounds, hloop⟩, -⟩
    by_contra htop
    have hmax : toIndex.toNat + 1 = UInt64.size := by
      have := toIndex.toNat_lt_size
      omega
    rw [Node.copyLoop_max hmax] at hloop
    exact absurd hloop (by simp)
  · intro htop
    refine ⟨_, ⟨toIndex.toNat + 2, ?_⟩, hpos.exactRange_streamLogRange fromIndex toIndex⟩
    rw [Node.copyLoop_eq htop fromIndex [] (by omega), List.nil_append]

/-- A node whose first entry has been compacted. -/
def compactedOnce : Node :=
  { newNode "a" "a" ["b", "c"] 3 Disk.empty with
    log := [⟨1, 2, []⟩, ⟨1, 3, putBytes 120 49⟩, ⟨1, 4, putBytes 120 50⟩]
    logOffset := 1 }

theorem positional_compactedOnce : compactedOnce.Positional := by
  intro k e he
  rcases k with - | - | - | k
  · exact Option.some.inj he ▸ rfl
  · exact Option.some.inj he ▸ rfl
  · exact Option.some.inj he ▸ rfl
  · exact absurd he (by simp [compactedOnce])

/-- A range that starts in the compacted part and ends inside the log. -/
theorem stream_log_range_compactedOnce :
    ∃ entries, compactedOnce.Streams 1 3 entries ∧ compactedOnce.ExactRange 1 3 entries :=
  (stream_log_range_iff compactedOnce 1 3 positional_compactedOnce).2 (by decide)

/-- Up to the largest index the loop is still running after any number of rounds. -/
theorem stream_log_range_forever : compactedOnce.Positional ∧
    ∀ rounds, compactedOnce.copyLoop 18446744073709551615 rounds 1 [] = none :=
  ⟨positional_compactedOnce, fun rounds => Node.copyLoop_max rfl rounds 1 []⟩

end B5KvStore
