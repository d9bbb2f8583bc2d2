import B5KvStore.Raft.Replication

/-!
# Compaction and snapshot catch-up

`compactLocked` with its two callers, and the steps of the poll loop
(`snapshotPollOnce`, `catchUpFromSnapshot`).  The poll loop is one goroutine that
takes the lock only for some of its steps, so what it is about to do next is a
state of its own, `PollPhase`.
-/

namespace B5KvStore

/-- The anchor entry a snapshot file stands for. -/
def File.anchor (f : File) : LogEntry := ⟨f.lastIncludedTerm, f.lastIncludedIndex, []⟩

/-- `pb.CompactionAck`, with what `Decode` makes of its bytes. -/
structure CompactionAck where
  truncatedUpToIndex : Nat
  stateMachineSnapshot : Except String File

/-- Why a compaction is refused. -/
inductive CompactionError where
  | notPresent (target first last : Nat)
  | notApplied (target lastApplied : Nat)
  | decode (cause : String)
  | mismatch (lastIncludedIndex target : Nat)
  deriving DecidableEq, Repr

/-- The text of the error. -/
def CompactionError.message : CompactionError → String
  | .notPresent target first last =>
      s!"raft: cannot compact up to index {target}: not present in local log (have {first}..{last})"
  | .notApplied target lastApplied =>
      s!"raft: cannot confirm compaction up to index {target}: not yet applied " ++
        s!"(lastApplied={lastApplied})"
  | .decode cause =>
      s!"raft: cannot confirm compaction: decode state_machine_snapshot: {cause}"
  | .mismatch lastIncludedIndex target =>
      s!"raft: state_machine_snapshot lastIncludedIndex={lastIncludedIndex} does not match " ++
        s!"truncated_up_to_index={target}"

/-- `pb.LogStatusReply`. -/
structure LogStatusReply where
  totalEntries : Nat
  occupancyPercent : Nat
  firstIndex : Nat
  lastIndex : Nat
  deriving DecidableEq, Repr

/-- Where the poll loop of a node stands. -/
inductive PollPhase where
  | idle
  /-- `GetLatestSnapshotInfo` has named an index. -/
  | informed (target : Nat)
  /-- `catchUpFromSnapshot` is about to fetch. -/
  | catchingUp
  /-- The local-compaction branch is about to fetch. -/
  | compacting (target : Nat)
  | fetched (file : File)
  | written (file : File)
  | rewritten (file : File)
  | restored (file : File)
  | compactFetched (file : File)

/-- The file the poll loop is about to write or to adopt. -/
def PollPhase.catchUpFile? : PollPhase → Option File
  | .fetched file | .written file | .rewritten file | .restored file => some file
  | _ => none

/-- The file it is about to write. -/
def PollPhase.fetched? : PollPhase → Option File
  | .fetched file => some file
  | _ => none

/-- The file it has just written. -/
def PollPhase.written? : PollPhase → Option File
  | .written file => some file
  | _ => none

/-- The file it is about to adopt. -/
def PollPhase.restored? : PollPhase → Option File
  | .restored file => some file
  | _ => none

theorem PollPhase.fetched?_eq_some {ph : PollPhase} {file : File} :
    file ∈ ph.fetched? ↔ ph = .fetched file := by
  cases ph <;> simp [PollPhase.fetched?]

theorem PollPhase.restored?_eq_some {ph : PollPhase} {file : File} :
    file ∈ ph.restored? ↔ ph = .restored file := by
  cases ph <;> simp [PollPhase.restored?]

/-- The file it is about to compact with. -/
def PollPhase.compactFetched? : PollPhase → Option File
  | .compactFetched file => some file
  | _ => none

theorem PollPhase.compactFetched?_eq_some {ph : PollPhase} {file : File} :
    file ∈ ph.compactFetched? ↔ ph = .compactFetched file := by
  cases ph <;> simp [PollPhase.compactFetched?]

namespace Node

/-- `GetLogStatus`. -/
def getLogStatus (n : Node) : LogStatusReply :=
  { totalEntries := n.log.length
    occupancyPercent := n.log.length * 100 / n.logCapacityEntries
    firstIndex := if 0 < n.log.length then n.logOffset + 1 else 0
    lastIndex := n.lastLogIndexLocked }

/-- `StreamLogRange`: the entries of a range that the log holds. -/
def streamLogRange (n : Node) (fromIndex toIndex : Nat) : List LogEntry :=
  (List.range' fromIndex (toIndex + 1 - fromIndex)).filterMap n.entryAtLocked

/-- The decision of `snapshotPollOnce` under the lock. -/
def pollDecision (n : Node) (target : Nat) : PollPhase :=
  if n.lastApplied < target then .catchingUp
  else if n.logOffset + 1 < target then .compacting target
  else .idle

end Node

namespace Locked

/-- `replaceSnapshotFileLocked`. -/
def replaceSnapshotFileLocked (s : Locked) (newPath : Nat) : Locked :=
  let old := s.node.currentSnapshotPath
  let s := s.modify fun n => { n with currentSnapshotPath := some newPath }
  match old with
  | none => s
  | some old => if old ≠ newPath then s.write [.removeFile old] else s

/-- `compactLocked`; a refusal leaves everything as it is. -/
def compactLocked (s : Locked) (file : File) : Locked × Option CompactionError :=
  match s.node.entryAtLocked file.lastIncludedIndex with
  | none => (s, some (.notPresent file.lastIncludedIndex (s.node.logOffset + 1)
      s.node.lastLogIndexLocked))
  | some _ =>
      let s := (s.write [.writeFile file]).replaceSnapshotFileLocked file.lastIncludedIndex
      let kept := file.anchor :: s.node.log.drop (file.lastIncludedIndex - s.node.logOffset)
      ((s.write [.rewriteLog kept]).modify fun n =>
        { n with log := kept, logOffset := file.lastIncludedIndex - 1 }, none)

/-- `ConfirmCompaction`. -/
def confirmCompaction (s : Locked) (req : CompactionAck) : Locked × Option CompactionError :=
  if req.truncatedUpToIndex ≤ s.node.logOffset + 1 then (s, none)
  else if s.node.lastApplied < req.truncatedUpToIndex then
    (s, some (.notApplied req.truncatedUpToIndex s.node.lastApplied))
  else
    match req.stateMachineSnapshot with
    | .error cause => (s, some (.decode cause))
    | .ok file =>
        if file.lastIncludedIndex ≠ req.truncatedUpToIndex then
          (s, some (.mismatch file.lastIncludedIndex req.truncatedUpToIndex))
        else s.compactLocked file

/-- The locked part of the local-compaction branch of `snapshotPollOnce`. -/
def pollCompact (s : Locked) (file : File) : Locked :=
  if s.node.logOffset + 1 < file.lastIncludedIndex ∧
      file.lastIncludedIndex ≤ s.node.lastApplied then (s.compactLocked file).1
  else s

/-- The final locked update of `catchUpFromSnapshot`. -/
def adoptSnapshot (s : Locked) (file : File) : Locked :=
  (s.replaceSnapshotFileLocked file.lastIncludedIndex).modify fun n =>
    { n with
      log := [file.anchor]
      logOffset := file.lastIncludedIndex - 1
      commitIndex := if n.commitIndex < file.lastIncludedIndex then file.lastIncludedIndex
        else n.commitIndex
      lastApplied := if n.lastApplied < file.lastIncludedIndex then file.lastIncludedIndex
        else n.lastApplied }

/-- `catchUpFromSnapshot` from the fetched file on, when nothing comes between its
steps. -/
def catchUpFromSnapshot (s : Locked) (file : File) : Locked :=
  if file.lastIncludedIndex = 0 then s
  else ((s.write [.writeFile file]).write [.rewriteLog [file.anchor]]).adoptSnapshot file

end Locked

end B5KvStore
