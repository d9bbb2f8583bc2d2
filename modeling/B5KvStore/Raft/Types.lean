import Mathlib.Data.List.AList

/-!
# The data of a consensus node

The records the node keeps, stores and exchanges: log entries, the messages of
the consensus service, snapshot files, and what is stored on disk.  Indices and
terms are natural numbers, and sums of them do not wrap around as those of
`uint64` do (`Raft.PanicFree` has the machine words, and `Raft.WrapAround` says
where it makes no difference).  Byte strings are lists of bytes, and Go maps are
association lists without repeated keys where the code ranges over them, and
partial functions where it only looks keys up.

The disk is the content of the node's data directory: `state.json`, the records
of `log.dat`, and the snapshot files.  Each atomic change of it is a `DiskWrite`,
so that a crash can fall between any two of them.
-/

namespace B5KvStore

/-! ## Log entries and the key-value map -/

/-- `persistence.LogEntry`, which has the fields of `pb.LogEntry`. -/
structure LogEntry where
  term : Nat
  index : Nat
  command : List UInt8
  deriving DecidableEq, Repr, Inhabited

/-- The operations of `pb.KVCommand`.  A number the enumeration does not name
decodes as an operation the state machine ignores. -/
inductive KVOp where
  | put
  | delete
  | update
  | unrecognized
  deriving DecidableEq, Repr

/-- `pb.KVCommand`. -/
structure KVCommand where
  op : KVOp
  key : String
  value : String
  deriving DecidableEq, Repr

/-- The contents of `statemachine.KV`. -/
abbrev KVMap := String → Option String

/-- `KV.Apply`. -/
def KVMap.apply (kv : KVMap) (cmd : KVCommand) : KVMap :=
  match cmd.op with
  | .put => Function.update kv cmd.key (some cmd.value)
  | .update => Function.update kv cmd.key (some cmd.value)
  | .delete => Function.update kv cmd.key none
  | .unrecognized => kv

/-- What the bytes of a command decode to, for commands that put a value of one
character: fields without a value are left out, so no bytes at all put the empty
string. -/
def decodePut : List UInt8 → Option KVCommand
  | [] => some ⟨.put, "", ""⟩
  | [0x12, 1, k, 0x1a, 1, v] =>
      some ⟨.put, (Char.ofNat k.toNat).toString, (Char.ofNat v.toNat).toString⟩
  | _ => none

/-- The bytes that put the character `v` at the key `k`. -/
def putBytes (k v : UInt8) : List UInt8 := [0x12, 1, k, 0x1a, 1, v]

/-- `ApplyMsg`: what the node hands to its `ApplyFn`. -/
structure ApplyMsg where
  index : Nat
  term : Nat
  command : List UInt8
  deriving DecidableEq, Repr

/-- `snapshotfile.File`. -/
structure File where
  state : KVMap
  lastIncludedIndex : Nat
  lastIncludedTerm : Nat

/-! ## The consensus messages -/

/-- `Role`. -/
inductive Role where
  | follower
  | candidate
  | leader
  deriving DecidableEq, Repr

structure RequestVoteRequest where
  term : Nat
  candidateId : String
  lastLogIndex : Nat
  lastLogTerm : Nat
  deriving DecidableEq, Repr

structure RequestVoteReply where
  term : Nat
  voteGranted : Bool
  deriving DecidableEq, Repr

structure AppendEntriesRequest where
  term : Nat
  leaderId : String
  prevLogIndex : Nat
  prevLogTerm : Nat
  entries : List LogEntry
  leaderCommit : Nat
  deriving DecidableEq, Repr

structure AppendEntriesReply where
  term : Nat
  success : Bool
  conflictIndex : Nat := 0
  conflictTerm : Nat := 0
  deriving DecidableEq, Repr

structure ReadIndexRequest where
  followerId : String
  deriving DecidableEq, Repr

structure ReadIndexReply where
  ok : Bool
  readIndex : Nat := 0
  redirectLeader : String := ""
  deriving DecidableEq, Repr

/-- The errors a node reports: a failed `SaveState`, and the two outcomes of a
proposal that is not committed here. -/
inductive RaftError where
  | saveState
  | notLeader
  | leadershipLost
  deriving DecidableEq, Repr

/-! ## The data directory -/

/-- `diskState`, the content of `state.json`. -/
structure DiskState where
  currentTerm : Nat
  votedFor : String
  deriving DecidableEq, Repr

/-- The data directory of a node. -/
structure Disk where
  /-- `state.json`, if it exists. -/
  state : Option DiskState
  /-- The records of `log.dat`. -/
  log : List LogEntry
  /-- The `snapshot-<index>.dat` files. -/
  snapshots : List File

/-- The directory of a brand-new node. -/
def Disk.empty : Disk := ⟨none, [], []⟩

/-- One atomic change of the data directory. -/
inductive DiskWrite where
  /-- `SaveState`, by rename. -/
  | saveState (currentTerm : Nat) (votedFor : String)
  /-- One record of `AppendLogEntries`. -/
  | appendRecord (e : LogEntry)
  /-- `TruncateLogFrom`, by rename. -/
  | truncateLogFrom (index : Nat)
  /-- `RewriteLog`, by rename. -/
  | rewriteLog (entries : List LogEntry)
  /-- `snapshotfile.WriteFile`, by rename. -/
  | writeFile (file : File)
  /-- Removal of a superseded snapshot file, named by its index. -/
  | removeFile (index : Nat)

namespace Disk

/-- The effect of one write. -/
def apply (d : Disk) : DiskWrite → Disk
  | .saveState t v => { d with state := some ⟨t, v⟩ }
  | .appendRecord e => { d with log := d.log ++ [e] }
  | .truncateLogFrom i => { d with log := d.log.filter (·.index < i) }
  | .rewriteLog es => { d with log := es }
  | .writeFile f =>
      { d with snapshots := f :: d.snapshots.filter (·.lastIncludedIndex ≠ f.lastIncludedIndex) }
  | .removeFile i => { d with snapshots := d.snapshots.filter (·.lastIncludedIndex ≠ i) }

/-- The effect of a sequence of writes. -/
def applyAll (d : Disk) (ws : List DiskWrite) : Disk := ws.foldl apply d

/-- `LoadState`: a missing `state.json` is a brand-new node. -/
def loadState (d : Disk) : Nat × String :=
  match d.state with
  | none => (0, "")
  | some st => (st.currentTerm, st.votedFor)

/-- One round of the scan of `snapshotfile.Latest`. -/
def better : Option File → File → Option File
  | none, f => some f
  | some best, f => if best.lastIncludedIndex < f.lastIncludedIndex then some f else some best

/-- `snapshotfile.Latest`: the snapshot file with the highest index. -/
def latest (d : Disk) : Option File := d.snapshots.foldl better none

end Disk

/-- `AppendLogEntries`: one record for each entry, in order. -/
def appendLogEntries (entries : List LogEntry) : List DiskWrite :=
  entries.map .appendRecord

end B5KvStore
