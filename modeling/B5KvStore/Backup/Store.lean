import B5KvStore.Lib.Overwrite
import B5KvStore.Raft.Snapshots

/-!
# The Snapshot & Backup service

The service keeps a replica of the state machine, the boundary of the last
snapshot it has written, and a directory with the snapshot file itself (`Store`).
The compactor runs one cycle at a time: it downloads the entries above the boundary
from the leader, applies them to the replica, makes sure that the leader is still
the leader, moves the boundary, and tells the leader to compact.  Others read the
store between any two of these steps, so each of them is a step of its own, and
`CyclePhase` is what the compactor is about to do next.

* `Store` — `NewStore`, `Latest`, `File`, `Apply` and `Commit`.
* `Backup` — the compactor and its store.
* `Store.apply_eq` — entries that decode are replayed.
-/

namespace B5KvStore

/-! ## The store -/

/-- `Store`. -/
structure Store where
  dataDir : Disk
  state : KVMap
  lastIncludedIndex : Nat
  lastIncludedTerm : Nat
  available : Bool
  /-- The index in the name of the current snapshot file, if there is one. -/
  currentPath : Option Nat

/-- The effect of an entry whose command decodes. -/
def applyEntry (decode : List UInt8 → Option KVCommand) (e : LogEntry) (kv : KVMap) : KVMap :=
  match decode e.command with
  | some cmd => kv.apply cmd
  | none => kv

/-- The map after a sequence of entries. -/
def replay (decode : List UInt8 → Option KVCommand) : List LogEntry → KVMap → KVMap :=
  Overwrite.replay (applyEntry decode)

/-- The map of `statemachine.New`. -/
def KVMap.new : KVMap := fun _ => none

namespace Store

/-- `NewStore`. -/
def newStore (dataDir : Disk) : Store :=
  match dataDir.latest with
  | some file => ⟨dataDir, file.state, file.lastIncludedIndex, file.lastIncludedTerm, true,
      some file.lastIncludedIndex⟩
  | none => ⟨dataDir, KVMap.new, 0, 0, false, none⟩

/-- `Latest`. -/
def latest (s : Store) : Nat × Nat × Bool :=
  (s.lastIncludedIndex, s.lastIncludedTerm, s.available)

/-- `File`. -/
def file (s : Store) : Option File :=
  if s.available then some ⟨s.state, s.lastIncludedIndex, s.lastIncludedTerm⟩ else none

/-- `Apply`: whether all entries decoded.  Those before one that does not stay
applied. -/
def apply (decode : List UInt8 → Option KVCommand) (s : Store) : List LogEntry → Store × Bool
  | [] => (s, true)
  | e :: es =>
      match decode e.command with
      | none => (s, false)
      | some cmd => apply decode { s with state := s.state.apply cmd } es

/-- `Commit`: the file, unless it could not be written. -/
def commit (s : Store) (lastIncludedIndex lastIncludedTerm : Nat) (fails : Bool) :
    Store × Option File :=
  let file : File := ⟨s.state, lastIncludedIndex, lastIncludedTerm⟩
  if fails then (s, none)
  else
    let written := s.dataDir.apply (.writeFile file)
    ({ s with
        dataDir := match s.currentPath with
          | some old => if old ≠ lastIncludedIndex then written.apply (.removeFile old) else written
          | none => written
        currentPath := some lastIncludedIndex
        lastIncludedIndex := lastIncludedIndex
        lastIncludedTerm := lastIncludedTerm
        available := true }, some file)

end Store

/-! ## The compactor -/

/-- `Config`, as far as a tick looks at it. -/
structure CompactorConfig where
  compactionThresholdPercent : Nat := 30
  concurrencyGuardPercent : Nat := 90
  deriving DecidableEq, Repr

/-- What `runCycle` does next. -/
inductive CyclePhase where
  /-- No cycle is running. -/
  | idle
  /-- `StreamLogRange`. -/
  | streaming (leader : String) (fromIndex toIndex : Nat)
  /-- `Store.Apply` of the entries, of which `last` is the last. -/
  | downloaded (leader : String) (entries : List LogEntry) (last : LogEntry)
  /-- `GetClusterView` once more. -/
  | applied (leader : String) (last : LogEntry)
  /-- `Store.Commit`. -/
  | verified (leader : String) (last : LogEntry)
  /-- `ConfirmCompaction`. -/
  | confirming (leader : String) (file : File)

/-- The node and the range a download is about to ask for. -/
def CyclePhase.range? : CyclePhase → Option (String × Nat × Nat)
  | .streaming leader fromIndex toIndex => some (leader, fromIndex, toIndex)
  | _ => none

/-- The compactor and its store. -/
structure Backup where
  store : Store
  cycle : CyclePhase

/-- The service when it starts. -/
def Backup.new (dataDir : Disk) : Backup := ⟨Store.newStore dataDir, .idle⟩

/-- The first index `runCycle` asks for. -/
def Store.fromIndex (s : Store) (status : LogStatusReply) : Nat :=
  if s.lastIncludedIndex + 1 < status.firstIndex then status.firstIndex
  else s.lastIncludedIndex + 1

namespace Backup

/-- `runCycle` up to the download. -/
def start (b : Backup) (leader : String) (status : LogStatusReply) : Backup :=
  { b with cycle := if status.lastIndex < b.store.fromIndex status then .idle
      else .streaming leader (b.store.fromIndex status) status.lastIndex }

/-- `Tick` once the leader has answered: a cycle starts unless one is running or
the log is too empty or too full for it. -/
def tick (cfg : CompactorConfig) (b : Backup) (leader : String) (status : LogStatusReply) :
    Backup :=
  match b.cycle with
  | .idle =>
      if leader = "" ∨ status.occupancyPercent < cfg.compactionThresholdPercent ∨
          cfg.concurrencyGuardPercent ≤ status.occupancyPercent then b
      else b.start leader status
  | _ => b

/-- The download, from the node at the leader's address; it may fail. -/
def stream (b : Backup) (n : Node) (fails : Bool) : Backup :=
  match b.cycle with
  | .streaming leader fromIndex toIndex =>
      if fails then { b with cycle := .idle }
      else
        let entries := n.streamLogRange fromIndex toIndex
        { b with cycle := match entries.getLast? with
            | none => .idle
            | some last => .downloaded leader entries last }
  | _ => b

/-- The entries go into the replica. -/
def apply (decode : List UInt8 → Option KVCommand) (b : Backup) : Backup :=
  match b.cycle with
  | .downloaded leader entries last =>
      let r := b.store.apply decode entries
      ⟨r.1, if r.2 then .applied leader last else .idle⟩
  | _ => b

/-- Who leads now?  `none` is an error of the discovery service. -/
def verify (b : Backup) (view : Option String) : Backup :=
  match b.cycle with
  | .applied leader last =>
      { b with cycle := if view = some leader then .verified leader last else .idle }
  | _ => b

/-- The boundary moves, unless the file cannot be written. -/
def commit (b : Backup) (fails : Bool) : Backup :=
  match b.cycle with
  | .verified leader last =>
      let r := b.store.commit last.index last.term fails
      ⟨r.1, match r.2 with
        | some file => .confirming leader file
        | none => .idle⟩
  | _ => b

/-- `ConfirmCompaction` has returned, with or without an error. -/
def finish (b : Backup) : Backup :=
  match b.cycle with
  | .confirming _ _ => { b with cycle := .idle }
  | _ => b

end Backup

/-! ## Replaying entries -/

variable {decode : List UInt8 → Option KVCommand}

/-- What a command does to a key does not depend on what is there. -/
theorem overwriting_apply : Overwrite.Overwriting fun (cmd : KVCommand) kv => KVMap.apply kv cmd := by
  rintro ⟨op, key, value⟩ k
  -- every operation but the ignored one writes at the command's own key
  by_cases hk : k = key
  · subst hk
    cases op with
    | put => exact Or.inr ⟨some value, fun m => Function.update_self ..⟩
    | update => exact Or.inr ⟨some value, fun m => Function.update_self ..⟩
    | delete => exact Or.inr ⟨none, fun m => Function.update_self ..⟩
    | unrecognized => exact Or.inl fun m => rfl
  · cases op with
    | put => exact Or.inl fun m => Function.update_of_ne hk ..
    | update => exact Or.inl fun m => Function.update_of_ne hk ..
    | delete => exact Or.inl fun m => Function.update_of_ne hk ..
    | unrecognized => exact Or.inl fun m => rfl

theorem overwriting_applyEntry (decode : List UInt8 → Option KVCommand) :
    Overwrite.Overwriting (applyEntry decode) := by
  intro e k
  cases hcmd : decode e.command with
  | none => exact Or.inl fun m => by rw [applyEntry, hcmd]
  | some cmd =>
      refine (overwriting_apply cmd k).imp (fun h m => ?_) fun ⟨v, h⟩ => ⟨v, fun m => ?_⟩
      · rw [applyEntry, hcmd, ← h m]
      · rw [applyEntry, hcmd, ← h m]

theorem replay_append (es es' : List LogEntry) (kv : KVMap) :
    replay decode (es ++ es') kv = replay decode es' (replay decode es kv) :=
  Overwrite.replay_append ..

theorem replay_cons (e : LogEntry) (es : List LogEntry) (kv : KVMap) :
    replay decode (e :: es) kv = replay decode es (applyEntry decode e kv) := rfl

/-- A log that starts over on top of a part of itself gives the same map. -/
theorem replay_take (L : List LogEntry) {k m : Nat} (hkm : k ≤ m) (kv : KVMap) :
    replay decode (L.take m) (replay decode (L.take k) kv) = replay decode (L.take m) kv := by
  have hsplit : L.take m = L.take k ++ (L.take m).drop k := by
    conv_lhs => rw [← List.take_append_drop k (L.take m)]
    rw [List.take_take, min_eq_left hkm]
  rw [hsplit]
  exact (overwriting_applyEntry decode).replay_twice ..

/-- Entries that decode are replayed. -/
theorem Store.apply_eq (s : Store) {es : List LogEntry}
    (h : ∀ e ∈ es, (decode e.command).isSome) :
    s.apply decode es = ({ s with state := replay decode es s.state }, true) := by
  induction es generalizing s with
  | nil => rfl
  | cons e es ih =>
      obtain ⟨cmd, hcmd⟩ := Option.isSome_iff_exists.1 (h e (List.mem_cons_self ..))
      unfold Store.apply
      rw [hcmd]
      dsimp only
      rw [ih _ fun e' he' => h e' (List.mem_cons_of_mem e he'), replay_cons]
      unfold applyEntry
      rw [hcmd]

/-- `Apply` succeeds if all entries decode, and only then. -/
theorem Store.apply_snd (s : Store) (es : List LogEntry) :
    (s.apply decode es).2 = true ↔ ∀ e ∈ es, (decode e.command).isSome := by
  induction es generalizing s with
  | nil => simp [Store.apply]
  | cons e es ih =>
      unfold Store.apply
      cases hcmd : decode e.command with
      | none => simp [hcmd]
      | some cmd => simp [hcmd, ih]

/-- `Apply` changes the replica and nothing else. -/
theorem Store.apply_frame (s : Store) (es : List LogEntry) :
    ∃ kv, (s.apply decode es).1 = { s with state := kv } := by
  induction es generalizing s with
  | nil => exact ⟨s.state, rfl⟩
  | cons e es ih =>
      unfold Store.apply
      cases decode e.command with
      | none => exact ⟨s.state, rfl⟩
      | some cmd => exact ih _

/-- `Apply` leaves the boundary alone. -/
theorem Store.latest_apply (s : Store) (es : List LogEntry) :
    (s.apply decode es).1.latest = s.latest := by
  obtain ⟨kv, heq⟩ : ∃ kv, (s.apply decode es).1 = { s with state := kv } := s.apply_frame es
  rw [heq]
  rfl

end B5KvStore
