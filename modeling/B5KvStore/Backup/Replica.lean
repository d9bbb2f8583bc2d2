import B5KvStore.Lib.Runs
import B5KvStore.Backup.Ranges

/-!
# The replica and its boundary

The backup service beside a committed log that only grows.  The replica runs ahead
of the boundary from `Store.Apply` to `Store.Commit`, and it stays ahead when the
cycle stops in between; the catalog hands it out all the while.  As long as no
snapshot is on offer nobody sees that, and the next cycle starts over from the first
entry, which is harmless (`replay_take`).

* `Replica.step` — the service and the log, step by step.
* `Node.streamLogRange_eq` — what a node streams.
* `replica_matches_boundary` — runs in which the offer matches its boundary.
-/

namespace B5KvStore

/-! ## The system -/

/-- The node holds the committed log `C` above its anchor. -/
def Node.Serves (n : Node) (C : List LogEntry) : Prop :=
  n.anchorIndex ≤ C.length ∧ n.lastLogIndexLocked = C.length ∧
    n.log.drop (n.anchorIndex - n.logOffset) = C.drop n.anchorIndex

instance (n : Node) (C : List LogEntry) : Decidable (n.Serves C) :=
  inferInstanceAs (Decidable (_ ∧ _))

/-- The backup service and the log that has been committed so far. -/
structure Replica where
  committed : List LogEntry
  backup : Backup

/-- The log grows, or the service does something. -/
inductive ReplicaAction where
  | append (term : Nat) (command : List UInt8)
  | tick (leader : String) (node : Node)
  | stream (node : Node) (fails : Bool)
  | apply
  | verify (view : Option String)
  | commit (fails : Bool)
  | finish

/-- One step.  The commands decode, and the nodes that are asked hold the log. -/
def Replica.step (cfg : CompactorConfig) (decode : List UInt8 → Option KVCommand) (s : Replica) :
    ReplicaAction → Option Replica
  | .append term command =>
      if (decode command).isSome then
        some { s with committed := s.committed ++ [⟨term, s.committed.length + 1, command⟩] }
      else none
  | .tick leader node =>
      if node.Serves s.committed then
        some { s with backup := s.backup.tick cfg leader node.getLogStatus }
      else none
  | .stream node fails =>
      if node.Serves s.committed then some { s with backup := s.backup.stream node fails }
      else none
  | .apply => some { s with backup := s.backup.apply decode }
  | .verify view => some { s with backup := s.backup.verify view }
  | .commit fails => some { s with backup := s.backup.commit fails }
  | .finish => some { s with backup := s.backup.finish }

/-- The log is not compacted past the boundary, and what is applied while a snapshot
is on offer does not change the map. -/
def Replica.Safe (decode : List UInt8 → Option KVCommand) (s : Replica) : ReplicaAction → Prop
  | .tick _ node => node.getLogStatus.firstIndex ≤ s.backup.store.lastIncludedIndex + 1
  | .stream node _ => node.anchorIndex ≤ s.backup.store.lastIncludedIndex
  | .apply => ∀ leader es last, s.backup.cycle = .downloaded leader es last →
      s.backup.store.available = true →
      replay decode es s.backup.store.state = s.backup.store.state
  | _ => True

/-- A directory whose snapshot, if there is one, is a snapshot of the log. -/
def Disk.Backs (d : Disk) (decode : List UInt8 → Option KVCommand) (C : List LogEntry) : Prop :=
  ∀ f, d.latest = some f → f.lastIncludedIndex ≤ C.length ∧
    f.state = replay decode (C.take f.lastIncludedIndex) KVMap.new

/-! ## Downloads of the committed log -/

variable {decode : List UInt8 → Option KVCommand} {C : List LogEntry} {b : Backup}

theorem filterMap_range'_getElem? (C : List LogEntry) (a k : Nat) :
    (List.range' (a + 1) k).filterMap (fun i => C[i - 1]?) = (C.take (a + k)).drop a := by
  induction k with
  | zero =>
      rw [List.drop_eq_nil_of_le (by rw [List.length_take]; omega)]
      rfl
  | succ k ih =>
      have hnext : ∀ i, (List.filterMap (fun i => C[i - 1]?) [i + 1]) = (C[i]?).toList := by
        intro i
        cases hi : C[i]? with
        | none => simp [hi]
        | some e => simp [hi]
      rw [List.range'_concat, List.filterMap_append, ih,
        show a + 1 + 1 * k = a + k + 1 by omega, hnext, ← Nat.add_assoc, List.take_add_one]
      rcases Nat.lt_or_ge (a + k) C.length with hlt | hge
      · rw [List.drop_append_of_le_length (by rw [List.length_take]; omega)]
      · rw [List.getElem?_eq_none hge, Option.toList_none, List.append_nil, List.append_nil]

/-- Above its anchor the node holds the entries of the committed log. -/
theorem Node.Serves.entryAtLocked {n : Node} (h : n.Serves C) {i : Nat} (hi : n.anchorIndex < i) :
    n.entryAtLocked i = C[i - 1]? := by
  obtain ⟨-, hlast, hdrop⟩ := h
  have hoff := Node.logOffset_le_of_anchorIndex_le (le_refl n.anchorIndex)
  have hget : n.log[i - n.logOffset - 1]? = C[i - 1]? := by
    have := congrArg (fun l => l[i - 1 - n.anchorIndex]?) hdrop
    simp only [List.getElem?_drop] at this
    rw [show n.anchorIndex - n.logOffset + (i - 1 - n.anchorIndex) = i - n.logOffset - 1 by omega,
      show n.anchorIndex + (i - 1 - n.anchorIndex) = i - 1 by omega] at this
    exact this
  unfold Node.entryAtLocked
  unfold Node.lastLogIndexLocked at hlast
  split
  · rw [List.getElem?_eq_none (by omega)]
  · exact hget

/-- What a node streams of the log it shows above its anchor. -/
theorem Node.streamLogRange_eq {n : Node} {F : List LogEntry}
    (h : ∀ i, n.anchorIndex < i → n.entryAtLocked i = F[i - 1]?) {a m : Nat}
    (ha : n.anchorIndex ≤ a) (hle : a ≤ m) : n.streamLogRange (a + 1) m = (F.take m).drop a := by
  obtain ⟨k, rfl⟩ : ∃ k, m = a + k := ⟨m - a, by omega⟩
  rw [← filterMap_range'_getElem? F a k]
  unfold Node.streamLogRange
  rw [show a + k + 1 - (a + 1) = k by omega]
  refine List.filterMap_congr fun i hi => ?_
  exact h i (by have := (List.mem_range'_1.1 hi).1; omega)

/-! ## The invariant -/

/-- The replica matches the boundary, or nothing is on offer yet and it holds what a
prefix of at most `m` entries gives. -/
def Store.Behind (s : Store) (decode : List UInt8 → Option KVCommand) (C : List LogEntry)
    (m : Nat) : Prop :=
  (s.available = true ∧ s.state = replay decode (C.take s.lastIncludedIndex) KVMap.new) ∨
  (s.available = false ∧ s.lastIncludedIndex = 0 ∧
    ∃ k, k ≤ m ∧ s.state = replay decode (C.take k) KVMap.new)

/-- What holds of the store at each point of a cycle. -/
def Backup.PhaseOk (b : Backup) (decode : List UInt8 → Option KVCommand) (C : List LogEntry) : Prop :=
  match b.cycle with
  | .idle | .confirming _ _ => b.store.Behind decode C C.length
  | .streaming _ fromIndex toIndex =>
      fromIndex = b.store.lastIncludedIndex + 1 ∧ fromIndex ≤ toIndex ∧ toIndex ≤ C.length ∧
      b.store.Behind decode C toIndex
  | .downloaded _ es last =>
      es = (C.take last.index).drop b.store.lastIncludedIndex ∧
      b.store.lastIncludedIndex ≤ last.index ∧ last.index ≤ C.length ∧
      b.store.Behind decode C last.index
  | .applied _ last | .verified _ last =>
      last.index ≤ C.length ∧ b.store.Behind decode C last.index ∧
      b.store.state = replay decode (C.take last.index) KVMap.new

/-- The invariant of the replica. -/
structure ReplicaInv (decode : List UInt8 → Option KVCommand) (s : Replica) : Prop where
  placed : Placed s.committed
  decodes : ∀ e ∈ s.committed, (decode e.command).isSome
  boundary : s.backup.store.lastIncludedIndex ≤ s.committed.length
  phase : s.backup.PhaseOk decode s.committed

theorem Store.Behind.mono {s : Store} {m m' : Nat} (h : s.Behind decode C m) (hm : m ≤ m') :
    s.Behind decode C m' := by
  refine h.imp_right ?_
  rintro ⟨hav, hlast, k, hk, hstate⟩
  exact ⟨hav, hlast, k, hk.trans hm, hstate⟩

/-- What has been committed stays in place when the log grows. -/
theorem Store.Behind.append {s : Store} {m : Nat} (h : s.Behind decode C m) (hm : m ≤ C.length)
    (hs : s.lastIncludedIndex ≤ C.length) (e : LogEntry) : s.Behind decode (C ++ [e]) m := by
  rcases h with ⟨hav, hstate⟩ | ⟨hav, hlast, k, hk, hstate⟩
  · refine Or.inl ⟨hav, ?_⟩
    rw [List.take_append_of_le_length hs]
    exact hstate
  · refine Or.inr ⟨hav, hlast, k, hk, ?_⟩
    rw [List.take_append_of_le_length (by omega)]
    exact hstate

/-- Replaying the rest of a prefix gives what the prefix gives. -/
theorem Store.Behind.replay_drop {s : Store} {m : Nat} (h : s.Behind decode C m)
    (hs : s.lastIncludedIndex ≤ m) :
    replay decode ((C.take m).drop s.lastIncludedIndex) s.state =
      replay decode (C.take m) KVMap.new := by
  rcases h with ⟨-, hstate⟩ | ⟨-, hlast, k, hk, hstate⟩
  · rw [hstate, ← replay_append]
    congr 1
    rw [show C.take s.lastIncludedIndex = (C.take m).take s.lastIncludedIndex by
      rw [List.take_take, min_eq_left hs]]
    exact List.take_append_drop ..
  · -- an earlier cycle was abandoned: the log is replayed on top of a part of itself
    rw [hlast, List.drop_zero, hstate, replay_take C hk]

/-- In every phase what is on offer matches its boundary. -/
theorem Backup.PhaseOk.behind (h : b.PhaseOk decode C) : b.store.Behind decode C C.length := by
  unfold PhaseOk at h
  split at h
  · exact h
  · exact h
  · exact h.2.2.2.mono h.2.2.1
  · exact h.2.2.2.mono h.2.2.1
  · exact h.2.1.mono h.1
  · exact h.2.1.mono h.1

theorem Store.Behind.file {s : Store} {m : Nat} {f : File} (h : s.Behind decode C m)
    (hf : s.file = some f) : f.state = replay decode (C.take f.lastIncludedIndex) KVMap.new := by
  unfold Store.file at hf
  split at hf
  · rename_i hav
    rw [← Option.some.inj hf]
    rcases h with ⟨-, hstate⟩ | ⟨hav', -⟩
    · exact hstate
    · rw [hav] at hav'
      exact absurd hav' (by simp)
  · exact absurd hf (by simp)

/-! ## Steps -/

namespace ReplicaInv

variable {s : Replica}

theorem append (h : ReplicaInv decode s) {term : Nat} {command : List UInt8}
    (hcmd : (decode command).isSome) :
    ReplicaInv decode
      { s with committed := s.committed ++ [⟨term, s.committed.length + 1, command⟩] } where
  placed i e hi := by
    rcases Nat.lt_or_ge i s.committed.length with hlt | hge
    · rw [List.getElem?_append_left hlt] at hi
      exact h.placed i e hi
    · rw [List.getElem?_append_right hge, List.getElem?_singleton] at hi
      split at hi
      · rw [← Option.some.inj hi]
        dsimp only
        omega
      · exact absurd hi (by simp)
  decodes e he := by
    rcases List.mem_append.1 he with he | he
    · exact h.decodes e he
    · rw [List.mem_singleton.1 he]
      exact hcmd
  boundary := h.boundary.trans (by simp)
  phase := by
    have hphase := h.phase
    have hb := h.boundary
    have hlen : s.committed.length ≤
        (s.committed ++ [(⟨term, s.committed.length + 1, command⟩ : LogEntry)]).length := by simp
    unfold Backup.PhaseOk at hphase ⊢
    dsimp only at hphase ⊢
    split at hphase
    · exact (hphase.append (le_refl _) hb _).mono hlen
    · exact (hphase.append (le_refl _) hb _).mono hlen
    · obtain ⟨hfrom, hle, hto, hbehind⟩ := hphase
      exact ⟨hfrom, hle, hto.trans hlen, hbehind.append hto hb _⟩
    · obtain ⟨hes, hle, hto, hbehind⟩ := hphase
      refine ⟨?_, hle, hto.trans hlen, hbehind.append hto hb _⟩
      rw [List.take_append_of_le_length hto]
      exact hes
    · obtain ⟨hto, hbehind, hstate⟩ := hphase
      refine ⟨hto.trans hlen, hbehind.append hto hb _, ?_⟩
      rw [List.take_append_of_le_length hto]
      exact hstate
    · obtain ⟨hto, hbehind, hstate⟩ := hphase
      refine ⟨hto.trans hlen, hbehind.append hto hb _, ?_⟩
      rw [List.take_append_of_le_length hto]
      exact hstate

/-- A cycle that stops leaves the store as it is. -/
theorem stop (h : ReplicaInv decode s) :
    ReplicaInv decode { s with backup := { s.backup with cycle := .idle } } :=
  { h with phase := h.phase.behind }

theorem tick (h : ReplicaInv decode s) {cfg : CompactorConfig} {leader : String} {n : Node}
    (hn : n.Serves s.committed)
    (hfirst : n.getLogStatus.firstIndex ≤ s.backup.store.lastIncludedIndex + 1) :
    ReplicaInv decode { s with backup := s.backup.tick cfg leader n.getLogStatus } := by
  have hfrom : s.backup.store.fromIndex n.getLogStatus = s.backup.store.lastIncludedIndex + 1 := by
    unfold Store.fromIndex
    rw [if_neg (by omega)]
  have hlast : n.getLogStatus.lastIndex = s.committed.length := hn.2.1
  unfold Backup.tick
  split
  · split
    · exact h
    · unfold Backup.start
      rw [hfrom, hlast]
      split
      · exact h.stop
      · exact { h with phase := ⟨rfl, by omega, le_refl _, h.phase.behind⟩ }
  · exact h

theorem stream (h : ReplicaInv decode s) {n : Node} {fails : Bool} (hn : n.Serves s.committed)
    (hanchor : n.anchorIndex ≤ s.backup.store.lastIncludedIndex) :
    ReplicaInv decode { s with backup := s.backup.stream n fails } := by
  unfold Backup.stream
  split
  · rename_i leader fromIndex toIndex hcycle
    have hphase := h.phase
    unfold Backup.PhaseOk at hphase
    rw [hcycle] at hphase
    obtain ⟨rfl, hle, hto, hbehind⟩ := hphase
    split
    · exact h.stop
    · rw [Node.streamLogRange_eq (fun i hi => hn.entryAtLocked hi) hanchor (by omega)]
      dsimp only
      split
      · exact h.stop
      · rename_i last hlast
        -- the last entry of the download is the one at `toIndex`
        have hidx : last.index = toIndex := by
          rw [List.getLast?_drop, if_neg (by rw [List.length_take]; omega),
            List.getLast?_eq_getElem?, List.length_take, min_eq_left hto,
            List.getElem?_take, if_pos (by omega)] at hlast
          have := h.placed _ _ hlast
          omega
        refine { h with phase := ?_ }
        unfold Backup.PhaseOk
        dsimp only
        rw [hidx]
        exact ⟨rfl, by omega, hto, hbehind⟩
  · exact h

theorem apply (h : ReplicaInv decode s) (hsafe : s.Safe decode .apply) :
    ReplicaInv decode { s with backup := s.backup.apply decode } := by
  unfold Backup.apply
  split
  · rename_i leader es last hcycle
    have hphase := h.phase
    unfold Backup.PhaseOk at hphase
    rw [hcycle] at hphase
    obtain ⟨hes, hle, hto, hbehind⟩ := hphase
    have hdec : ∀ e ∈ es, (decode e.command).isSome := by
      intro e he
      rw [hes] at he
      exact h.decodes e (List.mem_of_mem_take (List.mem_of_mem_drop he))
    have hreplay := hbehind.replay_drop hle
    rw [← hes] at hreplay
    rw [Store.apply_eq _ hdec]
    refine { h with phase := ⟨hto, ?_, hreplay⟩ }
    rcases hbehind with ⟨hav, hstate⟩ | ⟨hav, hlast, -⟩
    · refine Or.inl ⟨hav, ?_⟩
      rw [← hstate]
      exact hsafe leader es last hcycle hav
    · exact Or.inr ⟨hav, hlast, last.index, le_refl _, hreplay⟩
  · exact h

theorem verify (h : ReplicaInv decode s) (view : Option String) :
    ReplicaInv decode { s with backup := s.backup.verify view } := by
  unfold Backup.verify
  split
  · rename_i leader last hcycle
    split
    · refine { h with phase := ?_ }
      have hphase := h.phase
      unfold Backup.PhaseOk at hphase
      rw [hcycle] at hphase
      exact hphase
    · exact h.stop
  · exact h

theorem commit (h : ReplicaInv decode s) (fails : Bool) :
    ReplicaInv decode { s with backup := s.backup.commit fails } := by
  unfold Backup.commit
  split
  · rename_i leader last hcycle
    have hphase := h.phase
    unfold Backup.PhaseOk at hphase
    rw [hcycle] at hphase
    obtain ⟨hto, -, hstate⟩ := hphase
    cases fails with
    | true => exact h.stop
    | false => exact { h with boundary := hto, phase := Or.inl ⟨rfl, hstate⟩ }
  · exact h

theorem finish (h : ReplicaInv decode s) :
    ReplicaInv decode { s with backup := s.backup.finish } := by
  unfold Backup.finish
  split
  · exact h.stop
  · exact h

/-- Every step that is safe keeps the invariant. -/
theorem step (h : ReplicaInv decode s) {cfg : CompactorConfig} {a : ReplicaAction} {s' : Replica}
    (hsafe : s.Safe decode a) (hs : s.step cfg decode a = some s') : ReplicaInv decode s' := by
  cases a with
  | append term command =>
      obtain ⟨hcmd, ⟨⟩⟩ := Option.ite_none_right_eq_some.1 hs
      exact h.append hcmd
  | tick leader n =>
      obtain ⟨hn, ⟨⟩⟩ := Option.ite_none_right_eq_some.1 hs
      exact h.tick hn hsafe
  | stream n fails =>
      obtain ⟨hn, ⟨⟩⟩ := Option.ite_none_right_eq_some.1 hs
      exact h.stream hn hsafe
  | apply => exact Option.some.inj hs ▸ h.apply hsafe
  | verify view => exact Option.some.inj hs ▸ h.verify view
  | commit fails => exact Option.some.inj hs ▸ h.commit fails
  | finish => exact Option.some.inj hs ▸ h.finish

theorem init {d : Disk} (hplaced : Placed C) (hdec : ∀ e ∈ C, (decode e.command).isSome)
    (hd : d.Backs decode C) : ReplicaInv decode ⟨C, Backup.new d⟩ := by
  have hstore : (Store.newStore d).lastIncludedIndex ≤ C.length ∧
      (Store.newStore d).Behind decode C C.length := by
    unfold Store.newStore
    cases hf : d.latest with
    | none => exact ⟨Nat.zero_le _, Or.inr ⟨rfl, rfl, 0, Nat.zero_le _, rfl⟩⟩
    | some f => exact ⟨(hd f hf).1, Or.inl ⟨rfl, (hd f hf).2⟩⟩
  exact ⟨hplaced, hdec, hstore.1, hstore.2⟩

end ReplicaInv

/-- **The offer matches its boundary** in every run in which the log is never compacted
past the boundary and nothing that changes the map is applied while a snapshot is on
offer. -/
theorem replica_matches_boundary (cfg : CompactorConfig) (decode : List UInt8 → Option KVCommand)
    (C : List LogEntry) (d : Disk) (as : List ReplicaAction) (s : Replica) (f : File)
    (hplaced : Placed C) (hdec : ∀ e ∈ C, (decode e.command).isSome) (hd : d.Backs decode C)
    (hsafe : Runs.Along (Replica.step cfg decode) (Replica.Safe decode) ⟨C, Backup.new d⟩ as)
    (hrun : Runs.exec (Replica.step cfg decode) ⟨C, Backup.new d⟩ as = some s)
    (hf : s.backup.store.file = some f) :
    f.state = replay decode (s.committed.take f.lastIncludedIndex) KVMap.new := by
  have hinv := Runs.invariant (fun s a s' h hok hs => ReplicaInv.step h hok hs)
    (ReplicaInv.init hplaced hdec hd) hsafe hrun
  exact hinv.phase.behind.file hf

/-- A leader that holds exactly these entries. -/
def leaderWith (C : List LogEntry) : Node :=
  newNode "a" "a" ["b", "c"] 3 ⟨some ⟨1, "a"⟩, C, []⟩

/-- The command that puts "1" at "x" is committed and backed up. -/
def firstCycle : List ReplicaAction :=
  let C : List LogEntry := [⟨1, 1, putBytes 120 49⟩]
  [.append 1 (putBytes 120 49), .tick "a" (leaderWith C), .stream (leaderWith C) false, .apply,
    .verify (some "a"), .commit false, .finish]

/-- The command that puts "2" there is committed, and its cycle stops because the
leader has changed. -/
def abandonedCycle : List ReplicaAction :=
  let C : List LogEntry := [⟨1, 1, putBytes 120 49⟩, ⟨1, 2, putBytes 120 50⟩]
  [.append 1 (putBytes 120 50), .tick "a" (leaderWith C), .stream (leaderWith C) false, .apply,
    .verify (some "b")]

/-- The cycle of the first command stops because the leader has changed, and the next one backs
up both commands. -/
def retriedCycle : List ReplicaAction :=
  let C : List LogEntry := [⟨1, 1, putBytes 120 49⟩]
  let C' : List LogEntry := [⟨1, 1, putBytes 120 49⟩, ⟨1, 2, putBytes 120 50⟩]
  [.append 1 (putBytes 120 49), .tick "a" (leaderWith C), .stream (leaderWith C) false, .apply,
    .verify (some "b"), .append 1 (putBytes 120 50), .tick "a" (leaderWith C'),
    .stream (leaderWith C') false, .apply, .verify (some "a"), .commit false, .finish]

/-- The first command is applied twice, and the offer is right. -/
theorem replica_matches_retriedCycle : ∃ s f,
    Runs.exec (Replica.step {} decodePut) ⟨[], Backup.new Disk.empty⟩ retriedCycle = some s ∧
    s.backup.store.file = some f ∧ f.lastIncludedIndex = 2 ∧ f.state "x" = some "2" ∧
    f.state = replay decodePut (s.committed.take f.lastIncludedIndex) KVMap.new := by
  have hsafe : Runs.Along (Replica.step {} decodePut) (Replica.Safe decodePut)
      ⟨[], Backup.new Disk.empty⟩ retriedCycle := by
    refine .cons trivial rfl (.cons (Nat.le_refl 1) rfl (.cons (Nat.le_refl 0) rfl (.cons ?_ rfl
      (.cons trivial rfl (.cons trivial rfl (.cons (Nat.le_refl 1) rfl (.cons (Nat.le_refl 0) rfl
        (.cons ?_ rfl (.cons trivial rfl (.cons trivial rfl (.cons trivial rfl trivial)))))))))))
    -- nothing is on offer when the commands are applied
    all_goals
      intro leader es last _ hav
      exact absurd hav (by decide)
  refine ⟨_, _, rfl, rfl, rfl, rfl, ?_⟩
  exact replica_matches_boundary {} decodePut [] Disk.empty retriedCycle _ _
    (fun i e h => absurd h (by simp)) (by simp)
    (fun f hf => absurd hf (by simp [Disk.latest, Disk.empty])) hsafe rfl rfl

/-- After the abandoned cycle the catalog offers "2" for a boundary at which "x" was
still "1". -/
theorem abandoned_cycle_ahead : ∃ s f,
    Runs.exec (Replica.step {} decodePut) ⟨[], Backup.new Disk.empty⟩
      (firstCycle ++ abandonedCycle) = some s ∧
    s.backup.store.file = some f ∧
    f.state ≠ replay decodePut (s.committed.take f.lastIncludedIndex) KVMap.new :=
  ⟨_, _, rfl, rfl, fun h => absurd (congrFun h "x") (by decide)⟩

end B5KvStore
