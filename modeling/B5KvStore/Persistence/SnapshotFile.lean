import Mathlib.Data.Char
import Mathlib.Data.List.AList
import Mathlib.Data.List.Lex
import Mathlib.Data.List.Sort
import B5KvStore.Lib.GoText
import B5KvStore.Raft.Recovery

/-!
# The snapshot files of a directory

`snapshotfile.WriteFile` writes a checkpoint to a temporary name and renames it, and
`snapshotfile.Latest` finds the newest checkpoint by scanning the names of a directory.  The
scan is `fmt.Sscanf`, which ignores what follows the format, so that the temporary name of a
checkpoint matches as well as its final one.  Here a directory maps names to bytes, and a
write can be cut short anywhere before its rename.

* `SnapshotCodec` — what is known of `Encode` and `Decode`.
* `SnapshotDir.latest` — `Latest`, over the names and the bytes.
* `Mirrors` — which names a directory has, given the checkpoints that were completed.
* `latest_snapshot_iff` — when `Latest` returns the newest completed checkpoint.
-/

namespace B5KvStore

open GoText

/-! ## The format -/

/-- What `Encode` may write for a file, and `Decode`.  The encoding of a map depends on the
order in which it is walked, so a file can have several encodings. -/
structure SnapshotCodec where
  Encodes : File → List UInt8 → Prop
  decode : List UInt8 → Except String File
  decode_encodes : ∀ {f data}, Encodes f data → decode data = .ok f
  decode_cut : ∀ {f data part}, Encodes f data → part <+: data → part ≠ data →
    ∃ e, decode part = .error e

/-- `FileName`. -/
def fileName (lastIncludedIndex : Nat) : List Char :=
  "snapshot-".toList ++ decimal lastIncludedIndex ++ ".dat".toList

/-- The temporary name of `WriteFile`. -/
def tmpName (lastIncludedIndex : Nat) : List Char := fileName lastIncludedIndex ++ ".tmp".toList

/-- `fmt.Sscanf(name, "snapshot-%d.dat", &idx)`. -/
def scanName (name : List Char) : Option Nat :=
  sscanfUint64 "snapshot-".toList ".dat".toList name

theorem scanName_fileName {i : Nat} (hi : i < UInt64.size) : scanName (fileName i) = some i := by
  have h : scanName (fileName i ++ []) = some i :=
    sscanfUint64_decimal hi ⟨'.', by decide, by decide⟩ []
  rwa [List.append_nil] at h

theorem scanName_tmpName {i : Nat} (hi : i < UInt64.size) : scanName (tmpName i) = some i :=
  sscanfUint64_decimal hi ⟨'.', by decide, by decide⟩ _

theorem fileName_inj {i j : Nat} : fileName i = fileName j ↔ i = j := by
  refine ⟨fun h => ?_, fun h => h ▸ rfl⟩
  exact decimal_inj (List.append_cancel_left (List.append_cancel_right h))

theorem tmpName_inj {i j : Nat} : tmpName i = tmpName j ↔ i = j :=
  ⟨fun h => fileName_inj.1 (List.append_cancel_right h), fun h => h ▸ rfl⟩

/-- The two kinds of names differ in their last letter. -/
theorem fileName_ne_tmpName (i j : Nat) : fileName i ≠ tmpName j := by
  intro h
  have hfile : (fileName i).getLast? = some 't' := by
    unfold fileName
    rw [List.getLast?_append]
    rfl
  have htmp : (tmpName j).getLast? = some 'p' := by
    unfold tmpName
    rw [List.getLast?_append]
    rfl
  rw [h, htmp] at hfile
  exact absurd hfile (by decide)

/-- A directory lists a checkpoint before its temporary file. -/
theorem fileName_lt_tmpName (i : Nat) : fileName i < tmpName i := by
  have h : fileName i ++ [] < fileName i ++ ".tmp".toList :=
    List.append_left_lt (List.nil_lt_cons _ _)
  rwa [List.append_nil] at h

/-! ## The directory -/

/-- The plain files of a directory. -/
abbrev SnapshotDir := AList fun _ : List Char => List UInt8

namespace SnapshotDir

/-- `os.WriteFile` of the temporary file, cut after `count` bytes. -/
def writeTmp (d : SnapshotDir) (index : Nat) (data : List UInt8) (count : Nat) : SnapshotDir :=
  d.insert (tmpName index) (data.take count)

/-- `os.Rename` of the temporary file. -/
def rename (d : SnapshotDir) (index : Nat) : SnapshotDir :=
  match d.lookup (tmpName index) with
  | none => d
  | some data => (d.erase (tmpName index)).insert (fileName index) data

/-- `os.ReadDir`: the files, sorted by name. -/
def readDir (d : SnapshotDir) : List (List Char × List UInt8) :=
  (d.entries.map fun e => (e.1, e.2)).insertionSort fun a b => a.1 ≤ b.1

end SnapshotDir

/-- The best file so far: `bestIndex`, `bestName`, and its bytes. -/
structure BestFile where
  index : Nat
  name : List Char
  data : List UInt8

/-- One round of the loop of `Latest`. -/
def BestFile.next (best : Option BestFile) (e : List Char × List UInt8) : Option BestFile :=
  match scanName e.1 with
  | none => best
  | some idx =>
      match best with
      | none => some ⟨idx, e.1, e.2⟩
      | some b => if b.index < idx then some ⟨idx, e.1, e.2⟩ else some b

/-- `Latest`: the file and its name, or nothing. -/
def SnapshotDir.latest (c : SnapshotCodec) (d : SnapshotDir) :
    Except String (Option (File × List Char)) :=
  match d.readDir.foldl BestFile.next none with
  | none => .ok none
  | some b => (c.decode b.data).map fun f => some (f, b.name)

/-- What is done to a directory. -/
inductive SnapshotCall where
  /-- `WriteFile`, to its end. -/
  | write (f : File) (data : List UInt8)
  /-- `WriteFile`, ended by a crash or an error before the rename, with so many bytes in
  the temporary file. -/
  | cutShort (f : File) (data : List UInt8) (count : Nat)
  /-- Removal of a superseded checkpoint. -/
  | remove (index : Nat)

namespace SnapshotCall

/-- A write writes an encoding, of a file whose index is a `uint64`. -/
def Valid (c : SnapshotCodec) : SnapshotCall → Prop
  | write f data => c.Encodes f data ∧ f.lastIncludedIndex < UInt64.size
  | cutShort f data _ => c.Encodes f data ∧ f.lastIncludedIndex < UInt64.size
  | remove _ => True

def perform (d : SnapshotDir) : SnapshotCall → SnapshotDir
  | write f data =>
      (d.writeTmp f.lastIncludedIndex data data.length).rename f.lastIncludedIndex
  | cutShort f data count => d.writeTmp f.lastIncludedIndex data count
  | remove index => d.erase (fileName index)

def performAll (d : SnapshotDir) (calls : List SnapshotCall) : SnapshotDir := calls.foldl perform d

/-- The call as the rest of the development sees it: a write counts once it is renamed. -/
def completed : SnapshotCall → List DiskWrite
  | write f _ => [.writeFile f]
  | cutShort .. => []
  | remove index => [.removeFile index]

/-- The data directory that the completed calls leave. -/
def completedDisk (calls : List SnapshotCall) : Disk :=
  Disk.empty.applyAll (calls.flatMap completed)

end SnapshotCall

open SnapshotCall

/-! ## Which names a directory has -/

/-- A directory in which the checkpoints `fs` are complete: they are there under their names,
and every other name that the scan accepts is a temporary one. -/
structure Mirrors (c : SnapshotCodec) (d : SnapshotDir) (fs : List File) : Prop where
  present : ∀ f ∈ fs, f.lastIncludedIndex < UInt64.size ∧
    ∃ data, d.lookup (fileName f.lastIncludedIndex) = some data ∧ c.Encodes f data
  scanned : ∀ name ∈ d, ∀ i, scanName name = some i →
    (name = fileName i ∧ ∃ f ∈ fs, f.lastIncludedIndex = i) ∨ name = tmpName i
  unique : ∀ f ∈ fs, ∀ g ∈ fs, f.lastIncludedIndex = g.lastIncludedIndex → f = g

theorem SnapshotDir.rename_writeTmp (d : SnapshotDir) (i : Nat) (data : List UInt8) :
    (d.writeTmp i data data.length).rename i =
      ((d.insert (tmpName i) data).erase (tmpName i)).insert (fileName i) data := by
  unfold rename writeTmp
  rw [List.take_length, AList.lookup_insert]

namespace Mirrors

variable {c : SnapshotCodec} {d : SnapshotDir} {fs : List File}

theorem write (h : Mirrors c d fs) {f : File} {data : List UInt8} (henc : c.Encodes f data)
    (hf : f.lastIncludedIndex < UInt64.size) :
    Mirrors c ((d.writeTmp f.lastIncludedIndex data data.length).rename f.lastIncludedIndex)
      (f :: fs.filter (·.lastIncludedIndex ≠ f.lastIncludedIndex)) := by
  rw [SnapshotDir.rename_writeTmp]
  refine ⟨fun g hg => ?_, fun name hname i hi => ?_, fun g hg g' hg' heq => ?_⟩
  · rcases List.mem_cons.1 hg with rfl | hg
    · exact ⟨hf, data, AList.lookup_insert _, henc⟩
    · obtain ⟨hmem, hne⟩ := List.mem_filter.1 hg
      have hne : g.lastIncludedIndex ≠ f.lastIncludedIndex := of_decide_eq_true hne
      obtain ⟨hlt, gdata, hlook, hgenc⟩ := h.present g hmem
      refine ⟨hlt, gdata, ?_, hgenc⟩
      rw [AList.lookup_insert_ne (mt fileName_inj.1 hne),
        AList.lookup_erase_ne (fileName_ne_tmpName _ _),
        AList.lookup_insert_ne (fileName_ne_tmpName _ _), hlook]
  · rw [AList.mem_insert, AList.mem_erase, AList.mem_insert] at hname
    by_cases hown : name = fileName f.lastIncludedIndex
    · rw [hown, scanName_fileName hf, Option.some.injEq] at hi
      exact Or.inl ⟨hi ▸ hown, f, List.mem_cons_self .., hi⟩
    · obtain ⟨hnt, hold⟩ := hname.resolve_left hown
      rcases h.scanned name (hold.resolve_left hnt) i hi with ⟨hfile, g, hg, hgi⟩ | htmp
      · have hne : g.lastIncludedIndex ≠ f.lastIncludedIndex :=
          fun heq => hown (by rw [hfile, ← hgi, heq])
        exact Or.inl ⟨hfile, g,
          List.mem_cons_of_mem _ (List.mem_filter.2 ⟨hg, decide_eq_true hne⟩), hgi⟩
      · exact Or.inr htmp
  · rcases List.mem_cons.1 hg with rfl | hg
    · rcases List.mem_cons.1 hg' with rfl | hg'
      · rfl
      · exact absurd heq.symm (of_decide_eq_true (List.mem_filter.1 hg').2)
    · rcases List.mem_cons.1 hg' with rfl | hg'
      · exact absurd heq (of_decide_eq_true (List.mem_filter.1 hg).2)
      · exact h.unique g (List.mem_filter.1 hg).1 g' (List.mem_filter.1 hg').1 heq

theorem cutShort (h : Mirrors c d fs) {i : Nat} (hi : i < UInt64.size) (data : List UInt8)
    (count : Nat) : Mirrors c (d.writeTmp i data count) fs := by
  unfold SnapshotDir.writeTmp
  refine ⟨fun f hf => ?_, fun name hname j hj => ?_, h.unique⟩
  · rw [AList.lookup_insert_ne (fileName_ne_tmpName _ _)]
    exact h.present f hf
  · rcases (AList.mem_insert _).1 hname with rfl | hname
    · rw [scanName_tmpName hi, Option.some.injEq] at hj
      exact Or.inr (by rw [hj])
    · exact h.scanned name hname j hj

theorem remove (h : Mirrors c d fs) (i : Nat) :
    Mirrors c (d.erase (fileName i)) (fs.filter (·.lastIncludedIndex ≠ i)) := by
  refine ⟨fun f hf => ?_, fun name hname j hj => ?_, fun f hf g hg heq => ?_⟩
  · obtain ⟨hmem, hne⟩ := List.mem_filter.1 hf
    rw [AList.lookup_erase_ne (mt fileName_inj.1 (of_decide_eq_true hne))]
    exact h.present f hmem
  · obtain ⟨hne, hname⟩ := AList.mem_erase.1 hname
    rcases h.scanned name hname j hj with ⟨hfile, g, hg, hgj⟩ | htmp
    · have hji : g.lastIncludedIndex ≠ i := fun heq => hne (by rw [hfile, ← hgj, heq])
      exact Or.inl ⟨hfile, g, List.mem_filter.2 ⟨hg, decide_eq_true hji⟩, hgj⟩
    · exact Or.inr htmp
  · exact h.unique f (List.mem_filter.1 hf).1 g (List.mem_filter.1 hg).1 heq

/-- One call keeps the directory and the completed checkpoints together. -/
theorem perform {disk : Disk} (h : Mirrors c d disk.snapshots) {call : SnapshotCall}
    (hvalid : call.Valid c) :
    Mirrors c (call.perform d) (disk.applyAll call.completed).snapshots := by
  cases call with
  | write f data => exact h.write hvalid.1 hvalid.2
  | cutShort f data count => exact h.cutShort hvalid.2 data count
  | remove index => exact h.remove index

/-- So does every sequence of calls. -/
theorem performAll {calls : List SnapshotCall} (hvalid : ∀ call ∈ calls, call.Valid c)
    {disk : Disk} (h : Mirrors c d disk.snapshots) :
    Mirrors c (SnapshotCall.performAll d calls)
      (disk.applyAll (calls.flatMap completed)).snapshots := by
  induction calls generalizing d disk with
  | nil => exact h
  | cons call calls ih =>
      have hstep := h.perform (hvalid call (List.mem_cons_self ..))
      have hrest := ih (fun x hx => hvalid x (List.mem_cons_of_mem _ hx)) hstep
      rw [List.flatMap_cons]
      unfold Disk.applyAll at hrest ⊢
      rw [List.foldl_append]
      exact hrest

/-- A directory none of whose names the scan accepts has no checkpoint. -/
theorem of_foreign (hd : ∀ name ∈ d, scanName name = none) :
    Mirrors c d Disk.empty.snapshots := by
  refine ⟨fun f hf => absurd hf List.not_mem_nil, fun name hname i hi => ?_,
    fun f hf => absurd hf List.not_mem_nil⟩
  rw [hd name hname] at hi
  exact absurd hi (by simp)

end Mirrors

/-! ## The loop -/

theorem SnapshotDir.mem_readDir {d : SnapshotDir} {e : List Char × List UInt8} :
    e ∈ d.readDir ↔ d.lookup e.1 = some e.2 := by
  unfold readDir
  rw [List.mem_insertionSort, List.mem_map, ← Option.mem_def, AList.mem_lookup_iff]
  constructor
  · rintro ⟨x, hx, rfl⟩
    exact hx
  · intro h
    exact ⟨⟨e.1, e.2⟩, h, rfl⟩

theorem SnapshotDir.readDir_sorted (d : SnapshotDir) :
    d.readDir.Pairwise fun a b => a.1 ≤ b.1 := by
  unfold readDir
  have : Std.Total fun a b : List Char × List UInt8 => a.1 ≤ b.1 := ⟨fun a b => le_total a.1 b.1⟩
  have : IsTrans (List Char × List UInt8) fun a b => a.1 ≤ b.1 := ⟨fun _ _ _ => le_trans⟩
  exact List.pairwise_insertionSort _ _

/-- What the loop has found after the files `es`: one of those the scan accepts, of the
highest index, and the first of them in the order of names. -/
structure BestFile.Best (b : BestFile) (es : List (List Char × List UInt8)) : Prop where
  mem : (b.name, b.data) ∈ es
  scan : scanName b.name = some b.index
  highest : ∀ e ∈ es, ∀ i, scanName e.1 = some i → i ≤ b.index
  first : ∀ e ∈ es, scanName e.1 = some b.index → b.name ≤ e.1

/-- The loop's result for `es`. -/
def BestFile.Result (es : List (List Char × List UInt8)) : Option BestFile → Prop
  | none => ∀ e ∈ es, scanName e.1 = none
  | some b => b.Best es

/-- One round. -/
theorem BestFile.Result.next {es : List (List Char × List UInt8)} {o : Option BestFile}
    (h : Result es o) {e : List Char × List UInt8} (hle : ∀ x ∈ es, x.1 ≤ e.1) :
    Result (es ++ [e]) (BestFile.next o e) := by
  have hsplit : ∀ {x}, x ∈ es ++ [e] → x ∈ es ∨ x = e := fun hx => by simpa using hx
  have hlast : e ∈ es ++ [e] := List.mem_append_right _ (List.mem_singleton_self e)
  unfold BestFile.next
  cases hscan : scanName e.1 with
  | none =>
      cases o with
      | none =>
          intro x hx
          rcases hsplit hx with hx | rfl
          · exact h x hx
          · exact hscan
      | some b =>
          refine ⟨List.mem_append_left _ h.mem, h.scan, fun x hx i hi => ?_, fun x hx hi => ?_⟩
          · rcases hsplit hx with hx | rfl
            · exact h.highest x hx i hi
            · exact absurd (hscan.symm.trans hi) (by simp)
          · rcases hsplit hx with hx | rfl
            · exact h.first x hx hi
            · exact absurd (hscan.symm.trans hi) (by simp)
  | some idx =>
      cases o with
      | none =>
          refine ⟨hlast, hscan, fun x hx i hi => ?_, fun x hx hi => ?_⟩
          · rcases hsplit hx with hx | rfl
            · exact absurd ((h x hx).symm.trans hi) (by simp)
            · exact (Option.some.inj (hscan.symm.trans hi)).ge
          · rcases hsplit hx with hx | rfl
            · exact absurd ((h x hx).symm.trans hi) (by simp)
            · exact le_refl _
      | some b =>
          dsimp only
          by_cases hlt : b.index < idx
          · rw [if_pos hlt]
            refine ⟨hlast, hscan, fun x hx i hi => ?_, fun x hx hi => ?_⟩
            · rcases hsplit hx with hx | rfl
              · exact (h.highest x hx i hi).trans hlt.le
              · exact (Option.some.inj (hscan.symm.trans hi)).ge
            · rcases hsplit hx with hx | rfl
              · exact absurd (h.highest x hx idx hi) (by omega)
              · exact le_refl _
          · rw [if_neg hlt]
            refine ⟨List.mem_append_left _ h.mem, h.scan, fun x hx i hi => ?_, fun x hx hi => ?_⟩
            · rcases hsplit hx with hx | rfl
              · exact h.highest x hx i hi
              · have := Option.some.inj (hscan.symm.trans hi)
                omega
            · rcases hsplit hx with hx | rfl
              · exact h.first x hx hi
              · exact hle _ h.mem

/-- The whole loop, over files sorted by name. -/
theorem BestFile.result_foldl {es fs : List (List Char × List UInt8)} {o : Option BestFile}
    (h : Result es o) (hsorted : (es ++ fs).Pairwise fun a b => a.1 ≤ b.1) :
    Result (es ++ fs) (fs.foldl BestFile.next o) := by
  induction fs generalizing es o with
  | nil => rwa [List.append_nil]
  | cons e fs ih =>
      have hle : ∀ x ∈ es, x.1 ≤ e.1 := fun x hx =>
        (List.pairwise_append.1 hsorted).2.2 x hx e (List.mem_cons_self ..)
      rw [List.append_cons] at hsorted ⊢
      exact ih (h.next hle) hsorted

theorem SnapshotDir.result_latest (d : SnapshotDir) :
    BestFile.Result d.readDir (d.readDir.foldl BestFile.next none) := by
  have hnone : BestFile.Result [] none := fun _ h => absurd h List.not_mem_nil
  exact BestFile.result_foldl hnone d.readDir_sorted

/-! ## The newest completed checkpoint -/

/-- Every temporary file that was left behind is superseded by a completed checkpoint. -/
def Superseded (d : SnapshotDir) (fs : List File) : Prop :=
  ∀ i < UInt64.size, tmpName i ∈ d → ∃ f ∈ fs, i ≤ f.lastIncludedIndex

theorem Mirrors.latest_eq_iff {c : SnapshotCodec} {d : SnapshotDir} {disk : Disk}
    (h : Mirrors c d disk.snapshots) :
    d.latest c = .ok (disk.latest.map fun f => (f, fileName f.lastIncludedIndex)) ↔
      Superseded d disk.snapshots := by
  have hresult := d.result_latest
  have hfiles : ∀ f ∈ disk.snapshots, ∃ data, (fileName f.lastIncludedIndex, data) ∈ d.readDir ∧
      scanName (fileName f.lastIncludedIndex) = some f.lastIncludedIndex ∧ c.Encodes f data := by
    intro f hf
    obtain ⟨hlt, data, hlook, henc⟩ := h.present f hf
    exact ⟨data, SnapshotDir.mem_readDir.2 hlook, scanName_fileName hlt, henc⟩
  have htmps : ∀ i < UInt64.size, tmpName i ∈ d → ∃ data, (tmpName i, data) ∈ d.readDir := by
    intro i hi hmem
    obtain ⟨data, hdata⟩ := Option.isSome_iff_exists.1 (AList.lookup_isSome.2 hmem)
    exact ⟨data, SnapshotDir.mem_readDir.2 hdata⟩
  unfold SnapshotDir.latest
  cases hbest : d.readDir.foldl BestFile.next none with
  | none =>
      rw [hbest] at hresult
      have hnil : disk.snapshots = [] := by
        refine List.eq_nil_iff_forall_not_mem.2 fun f hf => ?_
        obtain ⟨data, hmem, hscan, -⟩ := hfiles f hf
        exact absurd ((hresult _ hmem).symm.trans hscan) (by simp)
      refine ⟨fun _ i hi hmem => ?_, fun _ => by rw [latest_eq_none.2 hnil]; rfl⟩
      obtain ⟨data, hdata⟩ := htmps i hi hmem
      exact absurd ((hresult _ hdata).symm.trans (scanName_tmpName hi)) (by simp)
  | some b =>
      rw [hbest] at hresult
      have hlook := SnapshotDir.mem_readDir.1 hresult.mem
      have hind : b.name ∈ d := AList.lookup_isSome.1 (by rw [hlook]; rfl)
      have hbelow : ∀ f ∈ disk.snapshots, f.lastIncludedIndex ≤ b.index := by
        intro f hf
        obtain ⟨data, hmem, hscan, -⟩ := hfiles f hf
        exact hresult.highest _ hmem _ hscan
      rcases h.scanned b.name hind b.index hresult.scan with ⟨hname, f, hf, hfi⟩ | hname
      · -- a completed checkpoint is chosen, and no checkpoint is above it
        obtain ⟨-, data, hdata, henc⟩ := h.present f hf
        have hsame : data = b.data := by
          rw [hfi, ← hname, hlook] at hdata
          exact (Option.some.inj hdata).symm
        have hlatest : disk.latest = some f := by
          cases hl : disk.latest with
          | none => exact absurd (latest_eq_none.1 hl ▸ hf) List.not_mem_nil
          | some g =>
              obtain ⟨hg, hle⟩ := latest_mem hl
              have heq : g.lastIncludedIndex = f.lastIncludedIndex :=
                Nat.le_antisymm (hfi ▸ hbelow g hg) (hle f hf)
              rw [h.unique g hg f hf heq]
        refine ⟨fun _ i hi hmem => ?_, fun _ => ?_⟩
        · obtain ⟨tdata, htdata⟩ := htmps i hi hmem
          exact ⟨f, hf, hfi ▸ hresult.highest _ htdata i (scanName_tmpName hi)⟩
        · dsimp only
          rw [← hsame, c.decode_encodes henc, hlatest, hname, ← hfi]
          rfl
      · -- a temporary file is chosen, so every checkpoint is below it
        have hidx : b.index < UInt64.size := by
          have hscan := hresult.scan
          unfold scanName sscanfUint64 at hscan
          obtain ⟨s, -, hs⟩ := Option.bind_eq_some_iff.1 hscan
          obtain ⟨r, hr, hrest⟩ := Option.bind_eq_some_iff.1 hs
          obtain ⟨t, -, hrb⟩ := Option.map_eq_some_iff.1 hrest
          exact hrb ▸ lt_size_of_scanUint64 hr
        refine ⟨fun heq => ?_, fun hsup => ?_⟩
        · exfalso
          dsimp only at heq
          cases hdec : c.decode b.data with
          | error e =>
              rw [hdec] at heq
              exact absurd heq (by simp [Except.map])
          | ok g =>
              rw [hdec] at heq
              have heq := Except.ok.inj heq
              obtain ⟨f, -, hpair⟩ := Option.map_eq_some_iff.1 heq.symm
              exact fileName_ne_tmpName _ _ ((congrArg Prod.snd hpair).trans hname)
        · exfalso
          obtain ⟨f, hf, hle⟩ := hsup b.index hidx (hname ▸ hind)
          obtain ⟨data, hmem, hscan, -⟩ := hfiles f hf
          have hfi : f.lastIncludedIndex = b.index := Nat.le_antisymm (hbelow f hf) hle
          have hfirst := hresult.first _ hmem (hfi ▸ hscan)
          rw [hname, hfi] at hfirst
          exact absurd (fileName_lt_tmpName b.index) (not_lt.2 hfirst)

/-- **The newest completed checkpoint.**  After any sequence of writes, interrupted writes and
removals, `Latest` succeeds with the completed checkpoint of the highest index, or reports that
there is none, exactly if each temporary file left behind is superseded by a completed
checkpoint. -/
theorem latest_snapshot_iff (c : SnapshotCodec) (d : SnapshotDir) (calls : List SnapshotCall)
    (hd : ∀ name ∈ d, scanName name = none) (hcalls : ∀ call ∈ calls, call.Valid c) :
    (performAll d calls).latest c =
        .ok ((completedDisk calls).latest.map fun f => (f, fileName f.lastIncludedIndex)) ↔
      Superseded (performAll d calls) (completedDisk calls).snapshots :=
  ((Mirrors.of_foreign hd).performAll hcalls).latest_eq_iff

/-- A format for checkpoints of an empty map at term 0: the index in one byte. -/
def oneByteCodec : SnapshotCodec where
  Encodes f data := ∃ b : UInt8, f = ⟨fun _ => none, b.toNat, 0⟩ ∧ data = [b]
  decode
    | [b] => .ok ⟨fun _ => none, b.toNat, 0⟩
    | _ => .error "unexpected EOF"
  decode_encodes := by
    rintro f data ⟨b, rfl, rfl⟩
    rfl
  decode_cut := by
    rintro f data part ⟨b, rfl, rfl⟩ hpart hne
    rcases List.prefix_cons_iff.1 hpart with rfl | ⟨t, rfl, ht⟩
    · exact ⟨_, rfl⟩
    · rw [List.prefix_nil.1 ht] at hne
      exact absurd rfl hne

/-- The checkpoint of an empty map at `index`. -/
def emptyCheckpoint (index : Nat) : File := ⟨fun _ => none, index, 0⟩

/-- A checkpoint at 7 and an interrupted one at 5: the checkpoint at 7 is found. -/
theorem latest_snapshot_seven :
    (performAll ∅ [.cutShort (emptyCheckpoint 5) [5] 0, .write (emptyCheckpoint 7) [7]]).latest
      oneByteCodec = .ok (some (emptyCheckpoint 7, fileName 7)) := by
  refine (latest_snapshot_iff oneByteCodec ∅ _ (fun name hname => absurd hname (by simp)) ?_).2 ?_
  · intro call hcall
    simp only [List.mem_cons, List.not_mem_nil, or_false] at hcall
    rcases hcall with rfl | rfl
    · exact ⟨⟨5, rfl, rfl⟩, by decide⟩
    · exact ⟨⟨7, rfl, rfl⟩, by decide⟩
  · intro i hi hmem
    refine ⟨emptyCheckpoint 7, List.mem_cons_self .., ?_⟩
    change tmpName i ∈ ((((∅ : SnapshotDir).writeTmp 5 [5] 0).writeTmp 7 [7] [7].length).rename 7)
      at hmem
    rw [SnapshotDir.rename_writeTmp _ 7 [7], AList.mem_insert, AList.mem_erase,
      AList.mem_insert] at hmem
    rcases hmem with hfile | ⟨hne, hseven | hmem⟩
    · exact absurd hfile.symm (fileName_ne_tmpName _ _)
    · exact absurd hseven hne
    · rcases (AList.mem_insert _).1 hmem with hfive | hmem
      · exact (tmpName_inj.1 hfive).le.trans (by decide)
      · exact absurd hmem (AList.notMem_empty _)

/-- A checkpoint at 5, and one at 7 whose write is cut short before its first byte: `Latest`
takes the empty temporary file and fails, with the checkpoint at 5 intact. -/
theorem latest_snapshot_cut_short :
    (performAll ∅ [.write (emptyCheckpoint 5) [5], .cutShort (emptyCheckpoint 7) [7] 0]).latest
        oneByteCodec = .error "unexpected EOF" ∧
      (completedDisk [.write (emptyCheckpoint 5) [5],
        .cutShort (emptyCheckpoint 7) [7] 0]).latest = some (emptyCheckpoint 5) := by
  have hdir : (performAll ∅ [.write (emptyCheckpoint 5) [5],
      .cutShort (emptyCheckpoint 7) [7] 0]).readDir =
      [(fileName 5, [5]), (tmpName 7, [])] := by decide +kernel
  have hfive : scanName (fileName 5) = some 5 := by decide +kernel
  have hseven : scanName (tmpName 7) = some 7 := by decide +kernel
  refine ⟨?_, rfl⟩
  unfold SnapshotDir.latest
  rw [hdir, List.foldl_cons, List.foldl_cons, List.foldl_nil]
  unfold BestFile.next
  rw [hfive, hseven]
  rfl

end B5KvStore
