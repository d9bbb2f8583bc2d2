import B5KvStore.Lib.Chunking
import B5KvStore.Backup.Store
import B5KvStore.Persistence.SnapshotFile

/-!
# Fetching a snapshot

`CatalogServer.FetchSnapshot` encodes the current checkpoint and sends it in chunks;
`Client.FetchSnapshot` of a consensus node puts the chunks together and decodes them.  The
client takes the end of the stream for the end of the data, marked or not: that a stream cut
short is noticed rests on the decoder.

* `CatalogServer.chunkLoop_cuts` — the server's loop cuts the encoding into chunks.
* `Client.receive_marked`, `Client.receive_unmarked` — the client's loop, with the last chunk
  and without it.
* `snapshot_transfer` — the round trip, and what becomes of a stream that is cut.
-/

namespace B5KvStore

/-- `pb.SnapshotChunk`. -/
abbrev SnapshotChunk := Chunk UInt8

/-- How a stream ends: `io.EOF`, or another error. -/
inductive StreamEnd where
  | eof
  | failed (err : String)

/-- What `stream.Recv` returns, call after call. -/
structure SnapshotStream where
  chunks : List SnapshotChunk
  ending : StreamEnd

namespace CatalogServer

/-- `chunkSize`. -/
def chunkSize : Nat := 64 * 1024

/-- `end`: where the chunk that starts at `i` stops. -/
def chunkEnd (data : List UInt8) (i : Nat) : Nat :=
  if data.length < i + chunkSize then data.length else i + chunkSize

/-- The loop of `FetchSnapshot`, from position `i` on. -/
def chunkLoop (data : List UInt8) (i : Nat) : List SnapshotChunk :=
  if i < data.length then
    ⟨(data.take (chunkEnd data i)).drop i, chunkEnd data i == data.length⟩ ::
      chunkLoop data (i + chunkSize)
  else []
termination_by data.length - i
decreasing_by
  unfold chunkSize
  omega

/-- `FetchSnapshot`; `encode` is `snapshotfile.Encode`.  A gRPC status shows as its text. -/
def fetchSnapshot (encode : File → Except String (List UInt8)) (s : Store) : SnapshotStream :=
  match s.file with
  | none => ⟨[], .failed "rpc error: code = NotFound desc = no snapshot available yet"⟩
  | some file =>
      match encode file with
      | .error err => ⟨[], .failed err⟩
      | .ok data => ⟨chunkLoop data 0, .eof⟩

theorem chunkSize_pos : 0 < chunkSize := by decide

theorem chunkEnd_of_le {data : List UInt8} {i : Nat} (h : data.length ≤ i + chunkSize) :
    chunkEnd data i = data.length := by
  unfold chunkEnd
  by_cases hlt : data.length < i + chunkSize
  · rw [if_pos hlt]
  · rw [if_neg hlt]
    omega

theorem chunkEnd_of_lt {data : List UInt8} {i : Nat} (h : i + chunkSize < data.length) :
    chunkEnd data i = i + chunkSize :=
  if_neg (by omega)

/-- From any position the loop cuts what is left. -/
theorem chunkLoop_cuts (data : List UInt8) (i : Nat) (hi : i < data.length) :
    Cuts chunkSize (data.drop i) (chunkLoop data i) := by
  fun_induction chunkLoop data i with
  | case1 i hlt ih =>
      rcases Nat.lt_or_ge (i + chunkSize) data.length with hmore | hend
      · have hne : (i + chunkSize == data.length) = false := beq_eq_false_iff_ne.2 hmore.ne
        have hsplit : data.drop i =
            (data.take (i + chunkSize)).drop i ++ data.drop (i + chunkSize) := by
          rw [List.drop_take, Nat.add_sub_cancel_left, ← List.drop_drop, List.take_append_drop]
        rw [chunkEnd_of_lt hmore, hne, hsplit]
        refine Cuts.more ?_ (ih hmore)
        rw [List.length_drop, List.length_take]
        omega
      · -- the last chunk, full or not
        rw [chunkEnd_of_le hend, List.take_length, beq_self_eq_true, chunkLoop,
          if_neg (not_lt.2 hend)]
        refine Cuts.last (List.drop_eq_nil_iff.not.2 (not_le.2 hlt)) ?_
        rw [List.length_drop]
        omega
  | case2 i hge => exact absurd hi hge

end CatalogServer

namespace Client

/-- The loop of `FetchSnapshot`, with `buf` received so far. -/
def receive (buf : List UInt8) : List SnapshotChunk → StreamEnd → Except String (List UInt8)
  | [], .eof => .ok buf
  | [], .failed err => .error err
  | chunk :: chunks, ending =>
      if chunk.isLast then .ok (buf ++ chunk.data)
      else receive (buf ++ chunk.data) chunks ending

/-- `FetchSnapshot`, on a stream or the error of opening it. -/
def fetchSnapshot (c : SnapshotCodec) : Except String SnapshotStream → Except String File
  | .error err => .error err
  | .ok stream =>
      match receive [] stream.chunks stream.ending with
      | .error err => .error err
      | .ok buf => c.decode buf

/-- With its last chunk the data is received whole, however the stream goes on. -/
theorem receive_marked {size : Nat} {data : List UInt8} {chunks : List SnapshotChunk}
    (h : Cuts size data chunks) (buf : List UInt8) (ending : StreamEnd) :
    receive buf chunks ending = .ok (buf ++ data) := by
  induction h generalizing buf with
  | last hne hle => rfl
  | more hlen h ih =>
      rw [receive, if_neg (by simp), ih, List.append_assoc]

/-- Without a marked chunk the client goes on to the end of the stream. -/
theorem receive_unmarked {chunks : List SnapshotChunk} (h : ∀ c ∈ chunks, c.isLast = false)
    (buf : List UInt8) (ending : StreamEnd) :
    receive buf chunks ending = receive (buf ++ chunks.flatMap Chunk.data) [] ending := by
  induction chunks generalizing buf with
  | nil => rw [List.flatMap_nil, List.append_nil]
  | cons c chunks ih =>
      have hc := h c (List.mem_cons_self ..)
      rw [receive, if_neg (by simp [hc]), ih fun x hx => h x (List.mem_cons_of_mem _ hx),
        List.flatMap_cons, List.append_assoc]

/-- A stream that ends before the last chunk gives an error. -/
theorem fetchSnapshot_cut {c : SnapshotCodec} {f : File} {data : List UInt8} {size k : Nat}
    {chunks : List SnapshotChunk} (henc : c.Encodes f data) (hsize : 0 < size)
    (h : Cuts size data chunks) (hk : k < chunks.length) (ending : StreamEnd) :
    ∃ err, fetchSnapshot c (.ok ⟨chunks.take k, ending⟩) = .error err := by
  obtain ⟨hpart, hne⟩ := h.take_isPrefix hsize hk
  unfold fetchSnapshot
  dsimp only
  rw [receive_unmarked (h.take_unmarked hk), List.nil_append]
  cases ending with
  | eof => exact c.decode_cut henc hpart hne
  | failed err => exact ⟨err, rfl⟩

end Client

/-- **Snapshot transfer.**  The chunks of a checkpoint are not empty and not too long, they
concatenate to its encoding, and only the last one is marked.  The client gets the checkpoint
back; from a stream that ends before the last chunk it gets an error. -/
theorem snapshot_transfer (c : SnapshotCodec) (encode : File → Except String (List UInt8))
    (s : Store) (f : File) (data : List UInt8) (hfile : s.file = some f)
    (hencode : encode f = .ok data) (henc : c.Encodes f data) (hpos : 0 < data.length) :
    let stream := CatalogServer.fetchSnapshot encode s
    (∀ chunk ∈ stream.chunks, chunk.data ≠ [] ∧ chunk.data.length ≤ CatalogServer.chunkSize) ∧
    stream.chunks.flatMap Chunk.data = data ∧
    (∀ k chunk, stream.chunks[k]? = some chunk →
      (chunk.isLast = true ↔ k + 1 = stream.chunks.length)) ∧
    (∀ ending, Client.fetchSnapshot c (.ok ⟨stream.chunks, ending⟩) = .ok f) ∧
    ∀ k < stream.chunks.length, ∀ ending,
      ∃ err, Client.fetchSnapshot c (.ok ⟨stream.chunks.take k, ending⟩) = .error err := by
  have hstream : CatalogServer.fetchSnapshot encode s =
      ⟨CatalogServer.chunkLoop data 0, .eof⟩ := by
    unfold CatalogServer.fetchSnapshot
    rw [hfile]
    dsimp only
    rw [hencode]
  have hcuts := CatalogServer.chunkLoop_cuts data 0 hpos
  rw [List.drop_zero] at hcuts
  rw [hstream]
  refine ⟨hcuts.bounds CatalogServer.chunkSize_pos, hcuts.flatMap_data,
    fun k chunk hk => hcuts.isLast_iff hk, fun ending => ?_,
    fun k hk ending => Client.fetchSnapshot_cut henc CatalogServer.chunkSize_pos hcuts hk ending⟩
  unfold Client.fetchSnapshot
  dsimp only
  rw [Client.receive_marked hcuts, List.nil_append]
  exact c.decode_encodes henc

/-- A format for checkpoints of an empty map at term 0: the index in zeros, and a one. -/
def zerosCodec : SnapshotCodec where
  Encodes f data := f = emptyCheckpoint (data.length - 1) ∧
    data = List.replicate (data.length - 1) 0 ++ [1]
  decode data :=
    if data.getLast? = some 1 then .ok (emptyCheckpoint (data.length - 1))
    else .error "unexpected EOF"
  decode_encodes := by
    rintro f data ⟨rfl, hdata⟩
    rw [if_pos]
    rw [hdata, List.getLast?_concat]
  decode_cut := by
    rintro f data part ⟨-, hdata⟩ hpart hne
    rw [hdata] at hpart hne
    refine ⟨_, if_neg fun hlast => ?_⟩
    -- a proper part has zeros only
    have hzeros : part <+: List.replicate (data.length - 1) 0 :=
      (List.prefix_concat_iff.1 hpart).resolve_left hne
    obtain ⟨init, rfl⟩ := List.getLast?_eq_some_iff.1 hlast
    have hone : (1 : UInt8) ∈ List.replicate (data.length - 1) 0 :=
      hzeros.subset (List.mem_append_right _ (List.mem_singleton.2 rfl))
    exact absurd (List.eq_of_mem_replicate hone) (by decide)

/-- The encoding of the checkpoint at 70000, which is longer than a chunk. -/
def longData : List UInt8 := List.replicate 70000 0 ++ [1]

/-- It takes more than one chunk, the client puts them together, and gets an error if the stream
ends after the first. -/
theorem snapshot_transfer_longData :
    let encode : File → Except String (List UInt8) := fun _ => .ok longData
    let s : Store := ⟨Disk.empty, KVMap.new, 70000, 0, true, some 70000⟩
    let chunks := (CatalogServer.fetchSnapshot encode s).chunks
    1 < chunks.length ∧ chunks.flatMap Chunk.data = longData ∧
    (∀ ending, Client.fetchSnapshot zerosCodec (.ok ⟨chunks, ending⟩) =
      .ok (emptyCheckpoint 70000)) ∧
    ∀ ending, ∃ err, Client.fetchSnapshot zerosCodec (.ok ⟨chunks.take 1, ending⟩) =
      .error err := by
  have hlen : longData.length = 70001 := by
    unfold longData
    rw [List.length_append, List.length_replicate, List.length_singleton]
  have henc : zerosCodec.Encodes (emptyCheckpoint 70000) longData := by
    refine ⟨?_, ?_⟩ <;> rw [hlen]
    rfl
  intro encode s chunks
  obtain ⟨-, hdata, -, hround, hcut⟩ := snapshot_transfer zerosCodec encode s
    (emptyCheckpoint 70000) longData rfl rfl henc (by rw [hlen]; decide)
  have hcuts : Cuts CatalogServer.chunkSize longData chunks :=
    CatalogServer.chunkLoop_cuts longData 0 (by rw [hlen]; decide)
  have hmany : 1 < chunks.length := hcuts.one_lt_length (by rw [hlen]; decide)
  exact ⟨hmany, hdata, hround, hcut 1 hmany⟩

end B5KvStore
