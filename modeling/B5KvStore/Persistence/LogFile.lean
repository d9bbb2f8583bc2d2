import B5KvStore.Lib.Framing
import B5KvStore.Raft.Restart

/-!
# The bytes of `log.dat`

Each record is a length in four bytes followed by the encoded entry.  The encoding is a
parameter: all that is asked of it is that decoding inverts it.  Entries whose encoding
does not fit a 32-bit length are left out of account (`EntryCodec.Fits`).

* `EntryCodec.readAllLogEntries` — reads up to the first record that is not whole, and cuts
  the file off there.
* `logFile_refines` — a file written by successful calls holds the list of entries the
  calls stand for, and a torn tail is recovered from.
* `records_of_disk` — the records of the data directory as the other modules see it.
* `acknowledged_durable` — calls that fail.
-/

namespace B5KvStore

open Framing

/-- An encoding of log entries. -/
structure EntryCodec where
  encode : LogEntry → List UInt8
  decode : List UInt8 → Option LogEntry
  decode_encode : ∀ e, decode (encode e) = some e

namespace EntryCodec

variable (c : EntryCodec)

/-- The encoded entry has a length of 32 bits. -/
def Fits (e : LogEntry) : Prop := (c.encode e).length < frameLimit

instance (e : LogEntry) : Decidable (c.Fits e) :=
  inferInstanceAs (Decidable ((c.encode e).length < frameLimit))

/-- `encodeRecord`. -/
def encodeRecord (e : LogEntry) : List UInt8 := frame (c.encode e)

/-- The records of a list of entries, one after the other. -/
def records (entries : List LogEntry) : List UInt8 := entries.flatMap c.encodeRecord

/-- `AppendLogEntries`. -/
def appendLogEntries (file : List UInt8) (entries : List LogEntry) : List UInt8 :=
  file ++ c.records entries

/-- The loop of `ReadAllLogEntries`: the entries, and the offset the file is cut off at if
the last record is not whole. -/
def readLoop (unread : List UInt8) (entries : List LogEntry) (offset : Nat) :
    List LogEntry × Option Nat :=
  match hnext : nextFrame unread with
  | .eof => (entries, none)
  | .torn => (entries, some offset)
  | .whole payload rest =>
      have : rest.length < unread.length := length_rest hnext
      match c.decode payload with
      | none => (entries, some offset)
      | some e => readLoop rest (entries ++ [e]) (offset + 4 + payload.length)
termination_by unread.length

/-- `ReadAllLogEntries`: the entries, and the file as it leaves it. -/
def readAllLogEntries (file : List UInt8) : List LogEntry × List UInt8 :=
  match c.readLoop file [] 0 with
  | (entries, none) => (entries, file)
  | (entries, some offset) => (entries, file.take offset)

/-- `RewriteLog`. -/
def rewriteLog (entries : List LogEntry) : List UInt8 := c.records entries

/-- `TruncateLogFrom`. -/
def truncateLogFrom (file : List UInt8) (index : Nat) : List UInt8 :=
  c.rewriteLog ((c.readAllLogEntries file).1.filter (·.index < index))

/-! ## Reading -/

@[simp] theorem records_nil : c.records [] = [] := rfl

theorem records_append (es es' : List LogEntry) :
    c.records (es ++ es') = c.records es ++ c.records es' := by
  simp [records]

variable {c} {es : List LogEntry}

theorem readLoop_whole {unread payload rest : List UInt8} {e : LogEntry}
    (h : nextFrame unread = .whole payload rest) (hdec : c.decode payload = some e)
    (es : List LogEntry) (offset : Nat) :
    c.readLoop unread es offset =
      c.readLoop rest (es ++ [e]) (offset + 4 + payload.length) := by
  conv_lhs => unfold readLoop
  split
  · rename_i heq
    rw [h] at heq
    exact absurd heq (by simp)
  · rename_i heq
    rw [h] at heq
    exact absurd heq (by simp)
  · rename_i payload' rest' heq
    rw [h] at heq
    injection heq with hpayload hrest
    subst hpayload hrest
    rw [hdec]

theorem readLoop_record {e : LogEntry} (h : c.Fits e) (rest : List UInt8) (es : List LogEntry)
    (offset : Nat) :
    c.readLoop (c.encodeRecord e ++ rest) es offset =
      c.readLoop rest (es ++ [e]) (offset + (c.encodeRecord e).length) := by
  unfold encodeRecord
  rw [readLoop_whole (nextFrame_frame h rest) (c.decode_encode e), length_frame, Nat.add_assoc]

/-- Whole records are read one after the other. -/
theorem readLoop_records (h : ∀ e ∈ es, c.Fits e) (rest : List UInt8) (before : List LogEntry)
    (offset : Nat) :
    c.readLoop (c.records es ++ rest) before offset =
      c.readLoop rest (before ++ es) (offset + (c.records es).length) := by
  induction es generalizing before offset with
  | nil => simp
  | cons e es ih =>
      have hcons : c.records (e :: es) = c.encodeRecord e ++ c.records es := rfl
      rw [hcons, List.append_assoc, readLoop_record (h e (List.mem_cons_self ..)),
        ih fun x hx => h x (List.mem_cons_of_mem e hx), List.append_assoc, List.length_append,
        Nat.add_assoc]
      rfl

theorem readLoop_torn {t : List UInt8} (h : nextFrame t = .torn) (es : List LogEntry)
    (offset : Nat) : c.readLoop t es offset = (es, some offset) := by
  unfold readLoop
  split
  · rename_i heq
    rw [h] at heq
    exact absurd heq (by simp)
  · rfl
  · rename_i heq
    rw [h] at heq
    exact absurd heq (by simp)

theorem readLoop_nil (es : List LogEntry) (offset : Nat) :
    c.readLoop [] es offset = (es, none) := by
  unfold readLoop
  split
  · rfl
  · rename_i heq
    exact absurd heq (by simp [nextFrame])
  · rename_i heq
    exact absurd heq (by simp [nextFrame])

/-- A file of whole records is read as it was written. -/
theorem readAllLogEntries_records (h : ∀ e ∈ es, c.Fits e) :
    c.readAllLogEntries (c.records es) = (es, c.records es) := by
  have hread := readLoop_records h [] [] 0
  rw [List.append_nil, readLoop_nil] at hread
  unfold readAllLogEntries
  rw [hread]
  rfl

/-- A torn record at the end is dropped. -/
theorem readAllLogEntries_torn (h : ∀ e ∈ es, c.Fits e) {t : List UInt8}
    (ht : nextFrame t = .torn) :
    c.readAllLogEntries (c.records es ++ t) = (es, c.records es) := by
  have hread := readLoop_records h t [] 0
  rw [readLoop_torn ht] at hread
  unfold readAllLogEntries
  rw [hread]
  simp

/-- **A batch that was interrupted** after any number of bytes: what is read is the part of
it that was written to the end, and nothing else stays in the file. -/
theorem readAllLogEntries_interrupted (h : ∀ e ∈ es, c.Fits e) {batch : List LogEntry}
    (hbatch : ∀ e ∈ batch, c.Fits e) (k : Nat) :
    ∃ j ≤ batch.length, (c.records (batch.take j)).length ≤ k ∧
      (j < batch.length → k < (c.records (batch.take (j + 1))).length) ∧
      c.readAllLogEntries (c.records es ++ (c.records batch).take k) =
        (es ++ batch.take j, c.records (es ++ batch.take j)) := by
  obtain ⟨j, t, hj, hcut, hfit, hmax, ht⟩ := exists_cut c.encodeRecord batch k
  refine ⟨j, hj, hfit, hmax, ?_⟩
  have hall : ∀ e ∈ es ++ batch.take j, c.Fits e := by
    intro e he
    rcases List.mem_append.1 he with he | he
    · exact h e he
    · exact hbatch e (List.mem_of_mem_take he)
  have hfile : c.records es ++ (c.records batch).take k = c.records (es ++ batch.take j) ++ t := by
    rw [records_append, List.append_assoc]
    exact congrArg _ hcut
  rw [hfile]
  by_cases hnil : t = []
  · rw [hnil, List.append_nil]
    exact readAllLogEntries_records hall
  · obtain ⟨e, he, hprefix, hlt⟩ := ht.resolve_left hnil
    exact readAllLogEntries_torn hall (nextFrame_torn (hbatch e he) hprefix hnil hlt)

end EntryCodec

/-! ## Sequences of calls -/

/-- A call that changes `log.dat`. -/
inductive LogCall where
  | append (entries : List LogEntry)
  | truncateFrom (index : Nat)
  | rewrite (entries : List LogEntry)
  deriving DecidableEq, Repr

namespace LogCall

/-- The entries a call writes. -/
def entries : LogCall → List LogEntry
  | append es => es
  | truncateFrom _ => []
  | rewrite es => es

/-- What the call stands for, on a list of entries. -/
def apply (log : List LogEntry) : LogCall → List LogEntry
  | append es => log ++ es
  | truncateFrom index => log.filter (·.index < index)
  | rewrite es => es

/-- What it does to the file. -/
def perform (c : EntryCodec) (file : List UInt8) : LogCall → List UInt8
  | append es => c.appendLogEntries file es
  | truncateFrom index => c.truncateLogFrom file index
  | rewrite es => c.rewriteLog es

/-- The same call as writes to the data directory. -/
def writes : LogCall → List DiskWrite
  | append es => appendLogEntries es
  | truncateFrom index => [.truncateLogFrom index]
  | rewrite es => [.rewriteLog es]

variable {c : EntryCodec} {log : List LogEntry}

/-- One call on a file of whole records. -/
theorem perform_records (hlog : ∀ e ∈ log, c.Fits e) (call : LogCall)
    (hcall : ∀ e ∈ call.entries, c.Fits e) :
    call.perform c (c.records log) = c.records (call.apply log) ∧
      ∀ e ∈ call.apply log, c.Fits e := by
  cases call with
  | append es =>
      refine ⟨(c.records_append log es).symm, fun e he => ?_⟩
      rcases List.mem_append.1 he with he | he
      · exact hlog e he
      · exact hcall e he
  | truncateFrom index =>
      refine ⟨?_, fun e he => hlog e (List.mem_of_mem_filter he)⟩
      unfold perform EntryCodec.truncateLogFrom
      dsimp only
      rw [EntryCodec.readAllLogEntries_records hlog]
      rfl
  | rewrite es => exact ⟨rfl, hcall⟩

/-- Any number of calls. -/
theorem performAll_records (hlog : ∀ e ∈ log, c.Fits e) (calls : List LogCall)
    (hcalls : ∀ call ∈ calls, ∀ e ∈ call.entries, c.Fits e) :
    calls.foldl (perform c) (c.records log) = c.records (calls.foldl apply log) ∧
      ∀ e ∈ calls.foldl apply log, c.Fits e := by
  induction calls generalizing log with
  | nil => exact ⟨rfl, hlog⟩
  | cons call calls ih =>
      obtain ⟨hfile, hfits⟩ := perform_records hlog call (hcalls call (List.mem_cons_self ..))
      rw [List.foldl_cons, List.foldl_cons, hfile]
      exact ih hfits fun call' h' => hcalls call' (List.mem_cons_of_mem call h')

theorem log_applyAll_writes (d : Disk) (call : LogCall) :
    (d.applyAll call.writes).log = call.apply d.log := by
  cases call with
  | append es => exact congrArg Disk.log (applyAll_appendLogEntries d es)
  | truncateFrom index => rfl
  | rewrite es => rfl

theorem log_applyAll_calls (d : Disk) (calls : List LogCall) :
    (d.applyAll (calls.flatMap writes)).log = calls.foldl apply d.log := by
  induction calls generalizing d with
  | nil => rfl
  | cons call calls ih =>
      rw [List.flatMap_cons, Disk.applyAll_append, ih, log_applyAll_writes]
      rfl

end LogCall

/-- **`log.dat` holds a list of entries and survives a torn tail.**  After any successful
calls on an empty directory, and one more batch that stops after any number of bytes, the
entries read are those the calls stand for and the part of the batch that was written to
the end; the file is left with exactly their records. -/
theorem logFile_refines (c : EntryCodec) (calls : List LogCall) (batch : List LogEntry) (k : Nat)
    (hcalls : ∀ call ∈ calls, ∀ e ∈ call.entries, c.Fits e) (hbatch : ∀ e ∈ batch, c.Fits e) :
    ∃ j ≤ batch.length,
      -- the longest part of the batch that fits into the bytes written
      (c.records (batch.take j)).length ≤ k ∧
      (j < batch.length → k < (c.records (batch.take (j + 1))).length) ∧
      let log := calls.foldl LogCall.apply [] ++ batch.take j
      c.readAllLogEntries (calls.foldl (LogCall.perform c) [] ++ (c.records batch).take k) =
        (log, c.records log) ∧
      c.readAllLogEntries (c.records log) = (log, c.records log) ∧
      ∀ more, (∀ e ∈ more, c.Fits e) →
        c.readAllLogEntries (c.appendLogEntries (c.records log) more) =
          (log ++ more, c.records (log ++ more)) := by
  obtain ⟨hfile, hfits⟩ := LogCall.performAll_records
    (by simp : ∀ e ∈ ([] : List LogEntry), c.Fits e) calls hcalls
  rw [c.records_nil] at hfile
  obtain ⟨j, hj, hfit, hmax, hread⟩ :=
    EntryCodec.readAllLogEntries_interrupted hfits hbatch k
  rw [← hfile] at hread
  have hlog : ∀ e ∈ calls.foldl LogCall.apply [] ++ batch.take j, c.Fits e := by
    intro e he
    rcases List.mem_append.1 he with he | he
    · exact hfits e he
    · exact hbatch e (List.mem_of_mem_take he)
  refine ⟨j, hj, hfit, hmax, hread, EntryCodec.readAllLogEntries_records hlog, ?_⟩
  intro more hmore
  have happ := LogCall.perform_records hlog (.append more) hmore
  exact (congrArg c.readAllLogEntries happ.1).trans
    (EntryCodec.readAllLogEntries_records happ.2)

/-- Terms and indices in unary, then the command. -/
def unary (n : Nat) (rest : List UInt8) : List UInt8 := List.replicate n 1 ++ 0 :: rest

/-- Read a number back. -/
def readUnary : List UInt8 → Option (Nat × List UInt8)
  | [] => none
  | b :: bs => if b = 0 then some (0, bs) else (readUnary bs).map fun r => (r.1 + 1, r.2)

theorem readUnary_unary (n : Nat) (rest : List UInt8) :
    readUnary (unary n rest) = some (n, rest) := by
  induction n with
  | zero => rfl
  | succ n ih =>
      have hcons : unary (n + 1) rest = 1 :: unary n rest := rfl
      rw [hcons, readUnary, ih]
      rfl

/-- A small encoding. -/
def unaryCodec : EntryCodec where
  encode e := unary e.term (unary e.index e.command)
  decode bytes := do
    let (term, rest) ← readUnary bytes
    let (index, command) ← readUnary rest
    return ⟨term, index, command⟩
  decode_encode e := by
    rw [readUnary_unary]
    simp [readUnary_unary]

theorem logFile_refines_torn :
    unaryCodec.readAllLogEntries
      ([LogCall.append [⟨1, 1, [7]⟩, ⟨1, 2, [8]⟩], .truncateFrom 2].foldl
        (LogCall.perform unaryCodec) [] ++ (unaryCodec.records [⟨2, 2, [9]⟩, ⟨2, 3, [5]⟩]).take 15) =
      ([⟨1, 1, [7]⟩, ⟨2, 2, [9]⟩], unaryCodec.records [⟨1, 1, [7]⟩, ⟨2, 2, [9]⟩]) := by
  obtain ⟨j, hj, hfit, hmax, hread, -⟩ := logFile_refines unaryCodec
    [.append [⟨1, 1, [7]⟩, ⟨1, 2, [8]⟩], .truncateFrom 2] [⟨2, 2, [9]⟩, ⟨2, 3, [5]⟩] 15
    (by decide) (by decide)
  obtain rfl : j = 1 := by
    match j, hj with
    | 0, _ => exact absurd (hmax (by decide)) (by decide)
    | 1, _ => rfl
    | 2, _ => exact absurd hfit (by decide)
  exact hread

/-- The records the data directory holds elsewhere in this development are the ones that
are read back. -/
theorem records_of_disk (c : EntryCodec) (calls : List LogCall)
    (hcalls : ∀ call ∈ calls, ∀ e ∈ call.entries, c.Fits e) :
    (c.readAllLogEntries (calls.foldl (LogCall.perform c) [])).1 =
      (Disk.empty.applyAll (calls.flatMap LogCall.writes)).log := by
  obtain ⟨hfile, hfits⟩ := LogCall.performAll_records
    (by simp : ∀ e ∈ ([] : List LogEntry), c.Fits e) calls hcalls
  rw [c.records_nil] at hfile
  rw [hfile, EntryCodec.readAllLogEntries_records hfits, LogCall.log_applyAll_calls]
  rfl

/-! ## Calls that fail -/

/-- How a call of `AppendLogEntries` ends: it returns `nil`, or it fails when some bytes have
been written; all of them, if `Sync` fails. -/
inductive AppendOutcome where
  | ok
  | failed (written : Nat)
  deriving DecidableEq, Repr

/-- A call of `AppendLogEntries`. -/
structure AppendCall where
  entries : List LogEntry
  outcome : AppendOutcome
  deriving DecidableEq, Repr

namespace AppendCall

/-- The bytes a call leaves in the file. -/
def bytes (c : EntryCodec) (call : AppendCall) : List UInt8 :=
  match call.outcome with
  | .ok => c.records call.entries
  | .failed written => (c.records call.entries).take written

/-- The entries of a call that returned `nil`, which are now in the log in memory. -/
def acknowledged (call : AppendCall) : List LogEntry :=
  match call.outcome with
  | .ok => call.entries
  | .failed _ => []

/-- The entries of each call carry the indices after the end of the log in memory. -/
def Numbered (last : Nat) : List AppendCall → Prop
  | [] => True
  | call :: calls =>
      PlacedFrom (last + 1) call.entries ∧ Numbered (last + call.acknowledged.length) calls

/-- Once a call has failed and left bytes behind, no later call writes any. -/
def NothingAfterTorn (c : EntryCodec) (calls : List AppendCall) : Prop :=
  calls.Pairwise fun call later =>
    call.outcome = .ok ∨ call.bytes c = [] ∨ later.bytes c = []

end AppendCall

/-- The file after a sequence of calls. -/
def EntryCodec.afterCalls (c : EntryCodec) (calls : List AppendCall) : List UInt8 :=
  calls.foldl (fun file call => file ++ call.bytes c) []

/-- The log in memory after a sequence of calls. -/
def acknowledgedBy (calls : List AppendCall) : List LogEntry :=
  calls.flatMap AppendCall.acknowledged

namespace AppendCall

variable {c : EntryCodec}

theorem length_encodeRecord_pos (e : LogEntry) : 0 < (c.encodeRecord e).length := by
  unfold EntryCodec.encodeRecord
  rw [length_frame]
  omega

/-- A call that returned `nil` and wrote nothing had nothing to write. -/
theorem acknowledged_of_bytes_nil {call : AppendCall} (h : call.bytes c = []) :
    call.acknowledged = [] := by
  unfold bytes acknowledged at *
  split at h
  · cases hes : call.entries with
    | nil => rfl
    | cons e es =>
        rw [hes] at h
        have hfirst := (List.flatMap_eq_nil_iff.1 h) e (List.mem_cons_self ..)
        have hpos := length_encodeRecord_pos (c := c) e
        rw [hfirst] at hpos
        exact absurd hpos (by simp)
  · rfl

theorem foldl_bytes (calls : List AppendCall) (file : List UInt8) :
    calls.foldl (fun file call => file ++ call.bytes c) file = file ++ calls.flatMap (bytes c) := by
  induction calls generalizing file with
  | nil => simp
  | cons call calls ih => simp [ih]

/-- **What a sequence of calls leaves**, if nothing is written behind a torn record: the records
of the log in memory, and a part of one more batch. -/
theorem flatMap_bytes {calls : List AppendCall} {last : Nat} (hnum : Numbered last calls)
    (hfits : ∀ call ∈ calls, ∀ e ∈ call.entries, c.Fits e) (hclean : NothingAfterTorn c calls) :
    ∃ batch k, calls.flatMap (bytes c) =
        c.records (acknowledgedBy calls) ++ (c.records batch).take k ∧
      PlacedFrom (last + 1) (acknowledgedBy calls ++ batch) ∧
      ∀ e ∈ acknowledgedBy calls ++ batch, c.Fits e := by
  induction calls generalizing last with
  | nil => exact ⟨[], 0, rfl, .nil _, by simp [acknowledgedBy]⟩
  | cons call calls ih =>
      obtain ⟨hplaced, hrest⟩ := hnum
      obtain ⟨hfirst, hlater⟩ := List.pairwise_cons.1 hclean
      have hcall := hfits call (List.mem_cons_self ..)
      obtain ⟨batch, k, hbytes, hnext, hall⟩ :=
        ih hrest (fun x hx => hfits x (List.mem_cons_of_mem call hx)) hlater
      have hack : acknowledgedBy (call :: calls) = call.acknowledged ++ acknowledgedBy calls := rfl
      rw [hack, List.flatMap_cons]
      cases hout : call.outcome with
      | ok =>
          have hb : call.bytes c = c.records call.entries := by
            unfold bytes
            rw [hout]
          have ha : call.acknowledged = call.entries := by
            unfold acknowledged
            rw [hout]
          rw [ha] at hnext ⊢
          refine ⟨batch, k, ?_, ?_, ?_⟩
          · rw [hb, hbytes, c.records_append, List.append_assoc]
          · rw [List.append_assoc]
            refine hplaced.append ?_
            rwa [Nat.add_right_comm]
          · intro e he
            rw [List.append_assoc] at he
            rcases List.mem_append.1 he with he | he
            · exact hcall e he
            · exact hall e he
      | failed written =>
          have hb : call.bytes c = (c.records call.entries).take written := by
            unfold bytes
            rw [hout]
          have ha : call.acknowledged = [] := by
            unfold acknowledged
            rw [hout]
          rw [ha] at hnext ⊢
          by_cases hnil : call.bytes c = []
          · rw [hnil]
            exact ⟨batch, k, hbytes, hnext, hall⟩
          · -- the file is torn, so the later calls write nothing
            have hnone : ∀ later ∈ calls, later.bytes c = [] := fun later hl =>
              ((hfirst later hl).resolve_left (by rw [hout]; simp)).resolve_left hnil
            have hrestBytes : calls.flatMap (bytes c) = [] :=
              List.flatMap_eq_nil_iff.2 hnone
            have hrestAck : acknowledgedBy calls = [] :=
              List.flatMap_eq_nil_iff.2 fun later hl => acknowledged_of_bytes_nil (hnone later hl)
            rw [hrestBytes, hrestAck, hb]
            exact ⟨call.entries, written, by simp, hplaced, hcall⟩

end AppendCall

theorem PlacedFrom.map_index {i : Nat} {es : List LogEntry} (h : PlacedFrom i es) :
    es.map LogEntry.index = List.range' i es.length := by
  induction es generalizing i with
  | nil => rfl
  | cons e es ih =>
      have he : e.index = i := h 0 e rfl
      rw [List.map_cons, List.length_cons, List.range'_succ, he, ih (h.drop 1)]

/-- **Acknowledged records are durable** as long as nothing is written behind a record that is
torn or was not acknowledged: they are all read back, in order, and no index is read twice. -/
theorem acknowledged_durable (c : EntryCodec) (calls : List AppendCall)
    (hfits : ∀ call ∈ calls, ∀ e ∈ call.entries, c.Fits e) (hnum : AppendCall.Numbered 0 calls)
    (hclean : AppendCall.NothingAfterTorn c calls) :
    let read := (c.readAllLogEntries (c.afterCalls calls)).1
    (acknowledgedBy calls).Sublist read ∧ (read.map LogEntry.index).Nodup := by
  obtain ⟨batch, k, hbytes, hplaced, hall⟩ := AppendCall.flatMap_bytes hnum hfits hclean
  have hfile : c.afterCalls calls =
      c.records (acknowledgedBy calls) ++ (c.records batch).take k := by
    unfold EntryCodec.afterCalls
    rw [AppendCall.foldl_bytes, List.nil_append, hbytes]
  obtain ⟨j, -, -, -, hread⟩ := EntryCodec.readAllLogEntries_interrupted
    (fun e he => hall e (List.mem_append_left _ he))
    (fun e he => hall e (List.mem_append_right _ he)) k
  dsimp only
  rw [hfile, hread]
  refine ⟨List.sublist_append_left _ _, ?_⟩
  rw [← List.take_length_add_append, (hplaced.take _).map_index]
  exact List.nodup_range'

/-- One call succeeds, one tears the file, one does not get to write. -/
def tornTail : List AppendCall :=
  [⟨[⟨1, 1, [7]⟩], .ok⟩, ⟨[⟨1, 2, [8]⟩], .failed 5⟩, ⟨[⟨1, 2, [9]⟩], .failed 0⟩]

theorem acknowledged_durable_tornTail :
    (acknowledgedBy tornTail).Sublist
      (unaryCodec.readAllLogEntries (unaryCodec.afterCalls tornTail)).1 :=
  (acknowledged_durable unaryCodec tornTail (by decide)
    ⟨.cons rfl (.nil _), .cons rfl (.nil _), .cons rfl (.nil _), trivial⟩
    (by unfold AppendCall.NothingAfterTorn; decide)).1

/-- A call fails after three bytes, and the next one succeeds. -/
def tornMiddle : List AppendCall := [⟨[⟨1, 1, [7]⟩], .failed 3⟩, ⟨[⟨1, 1, [8]⟩], .ok⟩]

/-- A call fails in `Sync`, and the next one succeeds. -/
def failedSync : List AppendCall := [⟨[⟨1, 1, [7]⟩], .failed 9⟩, ⟨[⟨1, 1, [8]⟩], .ok⟩]

/-- The entry of the second call is not read back, or its index is read twice. -/
theorem acknowledged_lost :
    AppendCall.Numbered 0 tornMiddle ∧ acknowledgedBy tornMiddle = [⟨1, 1, [8]⟩] ∧
    (unaryCodec.readAllLogEntries (unaryCodec.afterCalls tornMiddle)).1 = [] ∧
    AppendCall.Numbered 0 failedSync ∧
    (unaryCodec.readAllLogEntries (unaryCodec.afterCalls failedSync)).1 =
      [⟨1, 1, [7]⟩, ⟨1, 1, [8]⟩] :=
  ⟨⟨.cons rfl (.nil _), .cons rfl (.nil _), trivial⟩, rfl, by decide +kernel,
    ⟨.cons rfl (.nil _), .cons rfl (.nil _), trivial⟩, by decide +kernel⟩

end B5KvStore
