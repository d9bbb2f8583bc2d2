import B5KvStore.Raft.Frame
import B5KvStore.Raft.Specs

/-!
# Compaction makes no difference to the peers

A node and a copy of it that has been compacted get the same requests.  As long as the
requests agree with what has been compacted away, the two give the same votes, accept the
same requests, apply the same commands and hold the same entries above the anchor.

* `Baseline` — what has been compacted away, and the anchor in its place.
* `Node.compactedTo` — the compacted copy.
* `Baseline.Twin` — two critical sections that run side by side; one lemma for each
  handler.
* `compaction_transparent` — whole sequences of requests.
-/

namespace B5KvStore

/-- What a compaction to `target` takes out of a log that starts after `offset`, and the
anchor that stands for it. -/
structure Baseline where
  offset : Nat
  target : Nat
  below : List LogEntry
  anchor : LogEntry
  path : Option Nat
  offset_lt : offset + 1 < target
  length_below : below.length = target - offset
  anchor_term : below.getLast?.map LogEntry.term = some anchor.term

/-- The same node with a compacted log. -/
def Node.compactedTo (n : Node) (b : Baseline) : Node :=
  { n with
    log := b.anchor :: n.log.drop b.below.length
    logOffset := b.target - 1
    currentSnapshotPath := b.path }

namespace Baseline

variable (b : Baseline)

/-- The node still has what the compaction takes away, and has applied it. -/
structure Holds (n : Node) : Prop where
  offset : n.logOffset = b.offset
  below : b.below <+: n.log
  applied : b.target ≤ n.lastApplied

/-- The request agrees with what has been compacted away. -/
structure Agrees (req : AppendEntriesRequest) : Prop where
  prev : b.offset < req.prevLogIndex → req.prevLogIndex ≤ b.target →
    (b.below[req.prevLogIndex - b.offset - 1]?).map LogEntry.term = some req.prevLogTerm
  entries : ∀ k e, req.entries[k]? = some e → b.offset < req.prevLogIndex + 1 + k →
    req.prevLogIndex + 1 + k ≤ b.target →
    (b.below[req.prevLogIndex + 1 + k - b.offset - 1]?).map LogEntry.term = some e.term

/-- Two critical sections that have done the same, one of them in the compacted copy. -/
structure Twin (s t : Locked) : Prop where
  node : t.node = s.node.compactedTo b
  events : t.events = s.events
  holds : b.Holds s.node

variable {b} {n : Node} {s t : Locked}

/-! ## Looking entries up -/

theorem Holds.split (h : b.Holds n) : n.log = b.below ++ n.log.drop b.below.length := by
  conv_lhs => rw [← List.take_append_drop b.below.length n.log]
  rw [← List.prefix_iff_eq_take.1 h.below]

theorem Holds.length (h : b.Holds n) : b.target ≤ b.offset + n.log.length := by
  have := h.below.length_le
  have := b.length_below
  have := b.offset_lt
  omega

@[simp] theorem logOffset_compactedTo (n : Node) : (n.compactedTo b).logOffset = b.target - 1 := rfl

@[simp] theorem log_compactedTo (n : Node) :
    (n.compactedTo b).log = b.anchor :: n.log.drop b.below.length := rfl

theorem Holds.lastLogIndexLocked (h : b.Holds n) :
    (n.compactedTo b).lastLogIndexLocked = n.lastLogIndexLocked := by
  have := h.length
  have := b.length_below
  have := b.offset_lt
  unfold Node.lastLogIndexLocked
  rw [logOffset_compactedTo, log_compactedTo, h.offset, List.length_cons, List.length_drop]
  omega

/-- Above the target both logs hold the same. -/
theorem Holds.entryAtLocked_above (h : b.Holds n) {i : Nat} (hi : b.target < i) :
    (n.compactedTo b).entryAtLocked i = n.entryAtLocked i := by
  have hlen := h.length
  have hbelow := b.length_below
  have hoff := b.offset_lt
  have hlen' : (n.log.drop b.below.length).length = n.log.length - b.below.length :=
    List.length_drop
  unfold Node.entryAtLocked
  rw [logOffset_compactedTo, log_compactedTo, List.length_cons, h.offset]
  by_cases hout : b.offset + n.log.length < i
  · rw [if_pos (by omega), if_pos (by omega)]
  · rw [if_neg (by omega), if_neg (by omega),
      show i - (b.target - 1) - 1 = i - b.target - 1 + 1 by omega, List.getElem?_cons_succ,
      List.getElem?_drop]
    congr 1
    omega

/-- Up to the target the node holds what the compaction takes away. -/
theorem Holds.entryAtLocked_below (h : b.Holds n) {i : Nat} (hi : b.offset < i)
    (hle : i ≤ b.target) : n.entryAtLocked i = b.below[i - b.offset - 1]? := by
  have hlen := h.length
  have hbelow := b.length_below
  unfold Node.entryAtLocked
  rw [h.offset, if_neg (by omega), h.split, List.getElem?_append_left (by omega)]

theorem entryAtLocked_target (n : Node) :
    (n.compactedTo b).entryAtLocked b.target = some b.anchor := by
  have hoff := b.offset_lt
  unfold Node.entryAtLocked
  rw [logOffset_compactedTo, log_compactedTo, if_neg (by rw [List.length_cons]; omega),
    show b.target - (b.target - 1) - 1 = 0 by omega]
  rfl

theorem below_target (b : Baseline) :
    (b.below[b.target - b.offset - 1]?).map LogEntry.term = some b.anchor.term := by
  rw [← b.anchor_term, List.getLast?_eq_getElem?, b.length_below]

theorem Holds.lastLogTermLocked (h : b.Holds n) :
    (n.compactedTo b).lastLogTermLocked = n.lastLogTermLocked := by
  unfold Node.lastLogTermLocked
  rw [log_compactedTo, h.split]
  generalize hrest : n.log.drop b.below.length = rest
  rw [← hrest, ← h.split, hrest]
  cases rest with
  | nil =>
      have hlog : n.log = b.below := by
        have := h.split
        rwa [hrest, List.append_nil] at this
      have hterm := b.anchor_term
      rw [hlog]
      obtain ⟨e, he, ht⟩ := Option.map_eq_some_iff.1 hterm
      rw [he, List.getLast?_singleton]
      exact ht.symm
  | cons y rest =>
      have hlog : n.log = b.below ++ y :: rest := by
        have := h.split
        rwa [hrest] at this
      rw [hlog, List.getLast?_append_of_ne_nil _ (by simp), List.getLast?_cons_cons]

/-! ## Small steps -/

namespace Twin

/-- The node changes in something compaction does not touch. -/
theorem modify (h : b.Twin s t) {f : Node → Node}
    (hf : f (s.node.compactedTo b) = (f s.node).compactedTo b)
    (hlog : (f s.node).log = s.node.log)
    (hoff : (f s.node).logOffset = s.node.logOffset)
    (happ : s.node.lastApplied ≤ (f s.node).lastApplied) :
    b.Twin (s.modify f) (t.modify f) where
  node := by rw [Locked.node_modify, Locked.node_modify, h.node, hf]
  events := h.events
  holds := ⟨by rw [Locked.node_modify, hoff]; exact h.holds.offset,
    by rw [Locked.node_modify, hlog]; exact h.holds.below, Nat.le_trans h.holds.applied happ⟩

theorem emit (h : b.Twin s t) (es : List NodeEvent) : b.Twin (s.emit es) (t.emit es) where
  node := h.node
  events := by rw [Locked.events_emit, Locked.events_emit, h.events]
  holds := h.holds

theorem write (h : b.Twin s t) (ws ws' : List DiskWrite) : b.Twin (s.write ws) (t.write ws') :=
  ⟨h.node, h.events, h.holds⟩

theorem currentTerm (h : b.Twin s t) : t.node.currentTerm = s.node.currentTerm := by rw [h.node]; rfl

theorem setRoleLocked (h : b.Twin s t) (r : Role) :
    b.Twin (s.setRoleLocked r) (t.setRoleLocked r) := by
  have hrole : t.node.role = s.node.role := by rw [h.node]; rfl
  have hwaiters : t.node.waiters = s.node.waiters := by rw [h.node]; rfl
  unfold Locked.setRoleLocked Locked.abortPendingWaitersLocked
  rw [hrole, hwaiters]
  dsimp only
  split
  · exact ((h.emit _).modify rfl rfl rfl (le_refl _)).modify rfl rfl rfl (le_refl _)
  · exact h.modify rfl rfl rfl (le_refl _)

theorem persistStateLocked (h : b.Twin s t) (fails : Bool) :
    b.Twin (s.persistStateLocked fails).1 (t.persistStateLocked fails).1 ∧
      (t.persistStateLocked fails).2 = (s.persistStateLocked fails).2 := by
  unfold Locked.persistStateLocked
  split
  · exact ⟨h, rfl⟩
  · exact ⟨h.write _ _, rfl⟩

theorem observeTermLocked (h : b.Twin s t) (T : Nat) (fails : Bool) :
    b.Twin (s.observeTermLocked T fails).1 (t.observeTermLocked T fails).1 ∧
      (t.observeTermLocked T fails).2 = (s.observeTermLocked T fails).2 := by
  unfold Locked.observeTermLocked
  rw [h.currentTerm]
  split
  · exact ⟨h, rfl⟩
  · exact ((h.modify rfl rfl rfl (le_refl _)).setRoleLocked .follower).persistStateLocked fails

theorem observeRequest (h : b.Twin s t) (T : Nat) (fails : Bool) :
    b.Twin (s.observeRequest T fails).1 (t.observeRequest T fails).1 ∧
      (t.observeRequest T fails).2 = (s.observeRequest T fails).2 := by
  unfold Locked.observeRequest
  rw [h.currentTerm]
  split
  · exact h.observeTermLocked T fails
  · exact ⟨h, rfl⟩

/-! ## Votes -/

theorem castVote (h : b.Twin s t) (req : RequestVoteRequest) (fails : Bool) :
    b.Twin (s.castVote req fails).1 (t.castVote req fails).1 ∧
      (t.castVote req fails).2 = (s.castVote req fails).2 := by
  have hvoted : t.node.votedFor = s.node.votedFor := by rw [h.node]; rfl
  have hindex : t.node.lastLogIndexLocked = s.node.lastLogIndexLocked := by
    rw [h.node]; exact h.holds.lastLogIndexLocked
  have hterm : t.node.lastLogTermLocked = s.node.lastLogTermLocked := by
    rw [h.node]; exact h.holds.lastLogTermLocked
  have hvote : b.Twin (s.modify fun n => { n with votedFor := req.candidateId })
      (t.modify fun n => { n with votedFor := req.candidateId }) :=
    h.modify rfl rfl rfl (le_refl _)
  unfold Locked.castVote
  rw [h.currentTerm, hvoted, hindex, hterm]
  split
  · exact ⟨h, rfl⟩
  · split
    · cases fails with
      | true => exact ⟨hvote, rfl⟩
      | false =>
          exact ⟨hvote.write _ _, congrArg
            (fun T => (.ok ⟨T, true⟩ : Except RaftError RequestVoteReply)) hvote.currentTerm⟩
    · exact ⟨h, rfl⟩

theorem requestVote (h : b.Twin s t) (req : RequestVoteRequest) (f : SaveFaults) :
    b.Twin (s.requestVote req f).1 (t.requestVote req f).1 ∧
      (t.requestVote req f).2 = (s.requestVote req f).2 := by
  obtain ⟨hobs, herr⟩ := h.observeRequest req.term f.observe
  unfold Locked.requestVote
  generalize s.observeRequest req.term f.observe = r at hobs herr ⊢
  generalize t.observeRequest req.term f.observe = r' at hobs herr ⊢
  obtain ⟨s', err⟩ := r
  obtain ⟨t', err'⟩ := r'
  dsimp only at hobs herr
  subst herr
  cases err' with
  | some e => exact ⟨hobs, rfl⟩
  | none => exact hobs.castVote req f.vote

/-! ## Entries -/

theorem checkPrev (h : b.Twin s t) {req : AppendEntriesRequest} (hreq : b.Agrees req) :
    (t.node.checkPrev req).isSome = (s.node.checkPrev req).isSome := by
  have hoff := b.offset_lt
  have hs := h.holds
  unfold Node.checkPrev
  rw [h.node, logOffset_compactedTo, hs.offset]
  by_cases hprev : b.target < req.prevLogIndex
  · rw [if_pos (by omega), if_pos (by omega), hs.entryAtLocked_above hprev]
    cases s.node.entryAtLocked req.prevLogIndex with
    | none => rfl
    | some e =>
        dsimp only
        split <;> rfl
  · by_cases hbelow : b.offset < req.prevLogIndex
    · -- the uncompacted copy finds the term it expects
      have hterm := hreq.prev hbelow (by omega)
      obtain ⟨e, he, ht⟩ := Option.map_eq_some_iff.1 hterm
      rw [if_pos hbelow, hs.entryAtLocked_below hbelow (by omega), he]
      dsimp only
      rw [if_neg (not_not.2 ht)]
      by_cases htarget : req.prevLogIndex = b.target
      · have hanchor := b.below_target
        rw [htarget] at he
        rw [he, Option.map_some, Option.some.injEq] at hanchor
        rw [if_pos (by omega), htarget, entryAtLocked_target]
        dsimp only
        rw [if_neg (by rw [not_not, ← hanchor, ht])]
      · rw [if_neg (by omega)]
    · rw [if_neg (by omega), if_neg hbelow]

theorem appendLog (h : b.Twin s t) (es : List LogEntry) :
    b.Twin (s.appendLog es) (t.appendLog es) where
  node := by
    have hlen := h.holds.below.length_le
    unfold Locked.appendLog
    rw [Locked.node_modify, Locked.node_modify, Locked.node_write, Locked.node_write, h.node]
    unfold Node.compactedTo
    dsimp only
    rw [List.drop_append_of_le_length hlen, List.cons_append]
  events := h.events
  holds := ⟨h.holds.offset, h.holds.below.trans (List.prefix_append _ _), h.holds.applied⟩

/-- The log is cut off above the target. -/
theorem truncate (h : b.Twin s t) {idx : Nat} (hidx : b.target < idx) (ws ws' : List DiskWrite) :
    b.Twin ((s.write ws).modify fun n => { n with log := n.log.take (idx - n.logOffset - 1) })
      ((t.write ws').modify fun n => { n with log := n.log.take (idx - n.logOffset - 1) }) where
  node := by
    have hoff := b.offset_lt
    have hbelow := b.length_below
    rw [Locked.node_modify, Locked.node_modify, Locked.node_write, Locked.node_write, h.node]
    unfold Node.compactedTo
    dsimp only
    rw [h.holds.offset, List.drop_take,
      show idx - (b.target - 1) - 1 = idx - b.offset - 1 - b.below.length + 1 by omega,
      List.take_succ_cons]
  events := h.events
  holds := by
    have hoff := b.offset_lt
    have hbelow := b.length_below
    refine ⟨h.holds.offset, ?_, h.holds.applied⟩
    rw [Locked.node_modify, Locked.node_write]
    dsimp only
    rw [h.holds.offset]
    exact (List.prefix_take_iff).2 ⟨h.holds.below, by omega⟩

/-- The entries agree with what has been compacted away, from an index on. -/
def AgreesFrom (b : Baseline) (idx : Nat) (es : List LogEntry) : Prop :=
  ∀ k e, es[k]? = some e → b.offset < idx + k → idx + k ≤ b.target →
    (b.below[idx + k - b.offset - 1]?).map LogEntry.term = some e.term

theorem AgreesFrom.tail {idx : Nat} {e : LogEntry} {es : List LogEntry}
    (h : AgreesFrom b idx (e :: es)) : AgreesFrom b (idx + 1) es := by
  intro k x hx hlo hhi
  have := h (k + 1) x (by simpa using hx) (by omega) (by omega)
  rwa [show idx + (k + 1) = idx + 1 + k by omega] at this

theorem skipCompacted_of_lt {off idx : Nat} (h : off < idx) (es : List LogEntry) :
    skipCompacted off idx es = (idx, es) := by
  cases es with
  | nil => rfl
  | cons e es =>
      unfold skipCompacted
      rw [if_neg (by omega)]

/-- Above the target the two walks over the entries are the same. -/
theorem mergeLoop_above (h : b.Twin s t) {idx : Nat} (hidx : b.target < idx)
    (es : List LogEntry) :
    b.Twin (s.mergeLoop idx es).1 (t.mergeLoop idx es).1 ∧
      (t.mergeLoop idx es).2 = (s.mergeLoop idx es).2 := by
  induction es generalizing idx with
  | nil => exact ⟨h, rfl⟩
  | cons e es ih =>
      unfold Locked.mergeLoop
      rw [h.node, h.holds.entryAtLocked_above hidx]
      cases s.node.entryAtLocked idx with
      | none => exact ⟨h, rfl⟩
      | some old =>
          dsimp only
          split
          · exact ⟨h.truncate hidx _ _, rfl⟩
          · exact ih (by omega)

/-- Both walks go on at the same entry above the target. -/
theorem mergeLoop (h : b.Twin s t) {idx : Nat} (hidx : 0 < idx) {es : List LogEntry}
    (hes : AgreesFrom b idx es) :
    let start := skipCompacted s.node.logOffset idx es
    let start' := skipCompacted t.node.logOffset idx es
    b.Twin (s.mergeLoop start.1 start.2).1 (t.mergeLoop start'.1 start'.2).1 ∧
      (t.mergeLoop start'.1 start'.2).2 = (s.mergeLoop start.1 start.2).2 := by
  have hoff := b.offset_lt
  have hsoff := h.holds.offset
  have htoff : t.node.logOffset = b.target - 1 := by rw [h.node]; rfl
  rw [hsoff, htoff]
  induction es generalizing idx with
  | nil => exact ⟨h, rfl⟩
  | cons e es ih =>
      by_cases habove : b.target < idx
      · rw [skipCompacted_of_lt (by omega), skipCompacted_of_lt (by omega)]
        exact h.mergeLoop_above habove (e :: es)
      · have hrest := ih (by omega) hes.tail
        dsimp only at hrest ⊢
        by_cases hskip : idx ≤ b.offset
        · -- skipped by both
          unfold skipCompacted
          rw [if_pos hskip, if_pos (by omega)]
          exact hrest
        · -- the uncompacted copy has this entry
          have hterm := hes 0 e rfl (by omega) (by omega)
          obtain ⟨old, hold, ht⟩ := Option.map_eq_some_iff.1 hterm
          rw [Nat.add_zero] at hold
          have hs : s.mergeLoop idx (e :: es) = s.mergeLoop (idx + 1) es := by
            conv_lhs => unfold Locked.mergeLoop
            rw [h.holds.entryAtLocked_below (by omega) (by omega), hold]
            dsimp only
            rw [if_neg (not_not.2 ht)]
          rw [skipCompacted_of_lt (show b.offset < idx + 1 by omega)] at hrest
          rw [skipCompacted_of_lt (show b.offset < idx by omega)]
          dsimp only at hrest ⊢
          rw [hs]
          by_cases htarget : idx = b.target
          · -- the compacted one has the anchor
            have hanchor := b.below_target
            rw [htarget] at hold
            rw [hold, Option.map_some, Option.some.injEq] at hanchor
            have ht' : t.mergeLoop idx (e :: es) = t.mergeLoop (idx + 1) es := by
              conv_lhs => unfold Locked.mergeLoop
              rw [h.node, htarget, entryAtLocked_target]
              dsimp only
              rw [if_neg (by rw [not_not, ← hanchor, ht])]
            rw [skipCompacted_of_lt (show b.target - 1 < idx + 1 by omega)] at hrest
            rw [skipCompacted_of_lt (show b.target - 1 < idx by omega)]
            dsimp only at hrest ⊢
            rw [ht']
            exact hrest
          · conv => arg 1; unfold skipCompacted
            conv => arg 2; unfold skipCompacted
            rw [if_pos (by omega)]
            exact hrest

theorem mergeEntriesLocked (h : b.Twin s t) {prev : Nat} {es : List LogEntry}
    (hes : AgreesFrom b (prev + 1) es) :
    b.Twin (s.mergeEntriesLocked prev es) (t.mergeEntriesLocked prev es) := by
  obtain ⟨hloop, hleft⟩ := h.mergeLoop (Nat.succ_pos prev) hes
  unfold Locked.mergeEntriesLocked
  dsimp only
  rw [hleft]
  split
  · exact hloop
  · exact hloop.appendLog _

/-! ## Applying -/

theorem applyEntryLocked (h : b.Twin s t) (e : LogEntry) :
    b.Twin (s.applyEntryLocked e) (t.applyEntryLocked e) := by
  have hwaiters : t.node.waiters = s.node.waiters := by rw [h.node]; rfl
  unfold Locked.applyEntryLocked
  dsimp only [Locked.node_emit]
  rw [hwaiters]
  split
  · exact Twin.modify ((h.emit _).emit _) rfl rfl rfl (le_refl _)
  · exact h.emit _

theorem applyLoop (h : b.Twin s t) (fuel : Nat) :
    b.Twin (Locked.applyLoop fuel s) (Locked.applyLoop fuel t) := by
  induction fuel generalizing s t with
  | zero => exact h
  | succ fuel ih =>
      have hcommit : t.node.commitIndex = s.node.commitIndex := by rw [h.node]; rfl
      have happlied : t.node.lastApplied = s.node.lastApplied := by rw [h.node]; rfl
      have hnext : b.Twin (s.modify fun n => { n with lastApplied := n.lastApplied + 1 })
          (t.modify fun n => { n with lastApplied := n.lastApplied + 1 }) :=
        h.modify rfl rfl rfl (Nat.le_succ _)
      have hentry : (t.modify fun n => { n with lastApplied := n.lastApplied + 1 }).node.entryAtLocked
            (s.node.lastApplied + 1) =
          (s.modify fun n => { n with lastApplied := n.lastApplied + 1 }).node.entryAtLocked
            (s.node.lastApplied + 1) := by
        rw [hnext.node]
        exact hnext.holds.entryAtLocked_above (Nat.lt_succ_of_le h.holds.applied)
      unfold Locked.applyLoop
      rw [hcommit, happlied]
      split
      · dsimp only
        rw [Locked.node_modify, Locked.node_modify] at hentry ⊢
        dsimp only at hentry ⊢
        rw [happlied] at hentry ⊢
        rw [hentry]
        split
        · exact hnext
        · exact ih (hnext.applyEntryLocked _)
      · exact h

theorem applyCommittedLocked (h : b.Twin s t) :
    b.Twin s.applyCommittedLocked t.applyCommittedLocked := by
  have hcommit : t.node.commitIndex = s.node.commitIndex := by rw [h.node]; rfl
  have happlied : t.node.lastApplied = s.node.lastApplied := by rw [h.node]; rfl
  unfold Locked.applyCommittedLocked
  rw [hcommit, happlied]
  dsimp only
  split
  · exact (h.applyLoop _).modify rfl rfl rfl (le_refl _)
  · exact h.applyLoop _

theorem followCommit (h : b.Twin s t) (C : Nat) : b.Twin (s.followCommit C) (t.followCommit C) := by
  have hcommit : t.node.commitIndex = s.node.commitIndex := by rw [h.node]; rfl
  unfold Locked.followCommit
  rw [hcommit]
  split
  · refine applyCommittedLocked (h.modify ?_ rfl rfl (le_refl _))
    unfold Node.compactedTo
    dsimp only
    have := h.holds.lastLogIndexLocked
    unfold Node.compactedTo at this
    rw [this]
  · exact h

/-- The two accept the same requests. -/
theorem acceptEntries (h : b.Twin s t) {req : AppendEntriesRequest} (hreq : b.Agrees req) :
    b.Twin (s.acceptEntries req).1 (t.acceptEntries req).1 ∧
      (t.acceptEntries req).2.success = (s.acceptEntries req).2.success := by
  unfold Locked.acceptEntries
  rw [h.currentTerm]
  split
  · exact ⟨h, rfl⟩
  · have hfollow : b.Twin
        ((s.setRoleLocked .follower).modify fun n => { n with currentLeader := req.leaderId })
        ((t.setRoleLocked .follower).modify fun n => { n with currentLeader := req.leaderId }) :=
      (h.setRoleLocked .follower).modify rfl rfl rfl (le_refl _)
    generalize ((s.setRoleLocked .follower).modify fun n =>
      { n with currentLeader := req.leaderId }) = s' at hfollow ⊢
    generalize ((t.setRoleLocked .follower).modify fun n =>
      { n with currentLeader := req.leaderId }) = t' at hfollow ⊢
    have hcheck := hfollow.checkPrev hreq
    dsimp only
    cases hs : s'.node.checkPrev req with
    | some rejection =>
        rw [hs] at hcheck
        obtain ⟨rejection', ht⟩ := Option.isSome_iff_exists.1 hcheck
        rw [ht]
        exact ⟨hfollow, by rw [Node.success_of_checkPrev hs, Node.success_of_checkPrev ht]⟩
    | none =>
        rw [hs] at hcheck
        have ht : t'.node.checkPrev req = none := by
          cases ht : t'.node.checkPrev req with
          | none => rfl
          | some rejection => rw [ht] at hcheck; exact absurd hcheck (by simp)
        rw [ht]
        dsimp only
        rw [Locked.ite_mergeEntriesLocked, Locked.ite_mergeEntriesLocked]
        exact ⟨(hfollow.mergeEntriesLocked hreq.entries).followCommit _, rfl⟩

theorem appendEntries (h : b.Twin s t) {req : AppendEntriesRequest} (hreq : b.Agrees req)
    (f : SaveFaults) :
    b.Twin (s.appendEntries req f).1 (t.appendEntries req f).1 ∧
      (t.appendEntries req f).2.map AppendEntriesReply.success =
        (s.appendEntries req f).2.map AppendEntriesReply.success := by
  obtain ⟨hobs, herr⟩ := h.observeRequest req.term f.observe
  unfold Locked.appendEntries
  generalize s.observeRequest req.term f.observe = r at hobs herr ⊢
  generalize t.observeRequest req.term f.observe = r' at hobs herr ⊢
  obtain ⟨s', err⟩ := r
  obtain ⟨t', err'⟩ := r'
  dsimp only at hobs herr
  subst herr
  cases err' with
  | some e => exact ⟨hobs, rfl⟩
  | none =>
      obtain ⟨hacc, hsuccess⟩ := hobs.acceptEntries hreq
      exact ⟨hacc, by dsimp only [Except.map]; rw [hsuccess]⟩

end Twin

end Baseline

/-! ## Sequences of requests -/

/-- What peers ask of a node, and which `SaveState` calls fail on the way. -/
inductive PeerRequest where
  | vote (req : RequestVoteRequest) (f : SaveFaults)
  | append (req : AppendEntriesRequest) (f : SaveFaults)

/-- The request agrees with what has been compacted away. -/
def PeerRequest.Agrees (b : Baseline) : PeerRequest → Prop
  | .vote _ _ => True
  | .append req _ => b.Agrees req

/-- A request is handled: the vote or the `Success` flag it gets. -/
def Node.serve (n : Node) : PeerRequest → Locked × Except RaftError Bool
  | .vote req f =>
      let r := n.lock.requestVote req f
      (r.1, r.2.map RequestVoteReply.voteGranted)
  | .append req f =>
      let r := n.lock.appendEntries req f
      (r.1, r.2.map AppendEntriesReply.success)

/-- What can be seen of a request that has been handled. -/
structure Observation where
  decision : Except RaftError Bool
  lastLogIndex : Nat
  lastLogTerm : Nat
  commitIndex : Nat
  lastApplied : Nat
  /-- The entries above the target. -/
  above : List LogEntry
  /-- The calls of `ApplyFn`. -/
  applied : List ApplyMsg
  deriving DecidableEq

/-- What is seen of a node while it handles requests. -/
def Node.observe (target : Nat) (n : Node) : List PeerRequest → List Observation
  | [] => []
  | req :: reqs =>
      let r := n.serve req
      let n' := r.1.node
      ⟨r.2, n'.lastLogIndexLocked, n'.lastLogTermLocked, n'.commitIndex, n'.lastApplied,
        n'.log.drop (target - n'.logOffset), r.1.events.filterMap NodeEvent.msg?⟩ ::
          n'.observe target reqs

theorem Baseline.Twin.serve {b : Baseline} {n : Node} (h : b.Holds n) {req : PeerRequest}
    (hreq : req.Agrees b) :
    b.Twin (n.serve req).1 ((n.compactedTo b).serve req).1 ∧
      ((n.compactedTo b).serve req).2 = (n.serve req).2 := by
  have hlock : b.Twin n.lock (n.compactedTo b).lock := ⟨rfl, rfl, h⟩
  cases req with
  | vote req f =>
      obtain ⟨htwin, hreply⟩ := hlock.requestVote req f
      exact ⟨htwin, congrArg (Except.map RequestVoteReply.voteGranted) hreply⟩
  | append req f => exact hlock.appendEntries hreq f

/-- Two copies side by side look the same. -/
theorem Baseline.Holds.observe {b : Baseline} {n : Node} (h : b.Holds n)
    {reqs : List PeerRequest} (hreqs : ∀ req ∈ reqs, req.Agrees b) :
    (n.compactedTo b).observe b.target reqs = n.observe b.target reqs := by
  induction reqs generalizing n with
  | nil => rfl
  | cons req reqs ih =>
      obtain ⟨htwin, hdecision⟩ := Baseline.Twin.serve h (hreqs req (List.mem_cons_self ..))
      have hnext := ih htwin.holds fun r hr => hreqs r (List.mem_cons_of_mem req hr)
      have habove : (((n.serve req).1.node.compactedTo b).log.drop
            (b.target - ((n.serve req).1.node.compactedTo b).logOffset)) =
          (n.serve req).1.node.log.drop (b.target - (n.serve req).1.node.logOffset) := by
        have hoff := b.offset_lt
        rw [Baseline.logOffset_compactedTo, Baseline.log_compactedTo,
          show b.target - (b.target - 1) = 1 by omega, List.drop_succ_cons, List.drop_zero,
          htwin.holds.offset, b.length_below]
      unfold Node.observe
      dsimp only
      rw [hdecision, htwin.node, htwin.events, hnext, habove, htwin.holds.lastLogIndexLocked,
        htwin.holds.lastLogTermLocked]
      rfl

/-! ## The compaction itself -/

/-- The request agrees with the node's log up to the target: it names the terms the node
holds there. -/
def PeerRequest.AgreesUpTo (n : Node) (target : Nat) : PeerRequest → Prop
  | .vote _ _ => True
  | .append req _ =>
      (n.logOffset < req.prevLogIndex → req.prevLogIndex ≤ target →
        (n.entryAtLocked req.prevLogIndex).map LogEntry.term = some req.prevLogTerm) ∧
      ∀ k e, req.entries[k]? = some e → n.logOffset < req.prevLogIndex + 1 + k →
        req.prevLogIndex + 1 + k ≤ target →
        (n.entryAtLocked (req.prevLogIndex + 1 + k)).map LogEntry.term = some e.term

theorem Node.of_entryAtLocked {n : Node} {i : Nat} {e : LogEntry} (h : n.entryAtLocked i = some e) :
    n.logOffset < i ∧ i ≤ n.logOffset + n.log.length ∧ n.log[i - n.logOffset - 1]? = some e := by
  unfold Node.entryAtLocked at h
  split at h
  · exact absurd h (by simp)
  · exact ⟨by omega, by omega, h⟩

section

variable {n : Node} {file : File} {e : LogEntry}
  (hentry : n.entryAtLocked file.lastIncludedIndex = some e)
  (hterm : e.term = file.lastIncludedTerm) (hoff : n.logOffset + 1 < file.lastIncludedIndex)

/-- What a compaction takes away. -/
def Node.baseline : Baseline where
  offset := n.logOffset
  target := file.lastIncludedIndex
  below := n.log.take (file.lastIncludedIndex - n.logOffset)
  anchor := file.anchor
  path := some file.lastIncludedIndex
  offset_lt := hoff
  length_below := by
    have := n.of_entryAtLocked hentry
    rw [List.length_take]
    omega
  anchor_term := by
    obtain ⟨-, hle, hget⟩ := n.of_entryAtLocked hentry
    rw [List.getLast?_eq_getElem?, List.length_take, min_eq_left (by omega), List.getElem?_take,
      if_pos (by omega), hget, Option.map_some, hterm]
    rfl

theorem Node.holds_baseline (happlied : file.lastIncludedIndex ≤ n.lastApplied) :
    (Node.baseline hentry hterm hoff).Holds n :=
  ⟨rfl, List.take_prefix _ _, happlied⟩

/-- `compactLocked` makes the compacted copy. -/
theorem Node.compactLocked_baseline : (n.lock.compactLocked file).2 = none ∧
    (n.lock.compactLocked file).1.node = n.compactedTo (Node.baseline hentry hterm hoff) := by
  have hlen := (Node.baseline hentry hterm hoff).length_below
  have hreplace : ∀ s : Locked, (s.replaceSnapshotFileLocked file.lastIncludedIndex).node =
      { s.node with currentSnapshotPath := some file.lastIncludedIndex } := by
    intro s
    unfold Locked.replaceSnapshotFileLocked
    dsimp only
    split
    · rfl
    · split <;> rfl
  unfold Locked.compactLocked
  rw [show n.lock.node.entryAtLocked file.lastIncludedIndex = some e from hentry]
  refine ⟨rfl, ?_⟩
  dsimp only
  rw [Locked.node_modify, Locked.node_write, hreplace]
  unfold Node.compactedTo
  rw [hlen]
  rfl

theorem PeerRequest.AgreesUpTo.agrees (happlied : file.lastIncludedIndex ≤ n.lastApplied)
    {req : PeerRequest} (h : req.AgreesUpTo n file.lastIncludedIndex) :
    req.Agrees (Node.baseline hentry hterm hoff) := by
  have hholds := Node.holds_baseline hentry hterm hoff happlied
  cases req with
  | vote req f => trivial
  | append req f =>
      refine ⟨fun hlo hhi => ?_, fun k x hx hlo hhi => ?_⟩
      · rw [← hholds.entryAtLocked_below hlo hhi]
        exact h.1 hlo hhi
      · rw [← hholds.entryAtLocked_below hlo hhi]
        exact h.2 k x hx hlo hhi

end

/-- **Compaction is transparent to replication.**  A node that has applied the entry at the
target, with the term of the snapshot, is compacted, and a copy of it is not.  The two
then get the same requests, which agree with the log up to the target.  Whatever can be
seen of them is the same. -/
theorem compaction_transparent (n : Node) (file : File) (e : LogEntry) (reqs : List PeerRequest)
    (hentry : n.entryAtLocked file.lastIncludedIndex = some e)
    (hterm : e.term = file.lastIncludedTerm) (hoff : n.logOffset + 1 < file.lastIncludedIndex)
    (happlied : file.lastIncludedIndex ≤ n.lastApplied)
    (hreqs : ∀ req ∈ reqs, req.AgreesUpTo n file.lastIncludedIndex) :
    (n.lock.compactLocked file).2 = none ∧
      (n.lock.compactLocked file).1.node.observe file.lastIncludedIndex reqs =
        n.observe file.lastIncludedIndex reqs := by
  obtain ⟨hnone, hnode⟩ := Node.compactLocked_baseline hentry hterm hoff
  refine ⟨hnone, ?_⟩
  rw [hnode]
  exact (Node.holds_baseline hentry hterm hoff happlied).observe fun req hreq =>
    (hreqs req hreq).agrees hentry hterm hoff happlied

/-- A node that has applied two of its three entries. -/
def threeEntries : Node :=
  { newNode "b" "b" ["a"] 10 Disk.empty with
    currentTerm := 2, commitIndex := 2, lastApplied := 2
    log := [⟨1, 1, [7]⟩, ⟨1, 2, [8]⟩, ⟨1, 3, [9]⟩] }

/-- A request that carries the second entry again and overwrites the third. -/
def overlappingRequest : AppendEntriesRequest :=
  ⟨2, "a", 1, 1, [⟨1, 2, [8]⟩, ⟨2, 3, [5]⟩], 3⟩

theorem compaction_transparent_overlap :
    ((threeEntries.lock.compactLocked ⟨fun _ => none, 2, 1⟩).1.node.observe 2
      [.append overlappingRequest noFaults]).map Observation.applied = [[⟨3, 2, [5]⟩]] := by
  rw [(compaction_transparent threeEntries ⟨fun _ => none, 2, 1⟩ ⟨1, 2, [8]⟩
    [.append overlappingRequest noFaults] rfl rfl (by decide) (by decide) (by
      intro req hreq
      obtain rfl := List.mem_singleton.1 hreq
      refine ⟨fun _ _ => rfl, fun k x hx hlo hhi => ?_⟩
      have hk : k = 0 := by
        have : overlappingRequest.prevLogIndex = 1 := rfl
        dsimp only at hhi
        omega
      subst hk
      obtain rfl := Option.some.inj hx
      rfl)).2]
  decide

end B5KvStore
