import B5KvStore.Lib.Runs
import B5KvStore.Raft.Operations
import B5KvStore.Raft.Specs

/-!
# Calls that wait for their entry

`ProposeSync` registers a channel under the index of the entry it has appended, waits for an
outcome on it, and takes the registration back if its context ends first.  The registration is
found by the index alone.  An index is used again when a log has been cut off, so a call that
gives up late can take back the registration of another call.

* `SyncNode`, `SyncStep` — a node and its `ProposeSync` calls, each in three parts.
* `Outcomes` — no outcome is lost, sent twice, or sent for another call's entry.
* `Registrations` — the invariant, inside a critical section; one lemma for each handler.
* `outcomes_iff` — when no registration is taken back by another call.
-/

namespace B5KvStore

/-! ## Channels -/

/-- Nothing is sent to a waiting call. -/
def NodeEvent.Unheard : NodeEvent → Prop
  | .notified _ _ => False
  | _ => True

/-- What has been sent on a channel. -/
def sent (events : List NodeEvent) (k : Nat) : List (Option RaftError) :=
  events.filterMap fun
    | .notified ch outcome => if ch = k then some outcome else none
    | _ => none

theorem sent_append (es es' : List NodeEvent) (k : Nat) :
    sent (es ++ es') k = sent es k ++ sent es' k := List.filterMap_append

theorem sent_unheard {es : List NodeEvent} (h : ∀ e ∈ es, e.Unheard) (k : Nat) :
    sent es k = [] := by
  refine List.filterMap_eq_nil_iff.2 fun e he => ?_
  cases e with
  | notified ch outcome => exact absurd (h _ he) id
  | _ => rfl

theorem sent_notified_self (k : Nat) (outcome : Option RaftError) :
    sent [.notified k outcome] k = [outcome] := by
  simp [sent]

theorem sent_notified_of_ne {ch k : Nat} (h : ch ≠ k) (outcome : Option RaftError) :
    sent [.notified ch outcome] k = [] := by
  simp [sent, h]

theorem eq_empty_of_lookup {w : AList fun _ : Nat => Nat} (h : ∀ i, w.lookup i = none) : w = ∅ := by
  refine AList.ext (List.eq_nil_iff_forall_not_mem.2 fun e he => ?_)
  have hsome : w.lookup e.1 = some e.2 := AList.mem_lookup_iff.2 he
  rw [h] at hsome
  exact absurd hsome (by simp)

/-! ## A node and the calls that wait for it -/

/-- Where a call of `ProposeSync` stands once it is registered. -/
inductive SyncPhase where
  /-- In its `select`. -/
  | waiting
  /-- The `select` has chosen the context; the cleanup is still to come. -/
  | cancelled
  | returned (outcome : Option RaftError)
  /-- The cleanup is done. -/
  | gaveUp
  deriving DecidableEq, Repr

/-- A call, with the entry it has appended.  Its channel is named by its number. -/
structure SyncCall where
  entry : LogEntry
  phase : SyncPhase
  deriving DecidableEq, Repr

structure SyncNode where
  node : Node
  calls : List SyncCall
  events : List NodeEvent

/-- The operations besides `ProposeSync`, without catch-ups; requests carry the indices after
`prevLogIndex`. -/
def Operation.Ordinary : Operation → Prop
  | .proposeSync _ _ => False
  | .catchUpFromSnapshot _ => False
  | op => op.Numbered

/-- What may happen. -/
inductive SyncStep where
  | operate (op : Operation) (ordinary : op.Ordinary)
  /-- The registration of a call. -/
  | proposeSync (command : List UInt8)
  /-- A call takes the outcome from its channel. -/
  | receive (k : Nat)
  /-- The context of a call is done, and its `select` chooses that. -/
  | giveUp (k : Nat)
  /-- The cleanup of a call. -/
  | cleanup (k : Nat)

/-- The critical section of an operation. -/
def Node.operate (n : Node) : Operation → Locked
  | .appendEntries req f => (n.lock.appendEntries req f).1
  | .requestVote req f => (n.lock.requestVote req f).1
  | .startElection fails => (n.lock.startElection fails).1
  | .soloElection e => n.lock.soloElection e
  | .handleRequestVoteReply e reply fails => (n.lock.handleRequestVoteReply e reply fails).1
  | .broadcastAppendEntries => n.lock
  | .handleAppendEntriesReply term out reply fails =>
      (n.lock.handleAppendEntriesReply term out reply fails).1
  | .propose command => n.lock.propose command
  | .proposeSync command ch => (n.lock.proposeSync command ch).1
  | .getLogStatus => n.lock
  | .streamLogRange _ _ => n.lock
  | .confirmCompaction req => (n.lock.confirmCompaction req).1
  | .pollCompact file => n.lock.pollCompact file
  | .catchUpFromSnapshot file => n.lock.catchUpFromSnapshot file

theorem Node.node_operate (n : Node) (op : Operation) : (n.operate op).node = n.perform op := by
  cases op with
  | _ => rfl

namespace SyncNode

/-- A call goes on to another phase. -/
def setPhase (s : SyncNode) (k : Nat) (c : SyncCall) (phase : SyncPhase) : SyncNode :=
  { s with calls := s.calls.set k { c with phase := phase } }

def step (s : SyncNode) : SyncStep → Option SyncNode
  | .operate op _ =>
      let r := s.node.operate op
      some { s with node := r.node, events := s.events ++ r.events }
  | .proposeSync command =>
      let r := s.node.lock.proposeSync command s.calls.length
      match r.2 with
      | .error _ => some s
      | .ok (index, term) =>
          some
            { node := r.1.node
              calls := s.calls ++ [⟨⟨term, index, command⟩, .waiting⟩]
              events := s.events ++ r.1.events }
  | .receive k =>
      match s.calls[k]?, sent s.events k with
      | some c, outcome :: _ =>
          if c.phase = .waiting then some (s.setPhase k c (.returned outcome)) else none
      | _, _ => none
  | .giveUp k =>
      match s.calls[k]? with
      | some c => if c.phase = .waiting then some (s.setPhase k c .cancelled) else none
      | none => none
  | .cleanup k =>
      match s.calls[k]? with
      | some c =>
          if c.phase = .cancelled then
            some { s.setPhase k c .gaveUp with
              node := { s.node with waiters := s.node.waiters.erase c.entry.index } }
          else none
      | none => none

end SyncNode

/-- What is asked of the channels: at most one outcome is sent on each; a call that has not
given up is registered until its outcome is sent; and a call is told `nil` right after its own
entry has been applied. -/
structure Outcomes (calls : List SyncCall) (waiters : AList fun _ : Nat => Nat)
    (events : List NodeEvent) : Prop where
  once : ∀ k, (sent events k).length ≤ 1
  registered : ∀ k c, calls[k]? = some c → c.phase ≠ .gaveUp → sent events k = [] →
    waiters.lookup c.entry.index = some k
  own : ∀ k c, calls[k]? = some c → none ∈ sent events k →
    [.applied c.entry.msg, .notified k none] <:+: events

/-- The property of a state. -/
def SyncNode.NoneLost (s : SyncNode) : Prop := Outcomes s.calls s.node.waiters s.events

/-- When a call cleans up, every other call for the same index that has not given up has been
sent its outcome. -/
def SyncNode.AloneAtIndex (s : SyncNode) : SyncStep → Prop
  | .cleanup k => ∀ c, s.calls[k]? = some c → c.phase = .cancelled →
      ∀ j c', s.calls[j]? = some c' → j ≠ k → c'.entry.index = c.entry.index →
        c'.phase ≠ .gaveUp → sent s.events j ≠ []
  | _ => True

instance SyncNode.AloneAtIndex.instDecidable (s : SyncNode) (a : SyncStep) :
    Decidable (s.AloneAtIndex a) :=
  match a with
  | .cleanup k =>
      decidable_of_iff (∀ c ∈ s.calls[k]?, c.phase = .cancelled → ∀ j < s.calls.length,
        ∀ c' ∈ s.calls[j]?, j ≠ k → c'.entry.index = c.entry.index → c'.phase ≠ .gaveUp →
          sent s.events j ≠ [])
        ⟨fun h c hk hphase j c' hj => h c hk hphase j (List.getElem?_eq_some_iff.1 hj).1 c' hj,
          fun h c hk hphase j _ c' hj => h c hk hphase j c' hj⟩
  | .operate _ _ => isTrue trivial
  | .proposeSync _ => isTrue trivial
  | .receive _ => isTrue trivial
  | .giveUp _ => isTrue trivial

/-! ## The invariant -/

/-- The channels, inside a critical section that began after `past`: whoever is registered has
not been sent anything, and waits for a leader that holds its entry until it is applied. -/
structure Registrations (calls : List SyncCall) (past : List NodeEvent) (s : Locked) : Prop where
  held : ∀ i k, s.node.waiters.lookup i = some k →
    s.node.role = .leader ∧ i ≤ s.node.lastLogIndexLocked ∧
    ∃ c, calls[k]? = some c ∧ c.entry.index = i ∧ sent (past ++ s.events) k = [] ∧
      (s.node.lastApplied < i → s.node.entryAtLocked i = some c.entry)
  outcomes : Outcomes calls s.node.waiters (past ++ s.events)
  known : ∀ k, sent (past ++ s.events) k ≠ [] → k < calls.length

/-- Whoever waits goes on waiting: nothing is sent, and a leader that is waited for keeps what
it has not applied. -/
structure Spares (s s' : Locked) : Prop where
  waiters : s'.node.waiters = s.node.waiters
  unheard : ∃ es, s'.events = s.events ++ es ∧ ∀ e ∈ es, e.Unheard
  leader : s.node.waiters = ∅ ∨ (s'.node.role = s.node.role ∧
    s.node.lastLogIndexLocked ≤ s'.node.lastLogIndexLocked ∧
    s.node.lastApplied ≤ s'.node.lastApplied ∧
    ∀ i, s'.node.lastApplied < i → i ≤ s.node.lastLogIndexLocked →
      s'.node.entryAtLocked i = s.node.entryAtLocked i)

namespace Spares

variable {s s' s'' : Locked}

theorem refl (s : Locked) : Spares s s :=
  ⟨rfl, ⟨[], (List.append_nil _).symm, by simp⟩,
    Or.inr ⟨rfl, le_refl _, le_refl _, fun _ _ _ => rfl⟩⟩

/-- Fields that nobody waits for change, and something else is observed. -/
theorem frame (hw : s'.node.waiters = s.node.waiters) (hrole : s'.node.role = s.node.role)
    (hlog : s'.node.log = s.node.log) (hoff : s'.node.logOffset = s.node.logOffset)
    (happlied : s'.node.lastApplied = s.node.lastApplied) {es : List NodeEvent}
    (hev : s'.events = s.events ++ es) (hes : ∀ e ∈ es, e.Unheard) : Spares s s' := by
  refine ⟨hw, ⟨es, hev, hes⟩, Or.inr ⟨hrole, ?_, happlied.ge, fun i _ _ => ?_⟩⟩
  · unfold Node.lastLogIndexLocked
    rw [hlog, hoff]
  · unfold Node.entryAtLocked
    rw [hlog, hoff]

/-- The same without an event. -/
theorem silent (hw : s'.node.waiters = s.node.waiters) (hrole : s'.node.role = s.node.role)
    (hlog : s'.node.log = s.node.log) (hoff : s'.node.logOffset = s.node.logOffset)
    (happlied : s'.node.lastApplied = s.node.lastApplied) (hev : s'.events = s.events) :
    Spares s s' :=
  frame hw hrole hlog hoff happlied (hev.trans (List.append_nil _).symm) (by simp)

/-- Where nobody waits, anything may change. -/
theorem of_empty (h : s.node.waiters = ∅) (hw : s'.node.waiters = ∅) {es : List NodeEvent}
    (hev : s'.events = s.events ++ es) (hes : ∀ e ∈ es, e.Unheard) : Spares s s' :=
  ⟨hw.trans h.symm, ⟨es, hev, hes⟩, Or.inl h⟩

theorem trans (h : Spares s s') (h' : Spares s' s'') : Spares s s'' := by
  obtain ⟨es, hev, hes⟩ := h.unheard
  obtain ⟨es', hev', hes'⟩ := h'.unheard
  refine ⟨h'.waiters.trans h.waiters, ⟨es ++ es', ?_, fun e he => ?_⟩, ?_⟩
  · rw [hev', hev, List.append_assoc]
  · exact (List.mem_append.1 he).elim (hes e) (hes' e)
  · rcases h.leader with hnone | ⟨hrole, hlast, happ, hent⟩
    · exact Or.inl hnone
    · rcases h'.leader with hnone | ⟨hrole', hlast', happ', hent'⟩
      · exact Or.inl (h.waiters.symm.trans hnone)
      · refine Or.inr ⟨hrole'.trans hrole, hlast.trans hlast', happ.trans happ', fun i hi hle => ?_⟩
        rw [hent' i hi (hle.trans hlast), hent i (by omega) hle]

end Spares

namespace Registrations

variable {calls : List SyncCall} {past : List NodeEvent} {s s' : Locked}

theorem spares (h : Registrations calls past s) (hs : Spares s s') :
    Registrations calls past s' := by
  obtain ⟨es, hev, hes⟩ := hs.unheard
  have hall : past ++ s'.events = past ++ s.events ++ es := by rw [hev, List.append_assoc]
  have hsent : ∀ k, sent (past ++ s'.events) k = sent (past ++ s.events) k := by
    intro k
    rw [hall, sent_append, sent_unheard hes, List.append_nil]
  refine ⟨fun i k hi => ?_, ⟨fun k => ?_, fun k c hk hphase hnone => ?_, fun k c hk hnil => ?_⟩,
    fun k hk => h.known k (hsent k ▸ hk)⟩
  · rw [hs.waiters] at hi
    obtain ⟨hlead, hle, c, hc, hci, hnone, hent⟩ := h.held i k hi
    rcases hs.leader with hempty | ⟨hrole, hlast, happ, hkeep⟩
    · rw [hempty, AList.lookup_empty] at hi
      exact absurd hi (by simp)
    · refine ⟨hrole.trans hlead, hle.trans hlast, c, hc, hci, (hsent k).trans hnone, fun hlt => ?_⟩
      rw [hkeep i hlt hle]
      exact hent (by omega)
  · rw [hsent]
    exact h.outcomes.once k
  · rw [hs.waiters]
    exact h.outcomes.registered k c hk hphase (hsent k ▸ hnone)
  · rw [hall]
    exact (h.outcomes.own k c hk (hsent k ▸ hnil)).trans (List.prefix_append _ _).isInfix

/-! ## Stepping down -/

/-- What a step-down sends on a channel. -/
theorem sent_abort (w : AList fun _ : Nat => Nat) (err : RaftError) (k : Nat) :
    sent (w.entries.map fun e => .notified e.2 (some err)) k =
      (w.entries.filter (·.2 = k)).map fun _ => some err := by
  generalize w.entries = es
  induction es with
  | nil => rfl
  | cons e es ih =>
      rw [List.map_cons, ← List.singleton_append, sent_append, ih]
      by_cases hk : e.2 = k
      · rw [List.filter_cons_of_pos (by simp [hk]), hk, sent_notified_self]
        rfl
      · rw [List.filter_cons_of_neg (by simp [hk]), sent_notified_of_ne hk]
        rfl

/-- No channel is registered twice. -/
theorem length_registrations (h : Registrations calls past s) (k : Nat) :
    (s.node.waiters.entries.filter (·.2 = k)).length ≤ 1 := by
  have hall : ∀ e ∈ s.node.waiters.entries.filter (·.2 = k), ∀ e' ∈
      s.node.waiters.entries.filter (·.2 = k), e = e' := by
    intro e he e' he'
    obtain ⟨hin, hek⟩ := List.mem_filter.1 he
    obtain ⟨hin', hek'⟩ := List.mem_filter.1 he'
    obtain ⟨i, ch⟩ := e
    obtain ⟨i', ch'⟩ := e'
    have hek : ch = k := of_decide_eq_true hek
    have hek' : ch' = k := of_decide_eq_true hek'
    subst hek hek'
    obtain ⟨-, -, c, hc, hci, -⟩ := h.held i _ (AList.mem_lookup_iff.2 hin)
    obtain ⟨-, -, c', hc', hci', -⟩ := h.held i' _ (AList.mem_lookup_iff.2 hin')
    rw [hc] at hc'
    rw [← hci, ← hci', Option.some.inj hc']
  have hnodup : (s.node.waiters.entries.filter (·.2 = k)).Nodup :=
    (List.NodupKeys.nodup s.node.waiters.nodupKeys).filter _
  generalize s.node.waiters.entries.filter (·.2 = k) = es at hall hnodup
  rcases es with - | ⟨e, - | ⟨e', es⟩⟩
  · exact Nat.zero_le _
  · exact le_refl _
  · have heq := hall e (by simp) e' (by simp)
    exact absurd hnodup (by simp [heq])

/-- Whoever waits is told, once. -/
theorem abort (h : Registrations calls past s) (err : RaftError) :
    Registrations calls past (s.abortPendingWaitersLocked err) := by
  have hall : past ++ (s.abortPendingWaitersLocked err).events =
      past ++ s.events ++ s.node.waiters.entries.map fun e => .notified e.2 (some err) :=
    (List.append_assoc _ _ _).symm
  have hsent : ∀ k, sent (past ++ (s.abortPendingWaitersLocked err).events) k =
      sent (past ++ s.events) k ++
        (s.node.waiters.entries.filter (·.2 = k)).map fun _ => some err := by
    intro k
    rw [hall, sent_append, sent_abort]
  have hreg : ∀ k e, e ∈ s.node.waiters.entries.filter (·.2 = k) →
      sent (past ++ s.events) k = [] ∧ k < calls.length := by
    intro k e he
    obtain ⟨hin, hek⟩ := List.mem_filter.1 he
    obtain ⟨i, ch⟩ := e
    have hek : ch = k := of_decide_eq_true hek
    obtain ⟨-, -, c, hc, -, hnone, -⟩ := h.held i ch (AList.mem_lookup_iff.2 hin)
    exact ⟨hek ▸ hnone, hek ▸ (List.getElem?_eq_some_iff.1 hc).1⟩
  refine ⟨fun i k hi => ?_, ⟨fun k => ?_, fun k c hk hphase hnone => ?_, fun k c hk hnil => ?_⟩,
    fun k hk => ?_⟩
  · exact absurd (hi.symm.trans (AList.lookup_empty i)) (by simp)
  · rw [hsent, List.length_append, List.length_map]
    cases hes : s.node.waiters.entries.filter (·.2 = k) with
    | nil => exact h.outcomes.once k
    | cons e es =>
        have hone := h.length_registrations k
        rw [hes] at hone
        rw [(hreg k e (by rw [hes]; exact List.mem_cons_self ..)).1]
        simpa using hone
  · -- a call that was still waiting has just been told
    rw [hsent, List.append_eq_nil_iff, List.map_eq_nil_iff, List.filter_eq_nil_iff] at hnone
    have hlook := h.outcomes.registered k c hk hphase hnone.1
    exact absurd (decide_eq_true rfl) (hnone.2 ⟨_, k⟩ (AList.mem_lookup_iff.1 hlook))
  · rw [hsent, List.mem_append] at hnil
    rw [hall]
    refine (h.outcomes.own k c hk (hnil.resolve_right fun hmem => ?_)).trans
      (List.prefix_append _ _).isInfix
    obtain ⟨e, -, he⟩ := List.mem_map.1 hmem
    exact absurd he (by simp)
  · rw [hsent] at hk
    cases hes : s.node.waiters.entries.filter (·.2 = k) with
    | nil =>
        rw [hes, List.map_nil, List.append_nil] at hk
        exact h.known k hk
    | cons e es => exact (hreg k e (by rw [hes]; exact List.mem_cons_self ..)).2

/-- A node that does not lead is not waited for. -/
theorem waiters_eq_empty (h : Registrations calls past s) (hrole : s.node.role ≠ .leader) :
    s.node.waiters = ∅ := by
  refine eq_empty_of_lookup fun i => ?_
  cases hi : s.node.waiters.lookup i with
  | none => rfl
  | some k => exact absurd (h.held i k hi).1 hrole

/-- After a step-down nobody waits. -/
theorem setRoleLocked (h : Registrations calls past s) {r : Role} (hr : r ≠ .leader) :
    Registrations calls past (s.setRoleLocked r) ∧ (s.setRoleLocked r).node.waiters = ∅ := by
  unfold Locked.setRoleLocked
  by_cases hrole : s.node.role = .leader
  · rw [if_pos ⟨hrole, hr⟩]
    exact ⟨(h.abort _).spares (.of_empty rfl rfl (List.append_nil _).symm (by simp)), rfl⟩
  · have hempty := h.waiters_eq_empty hrole
    rw [if_neg fun hc => hrole hc.1]
    exact ⟨h.spares (.of_empty hempty hempty (List.append_nil _).symm (by simp)), hempty⟩

end Registrations

namespace Locked

theorem spares_persistStateLocked (s : Locked) (fails : Bool) :
    Spares s (s.persistStateLocked fails).1 := by
  unfold persistStateLocked
  split
  · exact .refl s
  · exact .silent rfl rfl rfl rfl rfl rfl

theorem spares_castVote (s : Locked) (req : RequestVoteRequest) (fails : Bool) :
    Spares s (s.castVote req fails).1 := by
  unfold castVote persistStateLocked
  split
  · exact .refl s
  · split
    · cases fails with
      | true => exact .silent rfl rfl rfl rfl rfl rfl
      | false => exact .silent rfl rfl rfl rfl rfl rfl
    · exact .refl s

/-- Applying entries tells nobody if nobody waits. -/
theorem spares_applyCommittedLocked {s : Locked} (h : s.node.waiters = ∅) :
    Spares s s.applyCommittedLocked := by
  obtain ⟨k, w, wake, es, heq, hsub, hes⟩ := s.applyCommittedLocked_frame
  have hlook : ∀ i, s.node.waiters.lookup i = none := fun i => by rw [h, AList.lookup_empty]
  have hw : w = ∅ := by
    refine eq_empty_of_lookup fun i => ?_
    cases hi : w.lookup i with
    | none => rfl
    | some ch => exact absurd ((hlook i).symm.trans (hsub i ch hi)) (by simp)
  rw [heq]
  refine .of_empty h hw rfl fun e he => ?_
  rcases hes e he with ⟨msg, rfl⟩ | ⟨i, e', ch, -, -, hch, -⟩
  · trivial
  · rw [hlook] at hch
    exact absurd hch (by simp)

/-- An entry more at the end of the log. -/
theorem spares_appendLog (s : Locked) (es : List LogEntry) : Spares s (s.appendLog es) := by
  refine ⟨rfl, ⟨[], (List.append_nil _).symm, by simp⟩,
    Or.inr ⟨rfl, ?_, le_refl _, fun i _ hi => ?_⟩⟩
  · change s.node.logOffset + s.node.log.length ≤ s.node.logOffset + (s.node.log ++ es).length
    rw [List.length_append]
    omega
  · unfold Node.lastLogIndexLocked at hi
    change (if i ≤ s.node.logOffset ∨ s.node.logOffset + (s.node.log ++ es).length < i then none
      else (s.node.log ++ es)[i - s.node.logOffset - 1]?) = _
    unfold Node.entryAtLocked
    by_cases hin : i ≤ s.node.logOffset
    · rw [if_pos (Or.inl hin), if_pos (Or.inl hin)]
    · rw [if_neg (by rw [List.length_append]; omega), if_neg (by omega),
        List.getElem?_append_left (by omega)]

/-- A compaction of applied entries. -/
theorem spares_compactLocked {s : Locked} {file : File}
    (h : file.lastIncludedIndex ≤ s.node.lastApplied) : Spares s (s.compactLocked file).1 := by
  rcases s.node_compactLocked file with heq | ⟨hlt, hle, hnode⟩
  · rw [heq]
    exact .refl s
  · refine ⟨by rw [hnode], ⟨[], ?_, by simp⟩, Or.inr ⟨by rw [hnode], ?_, by rw [hnode], ?_⟩⟩
    · rw [List.append_nil, events_compactLocked]
    · unfold Node.lastLogIndexLocked at hle ⊢
      rw [hnode]
      dsimp only
      rw [List.length_cons, List.length_drop]
      omega
    · intro i hi hlast
      unfold Node.lastLogIndexLocked at hle hlast
      rw [hnode] at hi ⊢
      unfold Node.entryAtLocked
      dsimp only at hi ⊢
      rw [List.length_cons, List.length_drop, if_neg (by omega), if_neg (by omega),
        show i - (file.lastIncludedIndex - 1) - 1 = i - file.lastIncludedIndex - 1 + 1 by omega,
        List.getElem?_cons_succ, List.getElem?_drop]
      congr 1
      omega

/-- `ConfirmCompaction` does nothing, or it compacts applied entries. -/
theorem spares_confirmCompaction (s : Locked) (req : CompactionAck) :
    Spares s (s.confirmCompaction req).1 := by
  unfold confirmCompaction
  split
  · exact .refl s
  · split
    · exact .refl s
    · rename_i happlied
      split
      · exact .refl s
      · split
        · exact .refl s
        · rename_i hsame
          have hsame := not_not.1 hsame
          exact spares_compactLocked (by omega)

theorem spares_pollCompact (s : Locked) (file : File) : Spares s (s.pollCompact file) := by
  unfold pollCompact
  split
  · rename_i h
    exact spares_compactLocked h.2
  · exact .refl s

theorem spares_propose (s : Locked) (command : List UInt8) : Spares s (s.propose command) := by
  unfold propose
  split
  · exact .refl s
  · exact spares_appendLog _ _

end Locked

theorem Locked.proposeSync_of_leader {s : Locked} (h : s.node.role = .leader)
    (command : List UInt8) (ch : Nat) : s.proposeSync command ch =
      ((s.appendLocalLocked command).modify fun n =>
        { n with waiters := n.waiters.insert (s.node.lastLogIndexLocked + 1) ch },
        .ok (s.node.lastLogIndexLocked + 1, s.node.currentTerm)) :=
  if_neg (not_not.2 h)

theorem Locked.proposeSync_of_ne {s : Locked} (h : s.node.role ≠ .leader) (command : List UInt8)
    (ch : Nat) : s.proposeSync command ch = (s, .error .notLeader) :=
  if_pos h

/-! ## The handlers -/

namespace Registrations

variable {calls : List SyncCall} {past : List NodeEvent} {s : Locked}

theorem observeTermLocked (h : Registrations calls past s) (T : Nat) (fails : Bool) :
    Registrations calls past (s.observeTermLocked T fails).1 := by
  unfold Locked.observeTermLocked
  split
  · exact h
  · have hterm : Registrations calls past
        (s.modify fun n => { n with currentTerm := T, votedFor := "" }) :=
      h.spares (.silent rfl rfl rfl rfl rfl rfl)
    exact (hterm.setRoleLocked (by decide)).1.spares (Locked.spares_persistStateLocked _ _)

theorem observeRequest (h : Registrations calls past s) (T : Nat) (fails : Bool) :
    Registrations calls past (s.observeRequest T fails).1 := by
  unfold Locked.observeRequest
  split
  · exact h.observeTermLocked T fails
  · exact h

theorem requestVote (h : Registrations calls past s) (req : RequestVoteRequest) (f : SaveFaults) :
    Registrations calls past (s.requestVote req f).1 := by
  have hobs := h.observeRequest req.term f.observe
  unfold Locked.requestVote
  split
  · rename_i r err heq
    rw [heq] at hobs
    exact hobs
  · rename_i r heq
    rw [heq] at hobs
    exact hobs.spares (Locked.spares_castVote _ _ _)

theorem becomeLeaderLocked (h : Registrations calls past s) :
    Registrations calls past s.becomeLeaderLocked := by
  by_cases hrole : s.node.role = .candidate
  · have hempty := h.waiters_eq_empty (by rw [hrole]; decide)
    obtain ⟨n', heq, hn'⟩ := s.becomeLeaderLocked_spec hrole
    rw [heq]
    refine h.spares (.of_empty hempty (by rw [hn']; exact hempty) rfl fun e he => ?_)
    rw [List.mem_singleton.1 he]
    trivial
  · unfold Locked.becomeLeaderLocked
    rw [if_pos hrole]
    exact h

theorem startElection (h : Registrations calls past s) (fails : Bool) :
    Registrations calls past (s.startElection fails).1 := by
  have hterm : Spares (s.setRoleLocked .candidate) ((s.setRoleLocked .candidate).modify fun n =>
      { n with currentTerm := n.currentTerm + 1, votedFor := n.id }) :=
    .silent rfl rfl rfl rfl rfl rfl
  have hcand := (h.setRoleLocked (r := .candidate) (by decide)).1.spares
    (hterm.trans (Locked.spares_persistStateLocked _ fails))
  unfold Locked.startElection
  split
  · exact h
  · dsimp only
    split
    · rename_i r err heq
      rw [heq] at hcand
      exact hcand
    · rename_i r heq
      rw [heq] at hcand
      exact hcand

theorem soloElection (h : Registrations calls past s) (e : Election) :
    Registrations calls past (s.soloElection e) := by
  unfold Locked.soloElection
  split
  · exact h.becomeLeaderLocked
  · exact h

theorem handleRequestVoteReply (h : Registrations calls past s) (e : Election)
    (reply : RequestVoteReply) (fails : Bool) :
    Registrations calls past (s.handleRequestVoteReply e reply fails).1 := by
  unfold Locked.handleRequestVoteReply
  split
  · exact h.observeTermLocked _ _
  · split
    · exact h
    · dsimp only
      generalize (if reply.voteGranted = true then e.votes + 1 else e.votes) = votes
      split
      · exact h.becomeLeaderLocked
      · exact h

/-- A follower is not waited for, whatever it does with its log. -/
theorem acceptEntries (h : Registrations calls past s) (req : AppendEntriesRequest) :
    Registrations calls past (s.acceptEntries req).1 := by
  unfold Locked.acceptEntries
  split
  · exact h
  · obtain ⟨hdown, hempty⟩ := h.setRoleLocked (r := .follower) (by decide)
    have hlead : Registrations calls past ((s.setRoleLocked .follower).modify fun n =>
        { n with currentLeader := req.leaderId }) := hdown.spares (.silent rfl rfl rfl rfl rfl rfl)
    have hnone : ((s.setRoleLocked .follower).modify fun n =>
        { n with currentLeader := req.leaderId }).node.waiters = ∅ := hempty
    generalize ((s.setRoleLocked .follower).modify fun n =>
      { n with currentLeader := req.leaderId }) = t at hlead hnone
    dsimp only
    split
    · exact hlead
    · rw [Locked.ite_mergeEntriesLocked]
      obtain ⟨log, ws, heq⟩ := t.mergeEntriesLocked_frame req.prevLogIndex req.entries
      have hmerge : Registrations calls past
          (t.mergeEntriesLocked req.prevLogIndex req.entries) := by
        rw [heq]
        exact hlead.spares (.of_empty hnone hnone (List.append_nil _).symm (by simp))
      have hstill : (t.mergeEntriesLocked req.prevLogIndex req.entries).node.waiters = ∅ := by
        rw [heq]
        exact hnone
      generalize t.mergeEntriesLocked req.prevLogIndex req.entries = u at hmerge hstill
      unfold Locked.followCommit
      split
      · have hcommit : Registrations calls past (u.modify fun n =>
            { n with commitIndex := min64 req.leaderCommit n.lastLogIndexLocked }) :=
          hmerge.spares (.silent rfl rfl rfl rfl rfl rfl)
        exact hcommit.spares (Locked.spares_applyCommittedLocked hstill)
      · exact hmerge

theorem appendEntries (h : Registrations calls past s) (req : AppendEntriesRequest)
    (f : SaveFaults) : Registrations calls past (s.appendEntries req f).1 := by
  have hobs := h.observeRequest req.term f.observe
  unfold Locked.appendEntries
  split
  · rename_i r err heq
    rw [heq] at hobs
    exact hobs
  · rename_i r heq
    rw [heq] at hobs
    exact hobs.acceptEntries req

/-- The next entry is applied: the call that waits for its index is the one that has appended
it. -/
theorem applyEntryLocked (h : Registrations calls past s) {e : LogEntry}
    (he : s.node.entryAtLocked (s.node.lastApplied + 1) = some e)
    (hindex : e.index = s.node.lastApplied + 1) :
    Registrations calls past ((s.modify fun n =>
      { n with lastApplied := n.lastApplied + 1 }).applyEntryLocked e) := by
  have hmove : Spares s (s.modify fun n => { n with lastApplied := n.lastApplied + 1 }) :=
    ⟨rfl, ⟨[], (List.append_nil _).symm, by simp⟩,
      Or.inr ⟨rfl, le_refl _, Nat.le_succ _, fun _ _ _ => rfl⟩⟩
  unfold Locked.applyEntryLocked
  dsimp only
  cases hch : s.node.waiters.lookup e.index with
  | none =>
      rw [show ((s.modify fun n => { n with lastApplied := n.lastApplied + 1 }).emit
        [.applied ⟨e.index, e.term, e.command⟩]).node.waiters.lookup e.index = none from hch]
      refine (h.spares hmove).spares (.frame rfl rfl rfl rfl rfl rfl fun x hx => ?_)
      rw [List.mem_singleton.1 hx]
      trivial
  | some ch =>
      rw [show ((s.modify fun n => { n with lastApplied := n.lastApplied + 1 }).emit
        [.applied ⟨e.index, e.term, e.command⟩]).node.waiters.lookup e.index = some ch from hch]
      dsimp only
      obtain ⟨hlead, hle, c, hc, hci, hnone, hent⟩ := h.held e.index ch hch
      have hown : c.entry = e := by
        have hat := hent (by omega)
        rw [hindex, he] at hat
        exact (Option.some.inj hat).symm
      have hall : past ++ (s.events ++ [.applied e.msg] ++ [.notified ch none]) =
          past ++ s.events ++ [.applied e.msg, .notified ch none] := by simp
      have hself : sent (past ++ (s.events ++ [.applied e.msg] ++ [.notified ch none])) ch =
          [none] := by
        rw [hall, sent_append, hnone, List.nil_append]
        exact sent_notified_self ch none
      have hother : ∀ k, k ≠ ch → sent (past ++ (s.events ++ [.applied e.msg] ++
          [.notified ch none])) k = sent (past ++ s.events) k := by
        intro k hk
        have hpair : sent [.applied e.msg, .notified ch none] k = [] :=
          sent_notified_of_ne hk.symm none
        rw [hall, sent_append, hpair, List.append_nil]
      refine ⟨fun i k hi => ?_, ⟨fun k => ?_, fun k c' hk hphase hempty => ?_,
        fun k c' hk hnil => ?_⟩, fun k hk => ?_⟩
      · -- whoever is still registered waits for another index, and is another call
        have hie : i ≠ e.index := by
          rintro rfl
          exact absurd (hi.symm.trans (AList.lookup_erase _ _)) (by simp)
        have hi : s.node.waiters.lookup i = some k := (AList.lookup_erase_ne hie).symm.trans hi
        obtain ⟨-, hle', c', hc', hci', hnone', hent'⟩ := h.held i k hi
        have hk : k ≠ ch := by
          rintro rfl
          rw [hc, Option.some.injEq] at hc'
          exact hie (hci' ▸ hc' ▸ hci)
        exact ⟨hlead, hle', c', hc', hci', (hother k hk).trans hnone',
          fun hlt => hent' (Nat.lt_of_succ_lt hlt)⟩
      · by_cases hk : k = ch
        · rw [hk]
          exact Nat.le_of_eq (congrArg List.length hself)
        · exact (congrArg List.length (hother k hk)).le.trans (h.outcomes.once k)
      · have hkch : k ≠ ch := by
          rintro rfl
          exact absurd (hself.symm.trans hempty) (by simp)
        have hlook := h.outcomes.registered k c' hk hphase ((hother k hkch).symm.trans hempty)
        have hne : c'.entry.index ≠ e.index := by
          intro heq
          rw [heq, hch, Option.some.injEq] at hlook
          exact hkch hlook.symm
        exact (AList.lookup_erase_ne hne).trans hlook
      · by_cases hkch : k = ch
        · subst hkch
          rw [hc, Option.some.injEq] at hk
          refine ⟨past ++ s.events, [], ?_⟩
          rw [List.append_nil, ← hk, hown]
          exact hall.symm
        · have hold := h.outcomes.own k c' hk (hother k hkch ▸ hnil)
          exact hall ▸ hold.trans (List.prefix_append _ _).isInfix
      · by_cases hkch : k = ch
        · exact hkch ▸ (List.getElem?_eq_some_iff.1 hc).1
        · exact h.known k fun hempty => hk ((hother k hkch).trans hempty)

/-- Calls wait under the index of an entry. -/
theorem applyLoop (h : Registrations calls past s)
    (hindex : ∀ i e, s.node.entryAtLocked i = some e → e.index = i) (fuel : Nat) :
    Registrations calls past (Locked.applyLoop fuel s) := by
  induction fuel generalizing s with
  | zero => exact h
  | succ fuel ih =>
      unfold Locked.applyLoop
      by_cases hlt : s.node.lastApplied < s.node.commitIndex
      · rw [if_pos hlt]
        dsimp only
        cases he : (s.modify fun n =>
            { n with lastApplied := n.lastApplied + 1 }).node.entryAtLocked
            (s.modify fun n => { n with lastApplied := n.lastApplied + 1 }).node.lastApplied with
        | none =>
            exact h.spares ⟨rfl, ⟨[], (List.append_nil _).symm, by simp⟩,
              Or.inr ⟨rfl, le_refl _, Nat.le_succ _, fun _ _ _ => rfl⟩⟩
        | some e =>
            have hat : s.node.entryAtLocked (s.node.lastApplied + 1) = some e := he
            refine ih (h.applyEntryLocked hat (hindex _ e hat)) fun i x hx => hindex i x ?_
            have hkeep : KeepsLog s ((s.modify fun n =>
                { n with lastApplied := n.lastApplied + 1 }).applyEntryLocked e) :=
              KeepsLog.trans (.modify rfl rfl rfl rfl) (Locked.keepsLog_applyEntryLocked _ e)
            rw [← hkeep.entryAtLocked]
            exact hx
      · rw [if_neg hlt]
        exact h

theorem applyCommittedLocked (h : Registrations calls past s)
    (hindex : ∀ i e, s.node.entryAtLocked i = some e → e.index = i) :
    Registrations calls past s.applyCommittedLocked := by
  have hloop := h.applyLoop hindex (s.node.commitIndex - s.node.lastApplied)
  unfold Locked.applyCommittedLocked
  dsimp only
  split
  · exact hloop.spares (.silent rfl rfl rfl rfl rfl rfl)
  · exact hloop

theorem advanceLoop (h : Registrations calls past s)
    (hindex : ∀ i e, s.node.entryAtLocked i = some e → e.index = i) (N : Nat) :
    Registrations calls past (s.advanceLoop N) := by
  induction N with
  | zero => exact h
  | succ N ih =>
      unfold Locked.advanceLoop
      split
      · split
        · have hcommit : Registrations calls past ((s.modify fun n =>
              { n with commitIndex := N + 1 }).emit
              [.advancedCommit { s.node with commitIndex := N + 1 }]) := by
            refine h.spares (.frame rfl rfl rfl rfl rfl rfl fun x hx => ?_)
            rw [List.mem_singleton.1 hx]
            trivial
          exact hcommit.applyCommittedLocked hindex
        · exact ih
      · exact h

theorem handleAppendEntriesReply (h : Registrations calls past s)
    (hindex : ∀ i e, s.node.entryAtLocked i = some e → e.index = i) (T : Nat)
    (out : OutgoingAppendEntries) (reply : AppendEntriesReply) (fails : Bool) :
    Registrations calls past (s.handleAppendEntriesReply T out reply fails).1 := by
  unfold Locked.handleAppendEntriesReply
  split
  · exact h
  · unfold Locked.handleAppendEntriesReplyLocked
    dsimp only
    split
    · exact h.observeTermLocked _ _
    · split
      · have hmatch : Registrations calls past (s.modify fun n =>
            n.recordMatch out.peer (out.prevIndex + out.numEntries)) :=
          h.spares (.silent rfl rfl rfl rfl rfl rfl)
        exact hmatch.advanceLoop hindex _
      · exact h.spares (.silent rfl rfl rfl rfl rfl rfl)

/-- What is done in a critical section is done. -/
theorem finished (h : Registrations calls past s) :
    Registrations calls (past ++ s.events) s.node.lock := by
  have hall : past ++ s.events ++ s.node.lock.events = past ++ s.events := List.append_nil _
  refine ⟨?_, ?_, ?_⟩
  · rw [hall]
    exact h.held
  · rw [hall]
    exact h.outcomes
  · rw [hall]
    exact h.known

/-- Every operation keeps track. -/
theorem operate {n : Node} (h : Registrations calls past n.lock) (hin : n.InRange) {op : Operation}
    (hop : op.Ordinary) : Registrations calls past (n.operate op) := by
  have hindex : ∀ i e, n.entryAtLocked i = some e → e.index = i := by
    intro i e he
    obtain ⟨hlt, hle⟩ := Node.inside_of_entryAtLocked he
    unfold Node.lastLogIndexLocked at hle
    unfold Node.entryAtLocked at he
    rw [if_neg (by omega)] at he
    have := hin.positional _ e he
    omega
  cases op with
  | appendEntries req f => exact h.appendEntries req f
  | requestVote req f => exact h.requestVote req f
  | startElection fails => exact h.startElection fails
  | soloElection e => exact h.soloElection e
  | handleRequestVoteReply e reply fails => exact h.handleRequestVoteReply e reply fails
  | broadcastAppendEntries => exact h
  | handleAppendEntriesReply term out reply fails =>
      exact h.handleAppendEntriesReply hindex term out reply fails
  | propose command => exact h.spares (Locked.spares_propose _ _)
  | proposeSync command ch => exact absurd hop id
  | getLogStatus => exact h
  | streamLogRange fromIndex toIndex => exact h
  | confirmCompaction req => exact h.spares (Locked.spares_confirmCompaction _ _)
  | pollCompact file => exact h.spares (Locked.spares_pollCompact _ _)
  | catchUpFromSnapshot file => exact absurd hop id

/-- A leader registers a call for the entry it has just appended. -/
theorem register {n : Node} (h : Registrations calls past n.lock) (hrole : n.role = .leader)
    (command : List UInt8) :
    Registrations (calls ++ [⟨⟨n.currentTerm, n.lastLogIndexLocked + 1, command⟩, .waiting⟩]) past
      ((n.lock.appendLocalLocked command).modify fun m =>
        { m with waiters := m.waiters.insert (n.lastLogIndexLocked + 1) calls.length }) := by
  have hlog := h.spares (n.lock.spares_appendLog
    [⟨n.currentTerm, n.lastLogIndexLocked + 1, command⟩])
  have hfresh : sent (past ++ n.lock.events) calls.length = [] := by
    refine Classical.byContradiction fun hne => ?_
    exact absurd (h.known _ hne) (Nat.lt_irrefl _)
  have hold : ∀ {k c}, calls[k]? = some c → (calls ++
      [⟨⟨n.currentTerm, n.lastLogIndexLocked + 1, command⟩, .waiting⟩])[k]? = some c := fun hk => by
    rw [List.getElem?_append_left (List.getElem?_eq_some_iff.1 hk).1]
    exact hk
  have hnew : ∀ {k c}, (calls ++ [⟨⟨n.currentTerm, n.lastLogIndexLocked + 1, command⟩,
      .waiting⟩])[k]? = some c → calls[k]? = some c ∨ (k = calls.length ∧
        c = ⟨⟨n.currentTerm, n.lastLogIndexLocked + 1, command⟩, .waiting⟩) := fun {k c} hk => by
    rcases Nat.lt_or_ge k calls.length with hlt | hge
    · rw [List.getElem?_append_left hlt] at hk
      exact Or.inl hk
    · rw [List.getElem?_append_right hge] at hk
      have hzero : k - calls.length = 0 := by
        have := (List.getElem?_eq_some_iff.1 hk).1
        simpa using this
      rw [hzero] at hk
      exact Or.inr ⟨by omega, (Option.some.inj hk).symm⟩
  refine ⟨fun i k hi => ?_, ⟨h.outcomes.once, fun k c hk hphase hempty => ?_,
    fun k c hk hnil => ?_⟩, fun k hk => ?_⟩
  · by_cases hieq : i = n.lastLogIndexLocked + 1
    · subst hieq
      have hk : calls.length = k := Option.some.inj ((AList.lookup_insert _).symm.trans hi)
      refine ⟨hrole, ?_, ⟨⟨n.currentTerm, n.lastLogIndexLocked + 1, command⟩, .waiting⟩, ?_, rfl,
        hk ▸ hfresh, fun _ => ?_⟩
      · change n.logOffset + n.log.length + 1 ≤ n.logOffset + (n.log ++ [_]).length
        rw [List.length_append]
        exact le_refl _
      · rw [← hk, List.getElem?_concat_length]
      · exact n.entryAtLocked_appendLocal command
    · have hi : n.waiters.lookup i = some k := (AList.lookup_insert_ne hieq).symm.trans hi
      obtain ⟨hlead, hle, c, hc, hrest⟩ := hlog.held i k hi
      exact ⟨hlead, hle, c, hold hc, hrest⟩
  · rcases hnew hk with hk | ⟨rfl, rfl⟩
    · have hlook := h.outcomes.registered k c hk hphase hempty
      have hle := (h.held _ k hlook).2.1
      refine (AList.lookup_insert_ne ?_).trans hlook
      intro heq
      rw [heq] at hle
      exact absurd hle (Nat.not_succ_le_self _)
    · exact AList.lookup_insert _
  · rcases hnew hk with hk | ⟨rfl, rfl⟩
    · exact h.outcomes.own k c hk hnil
    · exact absurd (hfresh ▸ hnil) List.not_mem_nil
  · rw [List.length_append]
    exact Nat.lt_succ_of_lt (h.known k hk)

end Registrations

/-! ## Runs -/

/-- The invariant of a state. -/
structure SyncNode.Sound (s : SyncNode) : Prop where
  inRange : s.node.InRange
  registrations : Registrations s.calls s.events s.node.lock

namespace SyncNode

variable {s s' : SyncNode}

theorem Sound.noneLost (h : s.Sound) : s.NoneLost := by
  have hout := h.registrations.outcomes
  rwa [show s.events ++ s.node.lock.events = s.events from List.append_nil _] at hout

/-- A call goes on to another phase; it may give up if nobody else is registered under its
index, or if its registration is left alone. -/
theorem Sound.setPhase (h : s.Sound) {k : Nat} {c : SyncCall} (hk : s.calls[k]? = some c)
    (hphase : c.phase ≠ .gaveUp) (phase : SyncPhase) : (s.setPhase k c phase).Sound := by
  have hlt := (List.getElem?_eq_some_iff.1 hk).1
  have hget : ∀ j, (s.calls.set k { c with phase := phase })[j]? =
      if j = k then some { c with phase := phase } else s.calls[j]? := by
    intro j
    by_cases hj : j = k
    · rw [if_pos hj, hj, List.getElem?_set_self hlt]
    · rw [if_neg hj, List.getElem?_set_ne (Ne.symm hj)]
  have hcall : ∀ {j : Nat} {c' : SyncCall},
      (s.calls.set k { c with phase := phase })[j]? = some c' → ∃ c₀, s.calls[j]? = some c₀ ∧
        c₀.entry = c'.entry ∧ (c'.phase ≠ .gaveUp → c₀.phase ≠ .gaveUp) := by
    intro j c' hj
    rw [hget] at hj
    by_cases hjk : j = k
    · rw [if_pos hjk, Option.some.injEq] at hj
      exact ⟨c, hjk ▸ hk, hj ▸ rfl, fun _ => hphase⟩
    · rw [if_neg hjk] at hj
      exact ⟨c', hj, rfl, id⟩
  refine ⟨h.inRange, ⟨fun i j hi => ?_, ⟨h.registrations.outcomes.once,
    fun j c' hj hne hempty => ?_, fun j c' hj hnil => ?_⟩, fun j hj => ?_⟩⟩
  · obtain ⟨hlead, hle, c₀, hc₀, hci, hnone, hent⟩ := h.registrations.held i j hi
    refine ⟨hlead, hle, ?_⟩
    by_cases hjk : j = k
    · subst hjk
      rw [hk, Option.some.injEq] at hc₀
      subst hc₀
      exact ⟨{ c with phase := phase }, (hget j).trans (if_pos rfl), hci, hnone, hent⟩
    · exact ⟨c₀, ((hget j).trans (if_neg hjk)).trans hc₀, hci, hnone, hent⟩
  · obtain ⟨c₀, hc₀, hentry, hwas⟩ := hcall hj
    exact hentry ▸ h.registrations.outcomes.registered j c₀ hc₀ (hwas hne) hempty
  · obtain ⟨c₀, hc₀, hentry, -⟩ := hcall hj
    exact hentry ▸ h.registrations.outcomes.own j c₀ hc₀ hnil
  · change j < (s.calls.set k _).length
    rw [List.length_set]
    exact h.registrations.known j hj

/-- The cleanup of a call that has given up. -/
theorem Sound.unregister (h : s.Sound) {i : Nat}
    (halone : ∀ j c, s.calls[j]? = some c → c.entry.index = i → c.phase ≠ .gaveUp →
      sent s.events j ≠ []) :
    Sound { s with node := { s.node with waiters := s.node.waiters.erase i } } := by
  have hnil : s.events ++ s.node.lock.events = s.events := List.append_nil _
  refine ⟨⟨h.inRange.positional, h.inRange.nonempty, h.inRange.capacity⟩, ⟨fun i' j hi => ?_,
    ⟨h.registrations.outcomes.once, fun j c hj hne hempty => ?_, h.registrations.outcomes.own⟩,
    h.registrations.known⟩⟩
  · exact h.registrations.held i' j (Locked.subMap_erase _ _ i' j hi)
  · have hlook := h.registrations.outcomes.registered j c hj hne hempty
    refine (AList.lookup_erase_ne fun heq => ?_).trans hlook
    exact halone j c hj heq hne (hnil ▸ hempty)

theorem Sound.step {a : SyncStep} (h : s.Sound) (hok : s.AloneAtIndex a)
    (hs' : s.step a = some s') : s'.Sound := by
  cases a with
  | operate op hop =>
      cases hs'
      have hnumbered : op.Numbered := by
        cases op with
        | appendEntries req f => exact hop
        | _ => trivial
      refine ⟨?_, (h.registrations.operate h.inRange hop).finished⟩
      rw [Node.node_operate]
      exact h.inRange.perform hnumbered
  | proposeSync command =>
      unfold SyncNode.step at hs'
      dsimp only at hs'
      by_cases hrole : s.node.role = .leader
      · rw [Locked.proposeSync_of_leader (s := s.node.lock) hrole] at hs'
        cases hs'
        have happ := Node.InRange.appendLocalLocked (s := s.node.lock) h.inRange command
        exact ⟨⟨happ.positional, happ.nonempty, happ.capacity⟩,
          (h.registrations.register hrole command).finished⟩
      · rw [Locked.proposeSync_of_ne (s := s.node.lock) hrole] at hs'
        cases hs'
        exact h
  | receive k =>
      unfold SyncNode.step at hs'
      dsimp only at hs'
      cases hk : s.calls[k]? with
      | none =>
          rw [hk] at hs'
          exact absurd hs' (by simp)
      | some c =>
          cases hsent : sent s.events k with
          | nil =>
              rw [hk, hsent] at hs'
              exact absurd hs' (by simp)
          | cons outcome rest =>
              rw [hk, hsent] at hs'
              dsimp only at hs'
              by_cases hphase : c.phase = .waiting
              · rw [if_pos hphase] at hs'
                cases hs'
                exact h.setPhase hk (by rw [hphase]; decide) _
              · rw [if_neg hphase] at hs'
                exact absurd hs' (by simp)
  | giveUp k =>
      unfold SyncNode.step at hs'
      dsimp only at hs'
      cases hk : s.calls[k]? with
      | none =>
          rw [hk] at hs'
          exact absurd hs' (by simp)
      | some c =>
          rw [hk] at hs'
          dsimp only at hs'
          by_cases hphase : c.phase = .waiting
          · rw [if_pos hphase] at hs'
            cases hs'
            exact h.setPhase hk (by rw [hphase]; decide) _
          · rw [if_neg hphase] at hs'
            exact absurd hs' (by simp)
  | cleanup k =>
      unfold SyncNode.step at hs'
      dsimp only at hs'
      cases hk : s.calls[k]? with
      | none =>
          rw [hk] at hs'
          exact absurd hs' (by simp)
      | some c =>
          rw [hk] at hs'
          dsimp only at hs'
          by_cases hphase : c.phase = .cancelled
          · rw [if_pos hphase] at hs'
            cases hs'
            refine (h.setPhase hk (by rw [hphase]; decide) .gaveUp).unregister ?_
            intro j c' hj hidx hne
            by_cases hjk : j = k
            · -- the call itself has given up
              have hself : (s.calls.set k { c with phase := .gaveUp })[j]? =
                  some { c with phase := .gaveUp } := by
                rw [hjk, List.getElem?_set_self (List.getElem?_eq_some_iff.1 hk).1]
              rw [← Option.some.inj (hself.symm.trans hj)] at hne
              exact absurd rfl hne
            · have hj : s.calls[j]? = some c' :=
                (List.getElem?_set_ne (Ne.symm hjk)).symm.trans hj
              exact hok c hk hphase j c' hj hjk hidx hne
          · rw [if_neg hphase] at hs'
            exact absurd hs' (by simp)

/-- A cleanup that finds another call under its index takes its registration back. -/
theorem lost_of_not_alone {a : SyncStep} (hok : ¬ s.AloneAtIndex a) :
    ∃ s', s.step a = some s' ∧ ¬ s'.NoneLost := by
  cases a with
  | operate op hop => exact absurd trivial hok
  | proposeSync command => exact absurd trivial hok
  | receive k => exact absurd trivial hok
  | giveUp k => exact absurd trivial hok
  | cleanup k =>
      unfold AloneAtIndex at hok
      dsimp only at hok
      push Not at hok
      obtain ⟨c, hk, hphase, j, c', hj, hjk, hidx, hne, hempty⟩ := hok
      refine ⟨{ s.setPhase k c .gaveUp with
        node := { s.node with waiters := s.node.waiters.erase c.entry.index } }, ?_, fun h => ?_⟩
      · unfold SyncNode.step
        dsimp only
        rw [hk]
        dsimp only
        rw [if_pos hphase]
      · have hj' : (s.calls.set k { c with phase := .gaveUp })[j]? = some c' :=
          (List.getElem?_set_ne (Ne.symm hjk)).trans hj
        have hlook := h.registered j c' hj' hne hempty
        dsimp only at hlook
        rw [hidx, AList.lookup_erase] at hlook
        exact absurd hlook (by simp)

end SyncNode

/-- A node that has just started, over a well-formed directory. -/
theorem Disk.WellFormed.sound {d : Disk} (hd : d.WellFormed) (id address : String)
    (peers : List String) (cap : Nat) :
    SyncNode.Sound ⟨newNode id address peers cap d, [], []⟩ := by
  refine ⟨hd.inRange_newNode id address peers cap, ⟨fun i k hi => ?_, ⟨fun k => Nat.zero_le _,
    fun k c hk => absurd hk (by simp), fun k c hk => absurd hk (by simp)⟩,
    fun k hk => absurd rfl hk⟩⟩
  exact absurd (hi.symm.trans (AList.lookup_empty i)) (by simp)

/-- **Outcomes.**  In every run of a node and its `ProposeSync` calls, no channel is sent two
values, every call is registered until its own outcome is sent or it has given up, and only its
own entry acknowledges it, exactly if each cleanup happens when every other call for the same
index that has not given up has been sent its outcome. -/
theorem outcomes_iff (id address : String) (peers : List String) (cap : Nat) (d : Disk)
    (hd : d.WellFormed) (steps : List SyncStep) :
    Runs.Always SyncNode.step SyncNode.NoneLost ⟨newNode id address peers cap d, [], []⟩ steps ↔
      Runs.Along SyncNode.step SyncNode.AloneAtIndex ⟨newNode id address peers cap d, [], []⟩
        steps :=
  Runs.always_iff_along (I := SyncNode.Sound) (fun _ h => h.noneLost)
    (fun _ _ _ h hok hs' => h.step hok hs') (fun _ _ _ hok => SyncNode.lost_of_not_alone hok)
    (hd.sound id address peers cap)

/-- `a` wins an election in a cluster of three. -/
def winsElection (term lastLogIndex lastLogTerm : Nat) : List SyncStep :=
  [.operate (.startElection false) trivial,
    .operate (.handleRequestVoteReply
      ⟨⟨term, "a", lastLogIndex, lastLogTerm⟩, 2, 1, fun _ => .finished⟩ ⟨term, true⟩ false)
      trivial]

/-- The first call is told that leadership is lost, and its entry is overwritten.  The second
call gets the same index, and is told that its entry is applied before the first one cleans up. -/
def cleanupAfterOutcome : List SyncStep :=
  winsElection 1 0 0 ++
    [.operate (.propose [1]) trivial, .proposeSync [2],
      .operate (.appendEntries ⟨2, "b", 0, 0, [⟨2, 1, [9]⟩], 0⟩ noFaults) (.cons rfl (.nil _))] ++
    winsElection 3 1 2 ++
    [.proposeSync [3],
      .operate (.handleAppendEntriesReply 3 ⟨"b", ⟨3, "a", 1, 2, [⟨3, 2, [3]⟩], 0⟩, 1, 1⟩
        { term := 3, success := true } false) trivial,
      .giveUp 0, .cleanup 0, .receive 1]

/-- Two calls for one index, each with its own outcome. -/
theorem outcomes_of_two_calls :
    (∃ s, Runs.exec SyncNode.step ⟨newNode "a" "a" ["b", "c"] 10 Disk.empty, [], []⟩
        cleanupAfterOutcome = some s ∧
      s.calls.map SyncCall.entry = [⟨1, 2, [2]⟩, ⟨3, 2, [3]⟩] ∧
      sent s.events 0 = [some .leadershipLost] ∧ sent s.events 1 = [none]) ∧
    Runs.Always SyncNode.step SyncNode.NoneLost ⟨newNode "a" "a" ["b", "c"] 10 Disk.empty, [], []⟩
      cleanupAfterOutcome :=
  ⟨Runs.exists_of_exec _ (by decide +kernel),
    (outcomes_iff "a" "a" ["b", "c"] 10 Disk.empty Disk.wellFormed_empty _).2 (by decide +kernel)⟩

/-- The first call is told that leadership is lost, and its entry is overwritten.  The second
call gets the same index.  The late cleanup of the first takes the registration of the second
back, and nobody tells the second call when its entry is applied. -/
def lateCleanup : List SyncStep :=
  winsElection 1 0 0 ++
    [.operate (.propose [1]) trivial, .proposeSync [2],
      .operate (.appendEntries ⟨2, "b", 0, 0, [⟨2, 1, [9]⟩], 0⟩ noFaults) (.cons rfl (.nil _))] ++
    winsElection 3 1 2 ++
    [.proposeSync [3], .giveUp 0, .cleanup 0,
      .operate (.handleAppendEntriesReply 3 ⟨"b", ⟨3, "a", 1, 2, [⟨3, 2, [3]⟩], 0⟩, 1, 1⟩
        { term := 3, success := true } false) trivial]

theorem outcome_lost :
    ∃ s, Runs.exec SyncNode.step ⟨newNode "a" "a" ["b", "c"] 10 Disk.empty, [], []⟩ lateCleanup =
        some s ∧
      s.calls = [⟨⟨1, 2, [2]⟩, .gaveUp⟩, ⟨⟨3, 2, [3]⟩, .waiting⟩] ∧
      s.node.waiters.lookup 2 = none ∧ sent s.events 0 = [some .leadershipLost] ∧
      sent s.events 1 = [] ∧ NodeEvent.applied ⟨2, 3, [3]⟩ ∈ s.events :=
  Runs.exists_of_exec _ (by decide +kernel)

end B5KvStore
