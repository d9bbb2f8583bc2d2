import B5KvStore.Raft.LogView

/-!
# What the shared helpers do

One lemma for each helper the handlers are built from, saying what it does to the
node, the disk and the outside world.

* `Locked.setRoleLocked_spec`, `Locked.observeTermLocked_spec`.
* `Locked.applyCommittedLocked_spec` — which entries are applied, in which order.
* `Locked.becomeLeaderLocked_spec`.
-/

namespace B5KvStore

/-- The message an entry is applied as. -/
def LogEntry.msg (e : LogEntry) : ApplyMsg := ⟨e.index, e.term, e.command⟩

/-- The message of a call of `ApplyFn`. -/
def NodeEvent.msg? : NodeEvent → Option ApplyMsg
  | .applied msg => some msg
  | _ => none

/-- Proposals that wait are told that leadership is lost, and nothing else is. -/
def OnlyAborts (es : List NodeEvent) : Prop :=
  ∀ e ∈ es, ∃ ch, e = .notified ch (some .leadershipLost)

namespace Locked

theorem setRoleLocked_spec (s : Locked) (r : Role) :
    ∃ w es, s.setRoleLocked r =
        ⟨{ s.node with role := r, waiters := w }, s.writes, s.events ++ es⟩ ∧ OnlyAborts es ∧
      (w = ∅ ∨ w = s.node.waiters) ∧ (s.node.role = .leader → r ≠ .leader → w = ∅) := by
  unfold setRoleLocked
  split
  · refine ⟨∅, _, rfl, ?_, Or.inl rfl, fun _ _ => rfl⟩
    intro e he
    obtain ⟨w, -, rfl⟩ := List.mem_map.1 he
    exact ⟨w.2, rfl⟩
  · rename_i hrole
    refine ⟨s.node.waiters, [], ?_, by simp [OnlyAborts], Or.inr rfl,
      fun h h' => absurd ⟨h, h'⟩ hrole⟩
    simp [modify]

/-- A later term is observed and saved. -/
theorem observeTermLocked_spec (s : Locked) {T : Nat} (hT : s.node.currentTerm < T) :
    ∃ w es, s.observeTermLocked T false =
        (⟨{ s.node with currentTerm := T, votedFor := "", role := .follower, waiters := w },
          s.writes ++ [.saveState T ""], s.events ++ es⟩, none) ∧ OnlyAborts es := by
  obtain ⟨w, es, heq, hes, -⟩ := (s.modify fun n =>
    { n with currentTerm := T, votedFor := "" }).setRoleLocked_spec .follower
  refine ⟨w, es, ?_, hes⟩
  unfold observeTermLocked
  rw [if_neg (by omega)]
  dsimp only
  rw [heq]
  rfl

theorem observeRequest_of_le (s : Locked) {T : Nat} (hT : T ≤ s.node.currentTerm) (fails : Bool) :
    s.observeRequest T fails = (s, none) := by
  unfold observeRequest
  rw [if_neg (by omega)]

theorem observeRequest_of_lt (s : Locked) {T : Nat} (hT : s.node.currentTerm < T) (fails : Bool) :
    s.observeRequest T fails = s.observeTermLocked T fails := by
  unfold observeRequest
  rw [if_pos hT]

theorem becomeLeaderLocked_spec (s : Locked) (h : s.node.role = .candidate) :
    ∃ n', s.becomeLeaderLocked = ⟨n', s.writes, s.events ++ [.becameLeader n']⟩ ∧
      n' = { s.node with
        role := .leader
        currentLeader := s.node.address
        nextIndex := s.node.peers.foldl (fun m p => m.insert p (s.node.lastLogIndexLocked + 1)) ∅
        matchIndex := s.node.peers.foldl (fun m p => m.insert p 0) ∅ } := by
  unfold becomeLeaderLocked
  rw [if_neg (by simp [h])]
  exact ⟨_, rfl, rfl⟩

/-! ## Applying committed entries -/

/-- The events of applying the entries `lo + 1, …, hi` of `F`: each is handed to
`ApplyFn` in order, and whoever waits for one of them is notified. -/
structure Applies (F : List LogEntry) (lo hi : Nat) (waiters : AList fun _ : Nat => Nat)
    (es : List NodeEvent) : Prop where
  msgs : es.filterMap NodeEvent.msg? = ((F.take hi).drop lo).map LogEntry.msg
  only : ∀ e ∈ es, (∃ msg, e = .applied msg) ∨
    ∃ ch i, lo < i ∧ i ≤ hi ∧ waiters.lookup i = some ch ∧ e = .notified ch none

/-- The waiters that are left are among those there were. -/
def SubMap (w w' : AList fun _ : Nat => Nat) : Prop :=
  ∀ i ch, w.lookup i = some ch → w'.lookup i = some ch

theorem subMap_erase (w : AList fun _ : Nat => Nat) (i : Nat) : SubMap (w.erase i) w := by
  intro j ch hj
  by_cases hji : j = i
  · subst hji
    rw [AList.lookup_erase] at hj
    exact absurd hj (by simp)
  · rwa [AList.lookup_erase_ne hji] at hj

theorem applyEntryLocked_spec (s : Locked) (e : LogEntry) :
    ∃ w es, s.applyEntryLocked e = ⟨{ s.node with waiters := w }, s.writes, s.events ++ es⟩ ∧
      SubMap w s.node.waiters ∧ es.filterMap NodeEvent.msg? = [e.msg] ∧
      ∀ x ∈ es, (∃ msg, x = .applied msg) ∨
        ∃ ch, s.node.waiters.lookup e.index = some ch ∧ x = .notified ch none := by
  unfold applyEntryLocked
  dsimp only
  split
  · rename_i ch hch
    refine ⟨s.node.waiters.erase e.index, [.applied e.msg, .notified ch none], ?_,
      subMap_erase _ _, rfl, ?_⟩
    · simp [modify, emit, LogEntry.msg]
    · intro x hx
      simp only [List.mem_cons, List.not_mem_nil, or_false] at hx
      rcases hx with rfl | rfl
      · exact Or.inl ⟨_, rfl⟩
      · exact Or.inr ⟨ch, hch, rfl⟩
  · refine ⟨s.node.waiters, [.applied e.msg], rfl, fun _ _ h => h, rfl, ?_⟩
    intro x hx
    rw [List.mem_singleton] at hx
    exact Or.inl ⟨_, hx⟩

theorem applyLoop_spec {F : List LogEntry} (hplaced : Placed F) (fuel : Nat) (s : Locked)
    (hview : LogView F s.node.logOffset s.node.log)
    (hfuel : s.node.lastApplied + fuel = s.node.commitIndex) (hF : s.node.commitIndex ≤ F.length)
    (hoff : s.node.logOffset = 0 ∨ s.node.logOffset + 1 ≤ s.node.lastApplied) :
    ∃ w es, applyLoop fuel s =
        ⟨{ s.node with lastApplied := s.node.commitIndex, waiters := w }, s.writes,
          s.events ++ es⟩ ∧
      SubMap w s.node.waiters ∧
      Applies F s.node.lastApplied s.node.commitIndex s.node.waiters es := by
  induction fuel generalizing s with
  | zero =>
      rw [Nat.add_zero] at hfuel
      refine ⟨s.node.waiters, [], ?_, fun _ _ h => h, ⟨?_, by simp⟩⟩
      · rw [← hfuel]
        simp [applyLoop]
      · rw [hfuel, List.drop_eq_nil_of_le (by rw [List.length_take]; omega)]
        rfl
  | succ fuel ih =>
      obtain ⟨x, hx⟩ : ∃ x, F[s.node.lastApplied]? = some x :=
        ⟨_, List.getElem?_eq_getElem (by omega)⟩
      have hxi : x.index = s.node.lastApplied + 1 := hplaced _ x hx
      -- the node with the counter moved on
      obtain ⟨t, ht⟩ : ∃ t, t = s.modify fun n => { n with lastApplied := n.lastApplied + 1 } :=
        ⟨_, rfl⟩
      have hentry : t.node.entryAtLocked t.node.lastApplied = some x := by
        have hv : LogView F t.node.logOffset t.node.log := by rw [ht]; exact hview
        have hlast : t.node.lastApplied = s.node.lastApplied + 1 := by rw [ht]; rfl
        have hoff' : t.node.logOffset = s.node.logOffset := by rw [ht]; rfl
        rw [Node.entryAtLocked_eq hv (by omega) (by omega), hlast, Nat.add_sub_cancel]
        exact hx
      have hstep : applyLoop (fuel + 1) s = applyLoop fuel (t.applyEntryLocked x) := by
        conv_lhs => unfold applyLoop
        rw [if_pos (by omega)]
        dsimp only
        rw [← ht, hentry]
      obtain ⟨w₁, es₁, heq₁, hsub₁, hmsg₁, hes₁⟩ := t.applyEntryLocked_spec x
      obtain ⟨w₂, es₂, heq₂, hsub₂, hap⟩ := ih (t.applyEntryLocked x)
        (by rw [heq₁, ht]; exact hview)
        (by rw [heq₁, ht]; simp only [node_modify]; omega)
        (by rw [heq₁, ht]; exact hF)
        (by rw [heq₁, ht]; simp only [node_modify]; omega)
      rw [heq₁] at heq₂ hsub₂ hap
      subst ht
      refine ⟨w₂, es₁ ++ es₂, ?_, fun i ch h => hsub₁ i ch (hsub₂ i ch h), ⟨?_, ?_⟩⟩
      · rw [hstep, heq₁, heq₂]
        simp
      · have hcons : (F.take s.node.commitIndex).drop s.node.lastApplied =
            x :: (F.take s.node.commitIndex).drop (s.node.lastApplied + 1) := by
          have hlt : s.node.lastApplied < (F.take s.node.commitIndex).length := by
            rw [List.length_take]; omega
          rw [List.drop_eq_getElem_cons hlt]
          congr 1
          have : (F.take s.node.commitIndex)[s.node.lastApplied]? = some x := by
            rw [List.getElem?_take, if_pos (by omega)]
            exact hx
          rw [List.getElem?_eq_getElem hlt, Option.some.injEq] at this
          exact this
        rw [List.filterMap_append, hmsg₁, hap.msgs, hcons]
        rfl
      · intro e he
        rcases List.mem_append.1 he with he | he
        · refine (hes₁ e he).imp_right ?_
          rintro ⟨ch, hch, rfl⟩
          exact ⟨ch, x.index, by omega, by omega, hch, rfl⟩
        · refine (hap.only e he).imp_right ?_
          rintro ⟨ch, i, hlo, hhi, hch, rfl⟩
          simp only [node_modify] at hlo hhi hch
          exact ⟨ch, i, by omega, hhi, hsub₁ i ch hch, rfl⟩

/-- Whatever the log holds, applying only moves `lastApplied`, and only calls that wait for
the index an entry of the log carries are told. -/
theorem applyLoop_frame (fuel : Nat) (s : Locked) :
    ∃ k w es, applyLoop fuel s =
        ⟨{ s.node with lastApplied := k, waiters := w }, s.writes, s.events ++ es⟩ ∧
      SubMap w s.node.waiters ∧
      ∀ x ∈ es, (∃ msg, x = .applied msg) ∨
        ∃ i e ch, i ≤ s.node.commitIndex ∧ s.node.entryAtLocked i = some e ∧
          s.node.waiters.lookup e.index = some ch ∧ x = .notified ch none := by
  induction fuel generalizing s with
  | zero =>
      exact ⟨s.node.lastApplied, s.node.waiters, [], by simp [applyLoop], fun _ _ h => h, by simp⟩
  | succ fuel ih =>
      unfold applyLoop
      split
      · rename_i hlt
        dsimp only
        split
        · exact ⟨s.node.lastApplied + 1, s.node.waiters, [], by simp [modify], fun _ _ h => h,
            by simp⟩
        · rename_i e he
          obtain ⟨w₁, es₁, heq₁, hsub₁, -, hes₁⟩ := (s.modify fun n =>
            { n with lastApplied := n.lastApplied + 1 }).applyEntryLocked_spec e
          rw [heq₁]
          obtain ⟨k, w₂, es₂, heq₂, hsub₂, hes₂⟩ := ih ⟨{ s.node with
            lastApplied := s.node.lastApplied + 1, waiters := w₁ }, s.writes, s.events ++ es₁⟩
          refine ⟨k, w₂, es₁ ++ es₂, ?_, fun i ch h => hsub₁ i ch (hsub₂ i ch h), ?_⟩
          · refine heq₂.trans ?_
            rw [List.append_assoc]
          · intro x hx
            rcases List.mem_append.1 hx with hx | hx
            · refine (hes₁ x hx).imp_right ?_
              rintro ⟨ch, hch, rfl⟩
              exact ⟨s.node.lastApplied + 1, e, ch, hlt, he, hch, rfl⟩
            · refine (hes₂ x hx).imp_right ?_
              rintro ⟨i, e', ch, hi, he', hch, rfl⟩
              exact ⟨i, e', ch, hi, he', hsub₁ _ ch hch, rfl⟩
      · exact ⟨s.node.lastApplied, s.node.waiters, [], by simp, fun _ _ h => h, by simp⟩

theorem applyCommittedLocked_frame (s : Locked) :
    ∃ k w wake es, s.applyCommittedLocked =
        ⟨{ s.node with lastApplied := k, waiters := w, applyWake := wake }, s.writes,
          s.events ++ es⟩ ∧
      SubMap w s.node.waiters ∧
      ∀ x ∈ es, (∃ msg, x = .applied msg) ∨
        ∃ i e ch, i ≤ s.node.commitIndex ∧ s.node.entryAtLocked i = some e ∧
          s.node.waiters.lookup e.index = some ch ∧ x = .notified ch none := by
  obtain ⟨k, w, es, heq, hrest⟩ := applyLoop_frame (s.node.commitIndex - s.node.lastApplied) s
  unfold applyCommittedLocked
  dsimp only
  rw [heq]
  split
  · exact ⟨k, w, _, es, rfl, hrest⟩
  · exact ⟨k, w, s.node.applyWake, es, rfl, hrest⟩

/-- **Committed entries are applied one after the other**, each once. -/
theorem applyCommittedLocked_spec {F : List LogEntry} (hplaced : Placed F) (s : Locked)
    (hview : LogView F s.node.logOffset s.node.log)
    (hle : s.node.lastApplied ≤ s.node.commitIndex) (hF : s.node.commitIndex ≤ F.length)
    (hoff : s.node.logOffset = 0 ∨ s.node.logOffset + 1 ≤ s.node.lastApplied) :
    ∃ w wake es, s.applyCommittedLocked =
        ⟨{ s.node with lastApplied := s.node.commitIndex, waiters := w, applyWake := wake },
          s.writes, s.events ++ es⟩ ∧
      SubMap w s.node.waiters ∧
      Applies F s.node.lastApplied s.node.commitIndex s.node.waiters es := by
  obtain ⟨w, es, heq, hsub, hap⟩ := applyLoop_spec hplaced
    (s.node.commitIndex - s.node.lastApplied) s hview (by omega) hF hoff
  unfold applyCommittedLocked
  dsimp only
  rw [heq]
  split
  · exact ⟨w, _, es, rfl, hsub, hap⟩
  · exact ⟨w, s.node.applyWake, es, rfl, hsub, hap⟩

end Locked

/-- The entry a leader appends is found under its index. -/
theorem Node.entryAtLocked_appendLocal (n : Node) (command : List UInt8) :
    (n.lock.appendLocalLocked command).node.entryAtLocked (n.lastLogIndexLocked + 1) =
      some ⟨n.currentTerm, n.lastLogIndexLocked + 1, command⟩ := by
  change (if n.logOffset + n.log.length + 1 ≤ n.logOffset ∨
      n.logOffset + (n.log ++ [_]).length < n.logOffset + n.log.length + 1 then none
    else (n.log ++ [_])[n.logOffset + n.log.length + 1 - n.logOffset - 1]?) = _
  rw [List.length_append, List.length_singleton, if_neg (by omega),
    show n.logOffset + n.log.length + 1 - n.logOffset - 1 = n.log.length by omega,
    List.getElem?_concat_length]
  rfl

end B5KvStore
