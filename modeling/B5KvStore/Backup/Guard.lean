import B5KvStore.Lib.Runs
import B5KvStore.Backup.Store
import B5KvStore.Raft.Frame

/-!
# The concurrency guard

`Tick` takes a log that is nearly full for the sign of a cycle that is running elsewhere
and waits for it.  A leader that takes proposals, the compactor and its store: the guard is
right as long as the log does not get there without a cycle, and no cycle ends while the log
is there.  Once the log is full and no cycle is running, none ever starts again.

* `Watch.step` — the leader and the service, step by step.
* `Watch.Safe` — when proposals may come and cycles may end.
* `guard_during_cycle` — in such runs the guard only holds back while a cycle is running.
* `Watch.Full.run` — a full log without a cycle stays one.
-/

namespace B5KvStore

/-! ## The system -/

/-- A leader, the compactor with its store, what `GetLogStatus` has answered the tick under
way, and the `ConfirmCompaction` calls under way. -/
structure Watch where
  leader : Node
  backup : Backup
  status : Option LogStatusReply
  acks : List File

inductive WatchAction where
  | propose (command : List UInt8)
  | proposeSync (command : List UInt8) (ch : Nat)
  /-- A follower has answered. -/
  | reply (out : OutgoingAppendEntries) (reply : AppendEntriesReply)
  /-- The leader's own poll loop compacts to what the catalog offers. -/
  | pollCompact
  /-- The first half of `Tick`. -/
  | getLogStatus
  /-- The second half. -/
  | tick
  | stream (fails : Bool)
  | apply
  | verify (view : Option String)
  | commit (fails : Bool)
  /-- The leader handles a `ConfirmCompaction` call. -/
  | confirm (k : Nat)
  /-- The call has returned, or the compactor does not wait any longer. -/
  | finish
  /-- The service is restarted. -/
  | restart

namespace Watch

/-- The service starts beside a leader. -/
def start (n : Node) (d : Disk) : Watch := ⟨n, Backup.new d, none, []⟩

/-- One step, if it is possible. -/
def step (cfg : CompactorConfig) (decode : List UInt8 → Option KVCommand) (s : Watch) :
    WatchAction → Option Watch
  | .propose command => some { s with leader := (s.leader.lock.propose command).node }
  | .proposeSync command ch => some { s with leader := (s.leader.lock.proposeSync command ch).1.node }
  | .reply out reply => some { s with
      leader := (s.leader.lock.handleAppendEntriesReply s.leader.currentTerm out reply false).1.node }
  | .pollCompact => s.backup.store.file.map fun file =>
      { s with leader := (s.leader.lock.pollCompact file).node }
  | .getLogStatus => some { s with status := some s.leader.getLogStatus }
  | .tick => s.status.map fun status =>
      { s with backup := s.backup.tick cfg s.leader.address status, status := none }
  | .stream fails =>
      match s.backup.cycle with
      | .streaming .. => some { s with backup := s.backup.stream s.leader fails }
      | _ => none
  | .apply =>
      match s.backup.cycle with
      | .downloaded .. => some { s with backup := s.backup.apply decode }
      | _ => none
  | .verify view =>
      match s.backup.cycle with
      | .applied .. => some { s with backup := s.backup.verify view }
      | _ => none
  | .commit fails =>
      match s.backup.cycle with
      | .verified _ last => some { s with
          backup := s.backup.commit fails
          acks := s.acks ++ (s.backup.store.commit last.index last.term fails).2.toList }
      | _ => none
  | .confirm k => s.acks[k]?.map fun file =>
      { s with
        leader := (s.leader.lock.confirmCompaction ⟨file.lastIncludedIndex, .ok file⟩).1.node
        acks := s.acks.eraseIdx k }
  | .finish =>
      match s.backup.cycle with
      | .confirming .. => some { s with backup := s.backup.finish }
      | _ => none
  | .restart => some { s with backup := Backup.new s.backup.store.dataDir, status := none }

end Watch

/-- No cycle is running. -/
def CyclePhase.isIdle : CyclePhase → Bool
  | .idle => true
  | _ => false

theorem CyclePhase.isIdle_iff {cycle : CyclePhase} : cycle.isIdle = true ↔ cycle = .idle := by
  cases cycle <;> simp [CyclePhase.isIdle]

/-- `GetLogStatus` reports less than the guard. -/
def Node.BelowGuard (n : Node) (cfg : CompactorConfig) : Prop :=
  n.getLogStatus.occupancyPercent < cfg.concurrencyGuardPercent

instance (n : Node) (cfg : CompactorConfig) : Decidable (n.BelowGuard cfg) :=
  inferInstanceAs (Decidable (_ < _))

/-- The log stays below the guard with one more entry. -/
def Node.HasRoom (n : Node) (cfg : CompactorConfig) : Prop :=
  (n.log.length + 1) * 100 / n.logCapacityEntries < cfg.concurrencyGuardPercent

instance (n : Node) (cfg : CompactorConfig) : Decidable (n.HasRoom cfg) :=
  inferInstanceAs (Decidable (_ < _))

/-- The entries that are about to be applied. -/
def CyclePhase.entries? : CyclePhase → Option (List LogEntry)
  | .downloaded _ entries _ => some entries
  | _ => none

/-- The leader that is about to be confirmed. -/
def CyclePhase.leader? : CyclePhase → Option String
  | .applied leader _ => some leader
  | _ => none

/-- Does the step end the cycle that is running?  A download fails or is empty, an entry does
not decode, another leader is named, the snapshot cannot be written, or the cycle is through. -/
def Watch.EndsCycle (decode : List UInt8 → Option KVCommand) (s : Watch) : WatchAction → Prop
  | .stream fails => fails = true ∨
      ∀ r ∈ s.backup.cycle.range?, s.leader.streamLogRange r.2.1 r.2.2 = []
  | .apply => ∃ es ∈ s.backup.cycle.entries?, ∃ e ∈ es, decode e.command = none
  | .verify view => view ≠ s.backup.cycle.leader?
  | .commit fails => fails = true
  | .finish | .restart => True
  | _ => False

instance (decode : List UInt8 → Option KVCommand) (s : Watch) :
    (a : WatchAction) → Decidable (s.EndsCycle decode a)
  | .stream _ => inferInstanceAs (Decidable (_ ∨ _))
  | .apply => inferInstanceAs (Decidable (∃ es ∈ s.backup.cycle.entries?, ∃ e ∈ es,
      decode e.command = none))
  | .verify _ => inferInstanceAs (Decidable (_ ≠ _))
  | .commit fails => inferInstanceAs (Decidable (fails = true))
  | .finish | .restart => instDecidableTrue
  | .propose _ | .proposeSync _ _ | .reply _ _ | .pollCompact | .getLogStatus | .tick
  | .confirm _ => instDecidableFalse

/-- Without a cycle, proposals come only while the log has room below the guard; and a cycle
ends only while the log is below it. -/
def Watch.Safe (cfg : CompactorConfig) (decode : List UInt8 → Option KVCommand) (s : Watch)
    (a : WatchAction) : Prop :=
  match a with
  | .propose _ | .proposeSync _ _ => s.backup.cycle.isIdle = true → s.leader.HasRoom cfg
  | a => s.EndsCycle decode a → s.leader.BelowGuard cfg

instance Watch.decidableSafe (cfg : CompactorConfig) (decode : List UInt8 → Option KVCommand)
    (s : Watch) : (a : WatchAction) → Decidable (s.Safe cfg decode a)
  | .propose _ | .proposeSync _ _ => inferInstanceAs (Decidable (_ = true → _))
  | .stream _ | .apply | .verify _ | .commit _ | .finish | .restart | .reply _ _ | .pollCompact
  | .getLogStatus | .tick | .confirm _ => inferInstanceAs (Decidable (_ → _))

/-! ## The length of the log -/

namespace Locked

theorem length_compactLocked (s : Locked) (file : File) :
    (s.compactLocked file).1.node.log.length ≤ s.node.log.length := by
  rcases s.node_compactLocked file with heq | ⟨hlt, hle, hnode⟩
  · rw [heq]
  · rw [hnode]
    unfold Node.lastLogIndexLocked at hle
    simp
    omega

theorem capacity_compactLocked (s : Locked) (file : File) :
    (s.compactLocked file).1.node.logCapacityEntries = s.node.logCapacityEntries := by
  rcases s.node_compactLocked file with heq | ⟨-, -, hnode⟩
  · rw [heq]
  · rw [hnode]

/-- A proposal adds at most one entry. -/
theorem length_propose (s : Locked) (command : List UInt8) :
    (s.propose command).node.logCapacityEntries = s.node.logCapacityEntries ∧
    ((s.propose command).node.log.length = s.node.log.length ∨
      (s.propose command).node.log.length = s.node.log.length + 1) := by
  unfold propose
  split
  · exact ⟨rfl, Or.inl rfl⟩
  · exact ⟨rfl, Or.inr (by simp [appendLocalLocked, appendLog])⟩

theorem length_proposeSync (s : Locked) (command : List UInt8) (ch : Nat) :
    (s.proposeSync command ch).1.node.logCapacityEntries = s.node.logCapacityEntries ∧
    ((s.proposeSync command ch).1.node.log.length = s.node.log.length ∨
      (s.proposeSync command ch).1.node.log.length = s.node.log.length + 1) := by
  unfold proposeSync
  split
  · exact ⟨rfl, Or.inl rfl⟩
  · exact ⟨rfl, Or.inr (by simp [appendLocalLocked, appendLog])⟩

end Locked

/-- Of two logs of one capacity the shorter one is not fuller. -/
theorem Node.occupancy_mono {n n' : Node} (hlen : n'.log.length ≤ n.log.length)
    (hcap : n'.logCapacityEntries = n.logCapacityEntries) :
    n'.getLogStatus.occupancyPercent ≤ n.getLogStatus.occupancyPercent := by
  unfold Node.getLogStatus
  rw [hcap]
  exact Nat.div_le_div_right (Nat.mul_le_mul_right 100 hlen)

theorem Node.BelowGuard.mono {n n' : Node} {cfg : CompactorConfig} (h : n.BelowGuard cfg)
    (hlen : n'.log.length ≤ n.log.length) (hcap : n'.logCapacityEntries = n.logCapacityEntries) :
    n'.BelowGuard cfg := lt_of_le_of_lt (Node.occupancy_mono hlen hcap) h

/-! ## The guard is right -/

/-- When no cycle is running, the log is below the guard. -/
def Watch.Guarded (cfg : CompactorConfig) (s : Watch) : Prop :=
  s.backup.cycle = .idle → s.leader.BelowGuard cfg

namespace Watch.Guarded

variable {cfg : CompactorConfig} {decode : List UInt8 → Option KVCommand} {s s' : Watch}

/-- The leader's log gets no longer, and the service stays as it is. -/
theorem shorter (h : s.Guarded cfg) {n : Node} (hlen : n.log.length ≤ s.leader.log.length)
    (hcap : n.logCapacityEntries = s.leader.logCapacityEntries)
    (hbackup : s'.backup = s.backup) (hleader : s'.leader = n) : s'.Guarded cfg := by
  intro hidle
  rw [hleader]
  exact (h (hbackup ▸ hidle)).mono hlen hcap

/-- A log with room for one more entry takes it. -/
theorem longer (hroom : s.backup.cycle.isIdle = true → s.leader.HasRoom cfg)
    (hbackup : s'.backup = s.backup)
    (hlen : s'.leader.log.length = s.leader.log.length + 1)
    (hcap : s'.leader.logCapacityEntries = s.leader.logCapacityEntries) : s'.Guarded cfg := by
  intro hidle
  unfold Node.BelowGuard Node.getLogStatus
  rw [hlen, hcap]
  exact hroom (CyclePhase.isIdle_iff.2 (hbackup ▸ hidle))

/-- The leader stays as it is, and the cycle goes on or has ended at a good time. -/
theorem serve (hleader : s'.leader = s.leader)
    (hend : s'.backup.cycle = .idle → s.leader.BelowGuard cfg) : s'.Guarded cfg := by
  intro hidle
  rw [hleader]
  exact hend hidle

theorem step (h : s.Guarded cfg) {a : WatchAction} (hok : s.Safe cfg decode a)
    (hs : s.step cfg decode a = some s') : s'.Guarded cfg := by
  cases a with
  | propose command =>
      cases hs
      obtain ⟨hcap, hlen | hlen⟩ := s.leader.lock.length_propose command
      · exact h.shorter (Nat.le_of_eq hlen) hcap rfl rfl
      · exact longer hok rfl hlen hcap
  | proposeSync command ch =>
      cases hs
      obtain ⟨hcap, hlen | hlen⟩ := s.leader.lock.length_proposeSync command ch
      · exact h.shorter (Nat.le_of_eq hlen) hcap rfl rfl
      · exact longer hok rfl hlen hcap
  | reply out reply =>
      cases hs
      have hk := s.leader.lock.keepsLog_handleAppendEntriesReply s.leader.currentTerm out reply false
      exact h.shorter (Nat.le_of_eq (congrArg List.length hk.log)) hk.capacity rfl rfl
  | pollCompact =>
      obtain ⟨file, -, rfl⟩ := Option.map_eq_some_iff.1 hs
      rcases s.leader.lock.pollCompact_cases file with heq | heq
      · exact h.shorter (n := s.leader) le_rfl rfl rfl (congrArg Locked.node heq)
      · exact h.shorter (Locked.length_compactLocked _ _) (Locked.capacity_compactLocked _ _) rfl
          (congrArg Locked.node heq)
  | getLogStatus =>
      cases hs
      exact h
  | tick =>
      obtain ⟨status, -, rfl⟩ := Option.map_eq_some_iff.1 hs
      -- a tick starts a cycle or does nothing
      refine serve rfl fun hidle => h ?_
      dsimp only at hidle
      cases hc : s.backup.cycle with
      | idle => rfl
      | _ =>
          unfold Backup.tick at hidle
          rw [hc] at hidle
          dsimp only at hidle
          rw [hc] at hidle
          exact hidle
  | stream fails =>
      unfold Watch.step at hs
      unfold Watch.Safe Watch.EndsCycle at hok
      cases hc : s.backup.cycle with
      | streaming leader fromIndex toIndex =>
          rw [hc] at hs hok
          cases hs
          refine serve rfl fun hidle => hok ?_
          unfold Backup.stream at hidle
          rw [hc] at hidle
          cases fails with
          | true => exact Or.inl rfl
          | false =>
              refine Or.inr fun r hr => ?_
              cases hr
              dsimp only at hidle ⊢
              rw [if_neg (by simp)] at hidle
              dsimp only at hidle
              split at hidle
              · rename_i hlast
                exact List.getLast?_eq_none_iff.1 hlast
              · exact absurd hidle (by simp)
      | _ =>
          rw [hc] at hs
          exact absurd hs (by simp)
  | apply =>
      unfold Watch.step at hs
      unfold Watch.Safe Watch.EndsCycle at hok
      cases hc : s.backup.cycle with
      | downloaded leader entries last =>
          rw [hc] at hs hok
          cases hs
          refine serve rfl fun hidle => hok ?_
          unfold Backup.apply at hidle
          rw [hc] at hidle
          dsimp only at hidle ⊢
          split at hidle
          · exact absurd hidle (by simp)
          · rename_i hfail
            rw [Store.apply_snd] at hfail
            exact ⟨entries, rfl, by simpa using hfail⟩
      | _ =>
          rw [hc] at hs
          exact absurd hs (by simp)
  | verify view =>
      unfold Watch.step at hs
      unfold Watch.Safe Watch.EndsCycle at hok
      cases hc : s.backup.cycle with
      | applied leader last =>
          rw [hc] at hs hok
          cases hs
          refine serve rfl fun hidle => hok ?_
          unfold Backup.verify at hidle
          rw [hc] at hidle
          dsimp only at hidle ⊢
          split at hidle
          · exact absurd hidle (by simp)
          · assumption
      | _ =>
          rw [hc] at hs
          exact absurd hs (by simp)
  | commit fails =>
      unfold Watch.step at hs
      unfold Watch.Safe Watch.EndsCycle at hok
      cases hc : s.backup.cycle with
      | verified leader last =>
          rw [hc] at hs
          cases hs
          refine serve rfl fun hidle => hok ?_
          unfold Backup.commit Store.commit at hidle
          rw [hc] at hidle
          cases fails with
          | true => rfl
          | false => exact absurd hidle (by simp)
      | _ =>
          rw [hc] at hs
          exact absurd hs (by simp)
  | confirm k =>
      obtain ⟨file, -, rfl⟩ := Option.map_eq_some_iff.1 hs
      rcases s.leader.lock.confirmCompaction_cases ⟨file.lastIncludedIndex, .ok file⟩ with
        heq | ⟨file', heq⟩
      · exact h.shorter (n := s.leader) le_rfl rfl rfl (congrArg Locked.node heq)
      · exact h.shorter (Locked.length_compactLocked _ _) (Locked.capacity_compactLocked _ _) rfl
          (congrArg Locked.node heq)
  | finish =>
      unfold Watch.step at hs
      cases hc : s.backup.cycle with
      | confirming leader file =>
          rw [hc] at hs
          cases hs
          exact serve rfl fun _ => hok trivial
      | _ =>
          rw [hc] at hs
          exact absurd hs (by simp)
  | restart =>
      cases hs
      exact serve rfl fun _ => hok trivial

end Watch.Guarded

/-- **The guard only holds back while a cycle is running**, in every run in which the log does
not fill up without a cycle and no cycle ends while the log is full. -/
theorem guard_during_cycle (cfg : CompactorConfig) (decode : List UInt8 → Option KVCommand)
    (n : Node) (d : Disk) (as : List WatchAction) (s : Watch) (hn : n.BelowGuard cfg)
    (hsafe : Runs.Along (Watch.step cfg decode) (Watch.Safe cfg decode) (Watch.start n d) as)
    (hrun : Runs.exec (Watch.step cfg decode) (Watch.start n d) as = some s)
    (hfull : cfg.concurrencyGuardPercent ≤ s.leader.getLogStatus.occupancyPercent) :
    s.backup.cycle ≠ .idle := by
  intro hidle
  have hinv := Runs.invariant (fun s a s' h hok hs => Watch.Guarded.step h hok hs)
    (fun _ => hn : (Watch.start n d).Guarded cfg) hsafe hrun
  exact absurd hfull (not_le.2 (hinv hidle))

/-! ## A full log without a cycle -/

/-- No cycle is running, the log has reached the guard, and so has what the tick under way has
been told. -/
structure Watch.Full (cfg : CompactorConfig) (s : Watch) : Prop where
  idle : s.backup.cycle = .idle
  full : cfg.concurrencyGuardPercent ≤ s.leader.getLogStatus.occupancyPercent
  told : ∀ status, s.status = some status → cfg.concurrencyGuardPercent ≤ status.occupancyPercent

/-- Proposals, replies and ticks: the leader's log only grows. -/
def WatchAction.Grows : WatchAction → Prop
  | .propose _ | .proposeSync _ _ | .reply _ _ | .getLogStatus | .tick => True
  | _ => False

namespace Watch.Full

variable {cfg : CompactorConfig} {decode : List UInt8 → Option KVCommand} {s s' : Watch}

theorem longer (h : s.Full cfg) {n : Node} (hlen : s.leader.log.length ≤ n.log.length)
    (hcap : n.logCapacityEntries = s.leader.logCapacityEntries) :
    ({ s with leader := n } : Watch).Full cfg :=
  ⟨h.idle, Nat.le_trans h.full (Node.occupancy_mono hlen hcap.symm), h.told⟩

theorem step (h : s.Full cfg) {a : WatchAction} (ha : a.Grows)
    (hs : s.step cfg decode a = some s') : s'.Full cfg := by
  cases a with
  | propose command =>
      cases hs
      obtain ⟨hcap, hlen⟩ := s.leader.lock.length_propose command
      exact h.longer (by simp only [Node.lock] at hlen ⊢; omega) hcap
  | proposeSync command ch =>
      cases hs
      obtain ⟨hcap, hlen⟩ := s.leader.lock.length_proposeSync command ch
      exact h.longer (by simp only [Node.lock] at hlen ⊢; omega) hcap
  | reply out reply =>
      cases hs
      have hk := s.leader.lock.keepsLog_handleAppendEntriesReply s.leader.currentTerm out reply false
      exact h.longer (Nat.le_of_eq (congrArg List.length hk.log).symm) hk.capacity
  | getLogStatus =>
      cases hs
      exact ⟨h.idle, h.full, fun status hst => Option.some.inj hst ▸ h.full⟩
  | tick =>
      obtain ⟨status, hst, rfl⟩ := Option.map_eq_some_iff.1 hs
      -- the tick returns at the guard
      have hsame : s.backup.tick cfg s.leader.address status = s.backup := by
        unfold Backup.tick
        rw [h.idle]
        exact if_pos (Or.inr (Or.inr (h.told status hst)))
      refine ⟨?_, h.full, fun _ h => absurd h (by simp)⟩
      dsimp only
      rw [hsame]
      exact h.idle
  | _ => exact absurd ha id

/-- **Compaction is disabled for good**: no later tick starts a cycle. -/
theorem run (h : s.Full cfg) {as : List WatchAction} (has : ∀ a ∈ as, a.Grows)
    (hrun : Runs.exec (Watch.step cfg decode) s as = some s') : s'.Full cfg := by
  have hgrows : Runs.Along (Watch.step cfg decode) (fun _ a => a.Grows) s as :=
    .of_forall fun a ha _ => has a ha
  exact Runs.invariant (fun _ _ _ h ha hs => h.step ha hs) h hgrows hrun

end Watch.Full

/-! ## Examples -/

/-- A node with a log of ten entries that has just been elected. -/
def tenEntryLeader : Node :=
  match (newNode "a" "a:1" ["b:1", "c:1"] 10 Disk.empty).lock.startElection false with
  | (s, some e) => (s.handleRequestVoteReply e ⟨1, true⟩ false).1.node
  | (s, none) => s.node

/-- Three proposals, a cycle that starts, and six more proposals. -/
def burstDuringCycle : List WatchAction :=
  List.replicate 3 (.propose (putBytes 120 49)) ++ [.getLogStatus, .tick] ++
    List.replicate 6 (.propose (putBytes 120 50))

theorem guard_during_cycle_burst : ∃ s,
    Runs.exec (Watch.step {} decodePut) (Watch.start tenEntryLeader Disk.empty) burstDuringCycle =
      some s ∧
    90 ≤ s.leader.getLogStatus.occupancyPercent ∧ s.backup.cycle ≠ .idle := by
  have hsafe : Runs.Along (Watch.step {} decodePut) (Watch.Safe {} decodePut)
      (Watch.start tenEntryLeader Disk.empty) burstDuringCycle := by
    decide +kernel
  obtain ⟨s, hrun, hfull⟩ := Runs.exists_of_exec
    (fun s : Watch => 90 ≤ s.leader.getLogStatus.occupancyPercent)
    (by decide +kernel : (Runs.exec (Watch.step {} decodePut)
      (Watch.start tenEntryLeader Disk.empty) burstDuringCycle).any _ = true)
  exact ⟨s, hrun, hfull, guard_during_cycle {} decodePut tenEntryLeader Disk.empty
    burstDuringCycle s (by decide +kernel) hsafe hrun hfull⟩

/-- Nine proposals come between two polls: the log is at the guard, no cycle is running, and
no tick will start one while the log only grows. -/
theorem full_without_cycle : ∃ s,
    Runs.exec (Watch.step {} decodePut) (Watch.start tenEntryLeader Disk.empty)
      (List.replicate 9 (.propose (putBytes 120 49))) = some s ∧
    tenEntryLeader.role = .leader ∧
    90 ≤ s.leader.getLogStatus.occupancyPercent ∧ s.backup.cycle = .idle ∧
    ∀ as s', (∀ a ∈ as, WatchAction.Grows a) →
      Runs.exec (Watch.step {} decodePut) s as = some s' → s'.backup.cycle = .idle := by
  obtain ⟨s, hrun, hfull, hidle, hstatus⟩ := Runs.exists_of_exec
    (fun s : Watch => 90 ≤ s.leader.getLogStatus.occupancyPercent ∧
      s.backup.cycle.isIdle = true ∧ s.status = none)
    (by decide +kernel : (Runs.exec (Watch.step {} decodePut)
      (Watch.start tenEntryLeader Disk.empty)
      (List.replicate 9 (.propose (putBytes 120 49)))).any _ = true)
  have hs : s.Full {} := ⟨CyclePhase.isIdle_iff.1 hidle, hfull, by simp [hstatus]⟩
  exact ⟨s, hrun, by decide +kernel, hfull, hs.idle, fun as s' has hrun' => (hs.run has hrun').idle⟩

end B5KvStore
