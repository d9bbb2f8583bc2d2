import B5KvStore.Backup.Ranges

/-!
# Starting a cycle over

A cycle that stops after `Store.Apply` leaves the replica ahead of the boundary, and the next
one starts from the same boundary.  It replays what the replica holds already, together with
what the log has gained since.

* `Store.apply_isPrefix` — what `Apply` does, whether or not it succeeds.
* `CycleEnv.store_of_stops` — what a cycle leaves behind that does not commit.
* `CycleEnv.checked_of_replayed` — a cycle on top of a part of its own download.
* `retried_cycle` — any number of cycles that stop, and one that goes through.
-/

namespace B5KvStore

variable {decode : List UInt8 → Option KVCommand} {s : Store} {env : CycleEnv}

/-- `Apply` replays the entries up to the first that does not decode. -/
theorem Store.apply_isPrefix (s : Store) (es : List LogEntry) :
    ∃ pre, pre <+: es ∧ (s.apply decode es).1 = { s with state := replay decode pre s.state } := by
  induction es generalizing s with
  | nil => exact ⟨[], List.prefix_refl [], rfl⟩
  | cons e es ih =>
      unfold Store.apply
      cases hcmd : decode e.command with
      | none => exact ⟨[], List.nil_prefix, rfl⟩
      | some cmd =>
          obtain ⟨pre, hpre, heq⟩ := ih { s with state := s.state.apply cmd }
          refine ⟨e :: pre, List.prefix_cons_inj e |>.2 hpre, ?_⟩
          dsimp only
          rw [heq, replay_cons]
          unfold applyEntry
          rw [hcmd]

namespace CycleEnv

/-- The cycle does not move the boundary: something stops it, or the file cannot be written. -/
def Stops (env : CycleEnv) (decode : List UInt8 → Option KVCommand) (s : Store) : Prop :=
  env.Commits decode s → env.commitFails = true

/-- The store after some cycles. -/
def runCycles (decode : List UInt8 → Option KVCommand) (s : Store) : List CycleEnv → Store
  | [] => s
  | env :: envs => runCycles decode (env.runCycle decode s).store envs

/-- Up to the second look at who leads, the replica has gained a part of the download. -/
theorem store_checked (env : CycleEnv) (decode : List UInt8 → Option KVCommand) (s : Store) :
    ∃ pre, pre <+: env.download s ∧
      (env.checked decode s).store = { s with state := replay decode pre s.state } := by
  have hverify : (env.checked decode s).store = ((env.streamed s).apply decode).store := by
    unfold checked Backup.verify
    split <;> rfl
  rw [hverify]
  unfold Backup.apply
  rcases cycle_streamed env s with hidle | ⟨es, last, hdown⟩
  · rw [hidle]
    exact ⟨[], List.nil_prefix, store_streamed⟩
  · obtain ⟨-, -, rfl, -⟩ := streamed_eq_downloaded.1 hdown
    rw [hdown, store_streamed]
    exact s.apply_isPrefix _

/-- **A cycle that stops** leaves everything as it is but the replica. -/
theorem store_of_stops (h : env.Stops decode s) :
    ∃ pre, pre <+: env.download s ∧
      (env.runCycle decode s).store = { s with state := replay decode pre s.state } := by
  obtain ⟨pre, hpre, hstore⟩ := store_checked env decode s
  refine ⟨pre, hpre, hstore ▸ ?_⟩
  have hfinish : ∀ b : Backup, b.finish.store = b.store := by
    intro b
    unfold Backup.finish
    split <;> rfl
  unfold runCycle
  rw [hfinish]
  unfold Backup.commit
  rcases cycle_checked env decode s with hidle | ⟨last, hlast⟩
  · rw [hidle]
  · rw [hlast, h (checked_eq_verified.1 hlast).1]
    rfl

/-- What the replica holds decides neither what is downloaded nor whether the cycle commits. -/
theorem commits_withState (kv : KVMap) :
    env.Commits decode { s with state := kv } ↔ env.Commits decode s :=
  ⟨fun h => ⟨h.range, h.arrives, h.nonempty, h.decodes, h.view⟩,
    fun h => ⟨h.range, h.arrives, h.nonempty, h.decodes, h.view⟩⟩

/-- **A cycle on top of a part of its own download** makes the same of the store. -/
theorem checked_of_replayed {pre : List LogEntry} (h : env.Commits decode s)
    (hpre : pre <+: env.download s) :
    env.checked decode { s with state := replay decode pre s.state } = env.checked decode s := by
  obtain ⟨rest, hrest⟩ := hpre
  have hreplay : replay decode (env.download s) (replay decode pre s.state) =
      replay decode (env.download s) s.state := by
    rw [← hrest]
    exact (overwriting_applyEntry decode).replay_twice ..
  obtain ⟨last, hlast⟩ : ∃ last, (env.download s).getLast? = some last := by
    cases hl : (env.download s).getLast? with
    | none => exact absurd (List.getLast?_eq_none_iff.1 hl) h.nonempty
    | some last => exact ⟨last, rfl⟩
  have hdown : ∀ kv, (env.streamed { s with state := kv }).apply decode =
      ⟨{ s with state := replay decode (env.download s) kv }, .applied env.leader last⟩ := by
    intro kv
    have hcycle : (env.streamed { s with state := kv }).cycle =
        .downloaded env.leader (env.download s) last :=
      streamed_eq_downloaded.2 ⟨h.range, h.arrives, rfl, hlast⟩
    unfold Backup.apply
    rw [hcycle, store_streamed]
    dsimp only
    rw [Store.apply_eq _ h.decodes]
    rfl
  unfold checked
  rw [hdown, hreplay]
  exact congrArg (Backup.verify · env.view) (hdown s.state).symm

/-- Cycles that stop leave a replica from which the cycle makes the same. -/
theorem checked_runCycles (h : env.Commits decode s) {attempts : List CycleEnv}
    (hstop : ∀ a ∈ attempts, a.Stops decode s ∧ a.download s <+: env.download s) :
    env.checked decode (runCycles decode s attempts) = env.checked decode s := by
  induction attempts generalizing s with
  | nil => rfl
  | cons a attempts ih =>
      obtain ⟨hstops, hdown⟩ := hstop a (List.mem_cons_self ..)
      obtain ⟨pre, hpre, hstore⟩ := store_of_stops hstops
      have hrest : ∀ a ∈ attempts,
          a.Stops decode { s with state := replay decode pre s.state } ∧
            a.download { s with state := replay decode pre s.state } <+: env.download s := by
        intro b hb
        obtain ⟨hb1, hb2⟩ := hstop b (List.mem_cons_of_mem a hb)
        exact ⟨fun hc => hb1 ((commits_withState _).1 hc), hb2⟩
      unfold runCycles
      rw [hstore, ih ((commits_withState _).2 h) hrest, checked_of_replayed h (hpre.trans hdown)]

end CycleEnv

/-- **Replaying is harmless.**  Commands that are run again from the start, with more to
follow, give the map they give when they are run once.  So a cycle that commits does so
with the same file after any number of cycles that were started from the same boundary,
downloaded a part of the same entries, and stopped. -/
theorem retried_cycle :
    (∀ (kv : KVMap) (a c : List KVCommand),
      (a ++ c).foldl KVMap.apply (a.foldl KVMap.apply kv) = (a ++ c).foldl KVMap.apply kv) ∧
    ∀ (decode : List UInt8 → Option KVCommand) (s : Store) (attempts : List CycleEnv)
      (env : CycleEnv), env.Commits decode s →
      (∀ a ∈ attempts, a.Stops decode s ∧ a.download s <+: env.download s) →
      env.runCycle decode (CycleEnv.runCycles decode s attempts) = env.runCycle decode s := by
  refine ⟨fun kv a c => overwriting_apply.replay_twice a c kv, ?_⟩
  intro decode s attempts env hc hstop
  unfold CycleEnv.runCycle
  rw [CycleEnv.checked_runCycles hc hstop]

/-- A cycle that downloads the first of two entries and stops because the leader has changed. -/
def stoppedCycle : CycleEnv :=
  { compactedCycle with
    status := { compactedLeader.getLogStatus with lastIndex := 6 }
    view := some "b" }

/-- The cycle after it commits what it would have committed at once. -/
theorem retried_cycle_storeAtFive :
    compactedCycle.runCycle decodePut (stoppedCycle.runCycle decodePut storeAtFive).store =
      compactedCycle.runCycle decodePut storeAtFive ∧
    (stoppedCycle.runCycle decodePut storeAtFive).store.state "x" = some "1" ∧
    (compactedCycle.runCycle decodePut storeAtFive).store.state "x" = some "2" := by
  have hcommits : compactedCycle.Commits decodePut storeAtFive :=
    ⟨by decide, rfl, by decide, by decide, rfl⟩
  have hstops : ∀ a ∈ [stoppedCycle], a.Stops decodePut storeAtFive ∧
      a.download storeAtFive <+: compactedCycle.download storeAtFive := by
    intro a ha
    rw [List.mem_singleton.1 ha]
    refine ⟨fun hc => absurd hc.view (by decide), ?_⟩
    exact ⟨[⟨1, 7, putBytes 120 50⟩], by decide⟩
  exact ⟨retried_cycle.2 decodePut storeAtFive [stoppedCycle] compactedCycle hcommits hstops,
    by decide, by decide⟩

end B5KvStore
