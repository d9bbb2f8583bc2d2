import B5KvStore.Backup.Store
import B5KvStore.Cluster.Applied
import B5KvStore.Cluster.CommittedPrefix

/-!
# The state machine is the applied prefix

Two parts of a process change its map.  Entries are applied under the lock of the node, together
with `lastApplied`; `catchUpFromSnapshot` replaces the whole map outside the lock and updates
`lastApplied` later.  In between the map is ahead of `lastApplied`, and an entry that is applied
there is applied to a map that already holds it.

* `CommittedLog`, `StateAt` — what the committed commands make of an empty map.
* `MapEffect` — what a critical section does to the map of its process.
* `Replayed` — every map, and every snapshot on its way, is the work of the committed commands.
* `state_machine_replays` — runs in which nothing is applied between `Restore` and the update.
-/

namespace B5KvStore

open ReplicatedLog (Known CommittedAt Extends)

/-! ## Committed logs -/

/-- Every entry of the list is committed at its position. -/
def CommittedLog (a : Model) (C : List LogEntry) : Prop :=
  ∀ i e, C[i]? = some e → CommittedAt a (i + 1) e

/-- The map is what the first `m` committed commands make of an empty one. -/
def StateAt (c : Config) (a : Model) (m : Nat) (kv : KVMap) : Prop :=
  ∃ C, C.length = m ∧ CommittedLog a C ∧ kv = replay c.decode C KVMap.new

section

variable {c : Config} {a a' : Model}

theorem CommittedLog.mono {C : List LogEntry} (h : CommittedLog a C) (hx : Extends a a') :
    CommittedLog a' C := fun i e he => (h i e he).mono hx

theorem StateAt.mono {m : Nat} {kv : KVMap} (h : StateAt c a m kv) (hx : Extends a a') :
    StateAt c a' m kv := by
  obtain ⟨C, hlen, hC, hkv⟩ := h
  exact ⟨C, hlen, hC.mono hx, hkv⟩

theorem StateAt.zero : StateAt c a 0 KVMap.new := ⟨[], rfl, by simp [CommittedLog], rfl⟩

/-- There is one committed log of each length. -/
theorem CommittedLog.take_eq {C C' : List LogEntry} (h : CommittedLog a C) (h' : CommittedLog a C')
    (hr : c.Reaches a) (hle : C.length ≤ C'.length) : C'.take C.length = C := by
  apply List.ext_getElem?
  intro i
  rw [List.getElem?_take]
  split
  · rename_i hlt
    obtain ⟨e, he⟩ : ∃ e, C[i]? = some e := ⟨_, List.getElem?_eq_getElem hlt⟩
    obtain ⟨e', he'⟩ : ∃ e', C'[i]? = some e' := ⟨_, List.getElem?_eq_getElem (by omega)⟩
    rw [he, he', hr.inv.committedAt_unique (h i e he) (h' i e' he')]
  · rename_i hge
    exact (List.getElem?_eq_none (by omega)).symm

/-- What a node has committed is a committed log. -/
theorem NodeView.committedLog {p : String} {n : Node} (h : NodeView c a p n) {m : Nat}
    (hm : m ≤ n.commitIndex) : CommittedLog a ((a.log p).take m) := by
  intro i e he
  rw [List.getElem?_take] at he
  split at he
  · exact h.known.committedAt (Nat.succ_pos i) (by omega) he
  · exact absurd he (by simp)

/-- Applying the rest of a committed log to what its beginning makes. -/
theorem StateAt.apply {m : Nat} {kv : KVMap} (h : StateAt c a m kv) (hr : c.Reaches a)
    {C : List LogEntry} (hC : CommittedLog a C) (hle : m ≤ C.length) :
    replay c.decode (C.drop m) kv = replay c.decode C KVMap.new := by
  obtain ⟨C₀, rfl, hC₀, rfl⟩ := h
  rw [← replay_append]
  congr 1
  conv_rhs => rw [← List.take_append_drop C₀.length C]
  rw [hC₀.take_eq hC hr hle]

end

/-! ## What a critical section does to the map -/

/-- The snapshot that the poll loop holds. -/
def PollPhase.file? : PollPhase → Option File
  | .fetched file | .written file | .rewritten file | .restored file | .compactFetched file =>
      some file
  | _ => none

variable {c : Config} {a a' : Model} {s s' : Cluster} {op : Op} {o : Outcome}

/-- What a critical section does to the map and the poll loop of its process, before its own
entries are applied. -/
inductive MapEffect (s : Cluster) (op : Op) (o : Outcome) : Prop
  | keep (hkv : (o.around.hosts o.host).kv = (s.hosts o.host).kv)
      (hpoll : (o.around.hosts o.host).poll.restored? = (s.hosts o.host).poll.restored?)
      (hfile : ∀ f ∈ (o.around.hosts o.host).poll.file?,
        f ∈ (s.hosts o.host).poll.file? ∨ s.catalog = some f)
      (hop : ∀ p, op ≠ .pollAdopt p)
  /-- `Restore` replaces the map. -/
  | restore (f : File) (hfrom : (s.hosts o.host).poll = .rewritten f)
      (hres : o.result = (s.hosts o.host).node.lock)
      (hto : o.around.hosts o.host = { s.hosts o.host with kv := f.state, poll := .restored f })
  /-- The final locked update of `catchUpFromSnapshot`. -/
  | adopt (f : File) (hop : op = .pollAdopt o.host) (hfrom : (s.hosts o.host).poll = .restored f)
      (hres : o.result = (s.hosts o.host).node.lock.adoptSnapshot f)
      (hto : o.around.hosts o.host = { s.hosts o.host with poll := .idle })

/-- A critical section other than the final update leaves the map alone, or is `Restore`. -/
theorem Effect.map (h : Effect c s op o) (hop : ∀ p, op ≠ .pollAdopt p) : MapEffect s op o := by
  have hsame : o.around.hosts = s.hosts → MapEffect s op o := by
    intro hhosts
    exact .keep (by rw [hhosts]) (by rw [hhosts]) (by rw [hhosts]; exact fun f hf => Or.inl hf) hop
  have hset : ∀ ph, o.around = s.setPoll o.host ph →
      ph.restored? = (s.hosts o.host).poll.restored? →
      (∀ f ∈ ph.file?, f ∈ (s.hosts o.host).poll.file? ∨ s.catalog = some f) →
      MapEffect s op o := by
    intro ph haround hres hfile
    have hhost : o.around.hosts o.host = { s.hosts o.host with poll := ph } := by
      rw [haround]
      exact Function.update_self ..
    exact .keep (by rw [hhost]) (by rw [hhost]; exact hres) (by rw [hhost]; exact hfile) hop
  cases h with
  | broadcast op p read s' hp hrole hs' hcalls => exact hsame hs'.hosts
  | appendEntriesReply k b out peer fails reply s' hk hout hfind hpeer hepoch hans hs' hcalls =>
      exact hsame hs'.hosts
  | proposeSync p command hp s' hs' hcalls => exact hsame hs'.hosts
  | idle op p r s' hr hs' hop hcalls hret => exact hsame hs'.hosts
  | pollWait op p ph hp hop' hfrom hph hpos hph' hfetch =>
      have hnone : (s.hosts p).poll.restored? = none := by
        cases hpoll : (s.hosts p).poll with
        | restored f =>
            rw [hpoll] at hfrom
            exact absurd hfrom (by simp [PollPhase.catchUpFile?])
        | _ => rfl
      refine hset ph rfl ?_ fun f hf => Or.inr (hph f ?_)
      · rw [hnone]
        cases ph with
        | restored f => exact absurd rfl (hph' f).2.2
        | _ => rfl
      · cases ph with
        | fetched g => exact Or.inl (congrArg _ (Option.some.inj hf))
        | compactFetched g => exact Or.inr (congrArg _ (Option.some.inj hf))
        | written g => exact absurd rfl (hph' g).1
        | rewritten g => exact absurd rfl (hph' g).2.1
        | restored g => exact absurd rfl (hph' g).2.2
        | _ => exact absurd hf (by simp [PollPhase.file?])
  | pollWriteFile p file hp hpoll =>
      exact hset _ rfl (by rw [hpoll]; rfl) (by rw [hpoll]; exact fun f hf => Or.inl hf)
  | pollRewriteLog p file hp hpoll =>
      exact hset _ rfl (by rw [hpoll]; rfl) (by rw [hpoll]; exact fun f hf => Or.inl hf)
  | pollRestore p file hp hpoll => exact .restore file hpoll rfl (Function.update_self ..)
  | pollAdopt p file hp hpoll => exact absurd rfl (hop p)
  | pollCompact p file hp hpoll =>
      exact hset _ rfl (by rw [hpoll]; rfl) (fun f hf => absurd hf (by simp [PollPhase.file?]))
  | _ => exact hsame rfl

theorem exec_map (h : exec c s op = some o) : MapEffect s op o := by
  by_cases hop : ∃ p, op = .pollAdopt p
  · obtain ⟨p, rfl⟩ := hop
    simp only [exec, Option.bind_eq_bind, Option.bind_eq_some_iff, guard_eq_some, exists_const] at h
    obtain ⟨hp, h⟩ := h
    split at h
    · rename_i file hpoll
      obtain rfl := Option.some.inj h
      exact .adopt file rfl hpoll rfl (Function.update_self ..)
    · exact absurd h (by simp)
  · exact (exec_effect h).map fun p hp => hop ⟨p, hp⟩

/-- Compaction writes the file it is given. -/
theorem Locked.file_of_compactLocked {n : Node} {file f : File}
    (hf : .writeFile f ∈ (n.lock.compactLocked file).1.writes) : f = file := by
  cases he : n.entryAtLocked file.lastIncludedIndex with
  | none =>
      unfold Locked.compactLocked at hf
      rw [show n.lock.node = n from rfl, he] at hf
      exact absurd hf (by simp [Node.lock])
  | some e =>
      rw [Locked.writes_compactLocked he, List.mem_cons, List.mem_append] at hf
      rcases hf with hf | hf | hf
      · exact DiskWrite.writeFile.inj hf
      · obtain ⟨old, -, -, hw⟩ := mem_superseded hf
        exact absurd hw (by simp)
      · exact absurd hf (by simp)

/-- The snapshot files a critical section writes are those it was given. -/
theorem Effect.wrote (h : Effect c s op o) {f : File} (hf : .writeFile f ∈ o.result.writes) :
    f ∈ (s.hosts o.host).poll.file? ∨
      ∃ p req, op = .confirmCompaction p req ∧ req.stateMachineSnapshot = .ok f := by
  have hkeeps : ¬ KeepsFiles (s.hosts o.host).node.lock o.result := by
    intro hk
    obtain ⟨ws, hws, hk⟩ := hk.writes
    rw [hws, show (s.hosts o.host).node.lock.writes = [] from rfl, List.nil_append] at hf
    exact hk _ hf
  by_cases hop : op.snapshotting = false
  · exact absurd (h.keepsFiles hop) hkeeps
  · cases h with
    | broadcast op p read s' hp hrole hs' hcalls => exact absurd (.refl _) hkeeps
    | idle op p r s' hr hs' hop hcalls hret => exact absurd (keepsLog_idle hr).keepsFiles hkeeps
    | pollWait op p ph hp hop' hfrom hph hpos hph' hfetch => exact absurd (.refl _) hkeeps
    | confirmCompaction p req hp =>
        unfold Locked.confirmCompaction at hf
        split at hf
        · exact absurd hf (by simp [Node.lock])
        · split at hf
          · exact absurd hf (by simp [Node.lock])
          · split at hf
            · exact absurd hf (by simp [Node.lock])
            · rename_i file hfile
              split at hf
              · exact absurd hf (by simp [Node.lock])
              · rw [Locked.file_of_compactLocked hf]
                exact Or.inr ⟨p, req, rfl, hfile⟩
    | pollWriteFile p file hp hpoll =>
        obtain rfl : f = file := by simpa [Locked.write, Node.lock] using hf
        exact Or.inl (by rw [hpoll]; rfl)
    | pollRewriteLog p file hp hpoll => exact absurd hf (by simp [Locked.write, Node.lock])
    | pollRestore p file hp hpoll => exact absurd (.refl _) hkeeps
    | pollAdopt p file hp hpoll =>
        unfold Locked.adoptSnapshot at hf
        rw [Locked.replaceSnapshotFileLocked_eq] at hf
        obtain ⟨old, -, -, hw⟩ := mem_superseded (by simpa [Locked.modify, Node.lock] using hf)
        exact absurd hw (by simp)
    | pollCompact p file hp hpoll =>
        unfold Locked.pollCompact at hf
        split at hf
        · rw [Locked.file_of_compactLocked hf]
          exact Or.inl (by rw [hpoll]; rfl)
        · exact absurd hf (by simp [Node.lock])
    | _ => exact absurd rfl hop

/-- The files of a directory after some writes. -/
theorem Disk.mem_snapshots_applyAll {ws : List DiskWrite} {d : Disk} {f : File}
    (hf : f ∈ (d.applyAll ws).snapshots) : f ∈ d.snapshots ∨ .writeFile f ∈ ws := by
  induction ws generalizing d with
  | nil => exact Or.inl hf
  | cons w ws ih =>
      rcases ih hf with hf | hf
      · cases w with
        | writeFile g =>
            rcases List.mem_cons.1 hf with rfl | hf
            · exact Or.inr (List.mem_cons_self ..)
            · exact Or.inl (List.mem_of_mem_filter hf)
        | removeFile i => exact Or.inl (List.mem_of_mem_filter hf)
        | _ => exact Or.inl hf
      · exact Or.inr (List.mem_cons_of_mem _ hf)

/-- The entries that a critical section applies, one after the other. -/
theorem Config.foldl_applyEvent (c : Config) {evs : List NodeEvent} {es : List LogEntry}
    (h : evs.filterMap NodeEvent.msg? = es.map LogEntry.msg) (kv : KVMap) :
    evs.foldl c.applyEvent kv = replay c.decode es kv := by
  have hmsgs : ∀ kv, evs.foldl c.applyEvent kv =
      (evs.filterMap NodeEvent.msg?).foldl c.applyFn kv := by
    clear h
    induction evs with
    | nil => exact fun kv => rfl
    | cons ev evs ih =>
        intro kv
        cases ev <;> exact ih _
  rw [hmsgs, h, List.foldl_map]
  rfl

/-! ## Every map replays the committed commands -/

/-- The map is what the commands committed up to index `m` make of an empty one. -/
def CommittedState (c : Config) (s : Cluster) (m : Nat) (kv : KVMap) : Prop :=
  ∃ C, C.length = m ∧ (∀ i e, C[i]? = some e → CommittedOnly s (i + 1) e) ∧
    kv = replay c.decode C KVMap.new

theorem ClusterView.stateAt_iff (h : ClusterView c a s) {m : Nat} {kv : KVMap} :
    StateAt c a m kv ↔ CommittedState c s m kv := by
  constructor
  · rintro ⟨C, hlen, hC, hkv⟩
    exact ⟨C, hlen, fun i e he => h.committedOnly (hC i e he), hkv⟩
  · rintro ⟨C, hlen, hC, hkv⟩
    exact ⟨C, hlen, fun i e he => h.committedAt ((hC i e he e).2 rfl), hkv⟩

/-- The snapshot that an operation brings to a node. -/
def Op.snapshot? : Op → Option File
  | .confirmCompaction _ req => req.stateMachineSnapshot.toOption
  | _ => none

/-- The snapshot that a step brings to a node or to the catalog. -/
def Action.snapshot? : Action → Option File
  | .run op | .crashDuring op _ => op.snapshot?
  | .publish file => some file
  | .crash _ => none

/-- Snapshots hold what the committed commands up to their last index make. -/
def CorrectSnapshots (c : Config) (s : Cluster) (act : Action) : Prop :=
  ∀ f ∈ act.snapshot?, CommittedState c s f.lastIncludedIndex f.state

/-- No process applies an entry between `Restore` and the final update of its catch-up. -/
def Undisturbed (c : Config) (s : Cluster) (act : Action) : Prop :=
  ∀ s' ∈ step c s act, ∀ p ∈ c.addrs, (s'.hosts p).poll.restored?.isSome →
    (s'.hosts p).node.lastApplied = (s.hosts p).node.lastApplied

instance Undisturbed.decidable (c : Config) (s : Cluster) (act : Action) :
    Decidable (Undisturbed c s act) :=
  inferInstanceAs (Decidable (∀ s' ∈ step c s act, ∀ p ∈ c.addrs,
    (s'.hosts p).poll.restored?.isSome →
      (s'.hosts p).node.lastApplied = (s.hosts p).node.lastApplied))

/-- What holds of the map of a process, and of the snapshots it has or is about to use. -/
structure HostReplays (c : Config) (a : Model) (h : Host) : Prop where
  files : ∀ f ∈ h.disk.snapshots, StateAt c a f.lastIncludedIndex f.state
  poll : ∀ f ∈ h.poll.file?, StateAt c a f.lastIncludedIndex f.state
  state : h.poll.restored? = none → StateAt c a h.node.lastApplied h.kv
  restored : ∀ f ∈ h.poll.restored?, h.kv = f.state

/-- Every map, and every snapshot on its way, is the work of the committed commands. -/
structure Replayed (c : Config) (a : Model) (s : Cluster) : Prop where
  hosts : ∀ p ∈ c.addrs, HostReplays c a (s.hosts p)
  catalog : ∀ f, s.catalog = some f → StateAt c a f.lastIncludedIndex f.state

theorem HostReplays.mono {h : Host} (hh : HostReplays c a h) (hx : Extends a a') :
    HostReplays c a' h where
  files f hf := (hh.files f hf).mono hx
  poll f hf := (hh.poll f hf).mono hx
  state hnone := (hh.state hnone).mono hx
  restored := hh.restored

/-- A process that is started on a directory of true snapshots. -/
theorem HostReplays.boot {p : String} {d : Disk} (hd : DiskView c a p d) (hr : c.Reaches a)
    (hfiles : ∀ f ∈ d.snapshots, StateAt c a f.lastIncludedIndex f.state) (epoch : Nat) :
    HostReplays c a (c.boot p d epoch) := by
  refine ⟨hfiles, fun f hf => absurd hf (by simp [Config.boot, PollPhase.file?]), fun _ => ?_,
    fun f hf => absurd hf (by simp [Config.boot, PollPhase.restored?])⟩
  unfold Config.boot Config.newNode newNode Disk.initialKV
  cases hl : d.latest with
  | none =>
      rcases hd.log with ⟨-, hlog⟩ | ⟨f, hf, -⟩
      · dsimp only
        rw [Option.filter_none]
        dsimp only
        cases hes : d.log with
        | nil => exact StateAt.zero
        | cons e es =>
            have hidx : e.index = 1 := placed_log hr p 0 e (by rw [← hlog, hes]; rfl)
            simp only [hidx]
            exact StateAt.zero
      · rw [hl] at hf
        exact absurd hf (by simp)
  | some f =>
      have hmem := (latest_mem hl).1
      have hpos : 0 < f.lastIncludedIndex := by
        have := (hd.files f hmem).1
        omega
      rw [Option.filter_some_pos (by simpa using hpos)]
      exact hfiles f hmem

namespace Replayed

theorem init (c : Config) : Replayed c .init c.init where
  hosts p _ := by
    refine ⟨fun f hf => absurd hf ?_, fun f hf => absurd hf ?_, fun _ => StateAt.zero,
      fun f hf => absurd hf ?_⟩
    all_goals simp [Config.init, Config.boot, Disk.empty, PollPhase.file?, PollPhase.restored?]
  catalog := by simp [Config.init]

/-- A process at the end of its critical section. -/
theorem own (h : Replayed c a s) (hv : ClusterView c a s) (ho : exec c s op = some o)
    (hok : Safe s (.run op)) {lo : Nat} (hsec : SectionStep c a s op o lo a')
    (hp : o.host ∈ c.addrs)
    (hwrote : ∀ f, .writeFile f ∈ o.result.writes → StateAt c a f.lastIncludedIndex f.state)
    (hquiet : (o.around.hosts o.host).poll.restored?.isSome →
      o.result.node.lastApplied = (s.hosts o.host).node.lastApplied) :
    HostReplays c a' ((o.around.finish c o.host o.result).hosts o.host) := by
  have hx := hsec.moves.extends hv.reach.inv
  have hm := hsec.member hp
  have hh := h.hosts _ hp
  obtain ⟨hnode, hdisk, -, -⟩ := (exec_effect ho).same o.host
  have hfiles : ∀ f ∈ ((s.hosts o.host).disk.applyAll o.result.writes).snapshots,
      StateAt c a' f.lastIncludedIndex f.state := by
    intro f hf
    rcases Disk.mem_snapshots_applyAll hf with hf | hf
    · exact (hh.files f hf).mono hx
    · exact (hwrote f hf).mono hx
  rw [Cluster.hosts_finish, hdisk]
  cases exec_map ho with
  | keep hkv hpoll hfile hop =>
      -- what is applied is the next part of the committed log
      rw [hkv, c.foldl_applyEvent hm.applied, hsec.applied hop]
      refine ⟨hfiles, fun f hf => ?_, fun hnone => ?_, fun f hf => ?_⟩
      · rcases hfile f hf with hf | hf
        · exact (hh.poll f hf).mono hx
        · exact (h.catalog f hf).mono hx
      · have hC := hm.node.committedLog (le_of_eq hm.node.applied)
        have hlen : ((a'.log o.host).take o.result.node.lastApplied).length =
            o.result.node.lastApplied := by
          rw [List.length_take, hm.node.applied]
          exact Nat.min_eq_left hm.node.known.1
        refine ⟨_, hlen, hC, ((hh.state (hpoll ▸ hnone)).mono hx).apply
          (hv.reach.steps hsec.moves) hC ?_⟩
        rw [hlen]
        exact (hsec.applied hop) ▸ hm.le
      · have hlast := hquiet (by rw [Option.isSome_iff_exists]; exact ⟨f, hf⟩)
        rw [hlast, List.drop_eq_nil_of_le (List.length_take_le _ _)]
        exact hh.restored f (hpoll ▸ hf)
  | restore f hfrom hres hto =>
      rw [hto, hres]
      refine ⟨hres ▸ hfiles, fun g hg => ?_,
        fun hnone => absurd hnone (by simp [PollPhase.restored?]), fun g hg => ?_⟩
      · exact (hh.poll g (by rw [hfrom]; exact hg)).mono hx
      · obtain rfl := Option.some.inj hg
        rfl
  | adopt f hop hfrom hres hto =>
      have hcov : Covers s o.host f := by
        have := hok.2
        rw [hop] at this
        exact this f (by rw [hfrom]; rfl)
      have hevents : o.result.events = [] := by
        rw [hres, Locked.adoptSnapshot, Locked.replaceSnapshotFileLocked_eq]
        rfl
      have hlast : o.result.node.lastApplied = f.lastIncludedIndex := by
        have hle := hv.applied_le hp
        unfold Covers at hcov
        rw [Node.lastLogIndexLocked_eq (hv.nodes _ hp).log] at hcov
        rw [hres, Locked.adoptSnapshot, Locked.replaceSnapshotFileLocked_eq]
        change (if (s.hosts o.host).node.lastApplied < f.lastIncludedIndex then
          f.lastIncludedIndex else (s.hosts o.host).node.lastApplied) = f.lastIncludedIndex
        split <;> omega
      rw [hevents, hto]
      refine ⟨hfiles, fun g hg => absurd hg (by simp [PollPhase.file?]), fun _ => ?_,
        fun g hg => absurd hg (by simp [PollPhase.restored?])⟩
      dsimp only [List.foldl_nil]
      rw [hlast, hh.restored f (by rw [hfrom]; rfl)]
      exact (hh.poll f (by rw [hfrom]; rfl)).mono hx

/-- A process is started again on what it has written. -/
theorem restart (h : Replayed c a s) (hx : Extends a a') {p : String} {ws : List DiskWrite}
    (hv : ClusterView c a' (s.restart c p ws))
    (hws : p ∈ c.addrs → ∀ f, .writeFile f ∈ ws → StateAt c a f.lastIncludedIndex f.state) :
    Replayed c a' (s.restart c p ws) := by
  refine ⟨fun q hq => ?_, fun f hf => (h.catalog f hf).mono hx⟩
  by_cases hqp : q = p
  · subst hqp
    have hd := hv.disks q hq
    rw [Cluster.hosts_restart] at hd ⊢
    refine .boot hd hv.reach (fun f hf => ?_) _
    rcases Disk.mem_snapshots_applyAll hf with hf | hf
    · exact ((h.hosts q hq).files f hf).mono hx
    · exact (hws hq f hf).mono hx
  · rw [Cluster.hosts_restart_of_ne _ _ _ _ hqp]
    exact (h.hosts q hq).mono hx

/-- What an operation writes is a snapshot of the committed commands. -/
theorem wrote (h : Replayed c a s) (hv : ClusterView c a s) (heff : Effect c s op o)
    (hp : o.host ∈ c.addrs)
    (hcorrect : ∀ f ∈ op.snapshot?, CommittedState c s f.lastIncludedIndex f.state) :
    ∀ f, .writeFile f ∈ o.result.writes → StateAt c a f.lastIncludedIndex f.state := by
  intro f hf
  rcases heff.wrote hf with hpoll | ⟨p, req, rfl, hreq⟩
  · exact (h.hosts _ hp).poll f hpoll
  · exact hv.stateAt_iff.2 (hcorrect f (by simp [Op.snapshot?, hreq, Except.toOption]))

/-- **One step.** -/
theorem step (h : Replayed c a s) (hv : ClusterView c a s) {act : Action} (hok : Safe s act)
    (hcorrect : CorrectSnapshots c s act) (hquiet : Undisturbed c s act)
    (hs : B5KvStore.step c s act = some s') : ∃ a', ClusterView c a' s' ∧ Replayed c a' s' := by
  have hquiet := hquiet s' hs
  cases stepView hs with
  | run op o ho =>
      have heff := exec_effect ho
      obtain ⟨lo, a', hsec⟩ := hv.effect heff hok.1 hok.2
      have hx := hsec.moves.extends hv.reach.inv
      refine ⟨a', hv.finish heff hsec, fun q hq => ?_, fun f hf => ?_⟩
      · by_cases hqo : q = o.host
        · subst hqo
          refine h.own hv ho hok hsec hq (h.wrote hv heff hq hcorrect) fun hres => ?_
          have := hquiet o.host hq
          rw [Cluster.node_finish] at this
          exact this (by rw [Cluster.hosts_finish]; exact hres)
        · rw [heff.hosts_finish_other hqo]
          exact (h.hosts q hq).mono hx
      · exact (h.catalog f (heff.same_rest.1 ▸ hf)).mono hx
  | crash p _ =>
      obtain ⟨a', hm, hv'⟩ := hv.restart [] fun hp => ⟨a, .refl, rfl, hv.disks p hp⟩
      exact ⟨a', hv', h.restart (hm.extends hv.reach.inv) hv' (by simp)⟩
  | crashDuring op o k ho =>
      have heff := exec_effect ho
      obtain ⟨lo, a₁, hsec⟩ := hv.effect heff hok.1 hok.2
      obtain ⟨a', hm, hv'⟩ := hv.restart _ fun hp => (hsec.member hp).crash k
      refine ⟨a', hv', h.restart (hm.extends hv.reach.inv) hv' fun hp f hf => ?_⟩
      exact h.wrote hv heff hp hcorrect f (List.mem_of_mem_take hf)
  | publish file =>
      obtain ⟨p, a', hm, hv'⟩ := hv.step hok hs
      have hx := hm.extends hv.reach.inv
      refine ⟨a', hv', fun q hq => (h.hosts q hq).mono hx, fun f hf => ?_⟩
      obtain rfl := Option.some.inj hf
      exact (hv.stateAt_iff.2 (hcorrect file rfl)).mono hx

end Replayed

/-- **The state machine is the applied prefix.**  In every run in which snapshots are correct and
are used safely, and in which nothing is applied between `Restore` and the final update of a
catch-up, the map of a process that is not between the two is what the commands committed up to
`lastApplied` make of an empty map. -/
theorem state_machine_replays (c : Config) (as : List Action) (s : Cluster) (p : String)
    (hp : p ∈ c.addrs) (hrun : run c c.init as = some s)
    (hsafe : Runs.Along (step c) Safe c.init as)
    (hcorrect : Runs.Along (step c) (CorrectSnapshots c) c.init as)
    (hquiet : Runs.Along (step c) (Undisturbed c) c.init as)
    (hidle : (s.hosts p).poll.restored? = none) :
    CommittedState c s (s.hosts p).node.lastApplied (s.hosts p).kv := by
  obtain ⟨a, hv, h⟩ : ∃ a, ClusterView c a s ∧ Replayed c a s := by
    refine Runs.invariant (I := fun s => ∃ a, ClusterView c a s ∧ Replayed c a s) ?_
      ⟨_, .init c, .init c⟩ (hsafe.and (hcorrect.and hquiet)) (run_eq_exec c c.init as ▸ hrun)
    rintro s act s' ⟨a, hv, h⟩ ⟨hok, hcor, hq⟩ hs
    exact h.step hv hok hcor hq hs
  exact hv.stateAt_iff.1 ((h.hosts p hp).state hidle)

/-- Most steps bring no snapshot. -/
theorem correctSnapshots_of_isNone {as : List Action} (h : ∀ act ∈ as, act.snapshot?.isNone) :
    Runs.Along (step c) (CorrectSnapshots c) s as := by
  refine .of_forall fun act hact s f hf => ?_
  rw [Option.isNone_iff_eq_none.1 (h act hact)] at hf
  exact absurd hf (by simp)

/-- A list of committed entries is the committed log of its length. -/
theorem ClusterView.committedState (h : ClusterView c a s) {C : List LogEntry}
    (hC : ∀ i e, C[i]? = some e → CommittedEntry s (i + 1) e) :
    CommittedState c s C.length (replay c.decode C KVMap.new) :=
  ⟨C, rfl, fun i e he => h.committedOnly (h.committedAt (hC i e he)), rfl⟩

/-- The two entries of `snapshotOfTwo`. -/
def firstTwo : List LogEntry := [⟨1, 1, putBytes 120 49⟩, ⟨1, 2, putBytes 120 50⟩]

theorem committed_firstTwo (h₁ : CommittedEntry s 1 ⟨1, 1, putBytes 120 49⟩)
    (h₂ : CommittedEntry s 2 ⟨1, 2, putBytes 120 50⟩) :
    ∀ i e, firstTwo[i]? = some e → CommittedEntry s (i + 1) e := by
  intro i e he
  rcases i with - | - | i
  · exact Option.some.inj he ▸ h₁
  · exact Option.some.inj he ▸ h₂
  · exact absurd he (by simp [firstTwo])

/-- Publishing `snapshotOfTwo` once its entries are committed. -/
theorem correctSnapshots_publish {as bs : List Action} (has : ∀ act ∈ as, act.snapshot?.isNone)
    (hbs : ∀ act ∈ bs, act.snapshot?.isNone) (hsafe : Runs.Along (step trio) Safe trio.init as)
    (hcom : (run trio trio.init as).any fun s => decide
      (CommittedEntry s 1 ⟨1, 1, putBytes 120 49⟩ ∧ CommittedEntry s 2 ⟨1, 2, putBytes 120 50⟩)) :
    Runs.Along (step trio) (CorrectSnapshots trio) trio.init
      (as ++ .publish snapshotOfTwo :: bs) := by
  refine .append (correctSnapshots_of_isNone has) fun t ht => ⟨fun f hf => ?_, fun t' _ => ?_⟩
  · obtain rfl := Option.some.inj hf
    obtain ⟨s, hs, h₁, h₂⟩ := exists_of_run _ hcom
    obtain rfl : s = t := Option.some.inj (hs.symm.trans (run_eq_exec .. ▸ ht))
    obtain ⟨a, hv⟩ := ClusterView.run hsafe hs
    exact hv.committedState (committed_firstTwo h₁ h₂)
  · exact correctSnapshots_of_isNone hbs

/-- `b` has caught up. -/
theorem state_machine_replays_catchUp : ∃ s,
    run trio trio.init (publishTwo ++ fetchSnapshot "b" ++ adoptFetched "b") = some s ∧
    (s.hosts "b").node.lastApplied = 2 ∧ CommittedState trio s 2 (s.hosts "b").kv := by
  obtain ⟨s, hs, hidle, hlast⟩ := exists_of_run (fun s : Cluster =>
    (s.hosts "b").poll.restored?.isNone = true ∧ (s.hosts "b").node.lastApplied = 2)
    (show (run trio trio.init (publishTwo ++ fetchSnapshot "b" ++ adoptFetched "b")).any _ = true
      by decide +kernel)
  refine ⟨s, hs, hlast, ?_⟩
  rw [← hlast]
  refine state_machine_replays trio _ s "b" (by decide) hs (by decide +kernel) ?_
    (by decide +kernel) (Option.isNone_iff_eq_none.1 hidle)
  rw [publishTwo, List.append_assoc, List.append_assoc]
  exact correctSnapshots_publish (by decide) (by decide) (by decide +kernel) (by decide +kernel)

/-- The request for the first entry reaches `b` after it has restored the snapshot of two. -/
def applyDuringCatchUp : List Action :=
  (winElection "a" "b" 0 ++ [.run (.propose "a" (putBytes 120 49))] ++ replicate "a" "c" 0 ++
    [.run (.broadcastAppendEntries "a"), .run (.propose "a" (putBytes 120 50))] ++
    replicate "a" "c" 2) ++ .publish snapshotOfTwo :: (fetchSnapshot "b" ++
    [.run (.pollWriteFile "b"), .run (.pollRewriteLog "b"), .run (.pollRestore "b"),
      .run (.appendEntries 1 "b" noFaults), .run (.pollAdopt "b")])

/-- The first command has overwritten the second. -/
theorem state_machine_diverges : ∃ s, run trio trio.init applyDuringCatchUp = some s ∧
    Runs.Along (step trio) Safe trio.init applyDuringCatchUp ∧
    Runs.Along (step trio) (CorrectSnapshots trio) trio.init applyDuringCatchUp ∧
    (s.hosts "b").poll.restored? = none ∧ (s.hosts "b").node.lastApplied = 2 ∧
    (s.hosts "b").kv "x" = some "1" ∧ ¬ CommittedState trio s 2 (s.hosts "b").kv := by
  obtain ⟨s, hs, hidle, hlast, hx, h₁, h₂⟩ := exists_of_run (fun s : Cluster =>
    (s.hosts "b").poll.restored?.isNone = true ∧ (s.hosts "b").node.lastApplied = 2 ∧
    (s.hosts "b").kv "x" = some "1" ∧ CommittedEntry s 1 ⟨1, 1, putBytes 120 49⟩ ∧
    CommittedEntry s 2 ⟨1, 2, putBytes 120 50⟩)
    (show (run trio trio.init applyDuringCatchUp).any _ = true by decide +kernel)
  refine ⟨s, hs, by decide +kernel, correctSnapshots_publish (by decide) (by decide)
    (by decide +kernel) (by decide +kernel), Option.isNone_iff_eq_none.1 hidle, hlast, hx, ?_⟩
  rintro ⟨C, hlen, hC, hkv⟩
  obtain ⟨e₁, e₂, rfl⟩ := List.length_eq_two.1 hlen
  obtain rfl := (hC 0 e₁ rfl _).1 h₁
  obtain rfl := (hC 1 e₂ rfl _).1 h₂
  rw [hkv] at hx
  exact absurd hx (by decide)

end B5KvStore
