import B5KvStore.Backup.Replica
import B5KvStore.Cluster.StateMachine
import B5KvStore.Deployment.Catalog

/-!
# Snapshots of a node's own history

A node compacts its log with a snapshot made elsewhere.  It is a snapshot of the node's
own history when the replica it was taken from has followed the committed log without a
gap, and was not ahead of its boundary when it was taken.

* `Deployment.Faithful` — what that asks of the service and of those who fetch.
* `Truthful` — every snapshot on its way replays a committed log.
* `compacts_own_history`, `foreign_history_compacted`.
-/

namespace B5KvStore

open ReplicatedLog (Known CommittedAt Extends)

/-- The leader of a cycle whose entries are in the replica, but not below the boundary. -/
def CyclePhase.ahead? : CyclePhase → Option String
  | .applied leader _ | .verified leader _ => some leader
  | _ => none

/-- The entries a cycle is about to apply. -/
def CyclePhase.entries : CyclePhase → List LogEntry
  | .downloaded _ es _ => es
  | _ => []

/-- A node calls `FetchSnapshot`. -/
def Action.fetches : Action → Bool
  | .run (.pollFetch _) => true
  | _ => false

/-- The compactor downloads without a gap, every entry decodes, a cycle whose entries have
been applied goes on to its commit, and nobody fetches before that. -/
def Deployment.Faithful (c : Config) (s : Deployment) : DeployAction → Prop
  | .node a => a.fetches = true → s.backup.cycle.ahead? = none
  | .tick leader => (s.cluster.hosts leader).node.getLogStatus.firstIndex ≤
      s.backup.store.lastIncludedIndex + 1
  | .stream _ => ∀ r ∈ s.backup.cycle.range?,
      (s.cluster.hosts r.1).node.anchorIndex ≤ s.backup.store.lastIncludedIndex
  | .apply => ∀ e ∈ s.backup.cycle.entries, (c.decode e.command).isSome
  | .verify view => ∀ leader ∈ s.backup.cycle.ahead?, view = some leader
  | .commit fails => s.backup.cycle.ahead?.isSome → fails = false
  | _ => True

instance (c : Config) (s : Deployment) (a : DeployAction) : Decidable (s.Faithful c a) := by
  cases a <;> unfold Deployment.Faithful <;> infer_instance

/-- `compactLocked` runs on `p` with this file as soon as the node handles the call, or its
poll loop goes on. -/
def Deployment.Compacts (s : Deployment) (p : String) (file : File) : Prop :=
  ((p, file) ∈ s.acks ∨ (s.cluster.hosts p).poll = .compactFetched file) ∧
    (s.cluster.hosts p).node.logOffset + 1 < file.lastIncludedIndex ∧
    file.lastIncludedIndex ≤ (s.cluster.hosts p).node.lastApplied

section

variable {c : Config} {cfg : CompactorConfig} {a a' : Model} {s s' : Deployment}

/-! ## Every reachable state -/

/-- What holds of the replica at each point of a cycle. -/
def CycleTrue (c : Config) (a : Model) (st : Store) : CyclePhase → Prop
  | .idle | .confirming _ _ => StateAt c a st.lastIncludedIndex st.state
  | .streaming _ fromIndex toIndex => (fromIndex = st.lastIncludedIndex + 1 ∧ fromIndex ≤ toIndex) ∧
      StateAt c a st.lastIncludedIndex st.state
  | .downloaded _ es last => (∃ C, C.length = last.index ∧ CommittedLog a C ∧
      es = C.drop st.lastIncludedIndex ∧ st.lastIncludedIndex ≤ C.length) ∧
      StateAt c a st.lastIncludedIndex st.state
  | .applied _ last | .verified _ last => StateAt c a last.index st.state

/-- Every snapshot on its way replays a committed log. -/
structure Truthful (c : Config) (a : Model) (s : Deployment) : Prop where
  deployed : Deployed c a s
  cycle : CycleTrue c a s.backup.store s.backup.cycle
  files : ∀ f ∈ s.backup.store.dataDir.snapshots, StateAt c a f.lastIncludedIndex f.state
  acks : ∀ x ∈ s.acks, StateAt c a x.2.lastIncludedIndex x.2.state
  polls : ∀ p f, (s.cluster.hosts p).poll = .compactFetched f → StateAt c a f.lastIncludedIndex f.state

theorem CycleTrue.mono {st : Store} {ph : CyclePhase} (h : CycleTrue c a st ph)
    (hx : Extends a a') : CycleTrue c a' st ph := by
  cases ph with
  | idle => exact StateAt.mono h hx
  | confirming leader file => exact StateAt.mono h hx
  | streaming leader fromIndex toIndex => exact ⟨h.1, h.2.mono hx⟩
  | downloaded leader es last =>
      obtain ⟨⟨C, hlen, hC, hes⟩, hst⟩ := h
      exact ⟨⟨C, hlen, hC.mono hx, hes⟩, hst.mono hx⟩
  | applied leader last => exact StateAt.mono h hx
  | verified leader last => exact StateAt.mono h hx

/-- Between its commit and the next download, the replica is at its boundary. -/
theorem CycleTrue.stateAt {st : Store} {ph : CyclePhase} (h : CycleTrue c a st ph)
    (hahead : ph.ahead? = none) : StateAt c a st.lastIncludedIndex st.state := by
  cases ph with
  | idle => exact h
  | confirming leader file => exact h
  | streaming leader fromIndex toIndex => exact h.2
  | downloaded leader es last => exact h.2
  | applied leader last => exact absurd hahead (by simp [CyclePhase.ahead?])
  | verified leader last => exact absurd hahead (by simp [CyclePhase.ahead?])

/-- A file to compact with is fetched from the catalog. -/
theorem poll_compactFetched {s s' : Cluster} {act : Action} (hs : step c s act = some s')
    {p : String} {file : File} (hpoll : (s'.hosts p).poll = .compactFetched file) :
    (s.hosts p).poll = .compactFetched file ∨ act = .run (.pollFetch p) ∧ s.catalog = some file := by
  cases hostStep hs p with
  | other hnode hdisk hepoch hsame => exact Or.inl (hsame ▸ hpoll)
  | own op o ha heff hop hnode hdisk hepoch hsame =>
      subst ha
      rw [hsame] at hpoll
      have hset : ∀ ph : PollPhase, ((s.setPoll p ph).hosts p).poll = ph := fun ph =>
        Cluster.poll_setPoll s p ph
      cases heff with
      | broadcast op q read s' hp hrole hs' =>
          rw [hs'.hosts] at hpoll
          exact Or.inl hpoll
      | appendEntriesReply k b out peer fails reply s' hk hout hfind hpeer hepoch hans hs' =>
          rw [hs'.hosts] at hpoll
          exact Or.inl hpoll
      | proposeSync q command hp s' hs' =>
          rw [hs'.hosts] at hpoll
          exact Or.inl hpoll
      | idle op q r s' hr hs' =>
          rw [hs'.hosts] at hpoll
          exact Or.inl hpoll
      | pollWait op q ph hp hop' hfrom hph hpos hph' hfetch =>
          obtain rfl : q = p := hop
          rw [hset] at hpoll
          exact Or.inr ⟨by rw [hfetch file hpoll], hph file (Or.inr hpoll)⟩
      | pollWriteFile q f hp hq =>
          obtain rfl : q = p := hop
          rw [hset] at hpoll
          exact absurd hpoll (by simp)
      | pollRewriteLog q f hp hq =>
          obtain rfl : q = p := hop
          rw [hset] at hpoll
          exact absurd hpoll (by simp)
      | pollRestore q f hp hq =>
          obtain rfl : q = p := hop
          simp only [Cluster.setHost, Function.update_self] at hpoll
          exact absurd hpoll (by simp)
      | pollAdopt q f hp hq =>
          obtain rfl : q = p := hop
          rw [hset] at hpoll
          exact absurd hpoll (by simp)
      | pollCompact q f hp hq =>
          obtain rfl : q = p := hop
          rw [hset] at hpoll
          exact absurd hpoll (by simp)
      | _ => exact Or.inl hpoll
  | restart ws hh =>
      rw [hh] at hpoll
      exact absurd hpoll (by simp [Config.boot])

namespace Truthful

theorem init (c : Config) : Truthful c .init c.deploy where
  deployed := Deployed.init c
  cycle := StateAt.zero
  files f hf := absurd hf (by simp [Config.deploy, Backup.new, Store.newStore, Disk.empty,
    Disk.latest])
  acks := by simp [Config.deploy]
  polls p f hf := absurd hf (by simp [Config.deploy, Config.init, Config.boot])

/-- A step of the cycle that leaves the store alone. -/
theorem goes (h : Truthful c a s) {ph : CyclePhase}
    (hd : Deployed c a (s.serve { s.backup with cycle := ph }))
    (hcycle : CycleTrue c a s.backup.store ph) :
    Truthful c a (s.serve { s.backup with cycle := ph }) :=
  ⟨hd, hcycle, h.files, h.acks, h.polls⟩

theorem same (h : Truthful c a s) : Truthful c a (s.serve s.backup) :=
  h.goes h.deployed.same h.cycle

theorem stop (h : Truthful c a s) (hahead : s.backup.cycle.ahead? = none) :
    Truthful c a (s.serve { s.backup with cycle := .idle }) :=
  h.goes h.deployed.stop (h.cycle.stateAt hahead)

theorem tick (h : Truthful c a s) {leader : String} (hl : leader ∈ c.addrs)
    (hfaith : s.Faithful c (.tick leader)) :
    Truthful c a (s.serve
      (s.backup.tick cfg leader (s.cluster.hosts leader).node.getLogStatus)) := by
  have hd : Deployed c a (s.serve (s.backup.tick cfg leader
      (s.cluster.hosts leader).node.getLogStatus)) := h.deployed.tick hl _
  have hfrom : s.backup.store.fromIndex (s.cluster.hosts leader).node.getLogStatus =
      s.backup.store.lastIncludedIndex + 1 := by
    unfold Store.fromIndex
    rw [if_neg (Nat.not_lt.2 hfaith)]
  have hphase := h.cycle
  unfold Backup.tick at hd ⊢
  split
  · rename_i hcycle
    rw [hcycle] at hd hphase
    dsimp only at hd
    split
    · exact h.same
    · rename_i hocc
      rw [if_neg hocc] at hd
      unfold Backup.start at hd ⊢
      rw [hfrom] at hd ⊢
      refine h.goes hd ?_
      split
      · exact hphase
      · exact ⟨⟨rfl, by omega⟩, hphase⟩
  · exact h.same

/-- A download without a gap, of committed entries. -/
theorem stream (h : Truthful c a s) {fails : Bool} (hsafe : s.Safe (.stream fails))
    (hfaith : s.Faithful c (.stream fails)) {leader : String} {fromIndex toIndex : Nat}
    (hcycle : s.backup.cycle = .streaming leader fromIndex toIndex) :
    Truthful c a (s.serve (s.backup.stream (s.cluster.hosts leader).node fails)) := by
  have hd := h.deployed.stream hsafe hcycle
  have hr : (leader, fromIndex, toIndex) ∈ s.backup.cycle.range? := by rw [hcycle]; rfl
  have hn := h.deployed.view.nodes leader (h.deployed.member _ hr)
  have hstop := h.stop (by rw [hcycle]; rfl)
  have hphase := h.cycle
  rw [hcycle] at hphase
  obtain ⟨⟨rfl, hle⟩, hstate⟩ := hphase
  have hcom := hsafe _ hr
  have hstream := Node.streamLogRange_eq (fun i hi => hn.entryAtLocked hi) (hfaith _ hr)
    (Nat.le_of_succ_le hle)
  dsimp only at hcom
  rw [hstream] at hcom
  unfold Backup.stream at hd ⊢
  rw [hcycle] at hd ⊢
  dsimp only at hd ⊢
  rw [hstream] at hd ⊢
  split
  · exact hstop
  · rename_i hfails
    rw [if_neg hfails] at hd
    refine h.goes hd ?_
    split
    · exact hstate
    · rename_i last hlast
      -- the last entry is the one the committed log of that length ends with
      have hidx : last.index = min toIndex (a.log leader).length := by
        rw [List.getLast?_drop] at hlast
        split at hlast
        · exact absurd hlast (by simp)
        · rename_i hlen
          rw [List.getLast?_eq_getElem?, List.length_take, List.getElem?_take] at hlast
          rw [List.length_take] at hlen
          rw [if_pos (by omega)] at hlast
          rw [placed_log h.deployed.view.reach leader _ last hlast]
          omega
      have hlen : ((a.log leader).take last.index).length = last.index := by
        rw [List.length_take, hidx]
        omega
      have htake : (a.log leader).take toIndex = (a.log leader).take last.index := by
        rw [hidx, List.take_eq_take_min]
      refine ⟨⟨(a.log leader).take last.index, hlen,
        hn.committedLog (hcom last (List.mem_of_getLast? hlast)), by rw [htake], ?_⟩, hstate⟩
      rw [hlen]
      by_contra hlt
      rw [htake, List.drop_eq_nil_of_le (by omega)] at hlast
      exact absurd hlast (by simp)

theorem apply (h : Truthful c a s) (hfaith : s.Faithful c .apply) :
    Truthful c a (s.serve (s.backup.apply c.decode)) := by
  have hd := h.deployed.apply
  have hphase := h.cycle
  unfold Backup.apply at hd ⊢
  split
  · rename_i leader es last hcycle
    rw [hcycle] at hd hphase
    obtain ⟨⟨C, hlen, hC, rfl, hle⟩, hstate⟩ := hphase
    have hdec : ∀ e ∈ C.drop s.backup.store.lastIncludedIndex, (c.decode e.command).isSome := by
      intro e he
      exact hfaith e (by rw [hcycle]; exact he)
    dsimp only at hd
    rw [Store.apply_eq _ hdec] at hd ⊢
    exact ⟨hd, ⟨C, hlen, hC, hstate.apply h.deployed.view.reach hC hle⟩, h.files, h.acks, h.polls⟩
  · exact h.same

theorem verify (h : Truthful c a s) {view : Option String} (hfaith : s.Faithful c (.verify view)) :
    Truthful c a (s.serve (s.backup.verify view)) := by
  have hd := h.deployed.verify view
  have hphase := h.cycle
  unfold Backup.verify at hd ⊢
  split
  · rename_i leader last hcycle
    rw [hcycle] at hd hphase
    obtain rfl := hfaith leader (by rw [hcycle]; rfl)
    dsimp only at hd
    rw [if_pos rfl] at hd ⊢
    exact h.goes hd hphase
  · exact h.same

theorem files_writeFile (h : Truthful c a s) {f : File}
    (hf : StateAt c a f.lastIncludedIndex f.state) :
    ∀ g ∈ (s.backup.store.dataDir.apply (.writeFile f)).snapshots,
      StateAt c a g.lastIncludedIndex g.state := by
  intro g hg
  rcases List.mem_cons.1 hg with rfl | hg
  · exact hf
  · exact h.files g (List.mem_of_mem_filter hg)

theorem commit (h : Truthful c a s) {fails : Bool} (hfaith : s.Faithful c (.commit fails)) :
    Truthful c a { s.serve (s.backup.commit fails) with
      acks := s.acks ++ s.backup.confirms fails } := by
  have hd := h.deployed.commit fails
  have hphase := h.cycle
  unfold Backup.commit Backup.confirms at hd ⊢
  cases hcycle : s.backup.cycle with
  | verified leader last =>
      rw [hcycle] at hd hphase
      obtain rfl := hfaith (by rw [hcycle]; rfl)
      have hwritten := h.files_writeFile (f := ⟨s.backup.store.state, last.index, last.term⟩) hphase
      refine ⟨hd, hphase, ?_, ?_, h.polls⟩
      · intro g hg
        simp only [Deployment.serve, Store.commit, Bool.false_eq_true, if_false] at hg
        split at hg
        · split at hg
          · exact hwritten g (List.mem_filter.1 hg).1
          · exact hwritten g hg
        · exact hwritten g hg
      · intro x hx
        rcases List.mem_append.1 hx with hx | hx
        · exact h.acks x hx
        · obtain rfl := List.mem_singleton.1 hx
          exact hphase
  | _ => exact { h.same with
      deployed := by rw [hcycle] at hd; exact hd
      acks := by simpa using h.acks }

theorem finish (h : Truthful c a s) : Truthful c a (s.serve s.backup.finish) := by
  unfold Backup.finish
  split
  · rename_i leader file hcycle
    exact h.stop (by rw [hcycle]; rfl)
  · exact h.same

/-- A directory of true snapshots to start from. -/
theorem restart (h : Truthful c a s) {d : Disk} (hd : Deployed c a (s.serve (Backup.new d)))
    (hfiles : ∀ f ∈ d.snapshots, StateAt c a f.lastIncludedIndex f.state) :
    Truthful c a (s.serve (Backup.new d)) := by
  refine ⟨hd, ?_, ?_, h.acks, h.polls⟩
  · unfold Backup.new Store.newStore
    dsimp only [Deployment.serve]
    split
    · rename_i file hfile
      exact hfiles file (latest_mem hfile).1
    · exact StateAt.zero
  · unfold Backup.new Store.newStore
    dsimp only [Deployment.serve]
    split
    · exact hfiles
    · exact hfiles

/-- The cluster goes on. -/
theorem nodes (h : Truthful c a s) (hx : Extends a a') {act : Action} {cl : Cluster}
    (hs : B5KvStore.step c s.cluster act = some cl) {acks : List (String × File)}
    (hd : Deployed c a' { s with cluster := cl, acks := acks }) (hacks : ∀ x ∈ acks, x ∈ s.acks)
    (hfetch : ∀ p, act = .run (.pollFetch p) → s.backup.cycle.ahead? = none) :
    Truthful c a' { s with cluster := cl, acks := acks } where
  deployed := hd
  cycle := h.cycle.mono hx
  files f hf := (h.files f hf).mono hx
  acks x hmem := (h.acks x (hacks x hmem)).mono hx
  polls p f hf := by
    rcases poll_compactFetched hs hf with hold | ⟨hact, hcat⟩
    · exact (h.polls p f hold).mono hx
    · -- the catalog hands out the replica while it is at its boundary
      rw [h.deployed.catalog, Store.file] at hcat
      split at hcat
      · obtain rfl := Option.some.inj hcat
        exact (h.cycle.stateAt (hfetch p hact)).mono hx
      · exact absurd hcat (by simp)

/-- **One step** of the whole system. -/
theorem step (h : Truthful c a s) {act : DeployAction} (hsafe : s.Safe act)
    (hfaith : s.Faithful c act) (hs : s.step c cfg act = some s') : ∃ a', Truthful c a' s' := by
  obtain ⟨a', hx, hd⟩ := h.deployed.step hsafe hs
  cases act with
  | node act =>
      obtain ⟨-, hs⟩ := Option.ite_none_right_eq_some.1 hs
      obtain ⟨cl, hcl, rfl⟩ := Option.map_eq_some_iff.1 hs
      refine ⟨a', h.nodes hx hcl hd (fun _ hmem => hmem) ?_⟩
      rintro p rfl
      exact hfaith rfl
  | tick leader =>
      obtain ⟨hl, ⟨⟩⟩ := Option.ite_none_right_eq_some.1 hs
      exact ⟨a, h.tick hl hfaith⟩
  | stream fails =>
      simp only [Deployment.step] at hs
      split at hs
      · rename_i leader fromIndex toIndex hcycle
        obtain rfl := Option.some.inj hs
        exact ⟨a, h.stream hsafe hfaith hcycle⟩
      · exact absurd hs (by simp)
  | apply => exact ⟨a, Option.some.inj hs ▸ h.apply hfaith⟩
  | verify view => exact ⟨a, Option.some.inj hs ▸ h.verify hfaith⟩
  | commit fails => exact ⟨a, Option.some.inj hs ▸ h.commit hfaith⟩
  | finish => exact ⟨a, Option.some.inj hs ▸ h.finish⟩
  | confirm k =>
      obtain ⟨x, -, hs⟩ := Option.bind_eq_some_iff.1 hs
      obtain ⟨cl, hcl, hs⟩ := Option.bind_eq_some_iff.1 hs
      obtain rfl := Option.some.inj hs
      exact ⟨a', h.nodes hx hcl hd (fun _ hmem => List.mem_of_mem_eraseIdx hmem) (by simp)⟩
  | confirmCrash k j =>
      obtain ⟨x, -, hs⟩ := Option.bind_eq_some_iff.1 hs
      obtain ⟨cl, hcl, hs⟩ := Option.bind_eq_some_iff.1 hs
      obtain rfl := Option.some.inj hs
      exact ⟨a', h.nodes hx hcl hd (fun _ hmem => List.mem_of_mem_eraseIdx hmem) (by simp)⟩
  | restart =>
      obtain rfl := Option.some.inj hs
      exact ⟨a, h.restart (h.deployed.restart h.deployed.files) h.files⟩
  | commitCrash =>
      simp only [Deployment.step] at hs
      split at hs
      · rename_i leader last hcycle
        obtain rfl := Option.some.inj hs
        have hphase := h.cycle
        rw [hcycle] at hphase
        exact ⟨a, h.restart (h.deployed.restart (h.deployed.files_writeFile
          (h.deployed.last last (by rw [hcycle]; rfl)))) (h.files_writeFile hphase)⟩
      · exact absurd hs (by simp)

/-- **Runs** of the whole system. -/
theorem run {as : List DeployAction}
    (hok : Runs.Along (Deployment.step c cfg) (fun s act => s.Safe act ∧ s.Faithful c act)
      c.deploy as)
    (hrun : Deployment.run c cfg as = some s) : ∃ a, Truthful c a s := by
  refine Runs.invariant (I := fun s => ∃ a, Truthful c a s) ?_ ⟨_, Truthful.init c⟩ hok hrun
  rintro s act s' ⟨a, h⟩ ⟨hsafe, hfaith⟩ hs
  exact h.step hsafe hfaith hs

end Truthful

end

/-- **A node only compacts with a snapshot of its own history**, in every run in which
snapshots are used safely and the service is faithful: when `compactLocked` runs with a
file, the node holds an entry of the file's term at its last index, and the state is that
of the commands committed up to there, which are the node's own. -/
theorem compacts_own_history (c : Config) (cfg : CompactorConfig) (as : List DeployAction)
    (s : Deployment) (p : String) (file : File) (hp : p ∈ c.addrs)
    (hrun : Deployment.run c cfg as = some s)
    (hok : Runs.Along (Deployment.step c cfg) (fun s act => s.Safe act ∧ s.Faithful c act)
      c.deploy as)
    (hcompacts : s.Compacts p file) :
    ((s.cluster.hosts p).node.entryAtLocked file.lastIncludedIndex).map LogEntry.term =
        some file.lastIncludedTerm ∧
      ∃ C, C.length = file.lastIncludedIndex ∧ file.state = replay c.decode C KVMap.new ∧
        ∀ i e, C[i]? = some e → CommittedOnly s.cluster (i + 1) e ∧
          (s.cluster.hosts p).node.Keeps (i + 1) e := by
  obtain ⟨a, h⟩ := Truthful.run hok hrun
  obtain ⟨hfile, hlow, hhigh⟩ := hcompacts
  have hview := h.deployed.view
  have hn := hview.nodes p hp
  rw [hn.applied] at hhigh
  have hcom : CommittedFile a file := by
    rcases hfile with hack | hpoll
    · exact h.deployed.acks _ hack
    · have := hview.polls p hp
      rw [hpoll] at this
      exact this (by omega)
  have hstate : StateAt c a file.lastIncludedIndex file.state := by
    rcases hfile with hack | hpoll
    · exact h.acks _ hack
    · exact h.polls p file hpoll
  refine ⟨?_, ?_⟩
  · obtain ⟨e, he, ht⟩ := hcom
    rw [Node.term_entryAtLocked hn.log (by omega), hn.known.getElem? hview.reach.inv hhigh he, ← ht]
    rfl
  · obtain ⟨C, hlen, hC, hkv⟩ := hstate
    refine ⟨C, hlen, hkv, fun i e he => ?_⟩
    have hi := (List.getElem?_eq_some_iff.1 he).1
    have hown := hn.known.getElem? hview.reach.inv (show i + 1 ≤ _ by omega) (hC i e he)
    exact ⟨hview.committedOnly (hC i e he), hn.keeps hown⟩

/-- The snapshot of two committed entries, with which `a` is about to compact. -/
theorem compacts_own_history_smallTrio : ∃ s file,
    Deployment.run smallTrio {} ((proposeSecond ++ replicate "a" "b" 1).map .node ++
      backupCycle "a") = some s ∧
    s.Compacts "a" file ∧ ∃ C : List LogEntry, C.length = 2 ∧
      file.state = replay decodePut C KVMap.new := by
  obtain ⟨s, hs, ⟨p, file⟩, hmem, rfl, hlow, hhigh, hidx⟩ := Deployment.exists_of_run
    (fun s : Deployment => ∃ x ∈ s.acks, x.1 = "a" ∧
      (s.cluster.hosts "a").node.logOffset + 1 < x.2.lastIncludedIndex ∧
      x.2.lastIncludedIndex ≤ (s.cluster.hosts "a").node.lastApplied ∧ x.2.lastIncludedIndex = 2)
    (show (Deployment.run smallTrio {} ((proposeSecond ++ replicate "a" "b" 1).map .node ++
      backupCycle "a")).any _ = true by decide +kernel)
  have hcompacts : s.Compacts "a" file := ⟨Or.inl hmem, hlow, hhigh⟩
  obtain ⟨-, C, hlen, hstate, -⟩ := compacts_own_history smallTrio {} _ s "a" file (by decide) hs
    (by decide +kernel) hcompacts
  exact ⟨s, file, hs, hcompacts, C, hlen.trans hidx, hstate⟩

/-- Node `b` has committed another second entry than the one that was backed up, and is about
to compact with the snapshot. -/
theorem foreign_history_compacted : ∃ s file,
    Deployment.run smallTrio {} (backupEarly ++ (fetchSnapshot "b").map .node) = some s ∧
    s.Compacts "b" file ∧ file.lastIncludedIndex = 2 ∧ file.lastIncludedTerm = 1 ∧
    (s.cluster.hosts "b").node.entryAtLocked 2 = some ⟨2, 2, putBytes 120 51⟩ ∧
    file.state "x" = some "2" ∧ (s.cluster.hosts "b").kv "x" = some "3" := by
  obtain ⟨s, hs, file, hfile, ⟨hlow, hhigh⟩, hrest⟩ := Deployment.exists_of_run
    (fun s : Deployment => ∃ file ∈ (s.cluster.hosts "b").poll.compactFetched?,
      ((s.cluster.hosts "b").node.logOffset + 1 < file.lastIncludedIndex ∧
        file.lastIncludedIndex ≤ (s.cluster.hosts "b").node.lastApplied) ∧
      file.lastIncludedIndex = 2 ∧ file.lastIncludedTerm = 1 ∧
      (s.cluster.hosts "b").node.entryAtLocked 2 = some ⟨2, 2, putBytes 120 51⟩ ∧
      file.state "x" = some "2" ∧ (s.cluster.hosts "b").kv "x" = some "3")
    (show (Deployment.run smallTrio {} (backupEarly ++ (fetchSnapshot "b").map .node)).any _ = true
      by decide +kernel)
  exact ⟨s, file, hs, ⟨Or.inr (PollPhase.compactFetched?_eq_some.1 hfile), hlow, hhigh⟩, hrest⟩

end B5KvStore
