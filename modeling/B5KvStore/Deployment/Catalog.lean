import B5KvStore.Cluster.CommittedPrefix
import B5KvStore.Deployment.Basic

/-!
# The catalog

What the catalog offers ends with a committed entry, as long as the compactor downloads
nothing that is not committed yet: the boundary of a snapshot is the last entry of a
download.

* `Deployed` — what holds in every state of safe runs.
* `catalog_committed`, `uncommitted_published`.
-/

namespace B5KvStore

open ReplicatedLog (Known CommittedAt Extends)

/-- The last entry of the download a cycle works on. -/
def CyclePhase.last? : CyclePhase → Option LogEntry
  | .downloaded _ _ last | .applied _ last | .verified _ last => some last
  | _ => none

/-- An entry of this term has been committed at the index. -/
def CommittedTerm (a : Model) (i t : Nat) : Prop := ∃ e, CommittedAt a i e ∧ e.term = t

theorem CommittedTerm.mono {a a' : Model} {i t : Nat} (h : CommittedTerm a i t)
    (hx : Extends a a') : CommittedTerm a' i t := by
  obtain ⟨e, he, ht⟩ := h
  exact ⟨e, he.mono hx, ht⟩

/-- What holds in every state of the whole system: the cluster stands for an abstract state
in which every snapshot ends with a committed entry. -/
structure Deployed (c : Config) (a : Model) (s : Deployment) : Prop where
  view : ClusterView c a s.cluster
  catalog : s.cluster.catalog = s.backup.store.file
  boundary : s.backup.store.available = true →
    CommittedTerm a s.backup.store.lastIncludedIndex s.backup.store.lastIncludedTerm
  files : ∀ f ∈ s.backup.store.dataDir.snapshots, CommittedFile a f
  member : ∀ r ∈ s.backup.cycle.range?, r.1 ∈ c.addrs
  last : ∀ e ∈ s.backup.cycle.last?, CommittedTerm a e.index e.term
  acks : ∀ x ∈ s.acks, CommittedFile a x.2

section

variable {c : Config} {cfg : CompactorConfig} {a a' : Model} {s s' : Deployment}

theorem Store.committedFile {st : Store}
    (h : st.available = true → CommittedTerm a st.lastIncludedIndex st.lastIncludedTerm) (f : File)
    (hf : st.file = some f) : CommittedFile a f := by
  unfold Store.file at hf
  split at hf
  · rename_i hav
    obtain rfl := Option.some.inj hf
    exact h hav
  · exact absurd hf (by simp)

/-- The catalog offers another snapshot, or none. -/
theorem ClusterView.offer {s : Cluster} (h : ClusterView c a s) {offer : Option File}
    (hf : ∀ f, offer = some f → CommittedFile a f) : ClusterView c a { s with catalog := offer } :=
  ⟨h.reach, h.nodes, h.disks, h.polls, h.elections, h.broadcasts, fun f hoffer _ => hf f hoffer,
    h.history, h.commits⟩

/-- A committed snapshot, in the words of the cluster. -/
theorem ClusterView.committedSnapshot {s : Cluster} (h : ClusterView c a s) {f : File}
    (hf : CommittedFile a f) : CommittedSnapshot s f := by
  obtain ⟨e, he, ht⟩ := hf
  obtain ⟨ev, hev, n, hn, hshow⟩ := h.commits _ e he
  exact ⟨ev, hev, n, hn, e, hshow.2.2, hshow, ht⟩

/-- A node's entries up to its commit index are committed, its anchor included. -/
theorem NodeView.committedTerm {p : String} {n : Node} (h : NodeView c a p n) {i : Nat}
    {e : LogEntry} (he : n.entryAtLocked i = some e) (hi : i ≤ n.commitIndex) :
    CommittedTerm a i e.term := by
  have hoff : n.logOffset < i := by
    by_contra hle
    rw [n.entryAtLocked_eq_none (by omega)] at he
    exact absurd he (by simp)
  have hterm := n.term_entryAtLocked h.log hoff
  rw [he, Option.map_some, eq_comm, Option.map_eq_some_iff] at hterm
  obtain ⟨x, hx, ht⟩ := hterm
  exact ⟨x, h.known.committedAt (by omega) hi hx, ht⟩

namespace Deployed

theorem init (c : Config) : Deployed c .init c.deploy where
  view := ClusterView.init c
  catalog := rfl
  boundary hav := absurd hav (by simp [Config.deploy, Backup.new, Store.newStore, Disk.empty,
    Disk.latest])
  files f hf := absurd hf (by simp [Config.deploy, Backup.new, Store.newStore, Disk.empty,
    Disk.latest])
  member := by simp [Config.deploy, Backup.new, CyclePhase.range?]
  last := by simp [Config.deploy, Backup.new, CyclePhase.last?]
  acks := by simp [Config.deploy]

/-- The service goes on. -/
theorem serve (h : Deployed c a s) {b : Backup}
    (hboundary : b.store.available = true →
      CommittedTerm a b.store.lastIncludedIndex b.store.lastIncludedTerm)
    (hfiles : ∀ f ∈ b.store.dataDir.snapshots, CommittedFile a f)
    (hmember : ∀ r ∈ b.cycle.range?, r.1 ∈ c.addrs)
    (hlast : ∀ e ∈ b.cycle.last?, CommittedTerm a e.index e.term) : Deployed c a (s.serve b) where
  view := h.view.offer (Store.committedFile hboundary)
  catalog := rfl
  boundary := hboundary
  files := hfiles
  member := hmember
  last := hlast
  acks := h.acks

/-- A step of the cycle that leaves the store alone. -/
theorem cycle (h : Deployed c a s) {ph : CyclePhase} (hmember : ∀ r ∈ ph.range?, r.1 ∈ c.addrs)
    (hlast : ∀ e ∈ ph.last?, CommittedTerm a e.index e.term) :
    Deployed c a (s.serve { s.backup with cycle := ph }) :=
  h.serve h.boundary h.files hmember hlast

/-- The cycle stops, or goes on with nothing downloaded. -/
theorem stop (h : Deployed c a s) : Deployed c a (s.serve { s.backup with cycle := .idle }) :=
  h.cycle (by simp [CyclePhase.range?]) (by simp [CyclePhase.last?])

theorem same (h : Deployed c a s) : Deployed c a (s.serve s.backup) :=
  h.serve h.boundary h.files h.member h.last

theorem tick (h : Deployed c a s) {leader : String} (hl : leader ∈ c.addrs)
    (status : LogStatusReply) : Deployed c a (s.serve (s.backup.tick cfg leader status)) := by
  unfold Backup.tick
  split
  · split
    · exact h.same
    · unfold Backup.start
      split
      · exact h.stop
      · refine h.cycle ?_ (by simp [CyclePhase.last?])
        intro r hr
        obtain rfl := Option.some.inj hr
        exact hl
  · exact h.same

/-- The last entry of a download of committed entries is committed. -/
theorem stream (h : Deployed c a s) {fails : Bool} (hsafe : s.Safe (.stream fails))
    {leader : String} {fromIndex toIndex : Nat}
    (hcycle : s.backup.cycle = .streaming leader fromIndex toIndex) :
    Deployed c a (s.serve (s.backup.stream (s.cluster.hosts leader).node fails)) := by
  have hr : (leader, fromIndex, toIndex) ∈ s.backup.cycle.range? := by rw [hcycle]; rfl
  have hn := h.view.nodes leader (h.member _ hr)
  unfold Backup.stream
  rw [hcycle]
  dsimp only
  split
  · exact h.stop
  · split
    · exact h.stop
    · rename_i last hlast
      refine h.cycle (by simp [CyclePhase.range?]) ?_
      intro e he
      obtain rfl := Option.some.inj he
      have hmem := List.mem_of_getLast? hlast
      obtain ⟨i, -, hentry⟩ := List.mem_filterMap.1 hmem
      have hle := hsafe _ hr _ hmem
      have hi := hn.indexed h.view.reach i _ hentry
      rw [← hi] at hentry
      exact hn.committedTerm hentry hle

theorem apply (h : Deployed c a s) : Deployed c a (s.serve (s.backup.apply c.decode)) := by
  unfold Backup.apply
  split
  · rename_i leader es last hcycle
    obtain ⟨kv, heq⟩ : ∃ kv, (s.backup.store.apply c.decode es).1 =
        { s.backup.store with state := kv } := Store.apply_frame _ es
    dsimp only
    rw [heq]
    refine h.serve h.boundary h.files ?_ ?_
    · dsimp only
      split
      · simp [CyclePhase.range?]
      · simp [CyclePhase.range?]
    · dsimp only
      split
      · intro e he
        obtain rfl := Option.some.inj he
        exact h.last _ (by rw [hcycle]; rfl)
      · simp [CyclePhase.last?]
  · exact h.same

theorem verify (h : Deployed c a s) (view : Option String) :
    Deployed c a (s.serve (s.backup.verify view)) := by
  unfold Backup.verify
  split
  · rename_i leader last hcycle
    split
    · refine h.cycle (by simp [CyclePhase.range?]) ?_
      intro e he
      obtain rfl := Option.some.inj he
      exact h.last _ (by rw [hcycle]; rfl)
    · exact h.stop
  · exact h.same

theorem finish (h : Deployed c a s) : Deployed c a (s.serve s.backup.finish) := by
  unfold Backup.finish
  split
  · exact h.stop
  · exact h.same

/-- A directory of committed snapshots to start from. -/
theorem restart (h : Deployed c a s) {d : Disk} (hd : ∀ f ∈ d.snapshots, CommittedFile a f) :
    Deployed c a (s.serve (Backup.new d)) := by
  refine h.serve ?_ ?_ (by simp [Backup.new, CyclePhase.range?])
    (by simp [Backup.new, CyclePhase.last?])
  · unfold Backup.new Store.newStore
    split
    · rename_i file hfile
      exact fun _ => hd _ (latest_mem hfile).1
    · simp
  · unfold Backup.new Store.newStore
    split
    · exact hd
    · exact hd

theorem files_writeFile (h : Deployed c a s) {f : File} (hf : CommittedFile a f) :
    ∀ g ∈ (s.backup.store.dataDir.apply (.writeFile f)).snapshots, CommittedFile a g := by
  intro g hg
  rcases List.mem_cons.1 hg with rfl | hg
  · exact hf
  · exact h.files g (List.mem_of_mem_filter hg)

/-- The boundary moves to the last entry of the download. -/
theorem commit (h : Deployed c a s) (fails : Bool) :
    Deployed c a { s.serve (s.backup.commit fails) with
      acks := s.acks ++ s.backup.confirms fails } := by
  unfold Backup.commit Backup.confirms
  cases hcycle : s.backup.cycle with
  | verified leader last =>
      have hlast : CommittedTerm a last.index last.term := h.last last (by rw [hcycle]; rfl)
      cases fails with
      | true => exact { h.stop with acks := by simpa [Store.commit] using h.acks }
      | false =>
          have hwritten := h.files_writeFile (f := ⟨s.backup.store.state, last.index, last.term⟩)
            hlast
          have hserve : Deployed c a (s.serve
              ⟨(s.backup.store.commit last.index last.term false).1,
                .confirming leader ⟨s.backup.store.state, last.index, last.term⟩⟩) := by
            refine h.serve (fun _ => hlast) ?_ (by simp [CyclePhase.range?])
              (by simp [CyclePhase.last?])
            intro g hg
            simp only [Store.commit, Bool.false_eq_true, if_false] at hg
            split at hg
            · split at hg
              · exact hwritten g (List.mem_filter.1 hg).1
              · exact hwritten g hg
            · exact hwritten g hg
          refine { hserve with acks := ?_ }
          intro x hx
          rcases List.mem_append.1 hx with hx | hx
          · exact h.acks x hx
          · obtain rfl := List.mem_singleton.1 hx
            exact hlast
  | _ => exact { h.same with acks := by simpa using h.acks }

/-- The cluster goes on. -/
theorem nodes (h : Deployed c a s) {act : Action} {cl : Cluster} (hok : Safe s.cluster act)
    (hs : B5KvStore.step c s.cluster act = some cl) (hcat : cl.catalog = s.cluster.catalog)
    (acks : List (String × File)) (hacks : ∀ x ∈ acks, x ∈ s.acks) :
    ∃ a', Extends a a' ∧ Deployed c a' { s with cluster := cl, acks := acks } := by
  obtain ⟨p, a', hm, hview⟩ := h.view.step hok hs
  have hx := hm.extends h.view.reach.inv
  exact ⟨a', hx, hview, hcat.trans h.catalog, fun hav => (h.boundary hav).mono hx,
    fun f hf => (h.files f hf).mono hx, h.member, fun e he => (h.last e he).mono hx,
    fun x hmem => (h.acks x (hacks x hmem)).mono hx⟩

end Deployed

/-- Nothing but a new snapshot changes what the catalog offers. -/
theorem catalog_step {c : Config} {s s' : Cluster} {act : Action} (hs : step c s act = some s')
    (hact : ∀ file, act ≠ .publish file) : s'.catalog = s.catalog := by
  cases stepView hs with
  | run op o ho =>
      exact (exec_effect ho).same_rest.1
  | crash p _ =>
      rfl
  | crashDuring op o k _ =>
      rfl
  | publish file => exact absurd rfl (hact file)

/-- **One step** of the whole system. -/
theorem Deployed.step (h : Deployed c a s) {act : DeployAction} (hsafe : s.Safe act)
    (hs : s.step c cfg act = some s') : ∃ a', Extends a a' ∧ Deployed c a' s' := by
  cases act with
  | node act =>
      obtain ⟨hact, hs⟩ := Option.ite_none_right_eq_some.1 hs
      obtain ⟨cl, hcl, rfl⟩ := Option.map_eq_some_iff.1 hs
      refine h.nodes hsafe hcl (catalog_step hcl ?_) s.acks fun _ hx => hx
      rintro file rfl
      exact absurd hact (by simp [Action.ofNodes])
  | tick leader =>
      obtain ⟨hl, ⟨⟩⟩ := Option.ite_none_right_eq_some.1 hs
      exact ⟨a, .refl a, h.tick hl _⟩
  | stream fails =>
      simp only [Deployment.step] at hs
      split at hs
      · rename_i leader fromIndex toIndex hcycle
        obtain rfl := Option.some.inj hs
        exact ⟨a, .refl a, h.stream hsafe hcycle⟩
      · exact absurd hs (by simp)
  | apply => exact ⟨a, .refl a, Option.some.inj hs ▸ h.apply⟩
  | verify view => exact ⟨a, .refl a, Option.some.inj hs ▸ h.verify view⟩
  | commit fails => exact ⟨a, .refl a, Option.some.inj hs ▸ h.commit fails⟩
  | finish => exact ⟨a, .refl a, Option.some.inj hs ▸ h.finish⟩
  | confirm k =>
      obtain ⟨⟨leader, file⟩, hk, hs⟩ := Option.bind_eq_some_iff.1 hs
      obtain ⟨cl, hcl, hs⟩ := Option.bind_eq_some_iff.1 hs
      obtain rfl := Option.some.inj hs
      have hok : Safe s.cluster (.run (.confirmCompaction leader file.ack)) := by
        refine ⟨trivial, fun f hf => ?_⟩
        obtain rfl := Option.some.inj hf
        exact h.view.committedSnapshot (h.acks _ (List.mem_of_getElem? hk))
      exact h.nodes hok hcl (catalog_step hcl (by simp)) _ fun x hx => List.mem_of_mem_eraseIdx hx
  | confirmCrash k j =>
      obtain ⟨⟨leader, file⟩, hk, hs⟩ := Option.bind_eq_some_iff.1 hs
      obtain ⟨cl, hcl, hs⟩ := Option.bind_eq_some_iff.1 hs
      obtain rfl := Option.some.inj hs
      have hok : Safe s.cluster (.crashDuring (.confirmCompaction leader file.ack) j) := by
        refine ⟨trivial, fun f hf => ?_⟩
        obtain rfl := Option.some.inj hf
        exact h.view.committedSnapshot (h.acks _ (List.mem_of_getElem? hk))
      exact h.nodes hok hcl (catalog_step hcl (by simp)) _ fun x hx => List.mem_of_mem_eraseIdx hx
  | restart => exact ⟨a, .refl a, Option.some.inj hs ▸ h.restart h.files⟩
  | commitCrash =>
      simp only [Deployment.step] at hs
      split at hs
      · rename_i leader last hcycle
        obtain rfl := Option.some.inj hs
        exact ⟨a, .refl a, h.restart (h.files_writeFile (h.last last (by rw [hcycle]; rfl)))⟩
      · exact absurd hs (by simp)

/-- **Runs** of the whole system. -/
theorem Deployed.run {as : List DeployAction}
    (hok : Runs.Along (Deployment.step c cfg) Deployment.Safe c.deploy as)
    (hrun : Deployment.run c cfg as = some s) : ∃ a, Deployed c a s := by
  refine Runs.invariant (I := fun s => ∃ a, Deployed c a s) ?_ ⟨_, Deployed.init c⟩ hok hrun
  rintro s act s' ⟨a, h⟩ hok hs
  obtain ⟨a', -, h'⟩ := h.step hok hs
  exact ⟨a', h'⟩

end

/-- **The catalog holds only committed entries**, in every run in which snapshots are used
safely and the compactor downloads committed entries only: the boundary is the entry
committed at its index, and no other is. -/
theorem catalog_committed (c : Config) (cfg : CompactorConfig) (as : List DeployAction)
    (s : Deployment) (i t : Nat) (hrun : Deployment.run c cfg as = some s)
    (hok : Runs.Along (Deployment.step c cfg) Deployment.Safe c.deploy as)
    (hlatest : s.backup.store.latest = (i, t, true)) :
    ∃ e, CommittedOnly s.cluster i e ∧ e.term = t := by
  obtain ⟨a, h⟩ := Deployed.run hok hrun
  simp only [Store.latest, Prod.mk.injEq] at hlatest
  obtain ⟨rfl, rfl, hav⟩ := hlatest
  obtain ⟨e, he, ht⟩ := h.boundary hav
  exact ⟨e, h.view.committedOnly he, ht⟩

/-- Once the second entry is committed as well, it is backed up, and `a` compacts its log; `c`
then gets what it lacks from the catalog. -/
def backupCommitted : List DeployAction :=
  (proposeSecond ++ replicate "a" "b" 1).map .node ++ backupCycle "a" ++ [.confirm 0, .finish] ++
  (replicate "a" "c" 2 ++ fetchSnapshot "c" ++ adoptFetched "c").map .node

theorem catalog_committed_smallTrio : ∃ s e, Deployment.run smallTrio {} backupCommitted = some s ∧
    s.backup.store.latest = (2, 1, true) ∧ CommittedOnly s.cluster 2 e ∧ e.term = 1 := by
  obtain ⟨s, hs, hlatest⟩ := Deployment.exists_of_run
    (fun s : Deployment => s.backup.store.latest = (2, 1, true))
    (show (Deployment.run smallTrio {} backupCommitted).any _ = true by decide +kernel)
  obtain ⟨e, hcom, ht⟩ := catalog_committed smallTrio {} backupCommitted s 2 1 hs
    (by decide +kernel) hlatest
  exact ⟨s, e, hs, hlatest, hcom, ht⟩

/-- Node `b` leads term 2 without the second entry of `a` and commits another one. -/
def commitOther : List Action :=
  winElection "b" "c" 1 ++ [.run (.propose "b" (putBytes 120 51))] ++ replicate "b" "c" 1 ++
  replicate "b" "c" 2

/-- The second entry is backed up before it is committed, and never is. -/
def backupEarly : List DeployAction :=
  proposeSecond.map .node ++ backupCycle "a" ++ [.confirm 0, .finish] ++ commitOther.map .node

/-- The catalog offers a snapshot up to an entry that is not committed, and never will be:
another one is. -/
theorem uncommitted_published : ∃ s, Deployment.run smallTrio {} backupEarly = some s ∧
    s.backup.store.latest = (2, 1, true) ∧
    (∀ file ∈ s.backup.store.file, ¬ CommittedSnapshot s.cluster file) ∧
    CommittedEntry s.cluster 2 ⟨2, 2, putBytes 120 51⟩ :=
  Deployment.exists_of_run (fun s : Deployment => s.backup.store.latest = (2, 1, true) ∧
    (∀ file ∈ s.backup.store.file, ¬ CommittedSnapshot s.cluster file) ∧
    CommittedEntry s.cluster 2 ⟨2, 2, putBytes 120 51⟩)
    (show (Deployment.run smallTrio {} backupEarly).any _ = true by decide +kernel)

end B5KvStore
