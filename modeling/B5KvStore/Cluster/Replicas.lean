import B5KvStore.Cluster.StateMachine
import B5KvStore.Cluster.WriteOrder

/-!
# The replicas as one store

What the replicas are kept for: a write that was acknowledged is on a majority of the disks from
then on, and whatever two replicas show at whatever times is one history of commands.

* `Careful` — what is asked of a step.
* `Host.Holds` — a process has a write, in its log or in its map.
* `acknowledged_write_survives` — an acknowledged write outlives the crash of every process.
* `Advances`, `replicas_agree` — of two maps, one is the other brought forward.
-/

namespace B5KvStore

open ReplicatedLog (CommittedAt Extends Guards)

variable {c : Config} {a a' : Model} {s s' : Cluster}

/-- What is asked of a step: no disk write fails, snapshots are used safely and are correct, and
nothing is applied between `Restore` and the final update of a catch-up. -/
structure Careful (c : Config) (s : Cluster) (act : Action) : Prop where
  safe : Safe s act
  correct : CorrectSnapshots c s act
  undisturbed : Undisturbed c s act

/-- What the maps are does not depend on the abstract state the cluster is seen as. -/
theorem Replayed.transfer (h : Replayed c a s) (hv : ClusterView c a s)
    (hv' : ClusterView c a' s) : Replayed c a' s := by
  have hstate : ∀ {m kv}, StateAt c a m kv → StateAt c a' m kv := fun hst =>
    hv'.stateAt_iff.2 (hv.stateAt_iff.1 hst)
  refine ⟨fun p hp => ?_, fun f hf => hstate (h.catalog f hf)⟩
  have hh := h.hosts p hp
  exact ⟨fun f hf => hstate (hh.files f hf), fun f hf => hstate (hh.poll f hf),
    fun hidle => hstate (hh.state hidle), hh.restored⟩

/-- The cluster, the calls it has answered and the maps of its processes. -/
structure Replicated (c : Config) (a : Model) (s : Cluster) : Prop where
  view : ClusterView c a s
  promises : Promises c a s
  replayed : Replayed c a s

namespace Replicated

theorem init (c : Config) : Replicated c .init c.init := ⟨.init c, .init c, .init c⟩

theorem step (h : Replicated c a s) {act : Action} (hok : Careful c s act)
    (hs : B5KvStore.step c s act = some s') : ∃ a', Extends a a' ∧ Replicated c a' s' := by
  obtain ⟨a', hx, hv', hp'⟩ := h.promises.step h.view hok.safe hs
  obtain ⟨b, hb, hrep⟩ := h.replayed.step h.view hok.safe hok.correct hok.undisturbed hs
  exact ⟨a', hx, hv', hp', hrep.transfer hb hv'⟩

theorem run (h : Replicated c a s) {as : List Action}
    (hok : Runs.Along (B5KvStore.step c) (Careful c) s as) (hrun : B5KvStore.run c s as = some s') :
    ∃ a', Extends a a' ∧ Replicated c a' s' := by
  refine Runs.invariant (I := fun t => ∃ b, Extends a b ∧ Replicated c b t) ?_ ⟨a, .refl a, h⟩ hok
    (run_eq_exec .. ▸ hrun)
  rintro t act t' ⟨b, hx, hb⟩ hact hs
  obtain ⟨b', hx', hb'⟩ := hb.step hact hs
  exact ⟨b', hx.trans hx', hb'⟩

end Replicated

/-- Runs in which no snapshot is handed to a process. -/
theorem careful_along {as : List Action} (hsafe : Runs.Along (step c) Safe s as)
    (hnone : ∀ act ∈ as, act.snapshot?.isNone)
    (hquiet : Runs.Along (step c) (Undisturbed c) s as) :
    Runs.Along (step c) (Careful c) s as := by
  refine ((hsafe.and (correctSnapshots_of_isNone hnone)).and hquiet).imp ?_
  rintro t act ⟨⟨hsafe, hcorrect⟩, hquiet⟩
  exact ⟨hsafe, hcorrect, hquiet⟩

/-! ## Acknowledged writes -/

/-- The process holds a write: the entry is in its log, or its map is what the commands committed
so far make of an empty map, the write among them. -/
def Host.Holds (c : Config) (s : Cluster) (i : Nat) (e : LogEntry) (h : Host) : Prop :=
  h.node.entryAtLocked i = some e ∨
    i ≤ h.node.lastApplied ∧ CommittedState c s h.node.lastApplied h.kv

/-- Whoever guards an entry still has it after a restart. -/
theorem Replicated.holds_boot (h : Replicated c a s) {p : String} (hp : p ∈ c.addrs) {i : Nat}
    {e : LogEntry} (hg : Guards a i e p) (epoch : Nat) :
    (c.boot p (s.hosts p).disk epoch).Holds c s i e := by
  have hd := h.view.disks p hp
  obtain ⟨b, hm, -, hnode, -⟩ := hd.boot h.view.reach
  have hlog := (hg.mono h.view.reach.inv (hm.extends h.view.reach.inv)).getElem?
    (h.view.reach.steps hm).inv
  by_cases hi : (c.newNode p (s.hosts p).disk).anchorIndex < i
  · exact Or.inl (hnode.keeps hlog hi)
  · have hrep := HostReplays.boot hd h.view.reach (h.replayed.hosts p hp).files epoch
    refine Or.inr ⟨?_, h.view.stateAt_iff.1 (hrep.state rfl)⟩
    exact (Nat.le_of_not_lt hi).trans (hnode.anchorIndex_le.trans hnode.applied.ge)

/-- **Acknowledged writes survive** crashes between whole file writes, in every careful run.  Once a
`ProposeSync` call has been told `nil`, at every later time a majority of the members keep its
entry, or a snapshot that covers it, and would hold the write if their processes crashed and
started again from what is on disk. -/
theorem acknowledged_write_survives (c : Config) (as bs : List Action) (s₁ s₂ : Cluster)
    (call : Proposal) (hok₁ : Runs.Along (step c) (Careful c) c.init as)
    (hrun₁ : run c c.init as = some s₁) (hok₂ : Runs.Along (step c) (Careful c) s₁ bs)
    (hrun₂ : run c s₁ bs = some s₂) (hcall : call ∈ s₁.proposals) (hchan : call.chan = some none) :
    c.quorums.IsQuorum {p | p ∈ c.addrs ∧ (s₂.hosts p).node.Keeps call.index call.entry ∧
      ∀ epoch, (c.boot p (s₂.hosts p).disk epoch).Holds c s₂ call.index call.entry} := by
  obtain ⟨a₁, -, h₁⟩ := (Replicated.init c).run hok₁ hrun₁
  obtain ⟨a₂, hx, h₂⟩ := h₁.run hok₂ hrun₂
  have hcom := (h₁.promises.told call hcall hchan).mono hx
  obtain ⟨W, hW, hcard, hguard⟩ := hcom.guarded h₂.view.reach.inv
  refine ⟨W, hW, hcard, fun p hpW => ?_⟩
  have hp : p ∈ c.addrs := List.mem_toFinset.1 (hW hpW)
  have hg := hguard p hpW
  exact ⟨hp, (h₂.view.nodes p hp).keeps (hg.getElem? h₂.view.reach.inv), h₂.holds_boot hp hg⟩

/-- The two parts of a run in which `a` and then `b` acknowledge a write are careful. -/
theorem careful_writeTwice : ∃ s₁ s₂, run trio trio.init writeTwice.1 = some s₁ ∧
    run trio s₁ writeTwice.2 = some s₂ ∧
    Runs.Along (step trio) (Careful trio) trio.init writeTwice.1 ∧
    Runs.Along (step trio) (Careful trio) s₁ writeTwice.2 ∧
    ⟨"a", 0, 1, 1, putBytes 120 49, some none, false⟩ ∈ s₁.proposals ∧
    (s₁.hosts "a").poll.restored? = none ∧ (s₂.hosts "b").poll.restored? = none ∧
    (s₁.hosts "a").node.lastApplied = 1 ∧ (s₂.hosts "b").node.lastApplied = 2 := by
  obtain ⟨s₁, hrun₁, ⟨hcall, hidle, happlied⟩, hsafe, hquiet, hrest⟩ := exists_of_run
    (fun s : Cluster => (⟨"a", 0, 1, 1, putBytes 120 49, some none, false⟩ ∈ s.proposals ∧
        (s.hosts "a").poll.restored? = none ∧ (s.hosts "a").node.lastApplied = 1) ∧
      Runs.Along (step trio) Safe s writeTwice.2 ∧
      Runs.Along (step trio) (Undisturbed trio) s writeTwice.2 ∧
      (run trio s writeTwice.2).any (fun s₂ : Cluster => decide
        ((s₂.hosts "b").poll.restored? = none ∧ (s₂.hosts "b").node.lastApplied = 2)) = true)
    (by decide +kernel : (run trio trio.init writeTwice.1).any _ = true)
  obtain ⟨s₂, hrun₂, hidle', happlied'⟩ := exists_of_run (fun s₂ : Cluster =>
    (s₂.hosts "b").poll.restored? = none ∧ (s₂.hosts "b").node.lastApplied = 2) hrest
  exact ⟨s₁, s₂, hrun₁, hrun₂,
    careful_along (by decide +kernel) (by decide) (by decide +kernel),
    careful_along hsafe (by decide) hquiet, hcall, hidle, hidle', happlied, happlied'⟩

theorem acknowledged_write_survives_writeTwice : ∃ s₁ s₂,
    run trio trio.init writeTwice.1 = some s₁ ∧ run trio s₁ writeTwice.2 = some s₂ ∧
    trio.quorums.IsQuorum {p | p ∈ trio.addrs ∧
      (s₂.hosts p).node.Keeps 1 ⟨1, 1, putBytes 120 49⟩ ∧
      ∀ epoch, (trio.boot p (s₂.hosts p).disk epoch).Holds trio s₂ 1 ⟨1, 1, putBytes 120 49⟩} := by
  obtain ⟨s₁, s₂, hrun₁, hrun₂, hok₁, hok₂, hcall, -⟩ := careful_writeTwice
  exact ⟨s₁, s₂, hrun₁, hrun₂,
    acknowledged_write_survives trio _ _ s₁ s₂ _ hok₁ hrun₁ hok₂ hrun₂ hcall rfl⟩

/-! ## Agreement -/

/-- The second map is the first one brought forward by the commands committed in between. -/
def Advances (c : Config) (s : Cluster) (m : Nat) (kv : KVMap) (m' : Nat) (kv' : KVMap) : Prop :=
  ∃ es, m + es.length = m' ∧ (∀ j e, es[j]? = some e → CommittedOnly s (m + j + 1) e) ∧
    kv' = replay c.decode es kv

theorem Replicated.advances (h : Replicated c a s) {m m' : Nat} {kv kv' : KVMap}
    (hst : StateAt c a m kv) (hst' : StateAt c a m' kv') (hle : m ≤ m') :
    Advances c s m kv m' kv' := by
  obtain ⟨C, hlen, hC, hkv⟩ := hst'
  refine ⟨C.drop m, by rw [List.length_drop]; omega, fun j e he => ?_, ?_⟩
  · rw [List.getElem?_drop] at he
    exact h.view.committedOnly (hC (m + j) e he)
  · rw [hst.apply h.view.reach hC (by omega)]
    exact hkv

/-- **Replicas agree.**  Take the map of a process `p` at some time and the map of a process `q` at
the same or a later time, neither of them between `Restore` and the end of its catch-up.  One of
them is the other brought forward by the commands committed in between; with the same
`lastApplied` they are equal. -/
theorem replicas_agree (c : Config) (as bs : List Action) (s₁ s₂ : Cluster) (p q : String)
    (hok₁ : Runs.Along (step c) (Careful c) c.init as) (hrun₁ : run c c.init as = some s₁)
    (hok₂ : Runs.Along (step c) (Careful c) s₁ bs) (hrun₂ : run c s₁ bs = some s₂)
    (hp : p ∈ c.addrs) (hq : q ∈ c.addrs) (hidle : (s₁.hosts p).poll.restored? = none)
    (hidle' : (s₂.hosts q).poll.restored? = none) :
    (Advances c s₂ (s₁.hosts p).node.lastApplied (s₁.hosts p).kv
        (s₂.hosts q).node.lastApplied (s₂.hosts q).kv ∨
      Advances c s₂ (s₂.hosts q).node.lastApplied (s₂.hosts q).kv
        (s₁.hosts p).node.lastApplied (s₁.hosts p).kv) ∧
    ((s₁.hosts p).node.lastApplied = (s₂.hosts q).node.lastApplied →
      (s₁.hosts p).kv = (s₂.hosts q).kv) := by
  obtain ⟨a₁, -, h₁⟩ := (Replicated.init c).run hok₁ hrun₁
  obtain ⟨a₂, hx, h₂⟩ := h₁.run hok₂ hrun₂
  have hst := ((h₁.replayed.hosts p hp).state hidle).mono hx
  have hst' := (h₂.replayed.hosts q hq).state hidle'
  refine ⟨?_, fun heq => ?_⟩
  · rcases Nat.le_total (s₁.hosts p).node.lastApplied (s₂.hosts q).node.lastApplied with hle | hle
    · exact Or.inl (h₂.advances hst hst' hle)
    · exact Or.inr (h₂.advances hst' hst hle)
  · obtain ⟨es, hlen, -, hkv⟩ := h₂.advances hst hst' heq.le
    obtain rfl : es = [] := List.eq_nil_of_length_eq_zero (by omega)
    exact hkv.symm

theorem replicas_agree_writeTwice : ∃ s₁ s₂, run trio trio.init writeTwice.1 = some s₁ ∧
    run trio s₁ writeTwice.2 = some s₂ ∧
    Advances trio s₂ 1 (s₁.hosts "a").kv 2 (s₂.hosts "b").kv := by
  obtain ⟨s₁, s₂, hrun₁, hrun₂, hok₁, hok₂, -, hidle, hidle', happlied, happlied'⟩ :=
    careful_writeTwice
  have hagree := (replicas_agree trio _ _ s₁ s₂ "a" "b" hok₁ hrun₁ hok₂ hrun₂ (by decide)
    (by decide) hidle hidle').1
  rw [happlied, happlied'] at hagree
  refine ⟨s₁, s₂, hrun₁, hrun₂, hagree.resolve_right ?_⟩
  rintro ⟨es, hlen, -⟩
  omega

end B5KvStore
