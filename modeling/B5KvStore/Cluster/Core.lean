import B5KvStore.Cluster.Applied

/-!
# The replication core

The cluster without snapshots, with disk writes that do not fail: any number of members, any
order of elections, proposals, requests and replies, and any crashes and restarts.

* `PlainView` — such a state stands for a state of the abstract protocol, and every node holds
  its whole log.
* `state_machine_safety` — nodes apply the same entries, in order.
* `leader_completeness` — later leaders hold what has been committed.
* `log_matching` — logs that share an entry agree up to it.
-/

namespace B5KvStore

open ReplicatedLog (CommittedAt Extends)

/-- A state of a cluster without snapshots. -/
structure PlainView (c : Config) (a : Model) (s : Cluster) : Prop where
  view : ClusterView c a s
  files : Snapshotless s
  orderly : Orderly c s
  applied : ∀ p ∈ c.addrs, (s.appliedBy p (s.hosts p).epoch).map ApplyMsg.index =
    List.range' 1 (s.hosts p).node.lastApplied

/-- Without a snapshot, a node holds its whole log. -/
theorem Snapshotless.logOffset {c : Config} {a : Model} {s : Cluster} (h : Snapshotless s)
    (hview : ClusterView c a s) {p : String} (hp : p ∈ c.addrs) :
    (s.hosts p).node.logOffset = 0 := by
  have hpath := (hview.nodes p hp).path
  rw [(h p).1] at hpath
  by_contra hoff
  rw [if_neg hoff] at hpath
  exact absurd hpath (by simp)

namespace PlainView

variable {c : Config} {a : Model} {s s' : Cluster} {p : String}

theorem init (c : Config) : PlainView c .init c.init :=
  ⟨.init c, .init c, .init c, fun _ _ => rfl⟩

/-- Every node holds its whole log. -/
theorem logOffset (h : PlainView c a s) (hp : p ∈ c.addrs) : (s.hosts p).node.logOffset = 0 :=
  h.files.logOffset h.view hp

theorem log_eq (h : PlainView c a s) (hp : p ∈ c.addrs) : (s.hosts p).node.log = a.log p := by
  rcases (h.view.nodes p hp).log with ⟨-, hlog⟩ | ⟨hpos, -⟩
  · exact hlog
  · have := h.logOffset hp
    omega

theorem entryAtLocked (h : PlainView c a s) (hp : p ∈ c.addrs) {i : Nat} (hi : 0 < i) :
    (s.hosts p).node.entryAtLocked i = (a.log p)[i - 1]? :=
  Node.entryAtLocked_eq (h.view.nodes p hp).log hi (Or.inl (h.logOffset hp))

/-- A node without a snapshot starts with nothing applied. -/
theorem lastApplied_newNode {d : Disk} (hd : d.snapshots = [])
    (hoff : (c.newNode p d).logOffset = 0) : (c.newNode p d).lastApplied = 0 := by
  have hlatest : d.latest = none := by
    unfold Disk.latest
    rw [hd]
    rfl
  unfold Config.newNode newNode at hoff ⊢
  rw [hlatest] at hoff ⊢
  cases hlog : d.log with
  | nil => rfl
  | cons e es =>
      rw [hlog] at hoff
      simp only [Option.filter_none] at hoff ⊢
      rw [if_neg (by omega)]

/-- **One step.** -/
theorem step (h : PlainView c a s) {act : Action} (hact : act.Plain)
    (hs : B5KvStore.step c s act = some s') : ∃ a', Extends a a' ∧ PlainView c a' s' := by
  have hok := hact.safe s
  obtain ⟨q, a', hm, hview'⟩ := h.view.step hok hs
  have hfiles' := h.files.step hact.snapshotFree hs
  refine ⟨a', hm.extends h.view.reach.inv, hview', hfiles', h.orderly.step h.view hok hs,
    fun p hp => ?_⟩
  cases h.view.applies hok hs hp with
  | more F lo hF hepoch hle hlo hlen hadopt hmore =>
      have hlast : lo = (s.hosts p).node.lastApplied := hadopt fun q hq => by
        subst hq
        exact absurd hact.2 (by simp [Op.snapshotting])
      rw [hepoch, hmore, if_pos rfl, List.map_append, h.applied p hp, hF.index_slice lo hlen,
        ← hlast, Nat.add_comm lo 1, List.range'_append_1]
      congr 1
      omega
  | restart d hboot hsame =>
      have hoff := hfiles'.logOffset hview' hp
      have hd := (hfiles' p).2
      rw [hboot] at hoff hd ⊢
      have hzero : (c.boot p d ((s.hosts p).epoch + 1)).node.lastApplied = 0 :=
        lastApplied_newNode hd hoff
      rw [hsame, hzero, show (c.boot p d ((s.hosts p).epoch + 1)).epoch = (s.hosts p).epoch + 1
        from rfl, h.orderly.appliedBy_next p]
      rfl

/-- **Runs.** -/
theorem run (h : PlainView c a s) {as : List Action} (has : ∀ act ∈ as, act.Plain)
    (hrun : B5KvStore.run c s as = some s') : ∃ a', Extends a a' ∧ PlainView c a' s' := by
  have hplain : Runs.Along (B5KvStore.step c) (fun _ act => act.Plain) s as :=
    .of_forall fun act hact _ => has act hact
  refine Runs.invariant (I := fun s' => ∃ a', Extends a a' ∧ PlainView c a' s') ?_
    ⟨a, .refl a, h⟩ hplain (run_eq_exec c s as ▸ hrun)
  rintro t act t' ⟨b, hx, ht⟩ hact hs
  obtain ⟨b', hx', ht'⟩ := ht.step hact hs
  exact ⟨b', hx.trans hx', ht'⟩

end PlainView

/-! ## State machine safety -/

/-- **State machine safety.**  Whatever two nodes apply at one index is the same, and every
node applies the indices `1, 2, 3, …` since its last start, each once. -/
theorem state_machine_safety (c : Config) (as : List Action) (s : Cluster)
    (hplain : ∀ act ∈ as, act.Plain) (hrun : run c c.init as = some s) :
    (∀ p q, ∀ epoch epoch', ∀ msg ∈ s.appliedBy p epoch, ∀ msg' ∈ s.appliedBy q epoch',
      msg.index = msg'.index → msg = msg') ∧
    ∀ p ∈ c.addrs, (s.appliedBy p (s.hosts p).epoch).map ApplyMsg.index =
      List.range' 1 (s.hosts p).node.lastApplied := by
  obtain ⟨a, -, h⟩ := (PlainView.init c).run hplain hrun
  refine ⟨fun p q epoch epoch' msg hmsg msg' hmsg' hidx => ?_, h.applied⟩
  have hcom : CommittedAt a msg.index ⟨msg.term, msg.index, msg.command⟩ :=
    h.view.history _ (Cluster.mem_appliedBy.1 hmsg)
  have hcom' : CommittedAt a msg'.index ⟨msg'.term, msg'.index, msg'.command⟩ :=
    h.view.history _ (Cluster.mem_appliedBy.1 hmsg')
  rw [← hidx] at hcom'
  have heq := h.view.reach.inv.committedAt_unique hcom hcom'
  obtain ⟨index, term, command⟩ := msg
  obtain ⟨index', term', command'⟩ := msg'
  simp only [LogEntry.mk.injEq] at heq
  simp only [ApplyMsg.mk.injEq]
  exact ⟨hidx, heq.1, heq.2.2⟩

/-- `a` wins an election, and its first entry is committed and applied by `a` and `b`. -/
def firstEntry : List Action :=
  winElection "a" "b" 0 ++ [.run (.propose "a" (putBytes 120 49))] ++ replicate "a" "b" 0 ++
    replicate "a" "b" 1

theorem state_machine_safety_firstEntry : ∃ s, run trio trio.init firstEntry = some s ∧
    (s.hosts "b").node.lastApplied = 1 ∧
    (s.appliedBy "b" (s.hosts "b").epoch).map ApplyMsg.index = [1] ∧
    ∀ msg ∈ s.appliedBy "a" 0, ∀ msg' ∈ s.appliedBy "b" 0, msg.index = msg'.index → msg = msg' := by
  have hplain : ∀ act ∈ firstEntry, act.Plain := by decide
  obtain ⟨s, hrun, hb⟩ := exists_of_run (fun s => (s.hosts "b").node.lastApplied = 1)
    (by decide +kernel : (run trio trio.init firstEntry).any _ = true)
  obtain ⟨hsame, horder⟩ := state_machine_safety trio firstEntry s hplain hrun
  refine ⟨s, hrun, hb, ?_, hsame "a" "b" 0 0⟩
  rw [horder "b" (by decide), hb]
  rfl

/-! ## Leader completeness -/

/-- The second node holds, at every index up to the first one's commit index, the entry that
the first one holds. -/
def Node.CommittedIn (n n' : Node) : Prop :=
  ∀ i, 0 < i → i ≤ n.commitIndex →
    ∃ e, n.entryAtLocked i = some e ∧ n'.entryAtLocked i = some e

section

variable {c : Config} {a a' : Model} {s s' : Cluster} {p q : String}

theorem PlainView.committedIn (h : PlainView c a s) (h' : PlainView c a' s') (hp : p ∈ c.addrs)
    (hq : q ∈ c.addrs) (htake : (a.log p).take (s.hosts p).node.commitIndex =
      (a'.log q).take (s.hosts p).node.commitIndex) :
    (s.hosts p).node.CommittedIn (s'.hosts q).node := by
  intro i hpos hi
  have hlen := (h.view.nodes p hp).known.1
  obtain ⟨e, he⟩ : ∃ e, (a.log p)[i - 1]? = some e := ⟨_, List.getElem?_eq_getElem (by omega)⟩
  refine ⟨e, (h.entryAtLocked hp hpos).trans he, (h'.entryAtLocked hq hpos).trans ?_⟩
  rw [← ReplicatedLog.getElem?_eq_of_take_eq htake (by omega)]
  exact he

/-- A leader that is there later. -/
theorem PlainView.committedIn_later (h : PlainView c a s) (h' : PlainView c a' s')
    (hx : Extends a a') (hp : p ∈ c.addrs) (hq : q ∈ c.addrs)
    (hrole : (s'.hosts q).node.role = .leader)
    (hterm : (s.hosts p).node.currentTerm < (s'.hosts q).node.currentTerm) :
    (s.hosts p).node.CommittedIn (s'.hosts q).node := by
  refine h.committedIn h' hp hq ?_
  have hn := h.view.nodes p hp
  rcases hn.known.2 with hzero | ⟨T, N, l, L, hcom, hT, hN, hled, heq⟩
  · rw [hzero, List.take_zero, List.take_zero]
  · have hled' := (h'.view.nodes q hq).led h'.view.reach hrole
    obtain ⟨L', hledT, -, htake⟩ := hx.led_take hled (h.view.reach.inv.commit_le hcom hled)
    have hTq : T ≤ a'.term q := by
      rw [hn.term] at hT
      rw [(h'.view.nodes q hq).term]
      omega
    have hhold := h'.view.reach.inv.commit_complete (hx.commits hcom) hledT hled' hTq
    rw [heq]
    exact (ReplicatedLog.take_eq_of_le (hhold.trans htake) hN).symm

/-- A leader that was there earlier. -/
theorem PlainView.committedIn_earlier (h : PlainView c a s) (h' : PlainView c a' s')
    (hx : Extends a a') (hp : p ∈ c.addrs) (hq : q ∈ c.addrs)
    (hrole : (s.hosts q).node.role = .leader)
    (hterm : (s'.hosts p).node.currentTerm < (s.hosts q).node.currentTerm) :
    (s'.hosts p).node.CommittedIn (s.hosts q).node := by
  refine h'.committedIn h hp hq ?_
  have hn := h'.view.nodes p hp
  rcases hn.known.2 with hzero | ⟨T, N, l, L, hcom, hT, hN, hled, heq⟩
  · rw [hzero, List.take_zero, List.take_zero]
  · -- the log the leader was elected with holds the prefix already
    have hledq := (h.view.nodes q hq).led h.view.reach hrole
    obtain ⟨F, hF, hpre⟩ := h.view.reach.ledCand _ _ _ hledq
    obtain ⟨-, -, hQ⟩ := h.view.reach.inv.elections.led_won _ _ _ hledq
    have hlt : T < a.term q := by
      rw [hn.term] at hT
      rw [(h.view.nodes q hq).term]
      omega
    have hhold := h'.view.reach.inv.holds_committed hcom hled hlt
      (c.quorums.mono (ReplicatedLog.State.voters_mono hx.votes) hQ) (hx.cand _ _ _ hF)
    have hlen := ReplicatedLog.le_length_of_take_eq hhold (h'.view.reach.inv.commit_le hcom hled)
    rw [heq, ← ReplicatedLog.take_eq_of_le hhold hN]
    exact (ReplicatedLog.take_eq_of_isPrefix hpre (hN.trans hlen)).symm

end

/-- **Leader completeness.**  What a leader has committed is in the log of every leader of a
later term, whichever of the two states comes first. -/
theorem leader_completeness (c : Config) (as bs : List Action) (s₁ s₂ : Cluster) (p q : String)
    (hplain₁ : ∀ act ∈ as, act.Plain) (hplain₂ : ∀ act ∈ bs, act.Plain)
    (hrun₁ : run c c.init as = some s₁) (hrun₂ : run c s₁ bs = some s₂) (hp : p ∈ c.addrs)
    (hq : q ∈ c.addrs) (hlp : (s₁.hosts p).node.role = .leader)
    (hlq : (s₂.hosts q).node.role = .leader) :
    ((s₁.hosts p).node.currentTerm < (s₂.hosts q).node.currentTerm →
      (s₁.hosts p).node.CommittedIn (s₂.hosts q).node) ∧
    ((s₂.hosts q).node.currentTerm < (s₁.hosts p).node.currentTerm →
      (s₂.hosts q).node.CommittedIn (s₁.hosts p).node) := by
  obtain ⟨a₁, -, h₁⟩ := (PlainView.init c).run hplain₁ hrun₁
  obtain ⟨a₂, hx, h₂⟩ := h₁.run hplain₂ hrun₂
  exact ⟨fun hterm => h₁.committedIn_later h₂ hx hp hq hlq hterm,
    fun hterm => h₁.committedIn_earlier h₂ hx hq hp hlp hterm⟩

/-- `a` has committed its first entry when `b` is elected for the next term. -/
theorem leader_completeness_firstEntry : ∃ s₁ s₂, run trio trio.init firstEntry = some s₁ ∧
    run trio s₁ (winElection "b" "c" 1) = some s₂ ∧ (s₁.hosts "a").node.commitIndex = 1 ∧
    (s₂.hosts "b").node.currentTerm = 2 ∧
    (s₁.hosts "a").node.CommittedIn (s₂.hosts "b").node := by
  obtain ⟨s₁, hrun₁, ⟨hrole₁, hterm₁, hcommit₁⟩, hnext⟩ := exists_of_run (fun s₁ : Cluster =>
    ((s₁.hosts "a").node.role = .leader ∧ (s₁.hosts "a").node.currentTerm = 1 ∧
      (s₁.hosts "a").node.commitIndex = 1) ∧
    (run trio s₁ (winElection "b" "c" 1)).any (fun s₂ => decide
      ((s₂.hosts "b").node.role = .leader ∧ (s₂.hosts "b").node.currentTerm = 2)) = true)
    (by decide +kernel : (run trio trio.init firstEntry).any _ = true)
  obtain ⟨s₂, hrun₂, hrole₂, hterm₂⟩ := exists_of_run _ hnext
  exact ⟨s₁, s₂, hrun₁, hrun₂, hcommit₁, hterm₂,
    (leader_completeness trio _ _ s₁ s₂ "a" "b" (by decide) (by decide) hrun₁ hrun₂ (by decide)
      (by decide) hrole₁ hrole₂).1 (by rw [hterm₁, hterm₂]; decide)⟩

/-! ## Log matching -/

/-- **Log matching.**  Two logs that hold an entry of the same index and term hold the same
entry there and agree below it; along a log terms do not decrease, and they do not exceed the
node's own. -/
theorem log_matching (c : Config) (as : List Action) (s : Cluster)
    (hplain : ∀ act ∈ as, act.Plain) (hrun : run c c.init as = some s) :
    (∀ p ∈ c.addrs, ∀ q ∈ c.addrs, ∀ e ∈ (s.hosts p).node.log, ∀ e' ∈ (s.hosts q).node.log,
      e.index = e'.index → e.term = e'.term → e = e' ∧
        ∀ i < e.index, (s.hosts p).node.entryAtLocked i = (s.hosts q).node.entryAtLocked i) ∧
    ∀ p ∈ c.addrs, (s.hosts p).node.log.Pairwise (fun e e' => e.term ≤ e'.term) ∧
      ∀ e ∈ (s.hosts p).node.log, e.term ≤ (s.hosts p).node.currentTerm := by
  obtain ⟨a, -, h⟩ := (PlainView.init c).run hplain hrun
  have hinv := h.view.reach.inv.logs
  refine ⟨fun p hp q hq e he e' he' hidx hterm => ?_, fun p hp => ?_⟩
  · rw [h.log_eq hp] at he
    rw [h.log_eq hq] at he'
    obtain ⟨i, hi⟩ := List.mem_iff_getElem?.1 he
    obtain ⟨j, hj⟩ := List.mem_iff_getElem?.1 he'
    have hei := placed_log h.view.reach p i e hi
    have hej := placed_log h.view.reach q j e' hj
    obtain rfl : i = j := by omega
    have htake := (hinv.sound_log p).agree (hinv.sound_log q) hi hj hterm
    refine ⟨?_, fun k hk => ?_⟩
    · rw [ReplicatedLog.getElem?_eq_of_take_eq htake (Nat.lt_succ_self i), hj] at hi
      exact (Option.some.inj hi).symm
    · rcases Nat.eq_zero_or_pos k with rfl | hpos
      · rw [Node.entryAtLocked_eq_none (Nat.zero_le _), Node.entryAtLocked_eq_none (Nat.zero_le _)]
      · rw [h.entryAtLocked hp hpos, h.entryAtLocked hq hpos]
        exact ReplicatedLog.getElem?_eq_of_take_eq htake (by omega)
  · rw [h.log_eq hp]
    refine ⟨hinv.sorted (hinv.sound_log p), fun e he => ?_⟩
    rw [← (h.view.nodes p hp).term]
    exact hinv.log_le p e he

theorem log_matching_firstEntry : ∃ s e, run trio trio.init firstEntry = some s ∧
    e ∈ (s.hosts "a").node.log ∧ e ∈ (s.hosts "b").node.log ∧
    (∀ i < e.index, (s.hosts "a").node.entryAtLocked i = (s.hosts "b").node.entryAtLocked i) ∧
    e.term ≤ (s.hosts "b").node.currentTerm := by
  have hplain : ∀ act ∈ firstEntry, act.Plain := by decide
  obtain ⟨s, hrun, ha, hb⟩ := exists_of_run (fun s =>
    (⟨1, 1, putBytes 120 49⟩ : LogEntry) ∈ (s.hosts "a").node.log ∧
      (⟨1, 1, putBytes 120 49⟩ : LogEntry) ∈ (s.hosts "b").node.log)
    (by decide +kernel : (run trio trio.init firstEntry).any _ = true)
  obtain ⟨hagree, hterms⟩ := log_matching trio firstEntry s hplain hrun
  exact ⟨s, _, hrun, ha, hb,
    (hagree "a" (by decide) "b" (by decide) _ ha _ hb rfl rfl).2,
    (hterms "b" (by decide)).2 _ hb⟩

end B5KvStore
