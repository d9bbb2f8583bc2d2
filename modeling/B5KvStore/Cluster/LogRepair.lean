import B5KvStore.Cluster.Applied
import B5KvStore.Raft.LogRepair

/-!
# Log repair in a cluster

The logs of two members share the history of the leaders that wrote them, so what holds of a
leader and a follower that face each other holds in every state a cluster reaches.

* `ClusterView.coexist` — the logs of two members.
* `log_repair_iff` — from which `nextIndex` a leader repairs a follower.
-/

namespace B5KvStore

variable {c : Config} {a : Model} {s : Cluster} {p q : String}

/-- The logs of two members. -/
theorem ClusterView.coexist (h : ClusterView c a s) (hp : p ∈ c.addrs) (hq : q ∈ c.addrs)
    (hoffp : (s.hosts p).node.logOffset = 0) (hoffq : (s.hosts q).node.logOffset = 0) :
    Coexist (s.hosts p).node.log (s.hosts q).node.log := by
  have hlog : ∀ r ∈ c.addrs, (s.hosts r).node.logOffset = 0 → (s.hosts r).node.log = a.log r := by
    intro r hr hoff
    rcases (h.nodes r hr).log with ⟨-, hlog⟩ | ⟨hpos, -⟩
    · exact hlog
    · omega
  rw [hlog p hp hoffp, hlog q hq hoffq]
  have hlogs := h.reach.inv.logs
  have hsp := hlogs.sound_log p
  have hsq := hlogs.sound_log q
  refine ⟨fun i j x y hx hy hterm => hsq.agree_min hsp hx hy hterm, hlogs.sorted hsp,
    hlogs.sorted hsq, fun e he => ?_⟩
  obtain ⟨i, hi⟩ := List.mem_iff_getElem?.1 he
  exact term_pos_of_sound h.reach hsq hi

/-- The leader is about to send the peer its log from `next` on. -/
def Node.sendingFrom (n : Node) (peer : String) (next : Nat) : Node :=
  { n with nextIndex := n.nextIndex.insert peer next }

/-- **Log repair** in every state of a cluster, between any two members that hold their whole
logs: it ends when the follower has not heard of a later term and the logs allow it from where
the leader starts. -/
theorem log_repair_iff (c : Config) (as : List Action) (s : Cluster) (p q : String) (next : Nat)
    (hok : Runs.Along (step c) Safe c.init as) (hrun : run c c.init as = some s)
    (hp : p ∈ c.addrs) (hq : q ∈ c.addrs) (hoffp : (s.hosts p).node.logOffset = 0)
    (hoffq : (s.hosts q).node.logOffset = 0) (hnext : 1 ≤ next) :
    Repairs q ((s.hosts p).node.sendingFrom q next) (s.hosts q).node ↔
      (s.hosts q).node.currentTerm ≤ (s.hosts p).node.currentTerm ∧
        Repairable (s.hosts p).node.log (s.hosts q).node.log (next - 1) := by
  obtain ⟨a, h⟩ := ClusterView.run hok hrun
  have hstart : ((s.hosts p).node.sendingFrom q next).nextIndex.at q = next :=
    IndexMap.at_insert _ q next
  by_cases hterm : (s.hosts q).node.currentTerm ≤ (s.hosts p).node.currentTerm
  · have hface : Facing q ((s.hosts p).node.sendingFrom q next) (s.hosts q).node :=
      ⟨hoffp, hoffq, h.coexist hp hq hoffp hoffq, hterm, by rw [hstart]; exact hnext⟩
    rw [hface.repairs_iff, hstart]
    exact ⟨fun hrep => ⟨hterm, hrep⟩, fun hrep => hrep.2⟩
  · have hstale : ¬ Repairs q ((s.hosts p).node.sendingFrom q next) (s.hosts q).node :=
      not_repairs_of_stale (Nat.lt_of_not_le hterm)
    exact ⟨fun hrep => absurd hrep hstale, fun hrep => absurd hrep.1 hterm⟩

/-- `a` replicates an entry of term `1` to `b` and `c`, and then leads the terms `2` and `3` with
an entry each that it does not replicate.  `b` wins term `4` and appends two entries. -/
def divergedLogs : List Action :=
  winElection "a" "b" 0 ++ [.run (.propose "a" [1])] ++ replicate "a" "b" 0 ++
    [.run (.appendEntries 0 "c" noFaults)] ++ [.crash "a"] ++ winElection "a" "b" 1 ++
    [.run (.propose "a" [2]), .crash "a"] ++ winElection "a" "b" 2 ++ [.run (.propose "a" [3])] ++
    winElection "b" "c" 3 ++ [.run (.propose "b" [4]), .run (.propose "b" [5])]

/-- The same, and `b` is elected once more, so that it starts at the end of its log. -/
def divergedAgain : List Action := divergedLogs ++ [.crash "b"] ++ winElection "b" "c" 4

/-- What the run has led to. -/
def Diverged (s : Cluster) : Prop :=
  (s.hosts "b").node.role = .leader ∧ (s.hosts "b").node.nextIndex.at "a" = 4 ∧
    (s.hosts "a").node.currentTerm = 3 ∧ (s.hosts "b").node.currentTerm = 5 ∧
    (s.hosts "a").node.logOffset = 0 ∧ (s.hosts "b").node.logOffset = 0 ∧
    (s.hosts "a").node.log = [⟨1, 1, [1]⟩, ⟨2, 2, [2]⟩, ⟨3, 3, [3]⟩] ∧
    (s.hosts "b").node.log = [⟨1, 1, [1]⟩, ⟨4, 2, [4]⟩, ⟨4, 3, [5]⟩]

instance Diverged.decidable (s : Cluster) : Decidable (Diverged s) := by
  unfold Diverged
  infer_instance

theorem divergedAgain_plain : ∀ act ∈ divergedAgain, act.Plain := by decide

theorem divergedAgain_safe : Runs.Along (step trio) Safe trio.init divergedAgain :=
  .of_forall fun act hact s => (divergedAgain_plain act hact).safe s

theorem exists_diverged : ∃ s, run trio trio.init divergedAgain = some s ∧ Diverged s :=
  exists_of_run Diverged (by decide +kernel : (run trio trio.init divergedAgain).any _ = true)

/-- From index `2` on, `b` repairs the log of `a`. -/
theorem log_repair_divergedAgain : ∃ s, run trio trio.init divergedAgain = some s ∧
    Repairs "a" ((s.hosts "b").node.sendingFrom "a" 2) (s.hosts "a").node := by
  obtain ⟨s, hrun, -, -, hta, htb, hoffa, hoffb, hloga, hlogb⟩ := exists_diverged
  refine ⟨s, hrun, (log_repair_iff trio divergedAgain s "b" "a" 2 divergedAgain_safe hrun
    (by decide) (by decide) hoffb hoffa (by decide)).2 ⟨by omega, Or.inr (Or.inl ?_)⟩⟩
  rw [hloga, hlogb]
  exact ⟨⟨1, 1, [1]⟩, rfl, ⟨1, 1, [1]⟩, by decide, rfl⟩

/-- From the end of its log, where its election has put `nextIndex`, `b` never repairs it: the
conflict at index `3` sends the leader to index `2`, and the conflict there sends it back. -/
theorem log_repair_stuck : ∃ s, run trio trio.init divergedAgain = some s ∧
    (∀ act ∈ divergedAgain, act.Plain) ∧ (s.hosts "b").node.role = .leader ∧
    (s.hosts "b").node.nextIndex.at "a" = (s.hosts "b").node.lastLogIndexLocked + 1 ∧
    (s.hosts "a").node.currentTerm < (s.hosts "b").node.currentTerm ∧
    ¬ Repairs "a" (s.hosts "b").node (s.hosts "a").node ∧
    ∀ n, (exchange "a" (rounds "a" n (s.hosts "b").node (s.hosts "a").node).1
      (rounds "a" n (s.hosts "b").node (s.hosts "a").node).2).2.2 = false := by
  obtain ⟨s, hrun, hrole, hnext, hta, htb, hoffa, hoffb, hloga, hlogb⟩ := exists_diverged
  obtain ⟨a, h⟩ := ClusterView.run divergedAgain_safe hrun
  have hface : Facing "a" (s.hosts "b").node (s.hosts "a").node :=
    ⟨hoffb, hoffa, h.coexist (by decide) (by decide) hoffb hoffa, by omega, by omega⟩
  have hcycle : ∀ prev ∈ ({2, 3} : Set Nat), ∃ k ∈ ({2, 3} : Set Nat),
      nextPrev (s.hosts "b").node.log (s.hosts "a").node.log prev = some k := by
    rw [hloga, hlogb]
    rintro prev (rfl | rfl)
    · exact ⟨3, by simp, by decide⟩
    · exact ⟨2, by simp, by decide⟩
  have hnever := fun n => hface.rejected_forever n hcycle (by rw [hnext]; simp)
  refine ⟨s, hrun, divergedAgain_plain, hrole, ?_, by omega, fun hrep => ?_, hnever⟩
  · unfold Node.lastLogIndexLocked
    rw [hnext, hoffb, hlogb]
    rfl
  · obtain ⟨n, hn⟩ := hrep.exists_round
    exact absurd ((hnever n).symm.trans hn) (by decide)

end B5KvStore
