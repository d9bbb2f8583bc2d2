import B5KvStore.Backup.Store
import B5KvStore.Cluster.Simulation

/-!
# The whole system

The cluster together with the Snapshot & Backup service.  The compactor asks whatever
member the discovery service names as leader, for its log status first, for entries
later; leadership may move in between, and move back.  The catalog hands out what the
store holds at that moment.  `ConfirmCompaction` calls are messages of their own: the
compactor may have given up on one when a node takes it up.

* `Deployment`, `Deployment.step`, `Deployment.run` — the system.
* `Deployment.Safe` — snapshots are used safely and made of committed entries only.
-/

namespace B5KvStore

/-- The cluster, the backup service, and the `ConfirmCompaction` calls under way. -/
structure Deployment where
  cluster : Cluster
  backup : Backup
  acks : List (String × File)

/-- Everything starts on empty directories. -/
def Config.deploy (c : Config) : Deployment := ⟨c.init, Backup.new Disk.empty, []⟩

/-- What can happen in the whole system. -/
inductive DeployAction where
  /-- Something in the cluster, apart from what the service causes. -/
  | node (a : Action)
  /-- `Tick`, with the leader discovery names. -/
  | tick (leader : String)
  | stream (fails : Bool)
  | apply
  | verify (view : Option String)
  | commit (fails : Bool)
  /-- `ConfirmCompaction` has returned, or the compactor does not wait any longer. -/
  | finish
  /-- A node handles a `ConfirmCompaction` call. -/
  | confirm (k : Nat)
  /-- It crashes while doing so, after `j` disk writes. -/
  | confirmCrash (k j : Nat)
  /-- The service is restarted. -/
  | restart
  /-- It crashes in `Store.Commit`, once the file is written. -/
  | commitCrash

/-- The actions of the cluster that the service does not cause. -/
def Action.ofNodes : Action → Bool
  | .run (.confirmCompaction _ _) | .crashDuring (.confirmCompaction _ _) _ | .publish _ => false
  | _ => true

/-- What `ConfirmCompaction` is called with, and where, once the boundary has moved. -/
def Backup.confirms (b : Backup) (fails : Bool) : List (String × File) :=
  match b.cycle with
  | .verified leader last => ((b.store.commit last.index last.term fails).2.map (leader, ·)).toList
  | _ => []

/-- The call itself. -/
def File.ack (file : File) : CompactionAck := ⟨file.lastIncludedIndex, .ok file⟩

namespace Deployment

/-- The service goes on, and the catalog offers what its store holds. -/
def serve (s : Deployment) (b : Backup) : Deployment :=
  { s with cluster := { s.cluster with catalog := b.store.file }, backup := b }

/-- One step of the whole system, if it is possible. -/
def step (c : Config) (cfg : CompactorConfig) (s : Deployment) : DeployAction → Option Deployment
  | .node a =>
      if a.ofNodes then (B5KvStore.step c s.cluster a).map fun cl => { s with cluster := cl }
      else none
  | .tick leader =>
      if leader ∈ c.addrs then
        some (s.serve (s.backup.tick cfg leader (s.cluster.hosts leader).node.getLogStatus))
      else none
  | .stream fails =>
      match s.backup.cycle with
      | .streaming leader _ _ =>
          some (s.serve (s.backup.stream (s.cluster.hosts leader).node fails))
      | _ => none
  | .apply => some (s.serve (s.backup.apply c.decode))
  | .verify view => some (s.serve (s.backup.verify view))
  | .commit fails => some { s.serve (s.backup.commit fails) with
      acks := s.acks ++ s.backup.confirms fails }
  | .finish => some (s.serve s.backup.finish)
  | .confirm k => do
      let (leader, file) ← s.acks[k]?
      let cl ← B5KvStore.step c s.cluster (.run (.confirmCompaction leader file.ack))
      some { s with cluster := cl, acks := s.acks.eraseIdx k }
  | .confirmCrash k j => do
      let (leader, file) ← s.acks[k]?
      let cl ← B5KvStore.step c s.cluster (.crashDuring (.confirmCompaction leader file.ack) j)
      some { s with cluster := cl, acks := s.acks.eraseIdx k }
  | .restart => some (s.serve (Backup.new s.backup.store.dataDir))
  | .commitCrash =>
      match s.backup.cycle with
      | .verified _ last => some (s.serve (Backup.new (s.backup.store.dataDir.apply
          (.writeFile ⟨s.backup.store.state, last.index, last.term⟩))))
      | _ => none

/-- Execute a list of actions. -/
def run (c : Config) (cfg : CompactorConfig) : List DeployAction → Option Deployment :=
  Runs.exec (step c cfg) c.deploy

/-- A run that is found to end in a state with `P` does. -/
theorem exists_of_run {c : Config} {cfg : CompactorConfig} {as : List DeployAction}
    (P : Deployment → Prop) [DecidablePred P]
    (h : (run c cfg as).any (fun s => decide (P s)) = true) : ∃ s, run c cfg as = some s ∧ P s :=
  Runs.exists_of_exec P h

/-- Snapshots are used safely, and the service downloads committed entries only. -/
def Safe (s : Deployment) : DeployAction → Prop
  | .node a => B5KvStore.Safe s.cluster a
  | .stream _ => ∀ r ∈ s.backup.cycle.range?,
      ∀ e ∈ (s.cluster.hosts r.1).node.streamLogRange r.2.1 r.2.2,
      e.index ≤ (s.cluster.hosts r.1).node.commitIndex
  | _ => True

instance (s : Deployment) : (a : DeployAction) → Decidable (s.Safe a)
  | .node a => inferInstanceAs (Decidable (B5KvStore.Safe s.cluster a))
  | .stream _ => inferInstanceAs (Decidable (∀ r ∈ s.backup.cycle.range?,
      ∀ e ∈ (s.cluster.hosts r.1).node.streamLogRange r.2.1 r.2.2,
        e.index ≤ (s.cluster.hosts r.1).node.commitIndex))
  | .tick _ | .apply | .verify _ | .commit _ | .finish | .confirm _ | .confirmCrash .. | .restart
  | .commitCrash => instDecidableTrue

end Deployment

/-! ## A small system -/

/-- Three members whose logs hold four entries. -/
def smallTrio : Config := { trio with logCapacityEntries := 4 }

/-- Node `a` leads term 1, commits an entry with `b` and proposes a second one. -/
def proposeSecond : List Action :=
  winElection "a" "b" 0 ++ [.run (.propose "a" (putBytes 120 49))] ++ replicate "a" "b" 0 ++
  [.run (.propose "a" (putBytes 120 50))]

/-- The compactor runs a cycle with leader `p` up to the point where it has moved the
boundary. -/
def backupCycle (p : String) : List DeployAction :=
  [.tick p, .stream false, .apply, .verify (some p), .commit false]

end B5KvStore
