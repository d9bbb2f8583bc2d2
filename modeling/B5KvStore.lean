import B5KvStore.Lib.Quorum
import B5KvStore.Lib.Overwrite
import B5KvStore.Lib.Runs
import B5KvStore.Lib.Framing
import B5KvStore.Lib.GoText
import B5KvStore.Lib.Chunking
import B5KvStore.Lib.Linearizability
import B5KvStore.Lib.Forwarding
import B5KvStore.Lib.ReplicatedLog.Protocol
import B5KvStore.Lib.ReplicatedLog.Elections
import B5KvStore.Lib.ReplicatedLog.Logs
import B5KvStore.Lib.ReplicatedLog.Completeness
import B5KvStore.Lib.ReplicatedLog.Safety
import B5KvStore.Lib.ReplicatedLog.Commitment
import B5KvStore.Raft.Types
import B5KvStore.Raft.Node
import B5KvStore.Raft.Election
import B5KvStore.Raft.Replication
import B5KvStore.Raft.ReadIndex
import B5KvStore.Raft.Snapshots
import B5KvStore.Raft.Frame
import B5KvStore.Raft.LogView
import B5KvStore.Raft.Specs
import B5KvStore.Raft.Recovery
import B5KvStore.Raft.Restart
import B5KvStore.Raft.Durability
import B5KvStore.Raft.Reordering
import B5KvStore.Raft.CompactionTransparent
import B5KvStore.Raft.Operations
import B5KvStore.Raft.PanicFree
import B5KvStore.Raft.TermRuns
import B5KvStore.Raft.WrapAround
import B5KvStore.Raft.LogRepair
import B5KvStore.Raft.WakeUps
import B5KvStore.Raft.Waiters
import B5KvStore.Persistence.LogFile
import B5KvStore.Persistence.SnapshotFile
import B5KvStore.Backup.Store
import B5KvStore.Backup.Ranges
import B5KvStore.Backup.Replica
import B5KvStore.Backup.Guard
import B5KvStore.Backup.CopyLoop
import B5KvStore.Backup.Retry
import B5KvStore.Backup.Transfer
import B5KvStore.Cluster.Basic
import B5KvStore.Cluster.Effects
import B5KvStore.Cluster.ElectionSafety
import B5KvStore.Cluster.AppendOnly
import B5KvStore.Cluster.RestartEquivalence
import B5KvStore.Cluster.Refinement
import B5KvStore.Cluster.Sections
import B5KvStore.Cluster.Followers
import B5KvStore.Cluster.Leaders
import B5KvStore.Cluster.Compaction
import B5KvStore.Cluster.Simulation
import B5KvStore.Cluster.CommittedPrefix
import B5KvStore.Cluster.Acknowledged
import B5KvStore.Cluster.Applied
import B5KvStore.Cluster.Core
import B5KvStore.Cluster.LogRepair
import B5KvStore.Cluster.LeaderReads
import B5KvStore.Cluster.FollowerReads
import B5KvStore.Cluster.Reports
import B5KvStore.Cluster.ReadCoverage
import B5KvStore.Cluster.WriteOrder
import B5KvStore.Cluster.StateMachine
import B5KvStore.Cluster.Replicas
import B5KvStore.Cluster.WholeLog
import B5KvStore.Cluster.CommitEvidence
import B5KvStore.Cluster.Availability
import B5KvStore.Cluster.WriteAvailability
import B5KvStore.Cluster.Provenance
import B5KvStore.Deployment.Peers
import B5KvStore.Deployment.Basic
import B5KvStore.Deployment.Catalog
import B5KvStore.Deployment.OwnHistory
import B5KvStore.Proxy.Breaker
import B5KvStore.Proxy.Basic
import B5KvStore.Proxy.BreakerTimeout
import B5KvStore.Proxy.AtMostOnce
import B5KvStore.Server.Basic
import B5KvStore.Server.Calls
import B5KvStore.Server.Invariant
import B5KvStore.Server.Linearizable
import B5KvStore.Client.Gateway
import B5KvStore.Client.Linearizable
import B5KvStore.Discovery.Registry
