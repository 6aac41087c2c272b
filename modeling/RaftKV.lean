import RaftKV.Transition
import RaftKV.GoData
import RaftKV.Search
import RaftKV.SortedList
import RaftKV.History
import RaftKV.Files
import RaftKV.LittleEndian
import RaftKV.Framing
import RaftKV.Decimal
import RaftKV.Bloom
import RaftKV.Consensus.Protocol
import RaftKV.Consensus.Invariant
import RaftKV.Consensus.Completeness
import RaftKV.Raft.Types
import RaftKV.Raft.Storage
import RaftKV.Raft.Node
import RaftKV.Raft.Cluster
import RaftKV.Raft.HardState
import RaftKV.Raft.Ballots
import RaftKV.Raft.Election
import RaftKV.Raft.ElectionSafety
import RaftKV.Raft.FullLog
import RaftKV.Raft.Refinement
import RaftKV.Raft.Simulation
import RaftKV.Raft.Replication
import RaftKV.Raft.ClusterRefinement
import RaftKV.Raft.Safety
import RaftKV.Raft.SnapshotInstall
import RaftKV.Raft.Durability
import RaftKV.Raft.Created
import RaftKV.Storage.Memtable
import RaftKV.Storage.MemtableRuns
import RaftKV.Storage.SSTable
import RaftKV.Storage.Merge
import RaftKV.Storage.MergeCursors
import RaftKV.Storage.SnapshotFormat
import RaftKV.Storage.Engine
import RaftKV.Storage.Contents
import RaftKV.Storage.Operations
import RaftKV.Storage.ReadBack
import RaftKV.Storage.SnapshotTransport
import RaftKV.Storage.Records
import RaftKV.Server.StateMachine
import RaftKV.Server.System
import RaftKV.Server.Acknowledgement
import RaftKV.Server.Replay
import RaftKV.Server.Convergence
import RaftKV.Server.Restart
import RaftKV.Wal.Log
import RaftKV.Wal.Layout
import RaftKV.Wal.Refinement
import RaftKV.Wal.Crash
import RaftKV.Storage.CompactionCrash
import RaftKV.Storage.Workers
import RaftKV.Storage.WorkerFiles
import RaftKV.Storage.WorkerContents
import RaftKV.Raft.ApplyStream
import RaftKV.Raft.ChunkedTransfer
import RaftKV.Raft.Promises
import RaftKV.Mutex
import RaftKV.Server.Threads
import RaftKV.Server.Deadlock
import RaftKV.Channel
import RaftKV.Raft.Rollback
import RaftKV.Raft.LeaderHint
import RaftKV.Raft.Delivery
import RaftKV.Server.KVServer
import RaftKV.Server.Watch
import RaftKV.Server.Execution
import RaftKV.Server.Dedup
import RaftKV.Server.ChangeFeed
import RaftKV.Server.Waiters
import RaftKV.Server.LeaderRead
import RaftKV.Storage.TableLookup
import RaftKV.Raft.AppendRule
import RaftKV.Wal.Tail
import RaftKV.Raft.SnapshotCrash
import RaftKV.Storage.FlushSignals
import RaftKV.Storage.CloseRace
import RaftKV.Storage.ReadRace
import RaftKV.Server.SnapshotLabel
import RaftKV.Server.Redirect
import RaftKV.Wal.Collision
import RaftKV.Wal.FailedBatch
import RaftKV.MachineInt
import RaftKV.Raft.Machine
import RaftKV.Raft.Addressable
import RaftKV.Raft.CompactedSafety
import RaftKV.Raft.Persistence
import RaftKV.Wal.OtherFiles
import RaftKV.Server.WalState
import RaftKV.Server.DiskCrash
import RaftKV.Raft.StorageSimulation
import RaftKV.Wal.Kept
import RaftKV.Server.WalStateRefinement
import RaftKV.Server.Replication
import RaftKV.Raft.Campaign
import RaftKV.Raft.Progress
