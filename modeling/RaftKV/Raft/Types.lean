import RaftKV.GoData

/-!
# Log entries, requests and responses

The data that Raft nodes keep and exchange (`proto/raftkv.proto` and the type
declarations of `raft/node.go`).  Terms and indices are `uint64` in the source
and natural numbers here; node IDs are strings, with `""` for "nobody", as in
the source.
-/

namespace RaftKV.Raft

abbrev NodeId := String

/-- The three states a Raft node can be in. -/
inductive Role
  | follower
  | candidate
  | leader
  deriving DecidableEq, Repr

structure LogEntry where
  index : ℕ
  term : ℕ
  data : Bytes
  deriving DecidableEq, Repr

/-- The entry a log starts with: the baseline's index and term, no data. -/
def LogEntry.sentinel (index term : ℕ) : LogEntry := ⟨index, term, []⟩

/-- What a node sends on `ApplyCh`: a newly committed entry, or an installed
snapshot. -/
inductive ApplyMsg
  | command (entry : LogEntry)
  | snapshot (data : Bytes) (index term : ℕ)
  deriving DecidableEq, Repr

/-- Reassembly of a chunked `InstallSnapshot` transfer. -/
structure SnapshotRecvState where
  lastIncludedIndex : ℕ
  lastIncludedTerm : ℕ
  data : Bytes
  deriving DecidableEq, Repr

/-- The static configuration of a node.  `peers` lists the keys of the source's
map; the addresses are only read by the transport. -/
structure Config where
  id : NodeId
  peers : List NodeId
  deriving DecidableEq, Repr

structure RequestVoteRequest where
  term : ℕ
  candidateId : NodeId
  lastLogIndex : ℕ
  lastLogTerm : ℕ
  deriving DecidableEq, Repr

structure RequestVoteResponse where
  term : ℕ
  voteGranted : Bool
  deriving DecidableEq, Repr

structure AppendEntriesRequest where
  term : ℕ
  leaderId : NodeId
  prevLogIndex : ℕ
  prevLogTerm : ℕ
  entries : List LogEntry
  leaderCommit : ℕ
  deriving DecidableEq, Repr

structure AppendEntriesResponse where
  term : ℕ
  success : Bool
  matchIndex : ℕ
  conflictTerm : ℕ
  conflictIndex : ℕ
  deriving DecidableEq, Repr

structure InstallSnapshotRequest where
  term : ℕ
  leaderId : NodeId
  lastIncludedIndex : ℕ
  lastIncludedTerm : ℕ
  offset : ℕ
  data : Bytes
  done : Bool
  deriving DecidableEq, Repr

structure InstallSnapshotResponse where
  term : ℕ
  success : Bool
  deriving DecidableEq, Repr

/-- What a node did that the statements of this development are about.  The
source has no such record; nothing reads it. -/
inductive Event
  /-- The node voted in `term`, for a candidate with this last log entry. -/
  | voted (term : ℕ) (candidate : NodeId) (lastLogIndex lastLogTerm : ℕ)
  /-- The node executed `becomeLeader`, holding this log. -/
  | becameLeader (term lastIncludedIndex : ℕ) (log : List LogEntry)
  /-- `maybeAdvanceCommit` moved `commitIndex` to `index`, under this log. -/
  | committed (term index lastIncludedIndex : ℕ) (log : List LogEntry)
  /-- The node sent a message on `ApplyCh`. -/
  | applied (msg : ApplyMsg)
  deriving DecidableEq, Repr

/-- The entry a log with baseline `lastIncludedIndex` holds at a Raft index. -/
def entryAt (lastIncludedIndex : ℕ) (log : List LogEntry) (index : ℕ) : Option LogEntry :=
  if index < lastIncludedIndex then none else log[index - lastIncludedIndex]?

end RaftKV.Raft
