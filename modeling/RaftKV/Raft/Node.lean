import RaftKV.Raft.Storage
import Mathlib.Logic.Function.Basic

/-!
# A Raft node

`raft/node.go`, one definition per function.  Every handler runs under `n.mu`
from beginning to end, so each is one function from the node before to the node
after; what is sent to peers, or returned to the caller, comes beside it.

Left out of the record are the mutex, the timers (an election timeout or a
heartbeat may happen at any time) and `stopCh`.  Added to it are `votes`, the
variable that the goroutines of one `startElection` call share, kept by the term
of the election, and `events`.

Errors of the storage are logged and otherwise ignored by the source, except
where it tests them; they are dropped here in the same places.
-/

namespace RaftKV.Raft

open Function

/-- A single Raft participant. -/
structure Node (σ : Type) where
  cfg : Config
  currentTerm : ℕ
  votedFor : NodeId
  log : List LogEntry
  lastIncludedIndex : ℕ
  lastIncludedTerm : ℕ
  role : Role
  leaderID : NodeId
  commitIndex : ℕ
  recvSnapshot : Option SnapshotRecvState
  nextIndex : GoMap NodeId ℕ
  matchIndex : GoMap NodeId ℕ
  storage : σ
  applyCh : List ApplyMsg
  votes : ℕ → ℕ
  events : List Event

/-- `1 << 20`. -/
def snapshotChunkSize : ℕ := 1048576

namespace Node

variable {σ : Type}

/-- `NewNode`. -/
def newNode (cfg : Config) (storage : σ) : Node σ where
  cfg := cfg
  currentTerm := 0
  votedFor := ""
  log := [LogEntry.sentinel 0 0]
  lastIncludedIndex := 0
  lastIncludedTerm := 0
  role := .follower
  leaderID := ""
  commitIndex := 0
  recvSnapshot := none
  nextIndex := ∅
  matchIndex := ∅
  storage := storage
  applyCh := []
  votes := fun _ => 0
  events := []

/-! ## Helpers -/

/-- The position in `log` of a Raft index, if the log holds it. -/
def logPos (n : Node σ) (index : ℕ) : Option (Fin n.log.length) :=
  if index < n.lastIncludedIndex then none
  else if h : index - n.lastIncludedIndex < n.log.length then some ⟨_, h⟩
  else none

def lastLogIndex (n : Node σ) : ℕ :=
  n.lastIncludedIndex + n.log.length - 1

/-- The index behind the end of the log. -/
theorem lastLogIndex_succ {n : Node σ} (hne : n.log ≠ []) :
    n.lastLogIndex + 1 = n.lastIncludedIndex + n.log.length := by
  have := List.length_pos_of_ne_nil hne
  unfold lastLogIndex
  omega

theorem base_le_lastLogIndex {n : Node σ} (hne : n.log ≠ []) :
    n.lastIncludedIndex ≤ n.lastLogIndex := by
  have := lastLogIndex_succ hne
  have := List.length_pos_of_ne_nil hne
  omega

/-- What `logPos` says about an index that the log holds. -/
theorem logPos_bounds {n : Node σ} {i : ℕ} {pos : Fin n.log.length}
    (h : n.logPos i = some pos) :
    n.lastIncludedIndex ≤ i ∧ i ≤ n.lastLogIndex ∧ (pos : ℕ) = i - n.lastIncludedIndex := by
  unfold logPos at h
  split at h
  · simp at h
  · split at h
    · next hle hlt =>
        rw [Option.some.injEq] at h
        subst h
        unfold lastLogIndex
        exact ⟨by omega, by omega, rfl⟩
    · simp at h

/-- An index from the baseline on that the log does not hold lies behind its end. -/
theorem end_le_of_logPos {n : Node σ} {i : ℕ} (h : n.logPos i = none)
    (hle : n.lastIncludedIndex ≤ i) : n.lastIncludedIndex + n.log.length ≤ i := by
  unfold logPos at h
  rw [if_neg (not_lt.mpr hle)] at h
  split at h
  · simp at h
  · omega

def lastLogTerm (n : Node σ) : ℕ :=
  match n.log.getLast? with
  | none => n.lastIncludedTerm
  | some entry => entry.term

def quorum (n : Node σ) : ℕ :=
  (1 + n.cfg.peers.length) / 2 + 1

def candidateLogUpToDate (n : Node σ) (candidateLastIdx candidateLastTerm : ℕ) : Bool :=
  if candidateLastTerm ≠ n.lastLogTerm then candidateLastTerm > n.lastLogTerm
  else candidateLastIdx ≥ n.lastLogIndex

/-- Messages leave on `ApplyCh` in order. -/
def send (n : Node σ) (msgs : List ApplyMsg) : Node σ :=
  { n with
    applyCh := n.applyCh ++ msgs
    events := n.events ++ msgs.map .applied }

/-- `advanceCommitTo`: the indices between the old and the new commit point are
looked up one by one, and those the log does not hold are skipped. -/
def advanceCommitTo (n : Node σ) (newCommit : ℕ) : Node σ :=
  let toNotify := (List.range' (n.commitIndex + 1) (newCommit - n.commitIndex)).filterMap
    fun i => (n.logPos i).map n.log.get
  { n with commitIndex := newCommit }.send (toNotify.map .command)

/-- Replications of index `idx`: this node and every peer that acknowledged it. -/
def replications (n : Node σ) (idx : ℕ) : ℕ :=
  1 + n.matchIndex.entries.countP fun peer => peer.1 ≠ n.cfg.id ∧ idx ≤ peer.2

/-- The leader commits through `idx`. -/
def commitThrough (n : Node σ) (idx : ℕ) : Node σ :=
  { n with events := n.events ++
    [Event.committed n.currentTerm idx n.lastIncludedIndex n.log] }.advanceCommitTo idx

/-- The loop of `maybeAdvanceCommit`, from `idx` downwards. -/
def advanceCommitFrom (n : Node σ) : ℕ → Node σ
  | 0 => n
  | idx + 1 =>
      if idx + 1 > n.commitIndex then
        match n.logPos (idx + 1) with
        | none => n.advanceCommitFrom idx
        | some pos =>
            if (n.log.get pos).term ≠ n.currentTerm then n.advanceCommitFrom idx
            else if n.replications (idx + 1) ≥ n.quorum then n.commitThrough (idx + 1)
            else n.advanceCommitFrom idx
      else n

def maybeAdvanceCommit (n : Node σ) : Node σ :=
  n.advanceCommitFrom n.lastLogIndex

/-! ## Elections -/

section

variable [PersistentState σ]

/-- `SaveHardState` of the node's own term and vote. -/
def persistHardState (n : Node σ) : Node σ :=
  { n with storage := (saveHardState n.currentTerm n.votedFor n.storage).2 }

/-- `becomeFollower`. -/
def becomeFollower (n : Node σ) (term : ℕ) : Node σ :=
  if term > n.currentTerm then
    { n with
      role := .follower
      leaderID := ""
      currentTerm := term
      votedFor := "" }.persistHardState
  else { n with role := .follower, leaderID := "" }

end

/-- `becomeLeader`; the heartbeats it starts are `replicateToPeer` calls, which
may happen at any later time. -/
def becomeLeader (n : Node σ) : Node σ :=
  let nextIdx := n.lastLogIndex + 1
  { n with
    role := .leader
    leaderID := n.cfg.id
    nextIndex := n.cfg.peers.foldl (fun m peer => m.insert peer nextIdx) n.nextIndex
    matchIndex := n.cfg.peers.foldl (fun m peer => m.insert peer 0) n.matchIndex
    events := n.events ++ [.becameLeader n.currentTerm n.lastIncludedIndex n.log] }

variable [PersistentState σ]

/-- `startElection` up to the node's own vote. -/
def campaign (n : Node σ) : Node σ :=
  { n with
    currentTerm := n.currentTerm + 1
    role := .candidate
    votedFor := n.cfg.id
    votes := update n.votes (n.currentTerm + 1) 1
    events := n.events ++
      [Event.voted (n.currentTerm + 1) n.cfg.id n.lastLogIndex n.lastLogTerm] }.persistHardState

/-- `startElection`: the requests to the peers, and the node. -/
def startElection (n : Node σ) : List (NodeId × RequestVoteRequest) × Node σ :=
  if 1 ≥ n.quorum then ([], n.campaign.becomeLeader)
  else (n.cfg.peers.map fun peer =>
    (peer, ⟨n.currentTerm + 1, n.cfg.id, n.lastLogIndex, n.lastLogTerm⟩), n.campaign)

/-- The election timer fired (`run`). -/
def electionTimeout (n : Node σ) : List (NodeId × RequestVoteRequest) × Node σ :=
  if n.role ≠ .leader then n.startElection else ([], n)

omit [PersistentState σ] in
/-- One more vote in the election of `term`, which may decide it. -/
def countVote (n : Node σ) (term : ℕ) : Node σ :=
  if n.votes term + 1 ≥ n.quorum then
    { n with votes := update n.votes term (n.votes term + 1) }.becomeLeader
  else { n with votes := update n.votes term (n.votes term + 1) }

/-- The response to a `RequestVote` that was sent in `startElection`. -/
def handleVoteReply (n : Node σ) (req : RequestVoteRequest) (resp : RequestVoteResponse) :
    Node σ :=
  if resp.term > n.currentTerm then n.becomeFollower resp.term
  else if resp.voteGranted ∧ n.role = .candidate ∧ n.currentTerm = req.term then
    n.countVote req.term
  else n

/-! ## RPC handlers -/

/-- A higher term converts to follower at once. -/
def observeTerm (n : Node σ) (term : ℕ) : Node σ :=
  if term > n.currentTerm then n.becomeFollower term else n

/-- The vote is granted. -/
def grantVote (n : Node σ) (req : RequestVoteRequest) : Node σ :=
  { n with
    votedFor := req.candidateId
    events := n.events ++ [Event.voted n.currentTerm req.candidateId req.lastLogIndex
      req.lastLogTerm] }.persistHardState

/-- `HandleRequestVote` behind the term checks. -/
def decideVote (n : Node σ) (req : RequestVoteRequest) : RequestVoteResponse × Node σ :=
  if n.votedFor ≠ "" ∧ n.votedFor ≠ req.candidateId then (⟨n.currentTerm, false⟩, n)
  else if ¬ n.candidateLogUpToDate req.lastLogIndex req.lastLogTerm then
    (⟨n.currentTerm, false⟩, n)
  else (⟨n.currentTerm, true⟩, n.grantVote req)

/-- `HandleRequestVote`. -/
def handleRequestVote (n : Node σ) (req : RequestVoteRequest) : RequestVoteResponse × Node σ :=
  if req.term < n.currentTerm then (⟨n.currentTerm, false⟩, n)
  else (n.observeTerm req.term).decideVote req

/-- What `HandleAppendEntries` and `HandleInstallSnapshot` do first with a
request that is not stale: follow its sender. -/
def followLeader (n : Node σ) (term : ℕ) (leaderId : NodeId) : Node σ :=
  if term > n.currentTerm then { n.becomeFollower term with leaderID := leaderId }
  else { n with role := .follower, leaderID := leaderId }

/-- The first index of the run of `conflictTerm` entries that ends at the given
index, not going below the baseline. -/
def firstIndexOfTerm (n : Node σ) (conflictTerm : ℕ) : ℕ → ℕ
  | 0 => 0
  | k + 1 =>
      if k + 1 > n.lastIncludedIndex + 1 then
        match n.logPos k with
        | none => k + 1
        | some pos =>
            if (n.log.get pos).term ≠ conflictTerm then k + 1 else n.firstIndexOfTerm conflictTerm k
      else k + 1

/-- The log consistency check: `none` if it passes, else the conflict index and
the conflict term.  An index below the baseline passes; at the baseline the term
counts. -/
def conflict (n : Node σ) (prevLogIndex prevLogTerm : ℕ) : Option (ℕ × ℕ) :=
  if prevLogIndex > 0 then
    if prevLogIndex > n.lastLogIndex then some (n.lastLogIndex + 1, 0)
    else match n.logPos prevLogIndex with
      | none => none
      | some pos =>
          if (n.log.get pos).term ≠ prevLogTerm then
            some (n.firstIndexOfTerm (n.log.get pos).term prevLogIndex, (n.log.get pos).term)
          else none
  else none

omit [PersistentState σ] in
/-- A request passes the consistency check only if it starts inside the log. -/
theorem le_lastLogIndex_of_conflict {n : Node σ} {prevLogIndex prevLogTerm : ℕ}
    (h : n.conflict prevLogIndex prevLogTerm = none) : prevLogIndex ≤ n.lastLogIndex := by
  unfold conflict at h
  split at h
  · split at h
    · simp at h
    · omega
  · omega

/-- The append loop of `HandleAppendEntries`; `idx` is the index of the first of
the remaining entries. -/
def appendNew (n : Node σ) (idx : ℕ) : List LogEntry → Node σ
  | [] => n
  | entry :: rest =>
      if idx ≤ n.lastIncludedIndex then n.appendNew (idx + 1) rest
      else match n.logPos idx with
        | none => { n with log := n.log ++ [entry] }.appendNew (idx + 1) rest
        | some pos =>
            if (n.log.get pos).term ≠ entry.term then
              -- conflict: truncate the log here, on disk too, and append from the leader
              { n with
                log := n.log.take pos ++ [entry]
                storage := (truncateSuffix (idx - 1) n.storage).2 }.appendNew (idx + 1) rest
            else n.appendNew (idx + 1) rest

/-- The append loop changes the log and its storage only. -/
theorem appendNew_frame (n : Node σ) (idx : ℕ) (es : List LogEntry) :
    ∃ log storage, n.appendNew idx es = { n with log := log, storage := storage } := by
  induction es generalizing n idx with
  | nil => exact ⟨n.log, n.storage, rfl⟩
  | cons entry rest ih =>
      unfold appendNew
      split
      · exact ih n _
      · split
        · obtain ⟨log, storage, heq⟩ := ih { n with log := n.log ++ [entry] } (idx + 1)
          exact ⟨log, storage, heq⟩
        · split
          · next pos _ _ =>
              obtain ⟨log, storage, heq⟩ := ih
                { n with
                  log := n.log.take pos ++ [entry]
                  storage := (truncateSuffix (idx - 1) n.storage).2 } (idx + 1)
              exact ⟨log, storage, heq⟩
          · exact ih n _

/-- `storage.AppendEntries`. -/
def persistEntries (n : Node σ) (entries : List LogEntry) : Node σ :=
  { n with storage := (appendEntries entries n.storage).2 }

/-- The whole request is persisted, including the entries the loop skipped. -/
def persistRequest (n : Node σ) (entries : List LogEntry) : Node σ :=
  if entries.length > 0 then n.persistEntries entries else n

omit [PersistentState σ] in
/-- The leader's commit index, clamped to the node's own last index. -/
def learnCommit (n : Node σ) (leaderCommit : ℕ) : Node σ :=
  if leaderCommit > n.commitIndex then
    n.advanceCommitTo (if n.lastLogIndex < leaderCommit then n.lastLogIndex else leaderCommit)
  else n

/-- The part of `HandleAppendEntries` behind the consistency check. -/
def acceptEntries (n : Node σ) (req : AppendEntriesRequest) : Node σ :=
  ((n.appendNew (req.prevLogIndex + 1) req.entries).persistRequest req.entries).learnCommit
    req.leaderCommit

/-- Up to the commit index it changes the log and its storage only. -/
theorem acceptEntries_eq (n : Node σ) (req : AppendEntriesRequest) :
    ∃ storage, n.acceptEntries req =
      { n with
        log := (n.appendNew (req.prevLogIndex + 1) req.entries).log
        storage := storage }.learnCommit req.leaderCommit := by
  obtain ⟨log, storage, heq⟩ := n.appendNew_frame (req.prevLogIndex + 1) req.entries
  unfold acceptEntries persistRequest
  rw [heq]
  split
  · exact ⟨_, rfl⟩
  · exact ⟨_, rfl⟩

/-- `HandleAppendEntries` from the consistency check on. -/
def checkAndAccept (n : Node σ) (req : AppendEntriesRequest) : AppendEntriesResponse × Node σ :=
  match n.conflict req.prevLogIndex req.prevLogTerm with
  | some (conflictIndex, conflictTerm) =>
      (⟨n.currentTerm, false, 0, conflictTerm, conflictIndex⟩, n)
  | none => (⟨n.currentTerm, true, (n.acceptEntries req).lastLogIndex, 0, 0⟩, n.acceptEntries req)

/-- `HandleAppendEntries`. -/
def handleAppendEntries (n : Node σ) (req : AppendEntriesRequest) :
    AppendEntriesResponse × Node σ :=
  if req.term < n.currentTerm then (⟨n.currentTerm, false, 0, 0, 0⟩, n)
  else (n.followLeader req.term req.leaderId).checkAndAccept req

omit [PersistentState σ] in
/-- The node on a snapshot that has been saved: the in-memory log is discarded
whole, and the application is told. -/
def replaceLog (n : Node σ) (recv : SnapshotRecvState) (storage : σ) : Node σ :=
  { n with
    recvSnapshot := none
    storage := storage
    log := [LogEntry.sentinel recv.lastIncludedIndex recv.lastIncludedTerm]
    lastIncludedIndex := recv.lastIncludedIndex
    lastIncludedTerm := recv.lastIncludedTerm
    commitIndex := if recv.lastIncludedIndex > n.commitIndex then recv.lastIncludedIndex
      else n.commitIndex }.send
    [.snapshot recv.data recv.lastIncludedIndex recv.lastIncludedTerm]

/-- The final chunk has arrived: `HandleInstallSnapshot` from `SaveSnapshot` on. -/
def installSnapshot (n : Node σ) (recv : SnapshotRecvState) : Bool × Node σ :=
  match saveSnapshot recv.data recv.lastIncludedIndex recv.lastIncludedTerm n.storage with
  | (.error _, storage) => (false, { n with recvSnapshot := none, storage := storage })
  | (.ok (), storage) =>
      (true, n.replaceLog recv ( truncatePrefix recv.lastIncludedIndex storage).2)

/-- The reassembly buffer a chunk is checked against: a chunk at offset `0`
starts a new one. -/
def receiving (n : Node σ) (req : InstallSnapshotRequest) : Option SnapshotRecvState :=
  if req.offset = 0 then some ⟨req.lastIncludedIndex, req.lastIncludedTerm, []⟩
  else n.recvSnapshot

/-- Reassembly in `HandleInstallSnapshot`: a chunk that does not fit is rejected,
the last one is installed. -/
def receiveChunk (n : Node σ) (req : InstallSnapshotRequest) : Bool × Node σ :=
  match n.receiving req with
  | none => (false, { n with recvSnapshot := none })
  | some recv =>
      if recv.lastIncludedIndex ≠ req.lastIncludedIndex ∨ recv.data.length ≠ req.offset then
        (false, { n with recvSnapshot := some recv })
      else
        if req.done then n.installSnapshot { recv with data := recv.data ++ req.data }
        else (true, { n with recvSnapshot := some { recv with data := recv.data ++ req.data } })

/-- `HandleInstallSnapshot` from the staleness guard on. -/
def takeChunk (n : Node σ) (req : InstallSnapshotRequest) : InstallSnapshotResponse × Node σ :=
  if req.lastIncludedIndex ≤ n.lastIncludedIndex then (⟨n.currentTerm, true⟩, n)
  else (⟨n.currentTerm, (n.receiveChunk req).1⟩, (n.receiveChunk req).2)

/-- `HandleInstallSnapshot`. -/
def handleInstallSnapshot (n : Node σ) (req : InstallSnapshotRequest) :
    InstallSnapshotResponse × Node σ :=
  if req.term < n.currentTerm then (⟨n.currentTerm, false⟩, n)
  else (n.followLeader req.term req.leaderId).takeChunk req

omit [PersistentState σ] in
/-- The log that `CompactLog` leaves: the entry at the new baseline becomes the
first one. -/
def compacted (n : Node σ) (lastIncludedIndex lastIncludedTerm : ℕ) : List LogEntry :=
  match n.logPos lastIncludedIndex with
  | some pos => n.log.drop pos
  | none => [LogEntry.sentinel lastIncludedIndex lastIncludedTerm]

/-- `CompactLog`. -/
def compactLog (n : Node σ) (data : Bytes) (lastIncludedIndex lastIncludedTerm : ℕ) :
    Except String Unit × Node σ :=
  if lastIncludedIndex ≤ n.lastIncludedIndex then (.ok (), n)
  else if lastIncludedIndex > n.commitIndex then
    (.error s!"raft: cannot compact past commitIndex ({lastIncludedIndex} > {n.commitIndex})", n)
  else match saveSnapshot data lastIncludedIndex lastIncludedTerm n.storage with
    | (.error err, storage) =>
        (.error s!"raft: save snapshot: {err}", { n with storage := storage })
    | (.ok (), storage) =>
        match truncatePrefix lastIncludedIndex storage with
        | (.error err, storage) =>
            (.error s!"raft: truncate prefix: {err}", { n with storage := storage })
        | (.ok (), storage) =>
            (.ok (), { n with
              storage := storage
              log := n.compacted lastIncludedIndex lastIncludedTerm
              lastIncludedIndex := lastIncludedIndex
              lastIncludedTerm := lastIncludedTerm })

/-! ## Log replication -/

omit [PersistentState σ] in
/-- The entry that `Propose` makes of a command. -/
def nextEntry (n : Node σ) (data : Bytes) : LogEntry :=
  ⟨n.lastLogIndex + 1, n.currentTerm, data⟩

/-- The leader's log and its storage with a new entry. -/
def appendOwn (n : Node σ) (entry : LogEntry) : Node σ :=
  { n with log := n.log ++ [entry] }.persistEntries [entry]

/-- `Propose`: the index and term of the new entry, `none` off the leader. -/
def propose (n : Node σ) (data : Bytes) : Option (ℕ × ℕ) × Node σ :=
  if n.role ≠ .leader then (none, n)
  else (some (n.lastLogIndex + 1, n.currentTerm),
    (n.appendOwn (n.nextEntry data)).maybeAdvanceCommit)

/-- What the first critical section of `replicateToPeer` decides. -/
inductive Replication
  | nothing
  | sendSnapshot
  | appendEntries (req : AppendEntriesRequest)
  deriving DecidableEq, Repr

omit [PersistentState σ] in
/-- `entries` of `replicateToPeer`: from `nextIdx` to the end of the log. -/
def entriesFrom (n : Node σ) (nextIdx : ℕ) : List LogEntry :=
  if nextIdx ≤ n.lastLogIndex then
    match n.logPos nextIdx with
    | some pos => n.log.drop pos
    | none => []
  else []

omit [PersistentState σ] in
/-- `prevLogTerm` of `replicateToPeer`. -/
def termBefore (n : Node σ) (prevLogIndex : ℕ) : ℕ :=
  if prevLogIndex > 0 then
    match n.logPos prevLogIndex with
    | some pos => (n.log.get pos).term
    | none => 0
  else 0

omit [PersistentState σ] in
/-- What `replicateToPeer` sends to a peer. -/
def replicateToPeer (n : Node σ) (peer : NodeId) : Replication :=
  if n.role ≠ .leader then .nothing
  else if n.nextIndex.get peer ≤ n.lastIncludedIndex then .sendSnapshot
  else .appendEntries
    { term := n.currentTerm
      leaderId := n.cfg.id
      prevLogIndex := n.nextIndex.get peer - 1
      prevLogTerm := n.termBefore (n.nextIndex.get peer - 1)
      entries := n.entriesFrom (n.nextIndex.get peer)
      leaderCommit := n.commitIndex }

omit [PersistentState σ] in
/-- A leader above its baseline sends a request. -/
theorem replicateToPeer_appendEntries {n : Node σ} {peer : NodeId} {req : AppendEntriesRequest}
    (h : n.replicateToPeer peer = .appendEntries req) :
    n.role = .leader ∧ n.lastIncludedIndex < n.nextIndex.get peer ∧
      req = ⟨n.currentTerm, n.cfg.id, n.nextIndex.get peer - 1,
        n.termBefore (n.nextIndex.get peer - 1), n.entriesFrom (n.nextIndex.get peer),
        n.commitIndex⟩ := by
  unfold replicateToPeer at h
  split at h
  · cases h
  · next hrole =>
      split at h
      · cases h
      · next hnext =>
          cases h
          exact ⟨not_not.mp hrole, not_le.mp hnext, rfl⟩

omit [PersistentState σ] in
/-- A leader that has compacted what the peer needs sends its snapshot. -/
theorem replicateToPeer_sendSnapshot {n : Node σ} {peer : NodeId}
    (h : n.replicateToPeer peer = .sendSnapshot) :
    n.role = .leader ∧ n.nextIndex.get peer ≤ n.lastIncludedIndex := by
  unfold replicateToPeer at h
  split at h
  · cases h
  · next hrole =>
      split at h
      · next hnext => exact ⟨not_not.mp hrole, hnext⟩
      · cases h

omit [PersistentState σ] in
/-- The leader's last index of `conflictTerm`, scanning down from `i`; `newNext`
is kept if there is none. -/
def nextAfterTerm (n : Node σ) (conflictTerm newNext : ℕ) : ℕ → ℕ
  | 0 => newNext
  | i + 1 =>
      if i + 1 > n.lastIncludedIndex then
        match n.logPos (i + 1) with
        | none => n.nextAfterTerm conflictTerm newNext i
        | some pos =>
            if (n.log.get pos).term = conflictTerm then i + 2
            else n.nextAfterTerm conflictTerm newNext i
      else newNext

omit [PersistentState σ] in
/-- What the conflict hint of a rejection suggests for `nextIndex`. -/
def hintedNext (n : Node σ) (resp : AppendEntriesResponse) : ℕ :=
  if resp.conflictTerm > 0 then
    n.nextAfterTerm resp.conflictTerm resp.conflictIndex n.lastLogIndex
  else resp.conflictIndex

omit [PersistentState σ] in
/-- Where `nextIndex` is moved after a rejection. -/
def backUp (n : Node σ) (resp : AppendEntriesResponse) : ℕ :=
  if n.hintedNext resp < n.lastIncludedIndex + 1 then n.lastIncludedIndex + 1
  else n.hintedNext resp

omit [PersistentState σ] in
/-- A peer is known to hold everything up to `newMatch`. -/
def recordMatch (n : Node σ) (peer : NodeId) (newMatch : ℕ) : Node σ :=
  if newMatch > n.matchIndex.get peer then
    { n with
      matchIndex := n.matchIndex.insert peer newMatch
      nextIndex := n.nextIndex.insert peer (newMatch + 1) }
  else n

/-- The response handling of `replicateToPeer`. -/
def handleAppendReply (n : Node σ) (peer : NodeId) (req : AppendEntriesRequest)
    (resp : AppendEntriesResponse) : Node σ :=
  if resp.term > n.currentTerm then n.becomeFollower resp.term
  else if n.role ≠ .leader ∨ n.currentTerm ≠ req.term then n
  else if resp.success then
    (n.recordMatch peer (req.prevLogIndex + req.entries.length)).maybeAdvanceCommit
  else { n with nextIndex := n.nextIndex.insert peer (n.backUp resp) }

end Node

/-! ## Snapshot transfer -/

/-- The local variables of `sendSnapshotToPeer` in front of one chunk. -/
structure SnapshotTransfer where
  term : ℕ
  leaderId : NodeId
  lastIncludedIndex : ℕ
  lastIncludedTerm : ℕ
  data : Bytes
  offset : ℕ
  deriving DecidableEq, Repr

namespace SnapshotTransfer

/-- `end` of the chunk. -/
def chunkEnd (t : SnapshotTransfer) : ℕ :=
  if t.offset + snapshotChunkSize > t.data.length then t.data.length
  else t.offset + snapshotChunkSize

def done (t : SnapshotTransfer) : Bool :=
  t.chunkEnd ≥ t.data.length

/-- The request that carries the chunk. -/
def request (t : SnapshotTransfer) : InstallSnapshotRequest where
  term := t.term
  leaderId := t.leaderId
  lastIncludedIndex := t.lastIncludedIndex
  lastIncludedTerm := t.lastIncludedTerm
  offset := t.offset
  data := (t.data.take t.chunkEnd).drop t.offset
  done := t.done

end SnapshotTransfer

namespace Node

variable {σ : Type} [PersistentState σ]

omit [PersistentState σ] in
/-- The first critical section of `sendSnapshotToPeer`; the data is not loaded
yet. -/
def beginTransfer (n : Node σ) : Option SnapshotTransfer :=
  if n.role ≠ .leader then none
  else some ⟨n.currentTerm, n.cfg.id, n.lastIncludedIndex, n.lastIncludedTerm, [], 0⟩

omit [PersistentState σ] in
theorem beginTransfer_eq_some {n : Node σ} {t : SnapshotTransfer}
    (h : n.beginTransfer = some t) : n.role = .leader ∧
      t = ⟨n.currentTerm, n.cfg.id, n.lastIncludedIndex, n.lastIncludedTerm, [], 0⟩ := by
  unfold beginTransfer at h
  split at h
  · cases h
  · next hrole =>
      cases h
      exact ⟨not_not.mp hrole, rfl⟩

/-- `LoadSnapshot`, outside the lock: a newer `CompactLog` may have raced in. -/
def loadTransfer (n : Node σ) (t : SnapshotTransfer) : Option SnapshotTransfer :=
  match loadSnapshot n.storage with
  | .error _ => none
  | .ok (data, savedIndex, _) =>
      if savedIndex ≠ t.lastIncludedIndex then none else some { t with data := data }

/-- The response handling of `sendSnapshotToPeer`, and the transfer's next chunk
if there is one. -/
def handleSnapshotReply (n : Node σ) (peer : NodeId) (t : SnapshotTransfer)
    (resp : InstallSnapshotResponse) : Option SnapshotTransfer × Node σ :=
  if resp.term > n.currentTerm then (none, n.becomeFollower resp.term)
  else if n.role ≠ .leader ∨ n.currentTerm ≠ t.term then (none, n)
  else if ¬ resp.success then (none, n)
  else if t.done then (none, n.recordMatch peer t.lastIncludedIndex)
  else (some { t with offset := t.chunkEnd }, n)

/-! ## Starting -/

omit [PersistentState σ] in
/-- `Start` with a saved snapshot: the log begins at its index, and so does
`commitIndex`.  The snapshot's data is not read. -/
def seed (n : Node σ) (lastIncludedIndex lastIncludedTerm : ℕ) : Node σ :=
  if lastIncludedIndex > 0 then
    { n with
      lastIncludedIndex := lastIncludedIndex
      lastIncludedTerm := lastIncludedTerm
      log := [LogEntry.sentinel lastIncludedIndex lastIncludedTerm]
      commitIndex := lastIncludedIndex }
  else n

omit [PersistentState σ] in
/-- `Start` with the hard state and the log entries it has loaded. -/
def recover (n : Node σ) (hard : ℕ × NodeId) (entries : List LogEntry) : Node σ :=
  { n with currentTerm := hard.1, votedFor := hard.2, log := n.log ++ entries }

/-- `Start` on a node that `NewNode` has just created. -/
def start (n : Node σ) : Except String (Node σ) := do
  let snapshot ← (loadSnapshotMeta n.storage).mapError (s!"raft: load snapshot: {·}")
  let hard ← (loadHardState n.storage).mapError (s!"raft: load hard state: {·}")
  let entries ← (loadEntries n.storage).mapError (s!"raft: load log: {·}")
  return (n.seed snapshot.1 snapshot.2).recover hard entries

/-- The process restarts on the storage it left behind. -/
def restart (n : Node σ) (storage : σ) : Except String (Node σ) := do
  let fresh ← (newNode n.cfg storage).start
  return { fresh with events := n.events }

omit [PersistentState σ] in
/-- A restart under the contract of `PersistentState`: term, vote, log and
baseline are exactly as before, everything volatile is reset. -/
def resume (n : Node σ) : Node σ :=
  { newNode n.cfg n.storage with
    currentTerm := n.currentTerm
    votedFor := n.votedFor
    log := n.log
    lastIncludedIndex := n.lastIncludedIndex
    lastIncludedTerm := n.lastIncludedTerm
    commitIndex := n.lastIncludedIndex
    events := n.events }

end Node

end RaftKV.Raft
