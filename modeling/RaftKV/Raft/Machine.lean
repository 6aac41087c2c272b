import RaftKV.MachineInt
import RaftKV.Raft.ApplyStream

/-!
# A node on machine integers

`raft/node.go` once more, with the integers it computes with: indices are `uint64`, positions
in `log` are `int`, and an access to `log` outside its bounds stops the process.  Only what
computes with indices or reads `log` is here; the rest is `Node`'s.

`logPos` converts a difference of two `uint64` to `int`, which is negative from `2 ^ 63` on and
then passes its only check.  Below that the functions are those of `Node`: each has a lemma
that says so, and these lemmas ask for a range of indices and, where the end of the log is
read, for a log that is not empty.
-/

namespace RaftKV.Raft.Machine

open Function

variable {σ : Type}

/-! ## Helpers -/

def logPos (n : Node σ) (index : ℕ) : Option ℤ :=
  if index < n.lastIncludedIndex then none
  else
    let pos := toInt64 (sub64 index n.lastIncludedIndex)
    if pos ≥ n.log.length then none else some pos

def lastLogIndex (n : Node σ) : ℕ :=
  wrap64 (n.lastIncludedIndex + toUInt64 ((n.log.length : ℤ) - 1))

def lastLogTerm (n : Node σ) : Except Fault ℕ := do
  if n.log.length = 0 then return n.lastIncludedTerm
  let entry ← GoSlice.index n.log ((n.log.length : ℤ) - 1)
  return entry.term

/-- `n.log[pos]` behind `logPos`. -/
def entryAt (n : Node σ) (index : ℕ) : Except Fault (Option LogEntry) :=
  match logPos n index with
  | none => .ok none
  | some pos => some <$> GoSlice.index n.log pos

def candidateLogUpToDate (n : Node σ) (candidateLastIdx candidateLastTerm : ℕ) :
    Except Fault Bool := do
  let myLastTerm ← lastLogTerm n
  if candidateLastTerm ≠ myLastTerm then return candidateLastTerm > myLastTerm
  return candidateLastIdx ≥ lastLogIndex n

/-- The loop of `advanceCommitTo`.  After `2 ^ 64` rounds `i` has been everywhere. -/
def toNotify (n : Node σ) (newCommit : ℕ) : ℕ → ℕ → Except Fault (List LogEntry)
  | 0, _ => .error .endless
  | rounds + 1, i =>
      if i ≤ newCommit then do
        let entry ← entryAt n i
        let rest ← toNotify n newCommit rounds (wrap64 (i + 1))
        return entry.toList ++ rest
      else .ok []

def advanceCommitTo (n : Node σ) (newCommit : ℕ) : Except Fault (Node σ) := do
  let entries ← toNotify n newCommit (2 ^ 64) (wrap64 (n.commitIndex + 1))
  return { n with commitIndex := newCommit }.send (entries.map .command)

def commitThrough (n : Node σ) (idx : ℕ) : Except Fault (Node σ) :=
  advanceCommitTo { n with events := n.events ++
    [Event.committed n.currentTerm idx n.lastIncludedIndex n.log] } idx

def advanceCommitFrom (n : Node σ) : ℕ → Except Fault (Node σ)
  | 0 => .ok n
  | idx + 1 =>
      if idx + 1 > n.commitIndex then do
        match ← entryAt n (idx + 1) with
        | none => advanceCommitFrom n idx
        | some entry =>
            if entry.term ≠ n.currentTerm then advanceCommitFrom n idx
            else if n.replications (idx + 1) ≥ n.quorum then commitThrough n (idx + 1)
            else advanceCommitFrom n idx
      else .ok n

def maybeAdvanceCommit (n : Node σ) : Except Fault (Node σ) :=
  advanceCommitFrom n (lastLogIndex n)

/-! ## Elections -/

def becomeLeader (n : Node σ) : Node σ :=
  let nextIdx := wrap64 (lastLogIndex n + 1)
  { n with
    role := .leader
    leaderID := n.cfg.id
    nextIndex := n.cfg.peers.foldl (fun m peer => m.insert peer nextIdx) n.nextIndex
    matchIndex := n.cfg.peers.foldl (fun m peer => m.insert peer 0) n.matchIndex
    events := n.events ++ [.becameLeader n.currentTerm n.lastIncludedIndex n.log] }

def countVote (n : Node σ) (term : ℕ) : Node σ :=
  if n.votes term + 1 ≥ n.quorum then
    becomeLeader { n with votes := update n.votes term (n.votes term + 1) }
  else { n with votes := update n.votes term (n.votes term + 1) }

section

variable [PersistentState σ]

/-- `startElection` up to the node's own vote; the term wraps as well. -/
def campaign (n : Node σ) (lastLogTerm : ℕ) : Node σ :=
  { n with
    currentTerm := wrap64 (n.currentTerm + 1)
    role := .candidate
    votedFor := n.cfg.id
    votes := update n.votes (wrap64 (n.currentTerm + 1)) 1
    events := n.events ++ [Event.voted (wrap64 (n.currentTerm + 1)) n.cfg.id (lastLogIndex n)
      lastLogTerm] }.persistHardState

def startElection (n : Node σ) :
    Except Fault (List (NodeId × RequestVoteRequest) × Node σ) := do
  let lastTerm ← lastLogTerm n
  if 1 ≥ n.quorum then return ([], becomeLeader (campaign n lastTerm))
  return (n.cfg.peers.map fun peer =>
    (peer, ⟨wrap64 (n.currentTerm + 1), n.cfg.id, lastLogIndex n, lastTerm⟩), campaign n lastTerm)

def electionTimeout (n : Node σ) :
    Except Fault (List (NodeId × RequestVoteRequest) × Node σ) :=
  if n.role ≠ .leader then startElection n else .ok ([], n)

def handleVoteReply (n : Node σ) (req : RequestVoteRequest) (resp : RequestVoteResponse) :
    Node σ :=
  if resp.term > n.currentTerm then n.becomeFollower resp.term
  else if resp.voteGranted ∧ n.role = .candidate ∧ n.currentTerm = req.term then
    countVote n req.term
  else n

/-! ## RPC handlers -/

def decideVote (n : Node σ) (req : RequestVoteRequest) :
    Except Fault (RequestVoteResponse × Node σ) := do
  if n.votedFor ≠ "" ∧ n.votedFor ≠ req.candidateId then return (⟨n.currentTerm, false⟩, n)
  if ¬ (← candidateLogUpToDate n req.lastLogIndex req.lastLogTerm) then
    return (⟨n.currentTerm, false⟩, n)
  return (⟨n.currentTerm, true⟩, n.grantVote req)

def handleRequestVote (n : Node σ) (req : RequestVoteRequest) :
    Except Fault (RequestVoteResponse × Node σ) :=
  if req.term < n.currentTerm then .ok (⟨n.currentTerm, false⟩, n)
  else decideVote (n.observeTerm req.term) req

end

def firstIndexOfTerm (n : Node σ) (conflictTerm : ℕ) : ℕ → Except Fault ℕ
  | 0 => .ok 0
  | k + 1 =>
      if k + 1 > wrap64 (n.lastIncludedIndex + 1) then do
        match ← entryAt n k with
        | none => return k + 1
        | some entry =>
            if entry.term ≠ conflictTerm then return k + 1
            else firstIndexOfTerm n conflictTerm k
      else .ok (k + 1)

def conflict (n : Node σ) (prevLogIndex prevLogTerm : ℕ) : Except Fault (Option (ℕ × ℕ)) :=
  if prevLogIndex > 0 then
    if prevLogIndex > lastLogIndex n then .ok (some (wrap64 (lastLogIndex n + 1), 0))
    else do
      match ← entryAt n prevLogIndex with
      | none => return none
      | some entry =>
          if entry.term ≠ prevLogTerm then do
            let conflictIndex ← firstIndexOfTerm n entry.term prevLogIndex
            return some (conflictIndex, entry.term)
          else return none
  else .ok none

section

variable [PersistentState σ]

def appendNew (n : Node σ) (idx : ℕ) : List LogEntry → Except Fault (Node σ)
  | [] => .ok n
  | entry :: rest =>
      if idx ≤ n.lastIncludedIndex then appendNew n (wrap64 (idx + 1)) rest
      else match logPos n idx with
        | none => appendNew { n with log := n.log ++ [entry] } (wrap64 (idx + 1)) rest
        | some pos => do
            let held ← GoSlice.index n.log pos
            if held.term ≠ entry.term then do
              let kept ← GoSlice.front n.log pos
              appendNew
                { n with
                  log := kept ++ [entry]
                  storage := (truncateSuffix (sub64 idx 1) n.storage).2 }
                (wrap64 (idx + 1)) rest
            else appendNew n (wrap64 (idx + 1)) rest

end

def learnCommit (n : Node σ) (leaderCommit : ℕ) : Except Fault (Node σ) :=
  if leaderCommit > n.commitIndex then
    advanceCommitTo n (if lastLogIndex n < leaderCommit then lastLogIndex n else leaderCommit)
  else .ok n

section

variable [PersistentState σ]

def acceptEntries (n : Node σ) (req : AppendEntriesRequest) : Except Fault (Node σ) := do
  let appended ← appendNew n (wrap64 (req.prevLogIndex + 1)) req.entries
  learnCommit (appended.persistRequest req.entries) req.leaderCommit

def checkAndAccept (n : Node σ) (req : AppendEntriesRequest) :
    Except Fault (AppendEntriesResponse × Node σ) := do
  match ← conflict n req.prevLogIndex req.prevLogTerm with
  | some (conflictIndex, conflictTerm) =>
      return (⟨n.currentTerm, false, 0, conflictTerm, conflictIndex⟩, n)
  | none =>
      let accepted ← acceptEntries n req
      return (⟨n.currentTerm, true, lastLogIndex accepted, 0, 0⟩, accepted)

def handleAppendEntries (n : Node σ) (req : AppendEntriesRequest) :
    Except Fault (AppendEntriesResponse × Node σ) :=
  if req.term < n.currentTerm then .ok (⟨n.currentTerm, false, 0, 0, 0⟩, n)
  else checkAndAccept (n.followLeader req.term req.leaderId) req

end

def compacted (n : Node σ) (lastIncludedIndex lastIncludedTerm : ℕ) :
    Except Fault (List LogEntry) :=
  match logPos n lastIncludedIndex with
  | some pos => GoSlice.suffix n.log pos
  | none => .ok [LogEntry.sentinel lastIncludedIndex lastIncludedTerm]

section

variable [PersistentState σ]

def compactLog (n : Node σ) (data : Bytes) (lastIncludedIndex lastIncludedTerm : ℕ) :
    Except Fault (Except String Unit × Node σ) :=
  if lastIncludedIndex ≤ n.lastIncludedIndex then .ok (.ok (), n)
  else if lastIncludedIndex > n.commitIndex then
    .ok (.error
      s!"raft: cannot compact past commitIndex ({lastIncludedIndex} > {n.commitIndex})", n)
  else match saveSnapshot data lastIncludedIndex lastIncludedTerm n.storage with
    | (.error err, storage) =>
        .ok (.error s!"raft: save snapshot: {err}", { n with storage := storage })
    | (.ok (), storage) =>
        match truncatePrefix lastIncludedIndex storage with
        | (.error err, storage) =>
            .ok (.error s!"raft: truncate prefix: {err}", { n with storage := storage })
        | (.ok (), storage) => do
            let log ← compacted n lastIncludedIndex lastIncludedTerm
            return (.ok (), { n with
              storage := storage
              log := log
              lastIncludedIndex := lastIncludedIndex
              lastIncludedTerm := lastIncludedTerm })

/-! ## Log replication -/

def propose (n : Node σ) (data : Bytes) : Except Fault (Option (ℕ × ℕ) × Node σ) := do
  if n.role ≠ .leader then return (none, n)
  let entry : LogEntry := ⟨wrap64 (lastLogIndex n + 1), n.currentTerm, data⟩
  let committed ← maybeAdvanceCommit (n.appendOwn entry)
  return (some (entry.index, entry.term), committed)

end

def entriesFrom (n : Node σ) (nextIdx : ℕ) : Except Fault (List LogEntry) :=
  if nextIdx ≤ lastLogIndex n then
    match logPos n nextIdx with
    | some pos => GoSlice.suffix n.log pos
    | none => .ok []
  else .ok []

def termBefore (n : Node σ) (prevLogIndex : ℕ) : Except Fault ℕ :=
  if prevLogIndex > 0 then do
    match ← entryAt n prevLogIndex with
    | some entry => return entry.term
    | none => return 0
  else .ok 0

def replicateToPeer (n : Node σ) (peer : NodeId) : Except Fault Node.Replication := do
  if n.role ≠ .leader then return .nothing
  let nextIdx := n.nextIndex.get peer
  if nextIdx ≤ n.lastIncludedIndex then return .sendSnapshot
  let entries ← entriesFrom n nextIdx
  let prevLogTerm ← termBefore n (sub64 nextIdx 1)
  return .appendEntries
    { term := n.currentTerm
      leaderId := n.cfg.id
      prevLogIndex := sub64 nextIdx 1
      prevLogTerm := prevLogTerm
      entries := entries
      leaderCommit := n.commitIndex }

def nextAfterTerm (n : Node σ) (conflictTerm newNext : ℕ) : ℕ → Except Fault ℕ
  | 0 => .ok newNext
  | i + 1 =>
      if i + 1 > n.lastIncludedIndex then do
        match ← entryAt n (i + 1) with
        | none => nextAfterTerm n conflictTerm newNext i
        | some entry =>
            if entry.term = conflictTerm then return wrap64 (i + 2)
            else nextAfterTerm n conflictTerm newNext i
      else .ok newNext

def hintedNext (n : Node σ) (resp : AppendEntriesResponse) : Except Fault ℕ :=
  if resp.conflictTerm > 0 then
    nextAfterTerm n resp.conflictTerm resp.conflictIndex (lastLogIndex n)
  else .ok resp.conflictIndex

def backUp (n : Node σ) (resp : AppendEntriesResponse) : Except Fault ℕ := do
  let newNext ← hintedNext n resp
  if newNext < wrap64 (n.lastIncludedIndex + 1) then return wrap64 (n.lastIncludedIndex + 1)
  return newNext

def recordMatch (n : Node σ) (peer : NodeId) (newMatch : ℕ) : Node σ :=
  if newMatch > n.matchIndex.get peer then
    { n with
      matchIndex := n.matchIndex.insert peer newMatch
      nextIndex := n.nextIndex.insert peer (wrap64 (newMatch + 1)) }
  else n

section

variable [PersistentState σ]

def handleAppendReply (n : Node σ) (peer : NodeId) (req : AppendEntriesRequest)
    (resp : AppendEntriesResponse) : Except Fault (Node σ) :=
  if resp.term > n.currentTerm then .ok (n.becomeFollower resp.term)
  else if n.role ≠ .leader ∨ n.currentTerm ≠ req.term then .ok n
  else if resp.success then
    maybeAdvanceCommit (recordMatch n peer (wrap64 (req.prevLogIndex + req.entries.length)))
  else do
    let newNext ← backUp n resp
    return { n with nextIndex := n.nextIndex.insert peer newNext }

def handleSnapshotReply (n : Node σ) (peer : NodeId) (t : SnapshotTransfer)
    (resp : InstallSnapshotResponse) : Option SnapshotTransfer × Node σ :=
  if resp.term > n.currentTerm then (none, n.becomeFollower resp.term)
  else if n.role ≠ .leader ∨ n.currentTerm ≠ t.term then (none, n)
  else if ¬ resp.success then (none, n)
  else if t.done then (none, recordMatch n peer t.lastIncludedIndex)
  else (some { t with offset := t.chunkEnd }, n)

/-- The node behind a critical section, unless it stops the process. -/
def run (n : Node σ) : Section → Except Fault (Node σ)
  | .electionTimeout => return (← electionTimeout n).2
  | .voteReply req resp => .ok (handleVoteReply n req resp)
  | .requestVote req => return (← handleRequestVote n req).2
  | .appendEntries req => return (← handleAppendEntries n req).2
  | .installSnapshot req => .ok (n.handleInstallSnapshot req).2
  | .compactLog data index term => return (← compactLog n data index term).2
  | .propose data => return (← propose n data).2
  | .appendReply peer req resp => handleAppendReply n peer req resp
  | .snapshotReply peer transfer resp => .ok (handleSnapshotReply n peer transfer resp).2

/-- One more critical section of a process that has not stopped. -/
def step (process : Except Fault (Node σ)) (call : Section) : Except Fault (Node σ) :=
  process >>= (run · call)

end

/-! ## Below `2 ^ 63` -/

/-- The log has an end, and the indices of the node are numbers that `int` has as well. -/
structure Small (n : Node σ) : Prop where
  nonempty : n.log ≠ []
  last : n.lastLogIndex < 2 ^ 63
  commit : n.commitIndex < 2 ^ 63

variable {n n' : Node σ}

theorem Small.congr (hn : Small n) (h : n'.holding = n.holding) : Small n' := by
  have hlast := Node.lastLogIndex_of_holding h
  simp only [Node.holding, Prod.mk.injEq] at h
  exact ⟨h.1 ▸ hn.nonempty, hlast ▸ hn.last, h.2.2.1 ▸ hn.commit⟩

theorem Small.base (hn : Small n) : n.lastIncludedIndex + 1 < 2 ^ 64 := by
  have hle := Node.base_le_lastLogIndex hn.nonempty
  have hlast := hn.last
  omega

theorem logPos_eq {index : ℕ} (h : index < 2 ^ 63) :
    logPos n index = (n.logPos index).map fun pos : Fin n.log.length => ((pos : ℕ) : ℤ) := by
  unfold logPos Node.logPos
  split
  · rfl
  · next hge =>
      have hsub : index - n.lastIncludedIndex < 2 ^ 63 := by omega
      simp only [sub64_of_le (not_lt.mp hge) (by omega), toInt64_of_lt hsub]
      split
      · rw [dif_neg (by omega)]
        rfl
      · rw [dif_pos (by omega)]
        rfl

theorem entryAt_eq {index : ℕ} (h : index < 2 ^ 63) :
    entryAt n index = .ok ((n.logPos index).map n.log.get) := by
  unfold entryAt
  rw [logPos_eq h]
  cases n.logPos index with
  | none => rfl
  | some pos =>
      simp only [Option.map_some, GoSlice.index_natCast]
      rfl

theorem lastLogIndex_eq (hn : Small n) : lastLogIndex n = n.lastLogIndex := by
  have hlen := List.length_pos_of_ne_nil hn.nonempty
  have hend := Node.lastLogIndex_succ hn.nonempty
  have hlast := hn.last
  have hcast : (n.log.length : ℤ) - 1 = ((n.log.length - 1 : ℕ) : ℤ) := by omega
  unfold lastLogIndex
  rw [hcast, toUInt64_natCast (by omega), wrap64_of_lt (by omega)]
  omega

theorem lastLogTerm_eq (hne : n.log ≠ []) : lastLogTerm n = .ok n.lastLogTerm := by
  have hlen := List.length_pos_of_ne_nil hne
  have hcast : (n.log.length : ℤ) - 1 = ((n.log.length - 1 : ℕ) : ℤ) := by omega
  have hlast : GoSlice.index n.log ((n.log.length : ℤ) - 1) =
      .ok (n.log.get ⟨n.log.length - 1, by omega⟩) := by
    rw [hcast]
    exact GoSlice.index_natCast ⟨n.log.length - 1, by omega⟩
  unfold lastLogTerm Node.lastLogTerm
  rw [if_neg (by omega), hlast, List.getLast?_eq_getElem?, List.getElem?_eq_getElem (by omega)]
  rfl

theorem candidateLogUpToDate_eq (hn : Small n) (idx term : ℕ) :
    candidateLogUpToDate n idx term = .ok (n.candidateLogUpToDate idx term) := by
  unfold candidateLogUpToDate Node.candidateLogUpToDate
  rw [lastLogTerm_eq hn.nonempty, lastLogIndex_eq hn]
  simp only [bind, Except.bind]
  split
  · rfl
  · rfl

/-- Every round of the loop is one index of the range that `Node` looks up. -/
theorem toNotify_eq {newCommit rounds i : ℕ} (hnew : newCommit < 2 ^ 63)
    (hrounds : newCommit + 1 - i < rounds) :
    toNotify n newCommit rounds i = .ok ((List.range' i (newCommit + 1 - i)).filterMap
      fun i => (n.logPos i).map n.log.get) := by
  induction rounds generalizing i with
  | zero => omega
  | succ rounds ih =>
      unfold toNotify
      split
      · next hle =>
          have hcount : newCommit + 1 - i = newCommit + 1 - (i + 1) + 1 := by omega
          rw [entryAt_eq (by omega), wrap64_of_lt (by omega), ih (by omega), hcount,
            List.range'_succ, List.filterMap_cons]
          cases n.logPos i with
          | none => rfl
          | some pos => rfl
      · next hgt =>
          have hcount : newCommit + 1 - i = 0 := by omega
          rw [hcount]
          rfl

theorem advanceCommitTo_eq (hcommit : n.commitIndex < 2 ^ 63) {newCommit : ℕ}
    (hnew : newCommit < 2 ^ 63) :
    advanceCommitTo n newCommit = .ok (n.advanceCommitTo newCommit) := by
  unfold advanceCommitTo Node.advanceCommitTo
  rw [wrap64_of_lt (by omega), toNotify_eq hnew (by omega), Nat.add_sub_add_right]
  rfl

theorem commitThrough_eq (hcommit : n.commitIndex < 2 ^ 63) {idx : ℕ} (hidx : idx < 2 ^ 63) :
    commitThrough n idx = .ok (n.commitThrough idx) := by
  have hevent : { n with events := n.events ++
      [Event.committed n.currentTerm idx n.lastIncludedIndex n.log] }.commitIndex < 2 ^ 63 :=
    hcommit
  exact advanceCommitTo_eq hevent hidx

theorem advanceCommitFrom_eq (hcommit : n.commitIndex < 2 ^ 63) {idx : ℕ} (hidx : idx < 2 ^ 63) :
    advanceCommitFrom n idx = .ok (n.advanceCommitFrom idx) := by
  induction idx with
  | zero => rfl
  | succ idx ih =>
      have ih := ih (by omega)
      unfold advanceCommitFrom Node.advanceCommitFrom
      rw [entryAt_eq hidx]
      split
      · cases n.logPos (idx + 1) with
        | none => exact ih
        | some pos =>
            simp only [Option.map_some, bind, Except.bind]
            split
            · exact ih
            · split
              · exact commitThrough_eq hcommit hidx
              · exact ih
      · rfl

theorem maybeAdvanceCommit_eq (hn : Small n) :
    maybeAdvanceCommit n = .ok n.maybeAdvanceCommit := by
  unfold maybeAdvanceCommit
  rw [lastLogIndex_eq hn]
  exact advanceCommitFrom_eq hn.commit hn.last

theorem becomeLeader_eq (hn : Small n) : becomeLeader n = n.becomeLeader := by
  have hlast := hn.last
  unfold becomeLeader Node.becomeLeader
  rw [lastLogIndex_eq hn, wrap64_of_lt (by omega)]

theorem countVote_eq (hn : Small n) (term : ℕ) : countVote n term = n.countVote term := by
  have hcounted : Small { n with votes := update n.votes term (n.votes term + 1) } :=
    hn.congr rfl
  unfold countVote Node.countVote
  rw [becomeLeader_eq hcounted]

theorem firstIndexOfTerm_eq (hn : Small n) (conflictTerm : ℕ) {k : ℕ} (hk : k ≤ n.lastLogIndex) :
    firstIndexOfTerm n conflictTerm k = .ok (n.firstIndexOfTerm conflictTerm k) := by
  have hlast := hn.last
  have hbase := hn.base
  induction k with
  | zero => rfl
  | succ k ih =>
      unfold firstIndexOfTerm Node.firstIndexOfTerm
      rw [wrap64_of_lt hbase, entryAt_eq (by omega)]
      split
      · cases n.logPos k with
        | none => rfl
        | some pos =>
            simp only [Option.map_some, bind, Except.bind]
            split
            · rfl
            · exact ih (by omega)
      · rfl

theorem conflict_eq (hn : Small n) (prevLogIndex prevLogTerm : ℕ) :
    conflict n prevLogIndex prevLogTerm = .ok (n.conflict prevLogIndex prevLogTerm) := by
  have hlast := hn.last
  unfold conflict Node.conflict
  rw [lastLogIndex_eq hn, wrap64_of_lt (by omega)]
  split
  · split
    · rfl
    · next hle =>
        rw [entryAt_eq (by omega)]
        cases n.logPos prevLogIndex with
        | none => rfl
        | some pos =>
            simp only [Option.map_some, bind, Except.bind]
            split
            · rw [firstIndexOfTerm_eq hn _ (not_lt.mp hle)]
              rfl
            · rfl
  · rfl

theorem learnCommit_eq (hn : Small n) (leaderCommit : ℕ) :
    learnCommit n leaderCommit = .ok (n.learnCommit leaderCommit) := by
  have hlast := hn.last
  unfold learnCommit Node.learnCommit
  rw [lastLogIndex_eq hn]
  split
  · refine advanceCommitTo_eq hn.commit ?_
    split
    · exact hn.last
    · omega
  · rfl

theorem compacted_eq {index : ℕ} (hindex : index < 2 ^ 63) (term : ℕ) :
    compacted n index term = .ok (n.compacted index term) := by
  unfold compacted Node.compacted
  rw [logPos_eq hindex]
  cases n.logPos index with
  | none => rfl
  | some pos => exact GoSlice.suffix_natCast pos.isLt.le

theorem entriesFrom_eq (hn : Small n) (nextIdx : ℕ) :
    entriesFrom n nextIdx = .ok (n.entriesFrom nextIdx) := by
  have hlast := hn.last
  unfold entriesFrom Node.entriesFrom
  rw [lastLogIndex_eq hn]
  split
  · rw [logPos_eq (by omega)]
    cases n.logPos nextIdx with
    | none => rfl
    | some pos => exact GoSlice.suffix_natCast pos.isLt.le
  · rfl

theorem termBefore_eq {prevLogIndex : ℕ} (h : prevLogIndex < 2 ^ 63) :
    termBefore n prevLogIndex = .ok (n.termBefore prevLogIndex) := by
  unfold termBefore Node.termBefore
  rw [entryAt_eq h]
  split
  · cases n.logPos prevLogIndex with
    | none => rfl
    | some pos => rfl
  · rfl

theorem replicateToPeer_eq (hn : Small n) {peer : NodeId} (hnext : n.nextIndex.get peer ≤ 2 ^ 63) :
    replicateToPeer n peer = .ok (n.replicateToPeer peer) := by
  unfold replicateToPeer Node.replicateToPeer
  by_cases hrole : n.role ≠ .leader
  · rw [if_pos hrole, if_pos hrole]
    rfl
  · rw [if_neg hrole, if_neg hrole]
    by_cases hle : n.nextIndex.get peer ≤ n.lastIncludedIndex
    · simp only [if_pos hle]
      rfl
    · simp only [if_neg hle, entriesFrom_eq hn]
      rw [sub64_of_le (by omega) (by omega), termBefore_eq (by omega)]
      rfl

theorem nextAfterTerm_eq (conflictTerm newNext : ℕ) {i : ℕ} (hi : i < 2 ^ 63) :
    nextAfterTerm n conflictTerm newNext i = .ok (n.nextAfterTerm conflictTerm newNext i) := by
  induction i with
  | zero => rfl
  | succ i ih =>
      have ih := ih (by omega)
      unfold nextAfterTerm Node.nextAfterTerm
      rw [entryAt_eq hi, wrap64_of_lt (by omega)]
      split
      · cases n.logPos (i + 1) with
        | none => exact ih
        | some pos =>
            simp only [Option.map_some, bind, Except.bind]
            split
            · rfl
            · exact ih
      · rfl

theorem backUp_eq (hn : Small n) (resp : AppendEntriesResponse) :
    backUp n resp = .ok (n.backUp resp) := by
  have hlast := hn.last
  have hbase := hn.base
  have hhint : hintedNext n resp = .ok (n.hintedNext resp) := by
    unfold hintedNext Node.hintedNext
    rw [lastLogIndex_eq hn, nextAfterTerm_eq _ _ hlast]
    split
    · rfl
    · rfl
  unfold backUp Node.backUp
  rw [hhint, wrap64_of_lt hbase]
  simp only [bind, Except.bind]
  split
  · rfl
  · rfl

theorem recordMatch_eq {newMatch : ℕ} (h : newMatch < 2 ^ 63) (peer : NodeId) :
    recordMatch n peer newMatch = n.recordMatch peer newMatch := by
  unfold recordMatch Node.recordMatch
  rw [wrap64_of_lt (by omega)]

section

variable [PersistentState σ]

theorem handleVoteReply_eq (hn : Small n) (req : RequestVoteRequest) (resp : RequestVoteResponse) :
    handleVoteReply n req resp = n.handleVoteReply req resp := by
  unfold handleVoteReply Node.handleVoteReply
  rw [countVote_eq hn]

theorem handleRequestVote_eq (hn : Small n) (req : RequestVoteRequest) :
    handleRequestVote n req = .ok (n.handleRequestVote req) := by
  have hm : Small (n.observeTerm req.term) := hn.congr (n.observeTerm_holding req.term)
  unfold handleRequestVote Node.handleRequestVote
  split
  · rfl
  · unfold decideVote Node.decideVote
    split
    · rfl
    · rw [candidateLogUpToDate_eq hm]
      simp only [bind, Except.bind]
      split
      · rfl
      · rfl

/-- The rounds of the append loop that stay below the bound. -/
theorem appendNew_eq {idx : ℕ} {entries : List LogEntry} (h : idx + entries.length ≤ 2 ^ 63) :
    appendNew n idx entries = .ok (n.appendNew idx entries) := by
  induction entries generalizing n idx with
  | nil => rfl
  | cons entry rest ih =>
      rw [List.length_cons] at h
      unfold appendNew Node.appendNew
      rw [wrap64_of_lt (by omega)]
      split
      · exact ih (by omega)
      · next hgt =>
          rw [logPos_eq (by omega)]
          cases n.logPos idx with
          | none => exact ih (by omega)
          | some pos =>
              simp only [Option.map_some, GoSlice.index_natCast,
                GoSlice.front_natCast pos.isLt.le, sub64_of_le (by omega : 1 ≤ idx) (by omega),
                bind, Except.bind]
              split
              · exact ih (by omega)
              · exact ih (by omega)

theorem compactLog_eq (hn : Small n) (data : Bytes) (index term : ℕ) :
    compactLog n data index term = .ok (n.compactLog data index term) := by
  have hcommit := hn.commit
  unfold compactLog Node.compactLog
  split
  · rfl
  · split
    · rfl
    · rw [compacted_eq (by omega)]
      rcases saveSnapshot data index term n.storage with ⟨_ | _, storage⟩
      · rfl
      · simp only
        rcases truncatePrefix index storage with ⟨_ | _, storage⟩
        · rfl
        · rfl

end

/-! ## Whole sections -/

theorem Small.advanceCommitTo (hn : Small n) {newCommit : ℕ} (hnew : newCommit < 2 ^ 63) :
    Small (n.advanceCommitTo newCommit) :=
  ⟨hn.nonempty, hn.last, hnew⟩

theorem Small.maybeAdvanceCommit (hn : Small n) : Small n.maybeAdvanceCommit := by
  have hlast := hn.last
  unfold Node.maybeAdvanceCommit
  rcases n.advanceCommitFrom_cases n.lastLogIndex with heq | ⟨idx, -, -, hle, -, -, -, heq⟩
  · rw [heq]
    exact hn
  · rw [heq]
    exact ⟨hn.nonempty, hlast, hle.trans_lt hlast⟩

theorem Small.learnCommit (hn : Small n) (leaderCommit : ℕ) :
    Small (n.learnCommit leaderCommit) := by
  have hlast := hn.last
  unfold Node.learnCommit
  split
  · refine hn.advanceCommitTo ?_
    split
    · exact hlast
    · omega
  · exact hn

theorem Small.recordMatch (hn : Small n) (peer : NodeId) (newMatch : ℕ) :
    Small (n.recordMatch peer newMatch) :=
  hn.congr (n.recordMatch_holding peer newMatch)

section

variable [PersistentState σ]

/-- The append loop ends where the log ended or where the request does. -/
theorem lastLogIndex_appendNew_le {idx bound : ℕ} {entries : List LogEntry} (hidx : 1 ≤ idx)
    (hlast : n.lastLogIndex ≤ bound) (hend : idx + entries.length ≤ bound + 1) :
    (n.appendNew idx entries).lastLogIndex ≤ bound := by
  induction entries generalizing n idx with
  | nil => exact hlast
  | cons entry rest ih =>
      rw [List.length_cons] at hend
      unfold Node.appendNew
      split
      · exact ih (by omega) hlast (by omega)
      · next hgt =>
          split
          · next hnone =>
              refine ih (by omega) ?_ (by omega)
              -- the log ends below `idx`
              have hshort := Node.end_le_of_logPos hnone (by omega)
              simp only [Node.lastLogIndex, List.length_append, List.length_singleton]
              omega
          · next pos hpos =>
              have hval := Node.logPos_val hpos
              split
              · refine ih (by omega) ?_ (by omega)
                simp only [Node.lastLogIndex, List.length_append, List.length_singleton,
                  List.length_take]
                omega
              · exact ih (by omega) hlast (by omega)

theorem Small.appendNew (hn : Small n) {idx : ℕ} {entries : List LogEntry} (hidx : 1 ≤ idx)
    (hend : idx + entries.length ≤ 2 ^ 63) : Small (n.appendNew idx entries) := by
  have hlast := hn.last
  refine ⟨?_, ?_, ?_⟩
  · exact (Node.appendNew_draws (K := Set.univ) hn.nonempty idx fun e _ => Set.mem_univ e).1
  · have hle : (n.appendNew idx entries).lastLogIndex ≤ 2 ^ 63 - 1 :=
      lastLogIndex_appendNew_le hidx (by omega) (by omega)
    omega
  · obtain ⟨log, storage, heq⟩ := n.appendNew_frame idx entries
    rw [heq]
    exact hn.commit

theorem Small.acceptEntries (hn : Small n) {req : AppendEntriesRequest}
    (hreq : req.prevLogIndex + req.entries.length < 2 ^ 63) : Small (n.acceptEntries req) := by
  have happend : Small (n.appendNew (req.prevLogIndex + 1) req.entries) :=
    hn.appendNew (by omega) (by omega)
  exact (happend.congr (Node.persistRequest_holding _ _)).learnCommit _

theorem Small.appendOwn (hn : Small n) (hroom : n.lastLogIndex + 1 < 2 ^ 63) (entry : LogEntry) :
    Small (n.appendOwn entry) := by
  have hlen := List.length_pos_of_ne_nil hn.nonempty
  refine ⟨by simp [Node.appendOwn, Node.persistEntries], ?_, hn.commit⟩
  unfold Node.lastLogIndex at hroom
  simp only [Node.appendOwn, Node.persistEntries, Node.lastLogIndex, List.length_append,
    List.length_singleton]
  omega

theorem acceptEntries_eq (hn : Small n) {req : AppendEntriesRequest}
    (hreq : req.prevLogIndex + req.entries.length < 2 ^ 63) :
    acceptEntries n req = .ok (n.acceptEntries req) := by
  have happend : Small (n.appendNew (req.prevLogIndex + 1) req.entries) :=
    hn.appendNew (by omega) (by omega)
  unfold acceptEntries Node.acceptEntries
  rw [wrap64_of_lt (by omega), appendNew_eq (by omega)]
  exact learnCommit_eq (happend.congr (Node.persistRequest_holding _ _)) _

theorem handleAppendEntries_eq (hn : Small n) {req : AppendEntriesRequest}
    (hreq : req.prevLogIndex + req.entries.length < 2 ^ 63) :
    handleAppendEntries n req = .ok (n.handleAppendEntries req) := by
  have hm : Small (n.followLeader req.term req.leaderId) :=
    hn.congr (n.followLeader_holding _ _)
  unfold handleAppendEntries Node.handleAppendEntries
  generalize n.followLeader req.term req.leaderId = m at hm ⊢
  split
  · rfl
  · unfold checkAndAccept Node.checkAndAccept
    rw [conflict_eq hm, acceptEntries_eq hm hreq]
    cases m.conflict req.prevLogIndex req.prevLogTerm with
    | some found => rfl
    | none =>
        simp only [bind, Except.bind]
        rw [lastLogIndex_eq (hm.acceptEntries hreq)]
        rfl

theorem propose_eq (hn : Small n) (hroom : n.lastLogIndex + 1 < 2 ^ 63) (data : Bytes) :
    propose n data = .ok (n.propose data) := by
  unfold propose Node.propose
  by_cases hrole : n.role ≠ .leader
  · rw [if_pos hrole, if_pos hrole]
    rfl
  · rw [if_neg hrole, if_neg hrole]
    simp only [lastLogIndex_eq hn, wrap64_of_lt (by omega : n.lastLogIndex + 1 < 2 ^ 64)]
    rw [maybeAdvanceCommit_eq (hn.appendOwn hroom _)]
    rfl

theorem handleAppendReply_eq (hn : Small n) {req : AppendEntriesRequest}
    (hreq : req.prevLogIndex + req.entries.length < 2 ^ 63) (peer : NodeId)
    (resp : AppendEntriesResponse) :
    handleAppendReply n peer req resp = .ok (n.handleAppendReply peer req resp) := by
  unfold handleAppendReply Node.handleAppendReply
  rw [wrap64_of_lt (by omega), recordMatch_eq hreq,
    maybeAdvanceCommit_eq (hn.recordMatch peer _), backUp_eq hn]
  split
  · rfl
  · split
    · rfl
    · split
      · rfl
      · rfl

theorem handleSnapshotReply_eq {t : SnapshotTransfer} (ht : t.lastIncludedIndex < 2 ^ 63)
    (peer : NodeId) (resp : InstallSnapshotResponse) :
    handleSnapshotReply n peer t resp = n.handleSnapshotReply peer t resp := by
  unfold handleSnapshotReply Node.handleSnapshotReply
  rw [recordMatch_eq ht]

end

end RaftKV.Raft.Machine
