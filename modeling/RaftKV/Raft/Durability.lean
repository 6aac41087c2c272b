import RaftKV.Raft.Replication

/-!
# The log on disk

`Start` rebuilds the log from the saved snapshot's index and term and the entries
in storage.  `Node.Durable` says that this gives the log the node has in memory.

Two handlers write more to storage, or cut less from it, than they do in memory.
`HandleAppendEntries` persists every entry of the request, also those its loop has
skipped, and `HandleInstallSnapshot` discards the log but removes only the front
of what is stored.  In both cases the difference shows only under a condition on
the request (`Section.InStep`); under it every critical section keeps memory and
disk in step (`Durable.run`), without it a retransmitted request is enough to
double an entry (`restart_duplicates_entry`).
-/

namespace RaftKV.Raft

/-! ## Consecutive entries -/

/-- The entries are indexed one by one from `b`. -/
def Consecutive : ℕ → List LogEntry → Prop
  | _, [] => True
  | b, e :: rest => e.index = b ∧ Consecutive (b + 1) rest

instance Consecutive.decide : ∀ (b : ℕ) (es : List LogEntry), Decidable (Consecutive b es)
  | _, [] => inferInstanceAs (Decidable True)
  | b, e :: rest =>
      have := Consecutive.decide (b + 1) rest
      inferInstanceAs (Decidable (e.index = b ∧ Consecutive (b + 1) rest))

namespace Consecutive

variable {b : ℕ} {es es' : List LogEntry}

theorem append (h : Consecutive b es) (h' : Consecutive (b + es.length) es') :
    Consecutive b (es ++ es') := by
  induction es generalizing b with
  | nil => simpa using h'
  | cons e rest ih =>
      refine ⟨h.1, ih h.2 ?_⟩
      rw [List.length_cons] at h'
      rwa [Nat.add_assoc, Nat.add_comm 1]

theorem take (h : Consecutive b es) (m : ℕ) : Consecutive b (es.take m) := by
  induction es generalizing b m with
  | nil => simp [Consecutive]
  | cons e rest ih =>
      cases m with
      | zero => trivial
      | succ m => exact ⟨h.1, ih h.2 m⟩

theorem drop (h : Consecutive b es) (m : ℕ) : Consecutive (b + m) (es.drop m) := by
  induction es generalizing b m with
  | nil => simp [Consecutive]
  | cons e rest ih =>
      cases m with
      | zero => exact h
      | succ m =>
          rw [List.drop_succ_cons, Nat.add_comm m, ← Nat.add_assoc]
          exact ih h.2 m

theorem index_eq (h : Consecutive b es) {k : ℕ} {e : LogEntry} (he : es[k]? = some e) :
    e.index = b + k := by
  induction es generalizing b k with
  | nil => simp at he
  | cons first rest ih =>
      cases k with
      | zero =>
          rw [List.getElem?_cons_zero, Option.some.injEq] at he
          exact he ▸ h.1
      | succ k =>
          rw [List.getElem?_cons_succ] at he
          have := ih h.2 he
          omega

theorem of_index_eq (h : ∀ (k : ℕ) (e : LogEntry), es[k]? = some e → e.index = b + k) :
    Consecutive b es := by
  induction es generalizing b with
  | nil => trivial
  | cons e rest ih =>
      refine ⟨h 0 e rfl, ih fun k e' he' => ?_⟩
      have := h (k + 1) e' he'
      omega

/-- What `TruncateSuffix` leaves. -/
theorem filter_le (h : Consecutive b es) (m : ℕ) :
    es.filter (fun e => e.index ≤ m) = es.take (m + 1 - b) := by
  induction es generalizing b with
  | nil => simp
  | cons e rest ih =>
      rw [List.filter_cons, h.1, ih h.2]
      split
      · next hle =>
          have hle : b ≤ m := of_decide_eq_true hle
          obtain ⟨k, rfl⟩ : ∃ k, m = b + k := ⟨m - b, by omega⟩
          have hsub : b + k + 1 - b = k + 1 := by omega
          rw [hsub, List.take_succ_cons]
          congr 2
          omega
      · next hgt =>
          have hgt : ¬ b ≤ m := fun hle => hgt (decide_eq_true hle)
          have hzero : m + 1 - b = 0 := by omega
          have hzero' : m + 1 - (b + 1) = 0 := by omega
          rw [hzero, hzero', List.take_zero, List.take_zero]

/-- `TruncatePrefix` drops what lies at or below an index. -/
theorem filter_gt (h : Consecutive b es) (m : ℕ) :
    es.filter (fun e => m < e.index) = es.drop (m + 1 - b) := by
  induction es generalizing b with
  | nil => simp
  | cons e rest ih =>
      rw [List.filter_cons, h.1, ih h.2]
      split
      · next hlt =>
          have hlt : m < b := of_decide_eq_true hlt
          have hzero : m + 1 - b = 0 := by omega
          have hzero' : m + 1 - (b + 1) = 0 := by omega
          rw [hzero, hzero', List.drop_zero, List.drop_zero]
      · next hge =>
          have hge : ¬ m < b := fun hlt => hge (decide_eq_true hlt)
          obtain ⟨k, rfl⟩ : ∃ k, m = b + k := ⟨m - b, by omega⟩
          have hsub : b + k + 1 - b = k + 1 := by omega
          rw [hsub, List.drop_succ_cons]
          congr 1
          omega

end Consecutive

variable {σ : Type} [PersistentState σ]

/-! ## Memory and disk -/

/-- The log in memory is the one that `Start` would rebuild, up to the data of the
baseline entry. -/
structure Node.Durable (n : Node σ) : Prop where
  consecutive : Consecutive n.lastIncludedIndex n.log
  entries : ∃ first es, n.log = first :: es ∧ first.term = n.lastIncludedTerm ∧
    loadEntries n.storage = .ok es
  baseline : loadSnapshotMeta n.storage = .ok (n.lastIncludedIndex, n.lastIncludedTerm)
  zero : n.lastIncludedIndex = 0 → n.lastIncludedTerm = 0

/-- Everything `Durable` reads. -/
def Node.logState (n : Node σ) :
    (ℕ × ℕ × List LogEntry) × Except String (List LogEntry) × Except String (ℕ × ℕ) :=
  ((n.lastIncludedIndex, n.lastIncludedTerm, n.log), loadEntries n.storage,
    loadSnapshotMeta n.storage)

theorem Node.Durable.congr {n n' : Node σ} (h : n.Durable) (heq : n'.logState = n.logState) :
    n'.Durable := by
  simp only [Node.logState, Prod.mk.injEq] at heq
  obtain ⟨⟨hbase, hterm, hlog⟩, hentries, hmeta⟩ := heq
  refine ⟨?_, ?_, ?_, ?_⟩
  · rw [hbase, hlog]
    exact h.consecutive
  · rw [hlog, hterm, hentries]
    exact h.entries
  · rw [hmeta, hbase, hterm]
    exact h.baseline
  · rw [hbase, hterm]
    exact h.zero

namespace Node

omit [PersistentState σ] in
/-- The log of a durable node starts with its baseline entry. -/
theorem lastLogIndex_cons {n : Node σ} {first : LogEntry} {es : List LogEntry}
    (hlog : n.log = first :: es) : n.lastLogIndex = n.lastIncludedIndex + es.length := by
  unfold lastLogIndex
  rw [hlog, List.length_cons]
  omega

/-! ### What touches neither -/

theorem maybeAdvanceCommit_logState (n : Node σ) : n.maybeAdvanceCommit.logState = n.logState :=
  maybeAdvanceCommit_frame logState (fun _ _ => rfl) n

theorem recordMatch_logState (n : Node σ) (peer : NodeId) (newMatch : ℕ) :
    (n.recordMatch peer newMatch).logState = n.logState := by
  unfold recordMatch
  split
  · rfl
  · rfl

theorem learnCommit_logState (n : Node σ) (leaderCommit : ℕ) :
    (n.learnCommit leaderCommit).logState = n.logState := by
  unfold learnCommit
  split
  · rfl
  · rfl

variable [SeparateHardState σ]

theorem persistHardState_logState (n : Node σ) : n.persistHardState.logState = n.logState := by
  unfold logState persistHardState
  rw [SeparateHardState.entries_save, SeparateHardState.base_save]

theorem becomeFollower_logState (n : Node σ) (term : ℕ) :
    (n.becomeFollower term).logState = n.logState := by
  unfold becomeFollower
  split
  · rw [persistHardState_logState]
    rfl
  · rfl

theorem observeTerm_logState (n : Node σ) (term : ℕ) :
    (n.observeTerm term).logState = n.logState := by
  unfold observeTerm
  split
  · exact becomeFollower_logState n term
  · rfl

theorem followLeader_logState (n : Node σ) (term : ℕ) (leaderId : NodeId) :
    (n.followLeader term leaderId).logState = n.logState := by
  unfold followLeader
  split
  · exact becomeFollower_logState n term
  · rfl

theorem electionTimeout_logState (n : Node σ) : n.electionTimeout.2.logState = n.logState := by
  have hcampaign : n.campaign.logState = n.logState := by
    unfold campaign
    rw [persistHardState_logState]
    rfl
  unfold electionTimeout
  split
  · unfold startElection
    split
    · exact hcampaign
    · exact hcampaign
  · rfl

theorem handleVoteReply_logState (n : Node σ) (req : RequestVoteRequest)
    (resp : RequestVoteResponse) : (n.handleVoteReply req resp).logState = n.logState := by
  unfold handleVoteReply
  split
  · exact becomeFollower_logState n _
  split
  · unfold countVote
    split
    · rfl
    · rfl
  · rfl

theorem handleRequestVote_logState (n : Node σ) (req : RequestVoteRequest) :
    (n.handleRequestVote req).2.logState = n.logState := by
  have hobserve := n.observeTerm_logState req.term
  unfold handleRequestVote
  split
  · rfl
  unfold decideVote
  split
  · exact hobserve
  split
  · exact hobserve
  · unfold grantVote
    rw [persistHardState_logState]
    exact hobserve

theorem handleAppendReply_logState (n : Node σ) (peer : NodeId) (req : AppendEntriesRequest)
    (resp : AppendEntriesResponse) : (n.handleAppendReply peer req resp).logState = n.logState := by
  unfold handleAppendReply
  split
  · exact becomeFollower_logState n _
  split
  · rfl
  split
  · rw [maybeAdvanceCommit_logState, recordMatch_logState]
  · rfl

theorem handleSnapshotReply_logState (n : Node σ) (peer : NodeId) (t : SnapshotTransfer)
    (resp : InstallSnapshotResponse) :
    (n.handleSnapshotReply peer t resp).2.logState = n.logState := by
  unfold handleSnapshotReply
  split
  · exact becomeFollower_logState n _
  split
  · rfl
  split
  · rfl
  split
  · exact recordMatch_logState n _ _
  · rfl

omit [SeparateHardState σ] in
/-- Following a leader touches the log neither in memory nor on disk. -/
theorem followLeader_frame (n : Node σ) (term : ℕ) (leaderId : NodeId) :
    ∃ currentTerm votedFor storage, n.followLeader term leaderId = { n with
      currentTerm := currentTerm
      votedFor := votedFor
      role := .follower
      leaderID := leaderId
      storage := storage } := by
  unfold followLeader becomeFollower
  split
  · exact ⟨_, _, _, rfl⟩
  · exact ⟨_, _, _, rfl⟩

omit [SeparateHardState σ] in
theorem followLeader_currentTerm (n : Node σ) {term : ℕ} (h : ¬ term < n.currentTerm)
    (leaderId : NodeId) : (n.followLeader term leaderId).currentTerm = term := by
  unfold followLeader
  split
  · next hlt =>
      unfold becomeFollower
      rw [if_pos hlt]
      rfl
  · next hle => exact le_antisymm (not_lt.mp h) (not_lt.mp hle)

omit [SeparateHardState σ] in
theorem followLeader_base (n : Node σ) (term : ℕ) (leaderId : NodeId) :
    (n.followLeader term leaderId).lastIncludedIndex = n.lastIncludedIndex := by
  obtain ⟨_, _, _, heq⟩ := n.followLeader_frame term leaderId
  rw [heq]

omit [SeparateHardState σ] in
/-- From the end of its log on, a node appends everything. -/
theorem appendNew_beyond {n : Node σ} (hne : n.log ≠ []) {idx : ℕ}
    (hidx : idx = n.lastIncludedIndex + n.log.length) (es : List LogEntry) :
    n.appendNew idx es = { n with log := n.log ++ es } := by
  induction es generalizing n idx with
  | nil => simp [appendNew]
  | cons entry rest ih =>
      have hpos : n.logPos idx = none := by
        unfold logPos
        rw [if_neg (by omega), dif_neg (by omega)]
      have hlen := List.length_pos_of_ne_nil hne
      rw [appendNew, if_neg (by omega), hpos]
      simp only
      rw [ih (n := { n with log := n.log ++ [entry] }) (by simp) (by simp; omega)]
      simp

end Node

/-! ## Appending -/

omit [PersistentState σ] in
/-- What passes the consistency check. -/
theorem Node.conflict_eq_none_iff {n : Node σ} {prevLogIndex prevLogTerm : ℕ} :
    n.conflict prevLogIndex prevLogTerm = none ↔ (0 < prevLogIndex →
      prevLogIndex ≤ n.lastLogIndex ∧
        ∀ pos ∈ n.logPos prevLogIndex, (n.log.get pos).term = prevLogTerm) := by
  unfold Node.conflict
  split
  · next hpos =>
      split
      · next hlong => simp [hpos, hlong]
      · next hle =>
          cases hfound : n.logPos prevLogIndex with
          | none => simp [not_lt.mp hle]
          | some pos => simp [hpos, not_lt.mp hle]
  · next hzero => simp [hzero]

/-- Following a leader does not matter for the check. -/
theorem Node.followLeader_conflict (n : Node σ) (term : ℕ) (leaderId : NodeId)
    (prevLogIndex prevLogTerm : ℕ) :
    (n.followLeader term leaderId).conflict prevLogIndex prevLogTerm = none ↔
      n.conflict prevLogIndex prevLogTerm = none := by
  obtain ⟨_, _, _, heq⟩ := n.followLeader_frame term leaderId
  rw [heq, Node.conflict_eq_none_iff, Node.conflict_eq_none_iff]
  rfl

omit [PersistentState σ] in
/-- The storage calls by which a handler moves to the term of a request. -/
def Node.termCalls (n : Node σ) (term : ℕ) : ℕ :=
  if term > n.currentTerm then 1 else 0

omit [PersistentState σ] in
/-- The request is not stale and passes the consistency check, so that it is answered
`Success`. -/
def Node.Admits (n : Node σ) (req : AppendEntriesRequest) : Prop :=
  n.currentTerm ≤ req.term ∧ n.conflict req.prevLogIndex req.prevLogTerm = none

omit [PersistentState σ] in
instance (n : Node σ) (req : AppendEntriesRequest) : Decidable (n.Admits req) :=
  inferInstanceAs (Decidable (_ ∧ _))

omit [PersistentState σ] in
/-- The loop takes the request from its first entry on: that entry lies above the
baseline, and the log does not hold it yet. -/
def Node.TakesWhole (n : Node σ) (req : AppendEntriesRequest) : Prop :=
  ∀ entry ∈ req.entries.head?, n.lastIncludedIndex < req.prevLogIndex + 1 ∧
    ∀ pos ∈ n.logPos (req.prevLogIndex + 1), (n.log.get pos).term ≠ entry.term

omit [PersistentState σ] in
instance (n : Node σ) (req : AppendEntriesRequest) : Decidable (n.TakesWhole req) :=
  inferInstanceAs (Decidable (∀ entry ∈ req.entries.head?, _ ∧ ∀ pos ∈ n.logPos _, _))

namespace Node.Durable

variable [LawfulLog σ] {n : Node σ}

/-- Entries that continue the log, written to memory and disk alike. -/
theorem grow (h : n.Durable) {es : List LogEntry}
    (hes : Consecutive (n.lastIncludedIndex + n.log.length) es) :
    (Node.persistEntries { n with log := n.log ++ es } es).Durable := by
  obtain ⟨first, old, hlog, hterm, hload⟩ := h.entries
  refine ⟨h.consecutive.append hes, ⟨first, old ++ es, ?_, hterm, ?_⟩, ?_, h.zero⟩
  · change n.log ++ es = first :: (old ++ es)
    rw [hlog, List.cons_append]
  · change loadEntries (appendEntries es n.storage).2 = .ok (old ++ es)
    rw [LawfulLog.entries_appendEntries, hload]
    rfl
  · exact (LawfulLog.base_appendEntries es n.storage).trans h.baseline

/-- A conflict at position `pos` cuts memory and disk at the same entry. -/
theorem cut (h : n.Durable) {idx : ℕ} {pos : Fin n.log.length} (hpos : n.logPos idx = some pos)
    (habove : n.lastIncludedIndex < idx) :
    Node.Durable { n with
      log := n.log.take pos
      storage := (truncateSuffix (idx - 1) n.storage).2 } ∧
      idx = n.lastIncludedIndex + (n.log.take pos).length := by
  obtain ⟨first, old, hlog, hterm, hload⟩ := h.entries
  have hval := (Node.logPos_bounds hpos).2.2
  obtain ⟨k, hk⟩ : ∃ k, (pos : ℕ) = k + 1 := ⟨pos - 1, by omega⟩
  have hold : Consecutive (n.lastIncludedIndex + 1) old := by
    have := h.consecutive
    rw [hlog] at this
    exact this.2
  refine ⟨⟨h.consecutive.take pos, ⟨first, old.take k, ?_, hterm, ?_⟩, ?_, h.zero⟩, ?_⟩
  · change n.log.take pos = first :: old.take k
    rw [hk, hlog, List.take_succ_cons]
  · change loadEntries (truncateSuffix (idx - 1) n.storage).2 = .ok (old.take k)
    rw [LawfulLog.entries_truncateSuffix, hload]
    change Except.ok (old.filter _) = _
    rw [hold.filter_le]
    congr 2
    omega
  · exact (LawfulLog.base_truncateSuffix _ n.storage).trans h.baseline
  · rw [List.length_take, Nat.min_eq_left pos.isLt.le]
    omega

/-- The part of `HandleAppendEntries` behind the consistency check. -/
theorem acceptEntries (h : n.Durable) {req : AppendEntriesRequest}
    (hshape : Consecutive (req.prevLogIndex + 1) req.entries)
    (hcheck : n.conflict req.prevLogIndex req.prevLogTerm = none) (hwhole : n.TakesWhole req) :
    (n.acceptEntries req).Durable := by
  suffices hmain : ((n.appendNew (req.prevLogIndex + 1) req.entries).persistRequest
      req.entries).Durable from hmain.congr (Node.learnCommit_logState _ _)
  obtain ⟨first, old, hlog, -⟩ := h.entries
  have hlast := Node.lastLogIndex_cons hlog
  cases hes : req.entries with
  | nil =>
      unfold Node.persistRequest
      rw [if_neg (by simp)]
      exact h
  | cons entry rest =>
      obtain ⟨habove, hnew⟩ := hwhole entry (by rw [hes]; rfl)
      rw [hes] at hshape
      unfold Node.persistRequest
      rw [if_pos (by simp)]
      cases hpos : n.logPos (req.prevLogIndex + 1) with
      | none =>
          -- the request continues the log
          have hidx : req.prevLogIndex + 1 = n.lastIncludedIndex + n.log.length := by
            have hle := Node.le_lastLogIndex_of_conflict hcheck
            have hend := Node.end_le_of_logPos hpos habove.le
            have hlast : n.lastLogIndex + 1 = n.lastIncludedIndex + n.log.length :=
              Node.lastLogIndex_succ (by simp [hlog])
            omega
          rw [Node.appendNew_beyond (by simp [hlog]) hidx]
          exact h.grow (hidx ▸ hshape)
      | some pos =>
          -- the request conflicts at its first entry
          have hne := hnew pos hpos
          obtain ⟨hcut, hidx⟩ := h.cut hpos habove
          have hloop : n.appendNew (req.prevLogIndex + 1) (entry :: rest) = { n with
              log := n.log.take pos ++ entry :: rest
              storage := (truncateSuffix req.prevLogIndex n.storage).2 } := by
            rw [Node.appendNew, if_neg (by omega), hpos]
            simp only
            rw [if_pos hne, Node.appendNew_beyond (by simp) (by
              change req.prevLogIndex + 1 + 1 =
                n.lastIncludedIndex + (n.log.take pos ++ [entry]).length
              rw [List.length_append, List.length_singleton]
              omega)]
            simp
          rw [hloop]
          exact hcut.grow (hidx ▸ hshape)

theorem handleAppendEntries (h : n.Durable) {req : AppendEntriesRequest}
    (hshape : Consecutive (req.prevLogIndex + 1) req.entries)
    (hwhole : n.Admits req → n.TakesWhole req) : (n.handleAppendEntries req).2.Durable := by
  have hfollow := h.congr (n.followLeader_logState req.term req.leaderId)
  have hsame := n.followLeader_conflict req.term req.leaderId req.prevLogIndex req.prevLogTerm
  -- following a leader leaves the log alone, which is all that `TakesWhole` reads
  obtain ⟨term, vote, storage, heq⟩ := n.followLeader_frame req.term req.leaderId
  unfold Node.handleAppendEntries
  rw [heq] at hfollow hsame ⊢
  split
  · exact h
  next hfresh =>
  unfold Node.checkAndAccept
  split
  · exact hfollow
  · next hcheck =>
      have hwhole := hwhole ⟨not_lt.mp hfresh, hsame.mp hcheck⟩
      exact hfollow.acceptEntries hshape hcheck hwhole

theorem propose (h : n.Durable) (data : Bytes) : (n.propose data).2.Durable := by
  unfold Node.propose
  split
  · exact h
  · refine Durable.congr ?_ (Node.maybeAdvanceCommit_logState _)
    obtain ⟨first, old, hlog, -⟩ := h.entries
    refine h.grow ⟨?_, trivial⟩
    change n.lastLogIndex + 1 = n.lastIncludedIndex + n.log.length
    rw [Node.lastLogIndex_cons hlog, hlog, List.length_cons]
    omega

/-! ## Snapshots -/

/-- A snapshot has been saved and the storage cut: the log starts again at its
index, with whatever entries lie above it. -/
theorem rebase (h : n.Durable) (data : Bytes) (index term : ℕ) {log : List LogEntry}
    (hnew : n.lastIncludedIndex < index)
    (hlog : ∃ first, log = first :: n.log.drop (index + 1 - n.lastIncludedIndex) ∧
      first.index = index ∧ first.term = term) {n' : Node σ}
    (hstate : n'.logState = ((index, term, log),
      loadEntries ( truncatePrefix index (saveSnapshot data index term n.storage).2).2,
      loadSnapshotMeta ( truncatePrefix index (saveSnapshot data index term n.storage).2).2)) :
    n'.Durable := by
  obtain ⟨first, old, hold, -, hload⟩ := h.entries
  obtain ⟨first', rfl, hindex, hterm⟩ := hlog
  simp only [Node.logState, Prod.mk.injEq] at hstate
  obtain ⟨⟨hbase', hterm', hlog'⟩, hentries', hmeta'⟩ := hstate
  have hsub : index + 1 - n.lastIncludedIndex = index - n.lastIncludedIndex + 1 := by omega
  have hrest : n.log.drop (index + 1 - n.lastIncludedIndex) =
      old.drop (index - n.lastIncludedIndex) := by
    rw [hold, hsub, List.drop_succ_cons]
  have hconsecutive : Consecutive (n.lastIncludedIndex + 1) old := by
    have := h.consecutive
    rw [hold] at this
    exact this.2
  rw [hrest] at hlog'
  refine ⟨?_, ⟨first', _, hlog', hterm.trans hterm'.symm, ?_⟩, ?_, ?_⟩
  · rw [hbase', hlog']
    refine ⟨hindex, ?_⟩
    have hdrop := hconsecutive.drop (index - n.lastIncludedIndex)
    have heq : n.lastIncludedIndex + 1 + (index - n.lastIncludedIndex) = index + 1 := by omega
    rwa [heq] at hdrop
  · rw [hentries', LawfulLog.entries_truncatePrefix, LawfulLog.entries_saveSnapshot, hload]
    change Except.ok (old.filter _) = _
    rw [hconsecutive.filter_gt]
    congr 2
    omega
  · rw [hmeta', LawfulLog.base_truncatePrefix, LawfulLog.base_saveSnapshot, hbase', hterm']
  · omega

omit [LawfulLog σ] in
/-- The log that `CompactLog` leaves in memory. -/
theorem compacted (h : n.Durable) {index term : ℕ} (hnew : n.lastIncludedIndex < index)
    (hshape : ∀ e ∈ entryAt n.lastIncludedIndex n.log index, e.term = term) :
    ∃ first, n.compacted index term =
      first :: n.log.drop (index + 1 - n.lastIncludedIndex) ∧
      first.index = index ∧ first.term = term := by
  have hsub : index + 1 - n.lastIncludedIndex = index - n.lastIncludedIndex + 1 := by omega
  unfold Node.compacted Node.logPos
  rw [if_neg (by omega), hsub]
  by_cases hlt : index - n.lastIncludedIndex < n.log.length
  · -- the entry at the new baseline becomes the first one
    have hget := List.getElem?_eq_getElem hlt
    rw [dif_pos hlt]
    refine ⟨n.log[index - n.lastIncludedIndex], List.drop_eq_getElem_cons hlt, ?_, ?_⟩
    · have := h.consecutive.index_eq hget
      omega
    · refine hshape _ ?_
      unfold entryAt
      rw [if_neg (by omega), Option.mem_def, hget]
  · rw [dif_neg hlt, List.drop_eq_nil_of_le (by omega)]
    exact ⟨LogEntry.sentinel index term, rfl, rfl, rfl⟩

theorem compactLog (h : n.Durable) (data : Bytes) {index term : ℕ}
    (hshape : ∀ e ∈ entryAt n.lastIncludedIndex n.log index, e.term = term) :
    (n.compactLog data index term).2.Durable := by
  unfold Node.compactLog
  split
  · exact h
  next hnew =>
  split
  · exact h
  have hsave := LawfulLog.saveSnapshot_ok data index term n.storage
  split
  · next heq =>
      rw [heq] at hsave
      simp at hsave
  next storage heq =>
  have hcut := LawfulLog.truncatePrefix_ok index storage
  split
  · next heq' =>
      rw [heq'] at hcut
      simp at hcut
  next storage' heq' =>
  refine h.rebase data index term (not_le.mp hnew) (compacted h (not_le.mp hnew) hshape) ?_
  rw [heq]
  simp only
  rw [heq']
  rfl

theorem installSnapshot (h : n.Durable) {recv : SnapshotRecvState}
    (hnew : n.lastIncludedIndex < recv.lastIncludedIndex)
    (hshort : n.lastLogIndex ≤ recv.lastIncludedIndex) : (n.installSnapshot recv).2.Durable := by
  obtain ⟨first, old, hlog, -⟩ := h.entries
  rw [Node.lastLogIndex_cons hlog] at hshort
  have hsave := LawfulLog.saveSnapshot_ok recv.data recv.lastIncludedIndex recv.lastIncludedTerm
    n.storage
  unfold Node.installSnapshot
  split
  · next heq =>
      rw [heq] at hsave
      simp at hsave
  next storage heq =>
  have hsentinel : ∃ first : LogEntry,
      [LogEntry.sentinel recv.lastIncludedIndex recv.lastIncludedTerm] =
        first :: n.log.drop (recv.lastIncludedIndex + 1 - n.lastIncludedIndex) ∧
      first.index = recv.lastIncludedIndex ∧ first.term = recv.lastIncludedTerm := by
    refine ⟨LogEntry.sentinel recv.lastIncludedIndex recv.lastIncludedTerm, ?_, rfl, rfl⟩
    rw [hlog, List.drop_eq_nil_of_le (by rw [List.length_cons]; omega)]
  refine h.rebase recv.data recv.lastIncludedIndex recv.lastIncludedTerm hnew hsentinel ?_
  rw [heq]
  rfl

theorem handleInstallSnapshot (h : n.Durable) {req : InstallSnapshotRequest}
    (hinstall : n.Installs req → n.lastLogIndex ≤ req.lastIncludedIndex) :
    (n.handleInstallSnapshot req).2.Durable := by
  have hfollow := h.congr (n.followLeader_logState req.term req.leaderId)
  obtain ⟨term, vote, storage, heq⟩ := n.followLeader_frame req.term req.leaderId
  unfold Node.handleInstallSnapshot
  rw [heq] at hfollow ⊢
  split
  · exact h
  next hfresh =>
  unfold Node.takeChunk
  split
  · exact hfollow
  next hnew =>
  change ¬ req.lastIncludedIndex ≤ n.lastIncludedIndex at hnew
  unfold Node.receiveChunk
  split
  · exact hfollow.congr rfl
  next recv hrecv =>
  split
  · exact hfollow.congr rfl
  next hfits =>
  rw [not_or, not_not, not_not] at hfits
  split
  · next hdone =>
      refine hfollow.installSnapshot ?_ ?_
      · change n.lastIncludedIndex < recv.lastIncludedIndex
        omega
      · change n.lastLogIndex ≤ recv.lastIncludedIndex
        rw [hfits.1]
        exact hinstall ⟨not_lt.mp hfresh, not_le.mp hnew, hdone, recv, hrecv, hfits⟩
  · exact hfollow.congr rfl

end Node.Durable

/-! ## Runs of one node -/

omit [PersistentState σ] in
/-- The calls that occur: requests with consecutive entries, as `replicateToPeer`
builds them, and compaction under the term of the entry at its index. -/
def Section.Shaped (n : Node σ) : Section → Prop
  | .appendEntries req => Consecutive (req.prevLogIndex + 1) req.entries
  | .compactLog _ index term =>
      ∀ e ∈ entryAt n.lastIncludedIndex n.log index, e.term = term
  | _ => True

omit [PersistentState σ] in
/-- The call writes to storage what it writes to the log: an accepted request is
taken from its first entry on, and an installed snapshot covers the log. -/
def Section.InStep (n : Node σ) : Section → Prop
  | .appendEntries req => n.Admits req → n.TakesWhole req
  | .installSnapshot req => n.Installs req → n.lastLogIndex ≤ req.lastIncludedIndex
  | _ => True

omit [PersistentState σ] in
instance (n : Node σ) : ∀ call, Decidable (Section.Shaped n call)
  | .appendEntries _ => inferInstanceAs (Decidable (Consecutive _ _))
  | .compactLog _ index _ =>
      inferInstanceAs (Decidable (∀ e ∈ entryAt n.lastIncludedIndex n.log index, _))
  | .electionTimeout | .voteReply .. | .requestVote _ | .installSnapshot _ | .propose _
  | .appendReply .. | .snapshotReply .. => inferInstanceAs (Decidable True)

omit [PersistentState σ] in
instance (n : Node σ) : ∀ call, Decidable (Section.InStep n call)
  | .appendEntries req => inferInstanceAs (Decidable (n.Admits req → n.TakesWhole req))
  | .installSnapshot req =>
      inferInstanceAs (Decidable (n.Installs req → n.lastLogIndex ≤ req.lastIncludedIndex))
  | .electionTimeout | .voteReply .. | .requestVote _ | .compactLog .. | .propose _
  | .appendReply .. | .snapshotReply .. => inferInstanceAs (Decidable True)

/-- Every critical section keeps memory and disk in step. -/
theorem Node.Durable.run [LawfulLog σ] {n : Node σ} (h : n.Durable) {call : Section}
    (hshape : call.Shaped n) (hstep : call.InStep n) : (call.run n).Durable := by
  cases call with
  | electionTimeout => exact h.congr n.electionTimeout_logState
  | voteReply req resp => exact h.congr (n.handleVoteReply_logState req resp)
  | requestVote req => exact h.congr (n.handleRequestVote_logState req)
  | appendEntries req => exact h.handleAppendEntries hshape hstep
  | installSnapshot req => exact h.handleInstallSnapshot hstep
  | compactLog data index term => exact h.compactLog data hshape
  | propose data => exact h.propose data
  | appendReply peer req resp => exact h.congr (n.handleAppendReply_logState peer req resp)
  | snapshotReply peer t resp => exact h.congr (n.handleSnapshotReply_logState peer t resp)

omit [PersistentState σ] in
/-- Two nodes have the same baseline and the same entries above it, and the same
index and term in front of them. -/
def Node.SameLog (m n : Node σ) : Prop :=
  m.lastIncludedIndex = n.lastIncludedIndex ∧ m.lastIncludedTerm = n.lastIncludedTerm ∧
    m.log.tail = n.log.tail ∧
    m.log.head?.map (fun e => (e.index, e.term)) = n.log.head?.map fun e => (e.index, e.term)

instance (m n : Node σ) : Decidable (m.SameLog n) :=
  inferInstanceAs (Decidable (_ ∧ _ ∧ _ ∧ _))

/-- `Start` on the storage of a durable node. -/
theorem Node.Durable.start {n : Node σ} (h : n.Durable) (hhard : n.Backed Synced) :
    ∃ m, (Node.newNode n.cfg n.storage).start = .ok m ∧ m.SameLog n := by
  obtain ⟨first, es, hlog, hterm, hload⟩ := h.entries
  have hindex : first.index = n.lastIncludedIndex := by
    have := h.consecutive
    rw [hlog] at this
    exact this.1
  refine ⟨_, Node.start_eq h.baseline hhard hload, ?_⟩
  unfold Node.SameLog Node.recover Node.seed
  rw [hlog]
  split
  · exact ⟨rfl, rfl, rfl, by simp [LogEntry.sentinel, hindex, hterm]⟩
  · next hzero =>
      have hzero : n.lastIncludedIndex = 0 := by omega
      rw [hzero, h.zero hzero]
      refine ⟨rfl, rfl, rfl, ?_⟩
      simp [Node.newNode, LogEntry.sentinel, hindex, hterm, hzero, h.zero hzero]

/-- **Restart rebuilds the log.**  In every run of a node whose calls all write the
same to storage as to the log, `Start` on the storage succeeds and rebuilds the
baseline and the log of the node. -/
theorem restart_rebuilds_log [LawfulHardState σ] [LawfulLog σ] (cfg : Config) (n : Node σ)
    (h : Reaches Section.run
      (fun n call => Section.Shaped n call ∧ Section.InStep n call)
      (Node.newNode cfg PersistentState.fresh) n) :
    ∃ m, (Node.newNode n.cfg n.storage).start = .ok m ∧ m.SameLog n := by
  have hinv : n.Durable ∧ n.Backed Synced := by
    refine Reaches.invariant (P := fun n => n.Durable ∧ n.Backed Synced) h ⟨?_, ?_⟩ ?_
    · exact ⟨⟨rfl, trivial⟩, ⟨_, [], rfl, rfl, LawfulLog.entries_fresh⟩, LawfulLog.base_fresh,
        fun _ => rfl⟩
    · exact LawfulHardState.load_fresh
    · rintro n call ⟨hdurable, hsynced⟩ ⟨hshape, hstep⟩
      exact ⟨hdurable.run hshape hstep, Section.backed persists_synced hsynced call⟩
  exact hinv.1.start hinv.2

/-- A follower takes two entries, compacts the first of them, and has the second
replaced by the leader of term 2. -/
def replacedEntry : List Section :=
  [.appendEntries ⟨1, "b", 0, 0, [⟨1, 1, [7]⟩, ⟨2, 1, [8]⟩], 1⟩, .compactLog [1] 1 1,
    .appendEntries ⟨2, "c", 1, 1, [⟨2, 2, [9]⟩], 1⟩]

def replacedEntryEnd : Node MemState :=
  replacedEntry.foldl Section.run
    (Node.newNode (Members.trio.config "a") PersistentState.fresh)

theorem restart_rebuilds_log_replacedEntry :
    ∃ m, (Node.newNode replacedEntryEnd.cfg replacedEntryEnd.storage).start = .ok m ∧
      m.SameLog replacedEntryEnd :=
  restart_rebuilds_log (Members.trio.config "a") replacedEntryEnd (.foldl .refl _ (by decide))

/-- The same request delivered twice. -/
def retransmitted : List Section :=
  [.appendEntries ⟨1, "b", 0, 0, [⟨1, 1, [7]⟩], 0⟩, .appendEntries ⟨1, "b", 0, 0, [⟨1, 1, [7]⟩], 0⟩]

def retransmittedEnd : Node MemState :=
  retransmitted.foldl Section.run
    (Node.newNode (Members.trio.config "a") PersistentState.fresh)

/-- After a retransmission the log holds one entry, and the log that `Start`
rebuilds holds it twice. -/
theorem restart_duplicates_entry :
    Reaches Section.run Section.Shaped
      (Node.newNode (Members.trio.config "a") PersistentState.fresh) retransmittedEnd ∧
    retransmittedEnd.log = [LogEntry.sentinel 0 0, ⟨1, 1, [7]⟩] ∧
    ∃ m, (Node.newNode retransmittedEnd.cfg retransmittedEnd.storage).start = .ok m ∧
      m.log = [LogEntry.sentinel 0 0, ⟨1, 1, [7]⟩, ⟨1, 1, [7]⟩] ∧ ¬ m.SameLog retransmittedEnd :=
  ⟨.foldl .refl _ (by decide), by decide, _, rfl, by decide, by decide⟩

end RaftKV.Raft
