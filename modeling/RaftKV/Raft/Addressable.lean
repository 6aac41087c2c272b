import RaftKV.Raft.Machine
import RaftKV.Raft.Rollback

/-!
# The log stays addressable

Every index computation of a node is relative to `lastIncludedIndex`, which compaction and an
installed snapshot move.  `Addressable` is what keeps them right: the log begins at the
baseline and is numbered one by one, the baseline is committed, and a leader has a next index
for each of its peers.  The commit index is not part of the log: it may lie behind the end of
it, and an `AppendEntries` request may even take it back there, but never below the baseline.

Each critical section keeps this as long as the indices it is called with are below `2 ^ 63`,
and then no access to the log is out of range.  Nodes that keep to this range stay in it with
what they send (`Addressable.sends`).  But the node takes any index from its peers: a rejection
that names a larger one makes the leader read its log at a negative position, and from the
largest index of all the next one is `0` (`log_not_addressable`).
-/

namespace RaftKV.Raft

variable {σ : Type}

/-- `AppendEntries` requests number their entries one by one. -/
def Section.Numbered : Section → Prop
  | .appendEntries req => Consecutive (req.prevLogIndex + 1) req.entries
  | _ => True

instance : (call : Section) → Decidable call.Numbered
  | .appendEntries req => Consecutive.decide (req.prevLogIndex + 1) req.entries
  | .electionTimeout | .voteReply .. | .requestVote _ | .installSnapshot _ | .compactLog ..
  | .propose _ | .appendReply .. | .snapshotReply .. => inferInstanceAs (Decidable True)

/-- The indices of a call, and the one that it makes, are below `2 ^ 63`; a next index may be
that number itself. -/
def Section.InRange (n : Node σ) : Section → Prop
  | .appendEntries req => req.prevLogIndex + req.entries.length < 2 ^ 63
  | .installSnapshot req => req.lastIncludedIndex < 2 ^ 63
  | .propose _ => n.lastLogIndex + 1 < 2 ^ 63
  | .appendReply _ req resp =>
      req.prevLogIndex + req.entries.length < 2 ^ 63 ∧ resp.conflictIndex ≤ 2 ^ 63
  | .snapshotReply _ transfer _ => transfer.lastIncludedIndex < 2 ^ 63
  | _ => True

instance (n : Node σ) : (call : Section) → Decidable (call.InRange n)
  | .appendEntries _ | .installSnapshot _ | .propose _ | .snapshotReply .. =>
      inferInstanceAs (Decidable (_ < _))
  | .appendReply .. => inferInstanceAs (Decidable (_ ∧ _))
  | .electionTimeout | .voteReply .. | .requestVote _ | .compactLog .. =>
      inferInstanceAs (Decidable True)

namespace Machine

/-! ## The invariant -/

/-- Where replication to the peers goes on. -/
def NextInRange (n : Node σ) : Prop :=
  ∀ peer ∈ n.cfg.peers, 1 ≤ n.nextIndex.get peer ∧ n.nextIndex.get peer ≤ 2 ^ 63

structure Addressable (n : Node σ) : Prop extends Small n where
  numbered : Consecutive n.lastIncludedIndex n.log
  committed : n.lastIncludedIndex ≤ n.commitIndex
  next : n.role = .leader → NextInRange n

/-- What a critical section leaves behind. -/
structure Keeps (n n' : Node σ) : Prop where
  addressable : Addressable n'
  base_le : n.lastIncludedIndex ≤ n'.lastIncludedIndex

variable {n n' n'' : Node σ}

/-- A step that leaves the log, its baseline and the commit index alone. -/
theorem Keeps.of_holding (hn : Addressable n) (h : n'.holding = n.holding)
    (hnext : n'.role = .leader → NextInRange n') : Keeps n n' := by
  have hsmall := hn.toSmall.congr h
  simp only [Node.holding, Prod.mk.injEq] at h
  obtain ⟨hlog, hbase, hcommit, -⟩ := h
  refine ⟨⟨hsmall, ?_, ?_, hnext⟩, hbase.ge⟩
  · rw [hlog, hbase]
    exact hn.numbered
  · rw [hbase, hcommit]
    exact hn.committed

theorem Keeps.refl (hn : Addressable n) : Keeps n n :=
  .of_holding hn rfl hn.next

theorem Keeps.trans (h : Keeps n n') (h' : Keeps n' n'') : Keeps n n'' :=
  ⟨h'.addressable, h.base_le.trans h'.base_le⟩

/-- A follower has no next index to keep. -/
theorem Keeps.of_follower (hn : Addressable n) (h : n'.holding = n.holding)
    (hrole : n'.role = .follower) : Keeps n n' := by
  refine .of_holding hn h fun hleader => ?_
  rw [hrole] at hleader
  simp at hleader

/-! ## Next indices -/

theorem nextInRange_becomeLeader (hn : Small n) : NextInRange n.becomeLeader := by
  intro peer hpeer
  have hlast := hn.last
  have hget : n.becomeLeader.nextIndex.get peer = n.lastLogIndex + 1 :=
    GoMap.get_foldl_insert _ _ _ hpeer
  rw [hget]
  omega

theorem NextInRange.insert (h : NextInRange n) (peer : NodeId) {v : ℕ} (hpos : 1 ≤ v)
    (hle : v ≤ 2 ^ 63) : NextInRange { n with nextIndex := n.nextIndex.insert peer v } := by
  intro peer' hpeer
  simp only
  rw [GoMap.get_insert]
  split
  · exact ⟨hpos, hle⟩
  · exact h peer' hpeer

theorem Keeps.recordMatch (hn : Addressable n) (peer : NodeId) {newMatch : ℕ}
    (hmatch : newMatch < 2 ^ 63) : Keeps n (n.recordMatch peer newMatch) := by
  refine .of_holding hn (n.recordMatch_holding peer newMatch) ?_
  unfold Node.recordMatch
  split
  · exact fun hrole => (hn.next hrole).insert peer (by omega) (by omega)
  · exact hn.next

theorem nextAfterTerm_le {conflictTerm newNext bound i : ℕ} (hnew : newNext ≤ bound)
    (hi : i + 1 ≤ bound) : n.nextAfterTerm conflictTerm newNext i ≤ bound := by
  induction i with
  | zero => exact hnew
  | succ i ih =>
      have ih := ih (by omega)
      unfold Node.nextAfterTerm
      split
      · split
        · exact ih
        · split
          · exact hi
          · exact ih
      · exact hnew

/-- The hint of a rejection never leads below the baseline. -/
theorem Addressable.backUp (hn : Addressable n) {resp : AppendEntriesResponse}
    (hresp : resp.conflictIndex ≤ 2 ^ 63) : 1 ≤ n.backUp resp ∧ n.backUp resp ≤ 2 ^ 63 := by
  have hlast := hn.last
  have hbase := Node.base_le_lastLogIndex hn.nonempty
  have hhint : n.hintedNext resp ≤ 2 ^ 63 := by
    unfold Node.hintedNext
    split
    · exact nextAfterTerm_le hresp (by omega)
    · exact hresp
  unfold Node.backUp
  split
  · omega
  · omega

/-! ## Commits -/

theorem Keeps.maybeAdvanceCommit (hn : Addressable n) : Keeps n n.maybeAdvanceCommit := by
  have hsmall := hn.toSmall.maybeAdvanceCommit
  unfold Node.maybeAdvanceCommit at hsmall ⊢
  rcases n.advanceCommitFrom_cases n.lastLogIndex with heq | ⟨idx, -, hlt, -, -, -, -, heq⟩
  · rw [heq]
    exact .refl hn
  · rw [heq] at hsmall ⊢
    exact ⟨⟨hsmall, hn.numbered, hn.committed.trans hlt.le, hn.next⟩, le_rfl⟩

/-- The commit index may fall to the end of the log, but not below the baseline. -/
theorem Keeps.learnCommit (hn : Addressable n) (leaderCommit : ℕ) :
    Keeps n (n.learnCommit leaderCommit) := by
  have hsmall := hn.toSmall.learnCommit leaderCommit
  unfold Node.learnCommit at hsmall ⊢
  split at hsmall
  · next hlt =>
      rw [if_pos hlt]
      refine ⟨⟨hsmall, hn.numbered, ?_, hn.next⟩, le_rfl⟩
      change n.lastIncludedIndex ≤ if _ then _ else _
      split
      · exact Node.base_le_lastLogIndex hn.nonempty
      · exact hn.committed.trans hlt.le
  · next hle =>
      rw [if_neg hle]
      exact .refl hn

/-! ## Critical sections -/

variable [PersistentState σ]

theorem keeps_becomeFollower (hn : Addressable n) (term : ℕ) : Keeps n (n.becomeFollower term) :=
  .of_follower hn (n.becomeFollower_holding term) (n.becomeFollower_role term)

theorem keeps_followLeader (hn : Addressable n) (term : ℕ) (leaderId : NodeId) :
    Keeps n (n.followLeader term leaderId) :=
  .of_follower hn (n.followLeader_holding term leaderId) (n.followLeader_role term leaderId)

/-- The one section whose term may wrap: it is shown on the machine itself. -/
theorem keeps_electionTimeout (hn : Addressable n) :
    ∃ result, electionTimeout n = .ok result ∧ Keeps n result.2 := by
  have hcampaign : ∀ lastTerm, Small (campaign n lastTerm) := fun _ => hn.toSmall.congr rfl
  unfold electionTimeout
  split
  · unfold startElection
    rw [lastLogTerm_eq hn.nonempty]
    simp only [bind, Except.bind]
    split
    · refine ⟨_, rfl, ?_⟩
      rw [becomeLeader_eq (hcampaign _)]
      exact .of_holding hn rfl fun _ => nextInRange_becomeLeader (hcampaign _)
    · refine ⟨_, rfl, .of_holding hn rfl fun hrole => ?_⟩
      simp [campaign, Node.persistHardState] at hrole
  · exact ⟨_, rfl, .refl hn⟩

theorem keeps_handleVoteReply (hn : Addressable n) (req : RequestVoteRequest)
    (resp : RequestVoteResponse) : Keeps n (n.handleVoteReply req resp) := by
  refine .of_holding hn (n.handleVoteReply_holding req resp) ?_
  unfold Node.handleVoteReply
  split
  · intro hrole
    rw [Node.becomeFollower_role] at hrole
    simp at hrole
  · split
    · unfold Node.countVote
      split
      · exact fun _ => nextInRange_becomeLeader (hn.toSmall.congr rfl)
      · exact hn.next
    · exact hn.next

theorem keeps_handleRequestVote (hn : Addressable n) (req : RequestVoteRequest) :
    Keeps n (n.handleRequestVote req).2 := by
  have hobserve : Keeps n (n.observeTerm req.term) := by
    unfold Node.observeTerm
    split
    · exact keeps_becomeFollower hn _
    · exact .refl hn
  unfold Node.handleRequestVote Node.decideVote
  split
  · exact .refl hn
  · refine hobserve.trans ?_
    have hm := hobserve.addressable
    split
    · exact .refl hm
    · split
      · exact .refl hm
      · exact .of_holding hm rfl hm.next

theorem keeps_acceptEntries (hn : Addressable n) {req : AppendEntriesRequest}
    (hentries : Consecutive (req.prevLogIndex + 1) req.entries)
    (hreq : req.prevLogIndex + req.entries.length < 2 ^ 63)
    (hinside : req.prevLogIndex ≤ n.lastLogIndex) : Keeps n (n.acceptEntries req) := by
  obtain ⟨-, hnumbered, -⟩ := Node.appendNew_consecutive hn.nonempty hn.numbered
    (Nat.add_le_add_right hinside 1) hentries
  have hsmall : Small (n.appendNew (req.prevLogIndex + 1) req.entries) :=
    hn.toSmall.appendNew (by omega) (by omega)
  have happend : Keeps n (n.appendNew (req.prevLogIndex + 1) req.entries) := by
    obtain ⟨log, storage, heq⟩ := n.appendNew_frame (req.prevLogIndex + 1) req.entries
    rw [heq] at hsmall hnumbered ⊢
    exact ⟨⟨hsmall, hnumbered, hn.committed, hn.next⟩, le_rfl⟩
  have hpersist : Keeps n
      ((n.appendNew (req.prevLogIndex + 1) req.entries).persistRequest req.entries) := by
    refine happend.trans ?_
    refine .of_holding happend.addressable (Node.persistRequest_holding _ _) ?_
    unfold Node.persistRequest
    split
    · exact happend.addressable.next
    · exact happend.addressable.next
  exact hpersist.trans (.learnCommit hpersist.addressable _)

theorem keeps_handleAppendEntries (hn : Addressable n) {req : AppendEntriesRequest}
    (hentries : Consecutive (req.prevLogIndex + 1) req.entries)
    (hreq : req.prevLogIndex + req.entries.length < 2 ^ 63) :
    Keeps n (n.handleAppendEntries req).2 := by
  unfold Node.handleAppendEntries
  split
  · exact .refl hn
  · have hfollow := keeps_followLeader hn req.term req.leaderId
    refine hfollow.trans ?_
    have hm := hfollow.addressable
    unfold Node.checkAndAccept
    split
    · exact .refl hm
    · next hconflict =>
        exact keeps_acceptEntries hm hentries hreq (Node.le_lastLogIndex_of_conflict hconflict)

theorem keeps_installSnapshot (hn : Addressable n) {recv : SnapshotRecvState}
    (hnew : n.lastIncludedIndex < recv.lastIncludedIndex)
    (hrange : recv.lastIncludedIndex < 2 ^ 63) : Keeps n (n.installSnapshot recv).2 := by
  have hcommit := hn.commit
  unfold Node.installSnapshot
  split
  · exact .of_holding hn rfl hn.next
  · refine ⟨⟨⟨by simp [Node.replaceLog, Node.send], hrange, ?_⟩, ⟨rfl, trivial⟩, ?_, hn.next⟩,
      hnew.le⟩
    · simp only [Node.replaceLog, Node.send]
      split <;> omega
    · simp only [Node.replaceLog, Node.send]
      split <;> omega

theorem keeps_handleInstallSnapshot (hn : Addressable n) {req : InstallSnapshotRequest}
    (hreq : req.lastIncludedIndex < 2 ^ 63) : Keeps n (n.handleInstallSnapshot req).2 := by
  unfold Node.handleInstallSnapshot
  split
  · exact .refl hn
  · have hfollow := keeps_followLeader hn req.term req.leaderId
    refine hfollow.trans ?_
    have hm := hfollow.addressable
    generalize n.followLeader req.term req.leaderId = m at hm ⊢
    unfold Node.takeChunk
    split
    · exact .refl hm
    · next hnew =>
        unfold Node.receiveChunk
        split
        · exact .of_holding hm rfl hm.next
        · next recv _ =>
            split
            · exact .of_holding hm rfl hm.next
            · next hfits =>
                -- what is reassembled is the request's snapshot
                have hsame : recv.lastIncludedIndex = req.lastIncludedIndex := by
                  by_contra hne
                  exact hfits (.inl hne)
                split
                · exact keeps_installSnapshot hm (by simp only; omega) (by simp only; omega)
                · exact .of_holding hm rfl hm.next

omit [PersistentState σ] in
/-- The compacted log begins at the new baseline and ends where the old one did, or at the
baseline if that is behind its end. -/
theorem compacted_addressable (hn : Addressable n) {index : ℕ} (hnew : n.lastIncludedIndex < index)
    (term : ℕ) :
    n.compacted index term ≠ [] ∧ Consecutive index (n.compacted index term) ∧
      index + (n.compacted index term).length - 1 = max n.lastLogIndex index := by
  unfold Node.compacted
  cases hpos : n.logPos index with
  | none =>
      refine ⟨by simp, ⟨rfl, trivial⟩, ?_⟩
      have hshort := Node.end_le_of_logPos hpos hnew.le
      simp only [List.length_singleton, Node.lastLogIndex]
      omega
  | some pos =>
      have hval := Node.logPos_val hpos
      have hlt := pos.isLt
      have hdrop := hn.numbered.drop pos
      have hbase : n.lastIncludedIndex + (pos : ℕ) = index := by omega
      rw [hbase] at hdrop
      refine ⟨?_, hdrop, ?_⟩
      · simp only [ne_eq, List.drop_eq_nil_iff, not_le]
        exact hlt
      · simp only [List.length_drop, Node.lastLogIndex]
        omega

theorem keeps_compactLog (hn : Addressable n) (data : Bytes) (index term : ℕ) :
    Keeps n (n.compactLog data index term).2 := by
  have hlast := hn.last
  have hcommit := hn.commit
  obtain ⟨storage, heq | ⟨hnew, hcommitted, heq⟩⟩ := n.compactLog_cases data index term
  · rw [heq]
    exact .of_holding hn rfl hn.next
  · rw [heq]
    obtain ⟨hne, hnumbered, hend⟩ := compacted_addressable hn hnew term
    refine ⟨⟨⟨hne, ?_, hcommit⟩, hnumbered, hcommitted, hn.next⟩, hnew.le⟩
    change index + (n.compacted index term).length - 1 < 2 ^ 63
    omega

theorem keeps_propose (hn : Addressable n) (hroom : n.lastLogIndex + 1 < 2 ^ 63) (data : Bytes) :
    Keeps n (n.propose data).2 := by
  unfold Node.propose
  split
  · exact .refl hn
  · have hlen := List.length_pos_of_ne_nil hn.nonempty
    have happend : Keeps n (n.appendOwn (n.nextEntry data)) := by
      refine ⟨⟨hn.toSmall.appendOwn hroom _, ?_, hn.committed, hn.next⟩, le_rfl⟩
      refine hn.numbered.append ⟨?_, trivial⟩
      simp only [Node.nextEntry, Node.lastLogIndex]
      omega
    exact happend.trans (.maybeAdvanceCommit happend.addressable)

theorem keeps_handleAppendReply (hn : Addressable n) {req : AppendEntriesRequest}
    {resp : AppendEntriesResponse} (hreq : req.prevLogIndex + req.entries.length < 2 ^ 63)
    (hresp : resp.conflictIndex ≤ 2 ^ 63) (peer : NodeId) :
    Keeps n (n.handleAppendReply peer req resp) := by
  unfold Node.handleAppendReply
  split
  · exact keeps_becomeFollower hn _
  · split
    · exact .refl hn
    · split
      · have hmatch : Keeps n (n.recordMatch peer (req.prevLogIndex + req.entries.length)) :=
          .recordMatch hn peer hreq
        exact hmatch.trans (.maybeAdvanceCommit hmatch.addressable)
      · obtain ⟨hpos, hle⟩ := hn.backUp hresp
        exact .of_holding hn rfl fun hrole => (hn.next hrole).insert peer hpos hle

theorem keeps_handleSnapshotReply (hn : Addressable n) {t : SnapshotTransfer}
    (ht : t.lastIncludedIndex < 2 ^ 63) (peer : NodeId) (resp : InstallSnapshotResponse) :
    Keeps n (n.handleSnapshotReply peer t resp).2 := by
  unfold Node.handleSnapshotReply
  split
  · exact keeps_becomeFollower hn _
  · split
    · exact .refl hn
    · split
      · exact .refl hn
      · split
        · exact .recordMatch hn peer ht
        · exact .refl hn

/-- No critical section stops the process, and each keeps the log addressable. -/
theorem Addressable.run (hn : Addressable n) {call : Section} (hnumbered : call.Numbered)
    (hrange : call.InRange n) : ∃ n', Machine.run n call = .ok n' ∧ Keeps n n' := by
  cases call with
  | electionTimeout =>
      obtain ⟨result, hresult, hkeeps⟩ := keeps_electionTimeout hn
      refine ⟨result.2, ?_, hkeeps⟩
      simp only [Machine.run, hresult]
      rfl
  | voteReply req resp =>
      refine ⟨_, ?_, keeps_handleVoteReply hn req resp⟩
      simp only [Machine.run, handleVoteReply_eq hn.toSmall]
  | requestVote req =>
      refine ⟨_, ?_, keeps_handleRequestVote hn req⟩
      simp only [Machine.run, handleRequestVote_eq hn.toSmall]
      rfl
  | appendEntries req =>
      refine ⟨_, ?_, keeps_handleAppendEntries hn hnumbered hrange⟩
      simp only [Machine.run, handleAppendEntries_eq hn.toSmall hrange]
      rfl
  | installSnapshot req => exact ⟨_, rfl, keeps_handleInstallSnapshot hn hrange⟩
  | compactLog data index term =>
      refine ⟨_, ?_, keeps_compactLog hn data index term⟩
      simp only [Machine.run, compactLog_eq hn.toSmall]
      rfl
  | propose data =>
      refine ⟨_, ?_, keeps_propose hn hrange data⟩
      simp only [Machine.run, propose_eq hn.toSmall hrange]
      rfl
  | appendReply peer req resp =>
      refine ⟨_, ?_, keeps_handleAppendReply hn hrange.1 hrange.2 peer⟩
      simp only [Machine.run, handleAppendReply_eq hn.toSmall hrange.1]
  | snapshotReply peer t resp =>
      refine ⟨_, ?_, keeps_handleSnapshotReply hn hrange peer resp⟩
      simp only [Machine.run, handleSnapshotReply_eq hrange]

/-! ## What a node sends -/

omit [PersistentState σ] in
/-- A request is numbered as the log is.  It ends where the log does, or is empty. -/
theorem Addressable.request (hn : Addressable n) {peer : NodeId} (hpeer : peer ∈ n.cfg.peers)
    {req : AppendEntriesRequest} (h : n.replicateToPeer peer = .appendEntries req) :
    Consecutive (req.prevLogIndex + 1) req.entries ∧
      req.prevLogIndex + req.entries.length < 2 ^ 63 := by
  obtain ⟨hrole, hnext, rfl⟩ := Node.replicateToPeer_appendEntries h
  obtain ⟨hpos, hle⟩ := hn.next hrole peer hpeer
  have hlast := hn.last
  have hprev : n.nextIndex.get peer - 1 + 1 = n.nextIndex.get peer := Nat.sub_add_cancel hpos
  have hempty : n.nextIndex.get peer - 1 + ([] : List LogEntry).length < 2 ^ 63 := by
    rw [List.length_nil]
    omega
  simp only [hprev]
  unfold Node.entriesFrom
  split
  · split
    · next pos hpos =>
        have hval := Node.logPos_val hpos
        have hlt := pos.isLt
        have hdrop := hn.numbered.drop pos
        have hbase : n.lastIncludedIndex + (pos : ℕ) = n.nextIndex.get peer := by omega
        rw [hbase] at hdrop
        refine ⟨hdrop, ?_⟩
        unfold Node.lastLogIndex at hlast
        rw [List.length_drop]
        omega
    · exact ⟨trivial, hempty⟩
  · exact ⟨trivial, hempty⟩

theorem Addressable.conflictIndex_le (hn : Addressable n) {req : AppendEntriesRequest}
    (hreq : req.prevLogIndex + req.entries.length < 2 ^ 63) :
    (n.handleAppendEntries req).1.conflictIndex ≤ 2 ^ 63 := by
  unfold Node.handleAppendEntries
  split
  · exact Nat.zero_le _
  · have hlast := (keeps_followLeader hn req.term req.leaderId).addressable.last
    unfold Node.checkAndAccept
    split
    · next hconflict =>
        simp only
        rcases Node.conflict_some_cases hconflict with ⟨-, hindex, -⟩ | ⟨-, -, -, hindex⟩
        · omega
        · omega
    · exact Nat.zero_le _

/-- The receivers of what the node sends are called in range. -/
structure SendsInRange (n : Node σ) : Prop where
  request : ∀ peer ∈ n.cfg.peers, ∀ req, replicateToPeer n peer = .ok (.appendEntries req) →
    Consecutive (req.prevLogIndex + 1) req.entries ∧
      req.prevLogIndex + req.entries.length < 2 ^ 63
  response : ∀ req, req.prevLogIndex + req.entries.length < 2 ^ 63 →
    ∃ resp n', handleAppendEntries n req = .ok (resp, n') ∧ resp.conflictIndex ≤ 2 ^ 63
  transfer : ∀ t, n.beginTransfer = some t → t.lastIncludedIndex < 2 ^ 63

omit [PersistentState σ] in
theorem Addressable.replicateToPeer_eq (hn : Addressable n) {peer : NodeId}
    (hpeer : peer ∈ n.cfg.peers) : replicateToPeer n peer = .ok (n.replicateToPeer peer) := by
  by_cases hrole : n.role = .leader
  · exact Machine.replicateToPeer_eq hn.toSmall (hn.next hrole peer hpeer).2
  · unfold replicateToPeer Node.replicateToPeer
    rw [if_pos hrole, if_pos hrole]
    rfl

theorem Addressable.sends (hn : Addressable n) : SendsInRange n where
  request peer hpeer req h := by
    rw [hn.replicateToPeer_eq hpeer, Except.ok.injEq] at h
    exact hn.request hpeer h
  response req hreq := by
    refine ⟨_, _, handleAppendEntries_eq hn.toSmall hreq, ?_⟩
    exact hn.conflictIndex_le hreq
  transfer t h := by
    obtain ⟨-, rfl⟩ := Node.beginTransfer_eq_some h
    exact (Node.base_le_lastLogIndex hn.nonempty).trans_lt hn.last

/-! ## Runs -/

/-- How a process begins: as `NewNode` leaves it, or with what `Start` has read, where that is
numbered one by one. -/
def Begins (n : Node σ) : Prop :=
  ∃ cfg storage, n = Node.newNode cfg storage ∨
    (Node.newNode cfg storage).start = .ok n ∧ n.lastLogIndex < 2 ^ 63 ∧
      ∃ entries, loadEntries storage = .ok entries ∧ Consecutive (n.lastIncludedIndex + 1) entries

theorem Begins.addressable (h : Begins n) : Addressable n := by
  obtain ⟨cfg, storage, rfl | ⟨hstart, hlast, entries, hload, hnumbered⟩⟩ := h
  · refine ⟨⟨by simp [Node.newNode], ?_, ?_⟩, ⟨rfl, trivial⟩, le_rfl, fun hrole => ?_⟩
    · exact Nat.two_pow_pos 63
    · exact Nat.two_pow_pos 63
    · simp [Node.newNode] at hrole
  · obtain ⟨hcommit, -, first, es, hlog, hfirst, hload'⟩ := Node.start_shape hstart
    obtain rfl : es = entries := Except.ok.inj (hload'.symm.trans hload)
    have hrole : n.role = .follower := by
      obtain ⟨snapshot, hard, entries, -, -, -, rfl⟩ := Node.start_ok hstart
      exact ((Node.newNode cfg storage).seed_frame snapshot.1 snapshot.2).2.1
    have hend := Node.lastLogIndex_cons hlog
    refine ⟨⟨by simp [hlog], hlast, by omega⟩, ?_, hcommit.ge, fun hleader => ?_⟩
    · rw [hlog]
      exact ⟨hfirst, hnumbered⟩
    · rw [hrole] at hleader
      simp at hleader

/-- A call that a process may be given: numbered one by one and in range. -/
def Legal (process : Except Fault (Node σ)) (call : Section) : Prop :=
  call.Numbered ∧ match process with
    | .ok n => call.InRange n
    | .error _ => True

instance : (process : Except Fault (Node σ)) → (call : Section) → Decidable (Legal process call)
  | .ok n, call => inferInstanceAs (Decidable (call.Numbered ∧ call.InRange n))
  | .error _, call => inferInstanceAs (Decidable (call.Numbered ∧ True))

theorem addressable_of_reaches {init : Node σ} (hinit : Begins init)
    {process : Except Fault (Node σ)} (hrun : Reaches step Legal (.ok init) process) :
    ∃ n, process = .ok n ∧ Addressable n := by
  refine Reaches.invariant (P := fun process => ∃ n, process = .ok n ∧ Addressable n) hrun
    ⟨init, rfl, hinit.addressable⟩ ?_
  rintro _ call ⟨n, rfl, hn⟩ ⟨hnumbered, hrange⟩
  obtain ⟨n', hn', hkeeps⟩ := hn.run hnumbered hrange
  exact ⟨n', hn', hkeeps.addressable⟩

/-- **The log stays addressable.**  In every run in range the process goes on: the log has a
first entry, which is the baseline's, and is numbered one by one from there; the baseline is
committed and never falls; and each peer of a leader has a next index that is not `0`.  What
`replicateToPeer` or any further call in range reads of the log is there, and what the node
sends is again in range. -/
theorem log_addressable {init : Node σ} (hinit : Begins init) {process : Except Fault (Node σ)}
    (hrun : Reaches step Legal (.ok init) process) :
    ∃ n, process = .ok n ∧ n.log ≠ [] ∧
      (∀ k e, n.log[k]? = some e → e.index = n.lastIncludedIndex + k) ∧
      n.log.head?.map LogEntry.index = some n.lastIncludedIndex ∧
      n.lastIncludedIndex ≤ n.commitIndex ∧
      (n.role = .leader → ∀ peer ∈ n.cfg.peers, 1 ≤ n.nextIndex.get peer) ∧
      (∀ peer ∈ n.cfg.peers, ∃ sent, replicateToPeer n peer = .ok sent) ∧
      (∀ call, Legal process call →
        ∃ n', Machine.run n call = .ok n' ∧ n.lastIncludedIndex ≤ n'.lastIncludedIndex) ∧
      SendsInRange n := by
  obtain ⟨n, rfl, hn⟩ := addressable_of_reaches hinit hrun
  refine ⟨n, rfl, hn.nonempty, fun k e he => hn.numbered.index_eq he, ?_, hn.committed, ?_, ?_, ?_,
    hn.sends⟩
  · obtain ⟨first, rest, hlog⟩ := List.exists_cons_of_ne_nil hn.nonempty
    have hfirst : n.log[0]? = some first := by rw [hlog]; rfl
    rw [hlog, List.head?_cons, Option.map_some, hn.numbered.index_eq hfirst]
    rfl
  · exact fun hrole peer hpeer => (hn.next hrole peer hpeer).1
  · exact fun peer hpeer => ⟨_, hn.replicateToPeer_eq hpeer⟩
  · rintro call ⟨hnumbered, hrange⟩
    obtain ⟨n', hn', hkeeps⟩ := hn.run hnumbered hrange
    exact ⟨n', hn', hkeeps.base_le⟩

/-- A follower takes over two entries, compacts the first and wins an election.  A peer rejects
its request with the largest index in range. -/
def inRangeCalls : List Section :=
  [.appendEntries ⟨1, "c", 0, 0, [⟨1, 1, [7]⟩, ⟨2, 1, [8]⟩], 2⟩, .compactLog [] 1 1,
    .electionTimeout, .voteReply ⟨2, "a", 2, 1⟩ ⟨2, true⟩, .propose [9],
    .appendReply "b" ⟨2, "a", 2, 1, [], 2⟩ ⟨2, false, 0, 0, 2 ^ 63⟩]

theorem log_addressable_inRangeCalls :
    ∃ n : Node MemState, inRangeCalls.foldl step
        (.ok (Node.newNode (Members.trio.config "a") PersistentState.fresh)) = .ok n ∧
      (∀ k e, n.log[k]? = some e → e.index = n.lastIncludedIndex + k) ∧
      n.lastIncludedIndex ≤ n.commitIndex := by
  have hrun : Reaches step Legal
      (.ok (Node.newNode (Members.trio.config "a") (PersistentState.fresh : MemState))) _ :=
    .foldl .refl inRangeCalls (by decide +kernel)
  obtain ⟨n, hn, -, hnumbered, -, hcommitted, -⟩ := log_addressable ⟨_, _, .inl rfl⟩ hrun
  exact ⟨n, hn, hnumbered, hcommitted⟩

/-- A leader that is told of an index which `int` does not have. -/
def rejectedCalls : List Section :=
  [.electionTimeout, .voteReply ⟨1, "a", 0, 0⟩ ⟨1, true⟩,
    .appendReply "b" ⟨1, "a", 0, 0, [], 0⟩ ⟨1, false, 0, 0, 2 ^ 63 + 1⟩]

/-- A leader that has installed a snapshot with the largest index that `uint64` has. -/
def lastIndexCalls : List Section :=
  [.installSnapshot ⟨1, "b", 2 ^ 64 - 1, 1, 0, [], true⟩, .electionTimeout,
    .voteReply ⟨2, "a", 2 ^ 64 - 1, 1⟩ ⟨2, true⟩]

/-- After the first calls `replicateToPeer` reads the log at a negative position; after the
second ones the next index of a peer is `0`. -/
theorem log_not_addressable :
    (∃ n : Node MemState, Reaches step (fun _ call => call.Numbered)
        (.ok (Node.newNode (Members.trio.config "a") PersistentState.fresh)) (.ok n) ∧
      "b" ∈ n.cfg.peers ∧ replicateToPeer n "b" = .error .outOfRange) ∧
    ∃ n : Node MemState, Reaches step (fun _ call => call.Numbered)
        (.ok (Node.newNode (Members.trio.config "a") PersistentState.fresh)) (.ok n) ∧
      n.role = .leader ∧ "b" ∈ n.cfg.peers ∧ n.nextIndex.get "b" = 0 :=
  ⟨⟨_, .foldl .refl rejectedCalls (by decide +kernel), by decide +kernel, by decide +kernel⟩,
    ⟨_, .foldl .refl lastIndexCalls (by decide +kernel), by decide +kernel, by decide +kernel,
      by decide +kernel⟩⟩

end Machine

end RaftKV.Raft
