import RaftKV.Raft.HardState
import Mathlib.Data.Finset.Card

/-!
# What leaves elections alone

As far as elections are concerned most of what a node does is `Quiet`: its hard
state may move up, it may fall back to follower, and it casts no vote and wins no
election.  This module shows it for every critical section but the three that
start an election, grant a vote and count one.
-/

namespace RaftKV.Raft

/-! ## Quorums -/

/-- A majority of the members. -/
def Members.Quorum (M : Members) (Q : Finset NodeId) : Prop :=
  Q ⊆ M.ids.toFinset ∧ M.ids.length / 2 + 1 ≤ Q.card

theorem Members.Quorum.meets {M : Members} {A B : Finset NodeId} (hA : M.Quorum A)
    (hB : M.Quorum B) : ∃ v, v ∈ A ∧ v ∈ B := by
  have hunion : (A ∪ B).card ≤ M.ids.length := by
    rw [← List.toFinset_card_of_nodup M.nodup]
    exact Finset.card_le_card (Finset.union_subset hA.1 hB.1)
  have hsum := Finset.card_union_add_card_inter A B
  have hpos : 0 < (A ∩ B).card := by
    have := hA.2
    have := hB.2
    omega
  obtain ⟨v, hv⟩ := Finset.card_pos.mp hpos
  exact ⟨v, Finset.mem_inter.mp hv⟩

theorem Members.mem_peers {M : Members} {i j : NodeId} :
    j ∈ (M.config i).peers ↔ j ≠ i ∧ j ∈ M.ids :=
  M.nodup.mem_erase_iff

/-- The members counted by `quorum`: the node and its peers. -/
theorem Members.length_peers {M : Members} {i : NodeId} (hi : i ∈ M.ids) :
    1 + (M.config i).peers.length = M.ids.length := by
  have hpos := List.length_pos_of_mem hi
  change 1 + (M.ids.erase i).length = M.ids.length
  rw [List.length_erase_of_mem hi]
  omega

/-- A node together with enough of its peers is a quorum. -/
theorem Members.quorum_insert {M : Members} {i : NodeId} (hi : i ∈ M.ids) {S : Finset NodeId}
    (hS : ∀ v ∈ S, v ∈ (M.config i).peers)
    (hcard : (1 + (M.config i).peers.length) / 2 + 1 ≤ S.card + 1) :
    M.Quorum (insert i S) := by
  have hnot : i ∉ S := fun h => (Members.mem_peers.mp (hS i h)).1 rfl
  refine ⟨?_, ?_⟩
  · intro v hv
    rcases Finset.mem_insert.mp hv with rfl | hv
    · exact List.mem_toFinset.mpr hi
    · exact List.mem_toFinset.mpr (Members.mem_peers.mp (hS v hv)).2
  · rw [Finset.card_insert_of_notMem hnot, ← Members.length_peers hi]
    exact hcard

/-! ## What leaves elections alone -/

/-- Votes and victories. -/
def Event.isBallot : Event → Bool
  | .voted .. => true
  | .becameLeader .. => true
  | _ => false

variable {σ : Type}

def Node.ballots (n : Node σ) : List Event :=
  n.events.filter Event.isBallot

/-- From `n` to `n'` no vote was cast, counted or won. -/
structure Quiet (n n' : Node σ) : Prop where
  cfg : n'.cfg = n.cfg
  hard : HardLe n.hardState n'.hardState
  ballots : n'.ballots = n.ballots
  role : n'.role ≠ .follower →
    n'.role = n.role ∧ n'.currentTerm = n.currentTerm ∧ n'.votes = n.votes

/-- Everything about a node that elections read. -/
def Node.electoral (n : Node σ) : Config × (ℕ × NodeId) × List Event × Role × (ℕ → ℕ) :=
  (n.cfg, n.hardState, n.ballots, n.role, n.votes)

namespace Quiet

theorem of_electoral {n n' : Node σ} (h : n'.electoral = n.electoral) : Quiet n n' := by
  simp only [Node.electoral, Prod.mk.injEq] at h
  obtain ⟨hcfg, hhard, hballots, hrole, hvotes⟩ := h
  exact ⟨hcfg, hhard ▸ .refl _, hballots, fun _ => ⟨hrole, congrArg Prod.fst hhard, hvotes⟩⟩

theorem refl (n : Node σ) : Quiet n n :=
  of_electoral rfl

theorem trans {n n' n'' : Node σ} (h : Quiet n n') (h' : Quiet n' n'') : Quiet n n'' where
  cfg := h'.cfg.trans h.cfg
  hard := h.hard.trans h'.hard
  ballots := h'.ballots.trans h.ballots
  role hrole := by
    obtain ⟨hsame', hterm', hvotes'⟩ := h'.role hrole
    obtain ⟨hsame, hterm, hvotes⟩ := h.role (hsame' ▸ hrole)
    exact ⟨hsame'.trans hsame, hterm'.trans hterm, hvotes'.trans hvotes⟩

theorem mem_events {n n' : Node σ} (h : Quiet n n') {e : Event} (he : e.isBallot) :
    e ∈ n'.events ↔ e ∈ n.events := by
  have hmem : e ∈ n'.ballots ↔ e ∈ n.ballots := by rw [h.ballots]
  simpa [Node.ballots, he] using hmem

end Quiet

namespace Node

theorem send_quiet (n : Node σ) (msgs : List ApplyMsg) : Quiet n (n.send msgs) := by
  refine ⟨rfl, .refl _, ?_, fun _ => ⟨rfl, rfl, rfl⟩⟩
  have hnone : (msgs.map Event.applied).filter Event.isBallot = [] := by
    simp [List.filter_eq_nil_iff, Event.isBallot]
  change (n.events ++ msgs.map Event.applied).filter Event.isBallot = n.ballots
  rw [List.filter_append, hnone, List.append_nil]
  rfl

theorem advanceCommitTo_quiet (n : Node σ) (newCommit : ℕ) :
    Quiet n (n.advanceCommitTo newCommit) := by
  unfold advanceCommitTo
  refine Quiet.trans ?_ (send_quiet _ _)
  exact .of_electoral rfl

theorem commitThrough_quiet (n : Node σ) (idx : ℕ) : Quiet n (n.commitThrough idx) := by
  have hevent : Quiet n { n with events := n.events ++
      [Event.committed n.currentTerm idx n.lastIncludedIndex n.log] } := by
    refine ⟨rfl, .refl _, ?_, fun _ => ⟨rfl, rfl, rfl⟩⟩
    simp [ballots, Event.isBallot]
  exact hevent.trans (advanceCommitTo_quiet _ _)

theorem maybeAdvanceCommit_quiet (n : Node σ) : Quiet n n.maybeAdvanceCommit := by
  unfold maybeAdvanceCommit
  rcases n.advanceCommitFrom_cases n.lastLogIndex with heq | ⟨idx, -, -, -, -, -, -, heq⟩
  · rw [heq]
    exact .refl n
  · rw [heq]
    exact commitThrough_quiet n idx

theorem recordMatch_quiet (n : Node σ) (peer : NodeId) (newMatch : ℕ) :
    Quiet n (n.recordMatch peer newMatch) := by
  unfold recordMatch
  split
  · exact .of_electoral rfl
  · exact .refl n

variable [PersistentState σ]

theorem becomeFollower_role (n : Node σ) (term : ℕ) :
    (n.becomeFollower term).role = .follower := by
  unfold becomeFollower
  split
  · rfl
  · rfl

theorem becomeFollower_quiet (n : Node σ) (term : ℕ) : Quiet n (n.becomeFollower term) := by
  refine ⟨?_, becomeFollower_hardLe n term, ?_, fun h => absurd (becomeFollower_role n term) h⟩
  · unfold becomeFollower
    split
    · rfl
    · rfl
  · unfold becomeFollower
    split
    · rfl
    · rfl

theorem observeTerm_quiet (n : Node σ) (term : ℕ) : Quiet n (n.observeTerm term) := by
  unfold observeTerm
  split
  · exact becomeFollower_quiet n term
  · exact .refl n

theorem followLeader_role (n : Node σ) (term : ℕ) (leaderId : NodeId) :
    (n.followLeader term leaderId).role = .follower := by
  unfold followLeader
  split
  · exact becomeFollower_role n term
  · rfl

theorem followLeader_quiet (n : Node σ) (term : ℕ) (leaderId : NodeId) :
    Quiet n (n.followLeader term leaderId) := by
  unfold followLeader
  split
  · have h := becomeFollower_quiet n term
    exact ⟨h.cfg, h.hard, h.ballots, h.role⟩
  · exact ⟨rfl, .refl _, rfl, fun h => absurd rfl h⟩

theorem handleAppendEntries_quiet (n : Node σ) (req : AppendEntriesRequest) :
    Quiet n (n.handleAppendEntries req).2 := by
  have hfollow := followLeader_quiet n req.term req.leaderId
  unfold handleAppendEntries checkAndAccept
  split
  · exact .refl n
  · split
    · exact hfollow
    · refine hfollow.trans ?_
      generalize n.followLeader req.term req.leaderId = m
      obtain ⟨storage, heq⟩ := m.acceptEntries_eq req
      have happend : Quiet m
          { m with
            log := (m.appendNew (req.prevLogIndex + 1) req.entries).log
            storage := storage } := .of_electoral rfl
      rw [heq]
      refine happend.trans ?_
      unfold learnCommit
      split
      · exact advanceCommitTo_quiet _ _
      · exact .refl _

theorem handleInstallSnapshot_quiet (n : Node σ) (req : InstallSnapshotRequest) :
    Quiet n (n.handleInstallSnapshot req).2 := by
  have hfollow := followLeader_quiet n req.term req.leaderId
  unfold handleInstallSnapshot takeChunk
  split
  · exact .refl n
  · split
    · exact hfollow
    · refine hfollow.trans ?_
      generalize n.followLeader req.term req.leaderId = m
      unfold receiveChunk
      split
      · exact .of_electoral rfl
      · split
        · exact .of_electoral rfl
        · split
          · unfold installSnapshot
            split
            · exact .of_electoral rfl
            · refine Quiet.trans ?_ (send_quiet _ _)
              exact .of_electoral rfl
          · exact .of_electoral rfl

theorem compactLog_quiet (n : Node σ) (data : Bytes) (index term : ℕ) :
    Quiet n (n.compactLog data index term).2 := by
  unfold compactLog
  split
  · exact .refl n
  · split
    · exact .refl n
    · split
      · exact .of_electoral rfl
      · split
        · exact .of_electoral rfl
        · exact .of_electoral rfl

theorem propose_quiet (n : Node σ) (data : Bytes) : Quiet n (n.propose data).2 := by
  unfold propose
  split
  · exact .refl n
  · refine Quiet.trans ?_ (maybeAdvanceCommit_quiet _)
    exact .of_electoral rfl

theorem handleAppendReply_quiet (n : Node σ) (peer : NodeId) (req : AppendEntriesRequest)
    (resp : AppendEntriesResponse) : Quiet n (n.handleAppendReply peer req resp) := by
  unfold handleAppendReply
  split
  · exact becomeFollower_quiet n _
  · split
    · exact .refl n
    · split
      · exact (recordMatch_quiet n _ _).trans (maybeAdvanceCommit_quiet _)
      · exact .of_electoral rfl

theorem handleSnapshotReply_quiet (n : Node σ) (peer : NodeId) (t : SnapshotTransfer)
    (resp : InstallSnapshotResponse) : Quiet n (n.handleSnapshotReply peer t resp).2 := by
  unfold handleSnapshotReply
  split
  · exact becomeFollower_quiet n _
  · split
    · exact .refl n
    · split
      · exact .refl n
      · split
        · exact recordMatch_quiet n _ _
        · exact .refl n

omit [PersistentState σ] in
theorem resume_quiet (n : Node σ) : Quiet n n.resume :=
  ⟨rfl, .refl _, rfl, fun h => absurd rfl h⟩

omit [PersistentState σ] in
/-- A saved snapshot moves the baseline only. -/
theorem seed_frame (n : Node σ) (index term : ℕ) :
    (n.seed index term).cfg = n.cfg ∧ (n.seed index term).role = n.role ∧
      (n.seed index term).storage = n.storage ∧ (n.seed index term).applyCh = n.applyCh := by
  unfold seed
  split
  · exact ⟨rfl, rfl, rfl, rfl⟩
  · exact ⟨rfl, rfl, rfl, rfl⟩

/-- What `Start` leaves of a new node: everything but the term, the vote, the log
and where it begins. -/
theorem start_ok {n n' : Node σ} (h : n.start = .ok n') :
    ∃ snapshot hard entries, loadSnapshotMeta n.storage = .ok snapshot ∧
      loadHardState n.storage = .ok hard ∧ loadEntries n.storage = .ok entries ∧
      n' = (n.seed snapshot.1 snapshot.2).recover hard entries := by
  cases hsnapshot : loadSnapshotMeta n.storage with
  | error => simp [start, hsnapshot, Except.mapError, bind, Except.bind] at h
  | ok snapshot =>
      cases hhard : loadHardState n.storage with
      | error => simp [start, hsnapshot, hhard, Except.mapError, bind, Except.bind] at h
      | ok hard =>
          cases hentries : loadEntries n.storage with
          | error =>
              simp [start, hsnapshot, hhard, hentries, Except.mapError, bind, Except.bind] at h
          | ok entries =>
              simp only [start, hsnapshot, hhard, hentries, Except.mapError, bind, Except.bind,
                pure, Except.pure, Except.ok.injEq] at h
              exact ⟨snapshot, hard, entries, rfl, rfl, rfl, h.symm⟩

/-- `Start` on a storage that can be read. -/
theorem start_eq {n : Node σ} {snapshot : ℕ × ℕ} {hard : ℕ × NodeId} {entries : List LogEntry}
    (hmeta : loadSnapshotMeta n.storage = .ok snapshot)
    (hhard : loadHardState n.storage = .ok hard)
    (hentries : loadEntries n.storage = .ok entries) :
    n.start = .ok ((n.seed snapshot.1 snapshot.2).recover hard entries) := by
  unfold start
  rw [hmeta, hhard, hentries]
  rfl

theorem restart_eq {n : Node σ} {storage : σ} {snapshot : ℕ × ℕ} {hard : ℕ × NodeId}
    {entries : List LogEntry} (hmeta : loadSnapshotMeta storage = .ok snapshot)
    (hhard : loadHardState storage = .ok hard) (hentries : loadEntries storage = .ok entries) :
    n.restart storage =
      .ok { ((newNode n.cfg storage).seed snapshot.1 snapshot.2).recover hard entries with
        events := n.events } := by
  unfold restart
  rw [start_eq hmeta hhard hentries]
  rfl

theorem restart_ok {n n' : Node σ} {storage : σ} (h : n.restart storage = .ok n') :
    ∃ snapshot hard entries, loadSnapshotMeta storage = .ok snapshot ∧
      loadHardState storage = .ok hard ∧
      n' = { ((newNode n.cfg storage).seed snapshot.1 snapshot.2).recover hard entries with
        events := n.events } := by
  unfold restart at h
  cases hstart : (newNode n.cfg storage).start with
  | error => simp [hstart, bind, Except.bind] at h
  | ok fresh =>
      obtain ⟨snapshot, hard, entries, hmeta, hload, -, rfl⟩ := start_ok hstart
      simp only [hstart, bind, Except.bind, pure, Except.pure, Except.ok.injEq] at h
      exact ⟨snapshot, hard, entries, hmeta, hload, h.symm⟩

/-- The commit index of a new process is the index of the saved snapshot. -/
theorem restart_commitIndex {n n' : Node σ} {storage : σ} (h : n.restart storage = .ok n') :
    ∃ term, loadSnapshotMeta storage = .ok (n'.commitIndex, term) := by
  obtain ⟨⟨index, term⟩, hard, entries, hmeta, -, rfl⟩ := restart_ok h
  have hseed : ((newNode n.cfg storage).seed index term).commitIndex = index := by
    unfold seed
    split
    · rfl
    · next hzero => exact (Nat.eq_zero_of_not_pos hzero).symm
  refine ⟨term, ?_⟩
  change loadSnapshotMeta storage =
    .ok (((newNode n.cfg storage).seed index term).commitIndex, term)
  rw [hseed]
  exact hmeta

/-- A restart is quiet if the hard state it finds on disk has not fallen back. -/
theorem restart_quiet {n n' : Node σ} {storage : σ} (h : n.restart storage = .ok n')
    (hhard : ∀ hard, loadHardState storage = .ok hard → HardLe n.hardState hard) :
    Quiet n n' := by
  obtain ⟨snapshot, hard, entries, -, hload, rfl⟩ := restart_ok h
  obtain ⟨hcfg, hfollower, -⟩ := seed_frame (newNode n.cfg storage) snapshot.1 snapshot.2
  exact ⟨hcfg, hhard hard hload, rfl, fun hrole => absurd hfollower hrole⟩

/-! ## The two handlers of votes -/

/-- A vote request is refused quietly, or granted by a node that has reached its
term and was free to vote. -/
theorem handleRequestVote_cases (n : Node σ) (req : RequestVoteRequest) :
    ((n.handleRequestVote req).1.voteGranted = false ∧ Quiet n (n.handleRequestVote req).2) ∨
      ((n.observeTerm req.term).currentTerm = req.term ∧
        ¬ ((n.observeTerm req.term).votedFor ≠ "" ∧
          (n.observeTerm req.term).votedFor ≠ req.candidateId) ∧
        (n.observeTerm req.term).candidateLogUpToDate req.lastLogIndex req.lastLogTerm ∧
        n.handleRequestVote req = (⟨req.term, true⟩, (n.observeTerm req.term).grantVote req)) := by
  have hobserve := observeTerm_quiet n req.term
  unfold handleRequestVote
  split
  · exact .inl ⟨rfl, .refl n⟩
  · next hfresh =>
      have hterm : (n.observeTerm req.term).currentTerm = req.term := by
        unfold observeTerm becomeFollower
        split
        · rfl
        · next hle => exact le_antisymm (not_lt.mp hfresh) (not_lt.mp hle)
      unfold decideVote
      split
      · exact .inl ⟨rfl, hobserve⟩
      · next hfree =>
          split
          · exact .inl ⟨rfl, hobserve⟩
          · next hlog => exact .inr ⟨hterm, hfree, not_not.mp hlog, by rw [hterm]⟩

/-- A vote response is quiet, or a granted vote that a candidate of that term
counts. -/
theorem handleVoteReply_cases (n : Node σ) (req : RequestVoteRequest)
    (resp : RequestVoteResponse) :
    Quiet n (n.handleVoteReply req resp) ∨ (resp.voteGranted ∧ n.role = .candidate ∧
      n.currentTerm = req.term ∧ n.handleVoteReply req resp = n.countVote req.term) := by
  unfold handleVoteReply
  split
  · exact .inl (becomeFollower_quiet n _)
  · split
    · next h => exact .inr ⟨h.1, h.2.1, h.2.2, rfl⟩
    · exact .inl (.refl n)

end Node

end RaftKV.Raft
