import RaftKV.Raft.Cluster
import Mathlib.Order.Basic

/-!
# Term and vote, in memory and on disk

The hard state of a node is its term and its vote.  `HardLe` is the only way it
ever moves: to a later term, or within a term from no vote to a vote.

`Persists Φ` collects what a relation `Φ` between a hard state and a storage has
to survive: saving a hard state that is `HardLe` above the present one, and the
storage calls that do not concern it.  `Section.backed` shows once, for every
critical section, that such a relation is kept.  It is used twice: with "the
storage holds exactly this hard state" it says that memory and disk agree between
critical sections, and over `Interrupted` storage it bounds what is on disk when
a process dies inside one.
-/

namespace RaftKV.Raft

/-- The hard state may move from `h` to `h'`. -/
def HardLe (h h' : ℕ × NodeId) : Prop :=
  h.1 < h'.1 ∨ (h.1 = h'.1 ∧ (h.2 = "" ∨ h.2 = h'.2))

theorem HardLe.refl (h : ℕ × NodeId) : HardLe h h :=
  .inr ⟨rfl, .inr rfl⟩

theorem HardLe.trans {h h' h'' : ℕ × NodeId} (hle : HardLe h h') (hle' : HardLe h' h'') :
    HardLe h h'' := by
  rcases hle with hlt | ⟨heq, hvote⟩
  · rcases hle' with hlt' | ⟨heq', -⟩
    · exact .inl (lt_trans hlt hlt')
    · exact .inl (heq' ▸ hlt)
  · rcases hle' with hlt' | ⟨heq', hvote'⟩
    · exact .inl (heq ▸ hlt')
    · refine .inr ⟨heq.trans heq', ?_⟩
      rcases hvote with hnone | hsame
      · exact .inl hnone
      · exact hsame ▸ hvote'

theorem HardLe.term_le {h h' : ℕ × NodeId} (hle : HardLe h h') : h.1 ≤ h'.1 := by
  rcases hle with hlt | ⟨heq, -⟩
  · exact le_of_lt hlt
  · exact le_of_eq heq

variable {σ : Type}

def Node.hardState (n : Node σ) : ℕ × NodeId :=
  (n.currentTerm, n.votedFor)

/-- The hard state of `n` and the storage under it are related by `Φ`. -/
def Node.Backed (Φ : ℕ × NodeId → σ → Prop) (n : Node σ) : Prop :=
  Φ n.hardState n.storage

variable [PersistentState σ]

/-- `Φ` survives every storage call. -/
structure Persists (Φ : ℕ × NodeId → σ → Prop) : Prop where
  save : ∀ {h h' s}, Φ h s → HardLe h h' → Φ h' (saveHardState h'.1 h'.2 s).2
  append : ∀ {h s} entries, Φ h s → Φ h (appendEntries entries s).2
  cutSuffix : ∀ {h s} keepIndex, Φ h s → Φ h (truncateSuffix keepIndex s).2
  snapshot : ∀ {h s} data index term, Φ h s → Φ h (saveSnapshot data index term s).2
  cutFront : ∀ {h s} discardIndex, Φ h s → Φ h ( truncatePrefix discardIndex s).2

/-! ## How the hard state moves -/

namespace Node

theorem becomeFollower_hardLe (n : Node σ) (term : ℕ) :
    HardLe n.hardState (n.becomeFollower term).hardState := by
  unfold becomeFollower
  split
  · next h => exact .inl h
  · exact .refl _

theorem followLeader_hardLe (n : Node σ) (term : ℕ) (leaderId : NodeId) :
    HardLe n.hardState (n.followLeader term leaderId).hardState := by
  unfold followLeader
  split
  · exact becomeFollower_hardLe n term
  · exact .refl _

theorem grantVote_hardLe {n : Node σ} {req : RequestVoteRequest}
    (hfree : ¬ (n.votedFor ≠ "" ∧ n.votedFor ≠ req.candidateId)) :
    HardLe n.hardState (n.grantVote req).hardState := by
  refine .inr ⟨rfl, ?_⟩
  by_contra hne
  exact hfree (not_or.mp hne)

omit [PersistentState σ] in
/-- What the loop of `maybeAdvanceCommit` does: nothing, or one commit, of an
index of the current term that a quorum has acknowledged. -/
theorem advanceCommitFrom_cases (n : Node σ) (k : ℕ) :
    n.advanceCommitFrom k = n ∨ ∃ idx pos, n.commitIndex < idx ∧ idx ≤ k ∧
      n.logPos idx = some pos ∧ (n.log.get pos).term = n.currentTerm ∧
      n.quorum ≤ n.replications idx ∧ n.advanceCommitFrom k = n.commitThrough idx := by
  fun_induction advanceCommitFrom n k with
  | case1 => exact .inl rfl
  | case2 idx _ _ ih =>
      rcases ih with ih | ⟨idx', pos, hlt, hle, hrest⟩
      · exact .inl ih
      · exact .inr ⟨idx', pos, hlt, Nat.le_succ_of_le hle, hrest⟩
  | case3 idx _ _ _ _ ih =>
      rcases ih with ih | ⟨idx', pos, hlt, hle, hrest⟩
      · exact .inl ih
      · exact .inr ⟨idx', pos, hlt, Nat.le_succ_of_le hle, hrest⟩
  | case4 idx hlt pos hpos hterm hquorum =>
      exact .inr ⟨idx + 1, pos, hlt, le_rfl, hpos, not_not.mp hterm, hquorum, rfl⟩
  | case5 idx _ _ _ _ _ ih =>
      rcases ih with ih | ⟨idx', pos, hlt, hle, hrest⟩
      · exact .inl ih
      · exact .inr ⟨idx', pos, hlt, Nat.le_succ_of_le hle, hrest⟩
  | case6 => exact .inl rfl

omit [PersistentState σ] in
/-- What no commit changes is unchanged by `maybeAdvanceCommit`. -/
theorem maybeAdvanceCommit_frame {β : Type*} (f : Node σ → β)
    (hf : ∀ (n : Node σ) idx, f (n.commitThrough idx) = f n) (n : Node σ) :
    f n.maybeAdvanceCommit = f n := by
  unfold maybeAdvanceCommit
  rcases n.advanceCommitFrom_cases n.lastLogIndex with heq | ⟨idx, -, -, -, -, -, -, heq⟩
  · rw [heq]
  · rw [heq, hf]

/-! ## Every critical section keeps the relation -/

variable {Φ : ℕ × NodeId → σ → Prop} {n : Node σ}

theorem persistHardState_backed (hΦ : Persists Φ) (hn : n.Backed Φ) {m : Node σ}
    (hle : HardLe n.hardState m.hardState) (hstorage : m.storage = n.storage) :
    m.persistHardState.Backed Φ := by
  change Φ m.hardState (saveHardState m.currentTerm m.votedFor m.storage).2
  rw [hstorage]
  exact hΦ.save hn hle

omit [PersistentState σ] in
theorem maybeAdvanceCommit_backed (hn : n.Backed Φ) : n.maybeAdvanceCommit.Backed Φ := by
  unfold Backed
  rw [maybeAdvanceCommit_frame hardState fun _ _ => rfl,
    maybeAdvanceCommit_frame storage fun _ _ => rfl]
  exact hn

theorem becomeFollower_backed (hΦ : Persists Φ) (hn : n.Backed Φ) (term : ℕ) :
    (n.becomeFollower term).Backed Φ := by
  unfold becomeFollower
  split
  · next h => exact persistHardState_backed hΦ hn (.inl h) rfl
  · exact hn

theorem followLeader_backed (hΦ : Persists Φ) (hn : n.Backed Φ) (term : ℕ) (leaderId : NodeId) :
    (n.followLeader term leaderId).Backed Φ := by
  unfold followLeader
  split
  · exact becomeFollower_backed hΦ hn term
  · exact hn

theorem electionTimeout_backed (hΦ : Persists Φ) (hn : n.Backed Φ) :
    n.electionTimeout.2.Backed Φ := by
  have hcampaign : n.campaign.Backed Φ :=
    persistHardState_backed hΦ hn (.inl (Nat.lt_succ_self _)) rfl
  unfold electionTimeout startElection
  split
  · split
    · exact hcampaign
    · exact hcampaign
  · exact hn

theorem handleVoteReply_backed (hΦ : Persists Φ) (hn : n.Backed Φ) (req : RequestVoteRequest)
    (resp : RequestVoteResponse) : (n.handleVoteReply req resp).Backed Φ := by
  unfold handleVoteReply
  split
  · exact becomeFollower_backed hΦ hn _
  · split
    · unfold countVote
      split
      · exact hn
      · exact hn
    · exact hn

theorem handleRequestVote_backed (hΦ : Persists Φ) (hn : n.Backed Φ)
    (req : RequestVoteRequest) : (n.handleRequestVote req).2.Backed Φ := by
  have hobserve : (n.observeTerm req.term).Backed Φ := by
    unfold observeTerm
    split
    · exact becomeFollower_backed hΦ hn _
    · exact hn
  unfold handleRequestVote decideVote
  split
  · exact hn
  · split
    · exact hobserve
    · next hfree =>
        split
        · exact hobserve
        · exact persistHardState_backed hΦ hobserve (grantVote_hardLe hfree) rfl

theorem appendNew_backed (hΦ : Persists Φ) (entries : List LogEntry) (hn : n.Backed Φ)
    (idx : ℕ) : (n.appendNew idx entries).Backed Φ := by
  induction entries generalizing n idx with
  | nil => exact hn
  | cons entry rest ih =>
      unfold appendNew
      split
      · exact ih hn _
      · split
        · apply ih
          exact hn
        · split
          · apply ih
            exact hΦ.cutSuffix (idx - 1) hn
          · exact ih hn _

theorem handleAppendEntries_backed (hΦ : Persists Φ) (hn : n.Backed Φ)
    (req : AppendEntriesRequest) : (n.handleAppendEntries req).2.Backed Φ := by
  have hfollow := followLeader_backed hΦ hn req.term req.leaderId
  unfold handleAppendEntries checkAndAccept
  split
  · exact hn
  · split
    · exact hfollow
    · have happend := appendNew_backed hΦ req.entries hfollow (req.prevLogIndex + 1)
      have hpersist : (((n.followLeader req.term req.leaderId).appendNew (req.prevLogIndex + 1)
          req.entries).persistRequest req.entries).Backed Φ := by
        unfold persistRequest
        split
        · exact hΦ.append _ happend
        · exact happend
      unfold acceptEntries learnCommit
      split
      · exact hpersist
      · exact hpersist

theorem installSnapshot_backed (hΦ : Persists Φ) (hn : n.Backed Φ) (recv : SnapshotRecvState) :
    (n.installSnapshot recv).2.Backed Φ := by
  have hsave := hΦ.snapshot recv.data recv.lastIncludedIndex recv.lastIncludedTerm hn
  unfold installSnapshot
  split
  · next heq =>
      rw [heq] at hsave
      exact hsave
  · next heq =>
      rw [heq] at hsave
      exact hΦ.cutFront _ hsave

theorem handleInstallSnapshot_backed (hΦ : Persists Φ) (hn : n.Backed Φ)
    (req : InstallSnapshotRequest) : (n.handleInstallSnapshot req).2.Backed Φ := by
  have hfollow := followLeader_backed hΦ hn req.term req.leaderId
  unfold handleInstallSnapshot takeChunk
  split
  · exact hn
  · split
    · exact hfollow
    · unfold receiveChunk
      split
      · exact hfollow
      · split
        · exact hfollow
        · split
          · exact installSnapshot_backed hΦ hfollow _
          · exact hfollow

theorem compactLog_backed (hΦ : Persists Φ) (hn : n.Backed Φ) (data : Bytes) (index term : ℕ) :
    (n.compactLog data index term).2.Backed Φ := by
  have hsave := hΦ.snapshot data index term hn
  unfold compactLog
  split
  · exact hn
  · split
    · exact hn
    · split
      · next heq =>
          rw [heq] at hsave
          exact hsave
      · next heq =>
          rw [heq] at hsave
          have hcut := hΦ.cutFront index hsave
          split
          · next heq' =>
              rw [heq'] at hcut
              exact hcut
          · next heq' =>
              rw [heq'] at hcut
              exact hcut

theorem propose_backed (hΦ : Persists Φ) (hn : n.Backed Φ) (data : Bytes) :
    (n.propose data).2.Backed Φ := by
  unfold propose
  split
  · exact hn
  · exact maybeAdvanceCommit_backed (hΦ.append _ hn)

omit [PersistentState σ] in
theorem recordMatch_backed (hn : n.Backed Φ) (peer : NodeId) (newMatch : ℕ) :
    (n.recordMatch peer newMatch).Backed Φ := by
  unfold recordMatch
  split
  · exact hn
  · exact hn

theorem handleAppendReply_backed (hΦ : Persists Φ) (hn : n.Backed Φ) (peer : NodeId)
    (req : AppendEntriesRequest) (resp : AppendEntriesResponse) :
    (n.handleAppendReply peer req resp).Backed Φ := by
  unfold handleAppendReply
  split
  · exact becomeFollower_backed hΦ hn _
  · split
    · exact hn
    · split
      · exact maybeAdvanceCommit_backed (recordMatch_backed hn _ _)
      · exact hn

theorem handleSnapshotReply_backed (hΦ : Persists Φ) (hn : n.Backed Φ) (peer : NodeId)
    (t : SnapshotTransfer) (resp : InstallSnapshotResponse) :
    (n.handleSnapshotReply peer t resp).2.Backed Φ := by
  unfold handleSnapshotReply
  split
  · exact becomeFollower_backed hΦ hn _
  · split
    · exact hn
    · split
      · exact hn
      · split
        · exact recordMatch_backed hn _ _
        · exact hn

end Node

/-- Every critical section keeps a relation that survives the storage calls. -/
theorem Section.backed {Φ : ℕ × NodeId → σ → Prop} (hΦ : Persists Φ) {n : Node σ}
    (hn : n.Backed Φ) (inside : Section) : (inside.run n).Backed Φ := by
  cases inside with
  | electionTimeout => exact Node.electionTimeout_backed hΦ hn
  | voteReply req resp => exact Node.handleVoteReply_backed hΦ hn req resp
  | requestVote req => exact Node.handleRequestVote_backed hΦ hn req
  | appendEntries req => exact Node.handleAppendEntries_backed hΦ hn req
  | installSnapshot req => exact Node.handleInstallSnapshot_backed hΦ hn req
  | compactLog data index term => exact Node.compactLog_backed hΦ hn data index term
  | propose data => exact Node.propose_backed hΦ hn data
  | appendReply peer req resp => exact Node.handleAppendReply_backed hΦ hn peer req resp
  | snapshotReply peer transfer resp =>
      exact Node.handleSnapshotReply_backed hΦ hn peer transfer resp

end RaftKV.Raft
