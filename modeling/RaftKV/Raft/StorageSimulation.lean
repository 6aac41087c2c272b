import RaftKV.Raft.Durability
import RaftKV.Raft.Promises

/-!
# The same node on two storages

A node is the same program on every `PersistentState`.  If two storages answer each call
alike and stay related (`Mirrors`), then a node on the one does what a node on the other
does: `Twin` nodes differ in their storage only, and every critical section keeps them
so (`Twin.run`).

Saving the hard state and cutting the end of the log have to be mirrored always, the
other calls only where `ok` says so.  `Section.Writes` collects what a critical section
asks of `ok`.  If the calls that `ok` allows succeed on the one storage, none of them fails on
the other (`Twin.errors_eq_nil`).
-/

namespace RaftKV.Raft

variable {σ τ : Type} [PersistentState σ] [PersistentState τ]

/-- Calls that `ok` allows have the same result on both storages and keep them related. -/
structure Mirrors (R : σ → τ → Prop) (ok : τ → StorageCall → Prop) : Prop where
  perform : ∀ {s t} (call : StorageCall), R s t → ok t call →
    (call.perform s).1 = (call.perform t).1 ∧ R (call.perform s).2 (call.perform t).2
  save : ∀ t term votedFor, ok t (.save term votedFor)
  cutSuffix : ∀ t keepIndex, ok t (.cutSuffix keepIndex)

/-! ## Twins -/

omit [PersistentState σ] [PersistentState τ] in
/-- The node on another storage. -/
def Node.on (m : Node τ) (s : σ) : Node σ :=
  { m with storage := s }

section Twins

omit [PersistentState σ] [PersistentState τ]

/-- The nodes differ in their storage only, and the storages are related. -/
def Twin (R : σ → τ → Prop) (n : Node σ) (m : Node τ) : Prop :=
  ∃ s, R s m.storage ∧ n = m.on s

/-- The same answer, from twins. -/
def Alike {α : Type} (R : σ → τ → Prop) (x : α × Node σ) (y : α × Node τ) : Prop :=
  x.1 = y.1 ∧ Twin R x.2 y.2

variable {R : σ → τ → Prop}

theorem Twin.ite {c c' : Prop} [Decidable c] [Decidable c'] (hc : c ↔ c') {n₁ n₂ : Node σ}
    {m₁ m₂ : Node τ} (h₁ : c' → Twin R n₁ m₁) (h₂ : ¬ c' → Twin R n₂ m₂) :
    Twin R (if c then n₁ else n₂) (if c' then m₁ else m₂) := by
  by_cases h : c'
  · rw [if_pos (hc.mpr h), if_pos h]
    exact h₁ h
  · rw [if_neg (mt hc.mp h), if_neg h]
    exact h₂ h

theorem Alike.ite {α : Type} {c c' : Prop} [Decidable c] [Decidable c'] (hc : c ↔ c')
    {x₁ x₂ : α × Node σ} {y₁ y₂ : α × Node τ} (h₁ : c' → Alike R x₁ y₁)
    (h₂ : ¬ c' → Alike R x₂ y₂) : Alike R (if c then x₁ else x₂) (if c' then y₁ else y₂) := by
  by_cases h : c'
  · rw [if_pos (hc.mpr h), if_pos h]
    exact h₁ h
  · rw [if_neg (mt hc.mp h), if_neg h]
    exact h₂ h

/-! ### What does not touch the storage -/

theorem Node.advanceCommitFrom_on (m : Node τ) (s : σ) (k : ℕ) :
    (m.on s).advanceCommitFrom k = (m.advanceCommitFrom k).on s := by
  induction k with
  | zero => rfl
  | succ k ih =>
      unfold Node.advanceCommitFrom
      by_cases hlt : k + 1 > m.commitIndex
      · rw [if_pos hlt, if_pos (show k + 1 > (m.on s).commitIndex from hlt)]
        cases hpos : m.logPos (k + 1) with
        | none =>
            rw [show (m.on s).logPos (k + 1) = none from hpos]
            exact ih
        | some pos =>
            rw [show (m.on s).logPos (k + 1) = some pos from hpos]
            simp only [apply_ite (Node.on · s)]
            exact if_congr Iff.rfl ih (if_congr Iff.rfl rfl ih)
      · rw [if_neg hlt, if_neg (show ¬ k + 1 > (m.on s).commitIndex from hlt)]

theorem Node.firstIndexOfTerm_on (m : Node τ) (s : σ) (conflictTerm k : ℕ) :
    (m.on s).firstIndexOfTerm conflictTerm k = m.firstIndexOfTerm conflictTerm k := by
  induction k with
  | zero => rfl
  | succ k ih =>
      unfold Node.firstIndexOfTerm
      refine if_congr Iff.rfl ?_ rfl
      cases hpos : m.logPos k with
      | none => rw [show (m.on s).logPos k = none from hpos]
      | some pos =>
          rw [show (m.on s).logPos k = some pos from hpos]
          exact if_congr Iff.rfl rfl ih

theorem Node.conflict_on (m : Node τ) (s : σ) (prevLogIndex prevLogTerm : ℕ) :
    (m.on s).conflict prevLogIndex prevLogTerm = m.conflict prevLogIndex prevLogTerm := by
  unfold Node.conflict
  refine if_congr Iff.rfl (if_congr Iff.rfl rfl ?_) rfl
  cases hpos : m.logPos prevLogIndex with
  | none => rw [show (m.on s).logPos prevLogIndex = none from hpos]
  | some pos =>
      rw [show (m.on s).logPos prevLogIndex = some pos from hpos]
      simp only [Node.firstIndexOfTerm_on]
      rfl

theorem Node.nextAfterTerm_on (m : Node τ) (s : σ) (conflictTerm newNext k : ℕ) :
    (m.on s).nextAfterTerm conflictTerm newNext k = m.nextAfterTerm conflictTerm newNext k := by
  induction k with
  | zero => rfl
  | succ k ih =>
      unfold Node.nextAfterTerm
      refine if_congr Iff.rfl ?_ rfl
      cases hpos : m.logPos (k + 1) with
      | none =>
          rw [show (m.on s).logPos (k + 1) = none from hpos]
          exact ih
      | some pos =>
          rw [show (m.on s).logPos (k + 1) = some pos from hpos]
          exact if_congr Iff.rfl rfl ih

theorem Node.backUp_on (m : Node τ) (s : σ) (resp : AppendEntriesResponse) :
    (m.on s).backUp resp = m.backUp resp := by
  have hhint : (m.on s).hintedNext resp = m.hintedNext resp := by
    unfold Node.hintedNext
    rw [Node.nextAfterTerm_on]
    rfl
  unfold Node.backUp
  rw [hhint]
  rfl

theorem Node.compacted_on (m : Node τ) (s : σ) (index term : ℕ) :
    (m.on s).compacted index term = m.compacted index term := by
  unfold Node.compacted
  cases hpos : m.logPos index with
  | none => rw [show (m.on s).logPos index = none from hpos]
  | some pos =>
      rw [show (m.on s).logPos index = some pos from hpos]
      rfl

namespace Twin

variable {n : Node σ} {m : Node τ}

theorem maybeAdvanceCommit (h : Twin R n m) : Twin R n.maybeAdvanceCommit m.maybeAdvanceCommit := by
  obtain ⟨s, hs, rfl⟩ := h
  refine ⟨s, ?_, m.advanceCommitFrom_on s m.lastLogIndex⟩
  rwa [Node.maybeAdvanceCommit_frame Node.storage fun _ _ => rfl]

theorem countVote (h : Twin R n m) (term : ℕ) : Twin R (n.countVote term) (m.countVote term) := by
  obtain ⟨s, hs, rfl⟩ := h
  unfold Node.countVote
  exact .ite Iff.rfl (fun _ => ⟨s, hs, rfl⟩) fun _ => ⟨s, hs, rfl⟩

theorem learnCommit (h : Twin R n m) (leaderCommit : ℕ) :
    Twin R (n.learnCommit leaderCommit) (m.learnCommit leaderCommit) := by
  obtain ⟨s, hs, rfl⟩ := h
  unfold Node.learnCommit
  exact .ite Iff.rfl (fun _ => ⟨s, hs, rfl⟩) fun _ => ⟨s, hs, rfl⟩

theorem recordMatch (h : Twin R n m) (peer : NodeId) (newMatch : ℕ) :
    Twin R (n.recordMatch peer newMatch) (m.recordMatch peer newMatch) := by
  obtain ⟨s, hs, rfl⟩ := h
  unfold Node.recordMatch
  exact .ite Iff.rfl (fun _ => ⟨s, hs, rfl⟩) fun _ => ⟨s, hs, rfl⟩

end Twin

end Twins

/-! ## Hard states -/

variable {R : σ → τ → Prop} {ok : τ → StorageCall → Prop} {n : Node σ} {m : Node τ}

/-- A snapshot may be saved and the log cut in front of it. -/
def StoresSnapshot (ok : τ → StorageCall → Prop) (t : τ) (data : Bytes) (index term : ℕ) : Prop :=
  ok t (.snapshot data index term) ∧ ok (saveSnapshot data index term t).2 (.cutFront index)

theorem Mirrors.snapshot (hM : Mirrors R ok) {s : σ} {t : τ} (hs : R s t) {data : Bytes}
    {index term : ℕ} (hok : StoresSnapshot ok t data index term) :
    (saveSnapshot data index term s).1 = (saveSnapshot data index term t).1 ∧
      R (saveSnapshot data index term s).2 (saveSnapshot data index term t).2 ∧
      ( truncatePrefix index (saveSnapshot data index term s).2).1 =
        ( truncatePrefix index (saveSnapshot data index term t).2).1 ∧
      R ( truncatePrefix index (saveSnapshot data index term s).2).2
        ( truncatePrefix index (saveSnapshot data index term t).2).2 := by
  obtain ⟨hresult, hsaved⟩ := hM.perform _ hs hok.1
  obtain ⟨hcut, hleft⟩ := hM.perform _ hsaved hok.2
  exact ⟨hresult, hsaved, hcut, hleft⟩

namespace Twin

theorem persistHardState (hM : Mirrors R ok) (h : Twin R n m) :
    Twin R n.persistHardState m.persistHardState := by
  obtain ⟨s, hs, rfl⟩ := h
  have hsave := hM.perform (.save m.currentTerm m.votedFor) hs (hM.save _ _ _)
  exact ⟨_, hsave.2, rfl⟩

theorem becomeFollower (hM : Mirrors R ok) (h : Twin R n m) (term : ℕ) :
    Twin R (n.becomeFollower term) (m.becomeFollower term) := by
  obtain ⟨s, hs, rfl⟩ := h
  unfold Node.becomeFollower
  refine .ite Iff.rfl (fun _ => ?_) fun _ => ⟨s, hs, rfl⟩
  exact persistHardState hM ⟨s, hs, rfl⟩

theorem followLeader (hM : Mirrors R ok) (h : Twin R n m) (term : ℕ) (leaderId : NodeId) :
    Twin R (n.followLeader term leaderId) (m.followLeader term leaderId) := by
  have hfollow := becomeFollower hM h term
  obtain ⟨s, hs, rfl⟩ := h
  obtain ⟨s', hs', heq⟩ := hfollow
  unfold Node.followLeader
  refine .ite Iff.rfl (fun _ => ⟨s', hs', ?_⟩) fun _ => ⟨s, hs, rfl⟩
  rw [heq]
  rfl

theorem electionTimeout (hM : Mirrors R ok) (h : Twin R n m) :
    Alike R n.electionTimeout m.electionTimeout := by
  obtain ⟨s, hs, rfl⟩ := h
  have hcampaign : Twin R (m.on s).campaign m.campaign := persistHardState hM ⟨s, hs, rfl⟩
  unfold Node.electionTimeout Node.startElection
  refine .ite Iff.rfl (fun _ => .ite Iff.rfl (fun _ => ⟨rfl, ?_⟩) fun _ => ⟨rfl, hcampaign⟩)
    fun _ => ⟨rfl, s, hs, rfl⟩
  obtain ⟨s', hs', heq⟩ := hcampaign
  exact ⟨s', hs', by rw [heq]; rfl⟩

theorem handleVoteReply (hM : Mirrors R ok) (h : Twin R n m) (req : RequestVoteRequest)
    (resp : RequestVoteResponse) :
    Twin R (n.handleVoteReply req resp) (m.handleVoteReply req resp) := by
  have hfollow := becomeFollower hM h resp.term
  have hcount := h.countVote req.term
  obtain ⟨s, hs, rfl⟩ := h
  unfold Node.handleVoteReply
  exact .ite Iff.rfl (fun _ => hfollow) fun _ =>
    .ite Iff.rfl (fun _ => hcount) fun _ => ⟨s, hs, rfl⟩

theorem decideVote (hM : Mirrors R ok) (h : Twin R n m) (req : RequestVoteRequest) :
    Alike R (n.decideVote req) (m.decideVote req) := by
  obtain ⟨s, hs, rfl⟩ := h
  unfold Node.decideVote
  refine .ite Iff.rfl (fun _ => ⟨rfl, s, hs, rfl⟩) fun _ =>
    .ite Iff.rfl (fun _ => ⟨rfl, s, hs, rfl⟩) fun _ => ⟨rfl, ?_⟩
  exact persistHardState hM ⟨s, hs, rfl⟩

theorem handleRequestVote (hM : Mirrors R ok) (h : Twin R n m) (req : RequestVoteRequest) :
    Alike R (n.handleRequestVote req) (m.handleRequestVote req) := by
  have hobserve : Twin R (n.observeTerm req.term) (m.observeTerm req.term) := by
    have hfollow := becomeFollower hM h req.term
    obtain ⟨s, hs, rfl⟩ := h
    exact .ite Iff.rfl (fun _ => hfollow) fun _ => ⟨s, hs, rfl⟩
  have hdecide := decideVote hM hobserve req
  obtain ⟨s, hs, rfl⟩ := h
  exact .ite Iff.rfl (fun _ => ⟨rfl, s, hs, rfl⟩) fun _ => hdecide

theorem handleAppendReply (hM : Mirrors R ok) (h : Twin R n m) (peer : NodeId)
    (req : AppendEntriesRequest) (resp : AppendEntriesResponse) :
    Twin R (n.handleAppendReply peer req resp) (m.handleAppendReply peer req resp) := by
  have hfollow := becomeFollower hM h resp.term
  have hmatch := (h.recordMatch peer (req.prevLogIndex + req.entries.length)).maybeAdvanceCommit
  obtain ⟨s, hs, rfl⟩ := h
  unfold Node.handleAppendReply
  refine .ite Iff.rfl (fun _ => hfollow) fun _ => .ite Iff.rfl (fun _ => ⟨s, hs, rfl⟩) fun _ =>
    .ite Iff.rfl (fun _ => hmatch) fun _ => ⟨s, hs, ?_⟩
  rw [Node.backUp_on]
  rfl

theorem handleSnapshotReply (hM : Mirrors R ok) (h : Twin R n m) (peer : NodeId)
    (t : SnapshotTransfer) (resp : InstallSnapshotResponse) :
    Alike R (n.handleSnapshotReply peer t resp) (m.handleSnapshotReply peer t resp) := by
  have hfollow := becomeFollower hM h resp.term
  have hmatch := h.recordMatch peer t.lastIncludedIndex
  obtain ⟨s, hs, rfl⟩ := h
  unfold Node.handleSnapshotReply
  exact .ite Iff.rfl (fun _ => ⟨rfl, hfollow⟩) fun _ =>
    .ite Iff.rfl (fun _ => ⟨rfl, s, hs, rfl⟩) fun _ =>
      .ite Iff.rfl (fun _ => ⟨rfl, s, hs, rfl⟩) fun _ =>
        .ite Iff.rfl (fun _ => ⟨rfl, hmatch⟩) fun _ => ⟨rfl, s, hs, rfl⟩

/-! ## The log -/

/-- The append loop only cuts. -/
theorem appendNew (hM : Mirrors R ok) (h : Twin R n m) (idx : ℕ) (entries : List LogEntry) :
    Twin R (n.appendNew idx entries) (m.appendNew idx entries) := by
  induction entries generalizing n m idx with
  | nil => exact h
  | cons entry rest ih =>
      have hsame := ih h (idx + 1)
      obtain ⟨s, hs, rfl⟩ := h
      unfold Node.appendNew
      refine .ite Iff.rfl (fun _ => hsame) fun _ => ?_
      cases hpos : m.logPos idx with
      | none =>
          rw [show (m.on s).logPos idx = none from hpos]
          have hgrown : Twin R { m.on s with log := m.log ++ [entry] }
              { m with log := m.log ++ [entry] } := ⟨s, hs, rfl⟩
          exact ih hgrown (idx + 1)
      | some pos =>
          rw [show (m.on s).logPos idx = some pos from hpos]
          refine .ite Iff.rfl (fun _ => ih ?_ (idx + 1)) fun _ => hsame
          exact ⟨_, (hM.perform (.cutSuffix (idx - 1)) hs (hM.cutSuffix _ _)).2, rfl⟩

theorem persistEntries (hM : Mirrors R ok) (h : Twin R n m) {entries : List LogEntry}
    (hok : ok m.storage (.append entries)) :
    Twin R (n.persistEntries entries) (m.persistEntries entries) := by
  obtain ⟨s, hs, rfl⟩ := h
  exact ⟨_, (hM.perform (.append entries) hs hok).2, rfl⟩

theorem acceptEntries (hM : Mirrors R ok) (h : Twin R n m) {req : AppendEntriesRequest}
    (hok : req.entries.length > 0 →
      ok (m.appendNew (req.prevLogIndex + 1) req.entries).storage (.append req.entries)) :
    Twin R (n.acceptEntries req) (m.acceptEntries req) := by
  have happend := appendNew hM h (req.prevLogIndex + 1) req.entries
  refine learnCommit ?_ req.leaderCommit
  exact .ite Iff.rfl (fun hpos => persistEntries hM happend (hok hpos)) fun _ => happend

theorem handleAppendEntries (hM : Mirrors R ok) (h : Twin R n m) {req : AppendEntriesRequest}
    (hok : (m.handleAppendEntries req).1.success → req.entries.length > 0 →
      ok ((m.followLeader req.term req.leaderId).appendNew (req.prevLogIndex + 1)
        req.entries).storage (.append req.entries)) :
    Alike R (n.handleAppendEntries req) (m.handleAppendEntries req) := by
  have hfollow := followLeader hM h req.term req.leaderId
  unfold Node.handleAppendEntries at hok ⊢
  obtain ⟨s, hs, rfl⟩ := h
  refine .ite Iff.rfl (fun _ => ⟨rfl, s, hs, rfl⟩) fun hfresh => ?_
  rw [if_neg (show ¬ req.term < m.currentTerm from hfresh)] at hok
  unfold Node.checkAndAccept at hok ⊢
  cases hcheck : (m.followLeader req.term req.leaderId).conflict req.prevLogIndex
      req.prevLogTerm with
  | some hint =>
      obtain ⟨s', hs', heq⟩ := hfollow
      rw [heq, Node.conflict_on, hcheck]
      exact ⟨rfl, s', hs', rfl⟩
  | none =>
      rw [hcheck] at hok
      have haccept := acceptEntries hM hfollow (hok rfl)
      obtain ⟨s', hs', heq⟩ := hfollow
      rw [heq] at haccept ⊢
      rw [Node.conflict_on, hcheck]
      refine ⟨?_, haccept⟩
      obtain ⟨s'', hs'', heq'⟩ := haccept
      simp only [heq']
      rfl

theorem propose (hM : Mirrors R ok) (h : Twin R n m) (data : Bytes)
    (hok : m.role = .leader → ok m.storage (.append [m.nextEntry data])) :
    Alike R (n.propose data) (m.propose data) := by
  obtain ⟨s, hs, rfl⟩ := h
  unfold Node.propose
  refine .ite Iff.rfl (fun _ => ⟨rfl, s, hs, rfl⟩) fun hrole => ⟨rfl, ?_⟩
  refine maybeAdvanceCommit ?_
  have hgrown : Twin R { m.on s with log := m.log ++ [m.nextEntry data] }
      { m with log := m.log ++ [m.nextEntry data] } := ⟨s, hs, rfl⟩
  exact persistEntries hM hgrown (hok (not_not.mp hrole))

/-! ## Snapshots -/

theorem installSnapshot (hM : Mirrors R ok) (h : Twin R n m) (recv : SnapshotRecvState)
    (hok : StoresSnapshot ok m.storage recv.data recv.lastIncludedIndex recv.lastIncludedTerm) :
    Alike R (n.installSnapshot recv) (m.installSnapshot recv) := by
  obtain ⟨s, hs, rfl⟩ := h
  obtain ⟨hresult, hsaved, -, hleft⟩ := hM.snapshot hs hok
  unfold Node.installSnapshot
  rw [show (m.on s).storage = s from rfl]
  generalize saveSnapshot recv.data recv.lastIncludedIndex recv.lastIncludedTerm s = x
    at hresult hsaved hleft ⊢
  generalize saveSnapshot recv.data recv.lastIncludedIndex recv.lastIncludedTerm m.storage = y
    at hresult hsaved hleft ⊢
  obtain ⟨x₁, x₂⟩ := x
  obtain ⟨y₁, y₂⟩ := y
  obtain rfl : x₁ = y₁ := hresult
  cases x₁ with
  | error err => exact ⟨rfl, x₂, hsaved, rfl⟩
  | ok done => exact ⟨rfl, _, hleft, rfl⟩

theorem takeChunk (hM : Mirrors R ok) (h : Twin R n m) {req : InstallSnapshotRequest}
    (hok : m.lastIncludedIndex < req.lastIncludedIndex → ∀ recv ∈ m.receiving req,
      recv.lastIncludedIndex = req.lastIncludedIndex →
      StoresSnapshot ok m.storage (recv.data ++ req.data) recv.lastIncludedIndex
        recv.lastIncludedTerm) :
    Alike R (n.takeChunk req) (m.takeChunk req) := by
  have hinstall : ∀ recv : SnapshotRecvState,
      StoresSnapshot ok m.storage recv.data recv.lastIncludedIndex recv.lastIncludedTerm →
      Alike R (n.installSnapshot recv) (m.installSnapshot recv) :=
    fun recv => installSnapshot hM h recv
  obtain ⟨s, hs, rfl⟩ := h
  unfold Node.takeChunk
  refine .ite Iff.rfl (fun _ => ⟨rfl, s, hs, rfl⟩) fun hnew => ?_
  have hchunk : Alike R ((m.on s).receiveChunk req) (m.receiveChunk req) := by
    unfold Node.receiveChunk
    rw [show (m.on s).receiving req = m.receiving req from rfl]
    cases hrecv : m.receiving req with
    | none => exact ⟨rfl, s, hs, rfl⟩
    | some recv =>
        refine .ite Iff.rfl (fun _ => ⟨rfl, s, hs, rfl⟩) fun hfits =>
          .ite Iff.rfl (fun _ => hinstall _ ?_) fun _ => ⟨rfl, s, hs, rfl⟩
        rw [not_or, not_not] at hfits
        exact hok (not_le.mp hnew) recv hrecv hfits.1
  refine ⟨?_, hchunk.2⟩
  rw [hchunk.1]
  rfl

theorem handleInstallSnapshot (hM : Mirrors R ok) (h : Twin R n m) {req : InstallSnapshotRequest}
    (hok : m.lastIncludedIndex < req.lastIncludedIndex → ∀ recv ∈ m.receiving req,
      recv.lastIncludedIndex = req.lastIncludedIndex →
      StoresSnapshot ok (m.followLeader req.term req.leaderId).storage (recv.data ++ req.data)
        recv.lastIncludedIndex recv.lastIncludedTerm) :
    Alike R (n.handleInstallSnapshot req) (m.handleInstallSnapshot req) := by
  have hfollow := followLeader hM h req.term req.leaderId
  have hchunk : Alike R ((n.followLeader req.term req.leaderId).takeChunk req)
      ((m.followLeader req.term req.leaderId).takeChunk req) := by
    refine takeChunk hM hfollow fun hnew recv hrecv hfits => hok ?_ recv ?_ hfits
    · rwa [Node.followLeader_base] at hnew
    · obtain ⟨_, _, _, heq⟩ := m.followLeader_frame req.term req.leaderId
      rw [heq] at hrecv
      exact hrecv
  obtain ⟨s, hs, rfl⟩ := h
  exact .ite Iff.rfl (fun _ => ⟨rfl, s, hs, rfl⟩) fun _ => hchunk

theorem compactLog (hM : Mirrors R ok) (h : Twin R n m) {data : Bytes} {index term : ℕ}
    (hok : m.lastIncludedIndex < index → index ≤ m.commitIndex →
      StoresSnapshot ok m.storage data index term) :
    Alike R (n.compactLog data index term) (m.compactLog data index term) := by
  obtain ⟨s, hs, rfl⟩ := h
  unfold Node.compactLog
  refine .ite Iff.rfl (fun _ => ⟨rfl, s, hs, rfl⟩) fun hnew =>
    .ite Iff.rfl (fun _ => ⟨rfl, s, hs, rfl⟩) fun hcommitted => ?_
  obtain ⟨hresult, hsaved, hcut, hleft⟩ := hM.snapshot hs (hok (not_le.mp hnew)
    (not_lt.mp hcommitted))
  rw [show (m.on s).storage = s from rfl]
  generalize saveSnapshot data index term s = x at hresult hsaved hcut hleft ⊢
  generalize saveSnapshot data index term m.storage = y at hresult hsaved hcut hleft ⊢
  obtain ⟨x₁, x₂⟩ := x
  obtain ⟨y₁, y₂⟩ := y
  obtain rfl : x₁ = y₁ := hresult
  cases x₁ with
  | error err => exact ⟨rfl, x₂, hsaved, rfl⟩
  | ok done =>
      simp only at hcut hleft ⊢
      generalize truncatePrefix index x₂ = x at hcut hleft ⊢
      generalize truncatePrefix index y₂ = y at hcut hleft ⊢
      obtain ⟨x₁, x₂⟩ := x
      obtain ⟨y₁, y₂⟩ := y
      obtain rfl : x₁ = y₁ := hcut
      cases x₁ with
      | error err => exact ⟨rfl, x₂, hleft, rfl⟩
      | ok done =>
          refine ⟨rfl, x₂, hleft, ?_⟩
          simp only [Node.compacted_on]
          rfl

end Twin

/-! ## Critical sections -/

/-- What a critical section writes, besides hard states and cuts of the end of the log, is
allowed by `ok`. -/
def Section.Writes (ok : τ → StorageCall → Prop) (m : Node τ) : Section → Prop
  | .appendEntries req => (m.handleAppendEntries req).1.success → req.entries.length > 0 →
      ok ((m.followLeader req.term req.leaderId).appendNew (req.prevLogIndex + 1)
        req.entries).storage (.append req.entries)
  | .installSnapshot req => m.lastIncludedIndex < req.lastIncludedIndex →
      ∀ recv ∈ m.receiving req, recv.lastIncludedIndex = req.lastIncludedIndex →
        StoresSnapshot ok (m.followLeader req.term req.leaderId).storage (recv.data ++ req.data)
          recv.lastIncludedIndex recv.lastIncludedTerm
  | .compactLog data index term => m.lastIncludedIndex < index → index ≤ m.commitIndex →
      StoresSnapshot ok m.storage data index term
  | .propose data => m.role = .leader → ok m.storage (.append [m.nextEntry data])
  | _ => True

/-- Twins stay twins. -/
theorem Twin.run (hM : Mirrors R ok) (h : Twin R n m) {call : Section} (hok : call.Writes ok m) :
    Twin R (call.run n) (call.run m) := by
  cases call with
  | electionTimeout => exact (electionTimeout hM h).2
  | voteReply req resp => exact handleVoteReply hM h req resp
  | requestVote req => exact (handleRequestVote hM h req).2
  | appendEntries req => exact (handleAppendEntries hM h hok).2
  | installSnapshot req => exact (handleInstallSnapshot hM h hok).2
  | compactLog data index term => exact (compactLog hM h hok).2
  | propose data => exact (propose hM h data hok).2
  | appendReply peer req resp => exact handleAppendReply hM h peer req resp
  | snapshotReply peer t resp => exact (handleSnapshotReply hM h peer t resp).2

/-! ## Failed calls -/

/-- Storage that keeps account of the calls that fail. -/
structure Recorder (σ : Type) where
  durable : σ
  errors : List String

namespace Recorder

def write (call : StorageCall) (s : Recorder σ) : Except String Unit × Recorder σ :=
  ((call.perform s.durable).1,
    ⟨(call.perform s.durable).2,
      match (call.perform s.durable).1 with
      | .ok _ => s.errors
      | .error err => s.errors ++ [err]⟩)

instance : PersistentState (Recorder σ) where
  fresh := ⟨PersistentState.fresh, []⟩
  saveHardState term votedFor := write (.save term votedFor)
  loadHardState s := loadHardState s.durable
  appendEntries entries := write (.append entries)
  loadEntries s := loadEntries s.durable
  truncateSuffix keepIndex := write (.cutSuffix keepIndex)
  saveSnapshot data index term := write (.snapshot data index term)
  loadSnapshot s := loadSnapshot s.durable
  loadSnapshotMeta s := loadSnapshotMeta s.durable
  truncatePrefix discardIndex := write (.cutFront discardIndex)

theorem perform_eq (call : StorageCall) (s : Recorder σ) : call.perform s = write call s := by
  cases call with
  | _ => rfl

end Recorder

/-- The storage calls of a critical section that fail. -/
def Section.errors (n : Node σ) (call : Section) : List String :=
  (call.run (n.on (⟨n.storage, []⟩ : Recorder σ))).storage.errors

/-- Keeping account changes nothing else. -/
theorem Section.run_recorder (n : Node σ) (call : Section) :
    Twin (fun s t => s.durable = t) (call.run (n.on (⟨n.storage, []⟩ : Recorder σ)))
      (call.run n) := by
  have hmirrors : Mirrors (fun (s : Recorder σ) t => s.durable = t) fun _ _ => True :=
    { perform := fun {s t} call hst _ => by
        subst hst
        rw [Recorder.perform_eq]
        exact ⟨rfl, rfl⟩
      save := fun _ _ _ => trivial
      cutSuffix := fun _ _ => trivial }
  refine Twin.run hmirrors ⟨⟨n.storage, []⟩, rfl, rfl⟩ ?_
  cases call with
  | appendEntries req => exact fun _ _ => trivial
  | installSnapshot req => exact fun _ _ _ _ => ⟨trivial, trivial⟩
  | compactLog data index term => exact fun _ _ => ⟨trivial, trivial⟩
  | propose data => exact fun _ => trivial
  | _ => trivial

/-- No call fails if its twin does not. -/
theorem Twin.errors_eq_nil (hM : Mirrors R ok)
    (hsucceeds : ∀ t call, ok t call → (call.perform t).1 = .ok ()) (h : Twin R n m)
    {call : Section} (hok : call.Writes ok m) : call.errors n = [] := by
  have hmirrors : Mirrors (fun (s : Recorder σ) t => R s.durable t ∧ s.errors = []) ok :=
    { perform := fun {s t} call hs hcall => by
        obtain ⟨hresult, hrelated⟩ := hM.perform call hs.1 hcall
        rw [hsucceeds t call hcall] at hresult ⊢
        rw [Recorder.perform_eq]
        refine ⟨hresult, hrelated, ?_⟩
        unfold Recorder.write
        rw [hresult]
        exact hs.2
      save := hM.save
      cutSuffix := hM.cutSuffix }
  obtain ⟨s, hs, rfl⟩ := h
  have hrecorded : Twin (fun (s : Recorder σ) t => R s.durable t ∧ s.errors = [])
      ((m.on s).on (⟨s, []⟩ : Recorder σ)) m := ⟨⟨s, []⟩, ⟨hs, rfl⟩, rfl⟩
  obtain ⟨s', ⟨-, hnone⟩, heq⟩ := hrecorded.run hmirrors hok
  unfold Section.errors
  rw [show (m.on s).storage = s from rfl, heq]
  exact hnone

end RaftKV.Raft
