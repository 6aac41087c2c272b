import Mathlib.Data.Set.Insert
import RaftKV.Raft.ElectionSafety
import RaftKV.Raft.FullLog

/-!
# Where entries come from

Every entry that a log holds, that a request carries or that is sent on `ApplyCh` was
made by a `Propose` call, and no two of them have the same index and term: a term has
one leader, and as long as it leads, each entry it makes goes behind its whole log.

`Created K c` is the invariant for a set `K` of entries made so far; `K` grows with
each proposal.  Nothing is assumed about compaction and snapshots.
-/

namespace RaftKV.Raft

open Function

variable {σ : Type}

/-! ## One node -/

/-- The log starts with its baseline, which is committed. -/
structure Node.Anchored (n : Node σ) : Prop where
  nonempty : n.log ≠ []
  committed : n.lastIncludedIndex ≤ n.commitIndex

/-- `n'` follows `n`, and the entries it has got since are from `K`. -/
structure Node.Draws (K : Set LogEntry) (n n' : Node σ) : Prop where
  anchored : n'.Anchored
  log : ∀ e ∈ n'.log.tail, e ∈ n.log.tail ∨ e ∈ K
  sent : ∀ e, .command e ∈ n'.applyCh → .command e ∈ n.applyCh ∨ e ∈ n.log.tail ∨ e ∈ K
  last : n'.role = .leader → n.lastLogIndex ≤ n'.lastLogIndex

/-- What of a node this module is about. -/
def Node.holding (n : Node σ) : List LogEntry × ℕ × ℕ × List ApplyMsg :=
  (n.log, n.lastIncludedIndex, n.commitIndex, n.applyCh)

namespace Node

variable {K : Set LogEntry} {n n' n'' : Node σ}

theorem lastLogIndex_of_holding (h : n'.holding = n.holding) :
    n'.lastLogIndex = n.lastLogIndex := by
  simp only [holding, Prod.mk.injEq] at h
  rw [lastLogIndex, lastLogIndex, h.1, h.2.1]

theorem Anchored.congr (hn : n.Anchored) (h : n'.holding = n.holding) : n'.Anchored := by
  simp only [holding, Prod.mk.injEq] at h
  obtain ⟨hlog, hbase, hcommit, -⟩ := h
  exact ⟨hlog ▸ hn.nonempty, hbase ▸ hcommit ▸ hn.committed⟩

theorem Anchored.base_le_last (hn : n.Anchored) : n.lastIncludedIndex ≤ n.lastLogIndex :=
  base_le_lastLogIndex hn.nonempty

theorem Draws.of_holding (hn : n.Anchored) (h : n'.holding = n.holding) : n.Draws K n' := by
  refine ⟨hn.congr h, fun e he => ?_, fun e he => ?_, fun _ => ?_⟩
  · simp only [holding, Prod.mk.injEq] at h
    exact .inl (h.1 ▸ he)
  · simp only [holding, Prod.mk.injEq] at h
    exact .inl (h.2.2.2 ▸ he)
  · exact (lastLogIndex_of_holding h).ge

theorem Draws.refl (hn : n.Anchored) : n.Draws K n :=
  .of_holding hn rfl

theorem Draws.trans (h : n.Draws K n') (h' : n'.Draws K n'')
    (hrole : n''.role = .leader → n'.role = .leader) : n.Draws K n'' where
  anchored := h'.anchored
  log e he := by
    rcases h'.log e he with he | he
    · exact h.log e he
    · exact .inr he
  sent e he := by
    rcases h'.sent e he with he | he | he
    · exact h.sent e he
    · exact .inr (h.log e he)
    · exact .inr (.inr he)
  last hleader := (h.last (hrole hleader)).trans (h'.last hleader)

theorem logPos_val {index : ℕ} {pos : Fin n.log.length} (h : n.logPos index = some pos) :
    (pos : ℕ) = index - n.lastIncludedIndex :=
  (logPos_bounds h).2.2

/-- A position above the baseline is not the first one. -/
theorem get_mem_tail {index : ℕ} {pos : Fin n.log.length} (h : n.logPos index = some pos)
    (hindex : n.lastIncludedIndex < index) : n.log.get pos ∈ n.log.tail := by
  have hpos := logPos_val h
  rw [← List.drop_one]
  refine List.mem_iff_getElem.mpr ⟨pos - 1, ?_, ?_⟩
  · rw [List.length_drop]
    omega
  · rw [List.getElem_drop, List.get_eq_getElem]
    congr 1
    omega

theorem advanceCommitTo_draws (hn : n.Anchored) {newCommit : ℕ}
    (hnew : n.lastIncludedIndex ≤ newCommit) : n.Draws K (n.advanceCommitTo newCommit) := by
  refine ⟨⟨hn.nonempty, hnew⟩, fun e he => .inl he, fun e he => ?_, fun _ => le_rfl⟩
  simp only [advanceCommitTo, send, List.mem_append, List.mem_map, List.mem_filterMap,
    ApplyMsg.command.injEq, exists_eq_right, Option.map_eq_some_iff] at he
  rcases he with he | ⟨i, hi, pos, hpos, rfl⟩
  · exact .inl he
  · refine .inr (.inl (get_mem_tail hpos ?_))
    have := hn.committed
    rw [List.mem_range'_1] at hi
    omega

theorem maybeAdvanceCommit_draws (hn : n.Anchored) : n.Draws K n.maybeAdvanceCommit := by
  unfold maybeAdvanceCommit
  rcases n.advanceCommitFrom_cases n.lastLogIndex with heq | ⟨idx, -, hlt, -, -, -, -, heq⟩
  · rw [heq]
    exact .refl hn
  · rw [heq, commitThrough]
    have hevent : n.Draws K { n with events := n.events ++
        [Event.committed n.currentTerm idx n.lastIncludedIndex n.log] } := .of_holding hn rfl
    refine hevent.trans (advanceCommitTo_draws hevent.anchored ?_) id
    exact hn.committed.trans hlt.le

theorem maybeAdvanceCommit_lastLogIndex (n : Node σ) :
    n.maybeAdvanceCommit.lastLogIndex = n.lastLogIndex :=
  maybeAdvanceCommit_frame lastLogIndex (fun _ _ => rfl) n

theorem learnCommit_draws (hn : n.Anchored) (leaderCommit : ℕ) :
    n.Draws K (n.learnCommit leaderCommit) := by
  unfold learnCommit
  split
  · next hlt =>
      refine advanceCommitTo_draws hn ?_
      split
      · exact hn.base_le_last
      · exact hn.committed.trans hlt.le
  · exact .refl hn

theorem recordMatch_holding (n : Node σ) (peer : NodeId) (newMatch : ℕ) :
    (n.recordMatch peer newMatch).holding = n.holding := by
  unfold recordMatch
  split
  · rfl
  · rfl

theorem entriesFrom_subset {nextIdx : ℕ} (h : n.lastIncludedIndex < nextIdx) :
    ∀ e ∈ n.entriesFrom nextIdx, e ∈ n.log.tail := by
  intro e he
  unfold entriesFrom at he
  split at he
  · split at he
    · next pos hpos =>
        have hval := logPos_val hpos
        have hdrop : n.log.drop pos = n.log.tail.drop (pos - 1) := by
          rw [← List.drop_one, List.drop_drop]
          congr 1
          omega
        rw [hdrop] at he
        exact List.mem_of_mem_drop he
    · simp at he
  · simp at he

/-- A request carries entries of its sender's log. -/
theorem replicateToPeer_entries {peer : NodeId} {req : AppendEntriesRequest}
    (h : n.replicateToPeer peer = .appendEntries req) :
    ∀ e ∈ req.entries, e ∈ n.log.tail := by
  obtain ⟨-, hnext, rfl⟩ := replicateToPeer_appendEntries h
  exact entriesFrom_subset hnext

variable [PersistentState σ]

theorem becomeFollower_holding (n : Node σ) (term : ℕ) :
    (n.becomeFollower term).holding = n.holding := by
  unfold becomeFollower
  split
  · rfl
  · rfl

theorem observeTerm_holding (n : Node σ) (term : ℕ) :
    (n.observeTerm term).holding = n.holding := by
  unfold observeTerm
  split
  · exact becomeFollower_holding n term
  · rfl

theorem followLeader_holding (n : Node σ) (term : ℕ) (leaderId : NodeId) :
    (n.followLeader term leaderId).holding = n.holding := by
  unfold followLeader
  split
  · exact becomeFollower_holding n term
  · rfl

theorem handleRequestVote_holding (n : Node σ) (req : RequestVoteRequest) :
    (n.handleRequestVote req).2.holding = n.holding := by
  unfold handleRequestVote decideVote
  split
  · rfl
  · split
    · exact observeTerm_holding n _
    · split
      · exact observeTerm_holding n _
      · exact observeTerm_holding n _

theorem handleVoteReply_holding (n : Node σ) (req : RequestVoteRequest)
    (resp : RequestVoteResponse) : (n.handleVoteReply req resp).holding = n.holding := by
  unfold handleVoteReply
  split
  · exact becomeFollower_holding n _
  · split
    · unfold countVote
      split
      · rfl
      · rfl
    · rfl

theorem electionTimeout_holding (n : Node σ) : n.electionTimeout.2.holding = n.holding := by
  unfold electionTimeout
  split
  · unfold startElection
    split
    · rfl
    · rfl
  · rfl

theorem handleAppendReply_draws (hn : n.Anchored) (peer : NodeId) (req : AppendEntriesRequest)
    (resp : AppendEntriesResponse) : n.Draws K (n.handleAppendReply peer req resp) := by
  unfold handleAppendReply
  split
  · exact .of_holding hn (becomeFollower_holding _ _)
  · split
    · exact .refl hn
    · split
      · have hmatch : n.Draws K (n.recordMatch peer (req.prevLogIndex + req.entries.length)) :=
          .of_holding hn (recordMatch_holding _ _ _)
        exact hmatch.trans (maybeAdvanceCommit_draws hmatch.anchored)
          fun hr => by rwa [maybeAdvanceCommit_frame role fun _ _ => rfl] at hr
      · exact .of_holding hn rfl

theorem handleSnapshotReply_holding (n : Node σ) (peer : NodeId) (transfer : SnapshotTransfer)
    (resp : InstallSnapshotResponse) :
    (n.handleSnapshotReply peer transfer resp).2.holding = n.holding := by
  unfold handleSnapshotReply
  split
  · exact becomeFollower_holding _ _
  · split
    · rfl
    · split
      · rfl
      · split
        · exact recordMatch_holding _ _ _
        · rfl

/-- The append loop keeps the first entry and takes the others from the request. -/
theorem appendNew_draws {n : Node σ} (hn : n.log ≠ []) (idx : ℕ) {entries : List LogEntry}
    (hentries : ∀ e ∈ entries, e ∈ K) :
    (n.appendNew idx entries).log ≠ [] ∧
      ∀ e ∈ (n.appendNew idx entries).log.tail, e ∈ n.log.tail ∨ e ∈ K := by
  induction entries generalizing n idx with
  | nil => exact ⟨hn, fun e he => .inl he⟩
  | cons entry rest ih =>
      have hentry := hentries entry List.mem_cons_self
      have hrest : ∀ e ∈ rest, e ∈ K := fun e he => hentries e (List.mem_cons_of_mem _ he)
      -- a log that is one made of the old one and the new entry
      have hgrown : ∀ (n' : Node σ) (front : List LogEntry), n'.log = front ++ [entry] →
          front ≠ [] → (∀ e ∈ front.tail, e ∈ n.log.tail) →
          (n'.appendNew (idx + 1) rest).log ≠ [] ∧
            ∀ e ∈ (n'.appendNew (idx + 1) rest).log.tail, e ∈ n.log.tail ∨ e ∈ K := by
        intro n' front hlog hfront hsub
        obtain ⟨hne, htail⟩ := ih (by rw [hlog]; simp) (idx + 1) hrest
        refine ⟨hne, fun e he => ?_⟩
        rcases htail e he with he | he
        · rw [hlog, List.tail_append_of_ne_nil hfront] at he
          rcases List.mem_append.mp he with he | he
          · exact .inl (hsub e he)
          · exact .inr (List.mem_singleton.mp he ▸ hentry)
        · exact .inr he
      unfold appendNew
      split
      · exact ih hn _ hrest
      · next hidx =>
          split
          · exact hgrown _ n.log rfl hn fun e he => he
          · next pos hpos =>
              split
              · have hval := logPos_val hpos
                refine hgrown _ (n.log.take pos) rfl ?_ fun e he => ?_
                · intro hnil
                  rcases List.take_eq_nil_iff.mp hnil with hzero | hnil
                  · omega
                  · exact hn hnil
                · rw [← List.drop_one, List.drop_take, List.drop_one] at he
                  exact List.mem_of_mem_take he
              · exact ih hn _ hrest

omit [PersistentState σ] in
theorem learnCommit_role (n : Node σ) (leaderCommit : ℕ) :
    (n.learnCommit leaderCommit).role = n.role := by
  unfold learnCommit
  split
  · rfl
  · rfl

theorem acceptEntries_role (n : Node σ) (req : AppendEntriesRequest) :
    (n.acceptEntries req).role = n.role := by
  obtain ⟨storage, heq⟩ := n.acceptEntries_eq req
  rw [heq, learnCommit_role]

theorem handleAppendEntries_draws (hn : n.Anchored) {req : AppendEntriesRequest}
    (hreq : ∀ e ∈ req.entries, e ∈ K) : n.Draws K (n.handleAppendEntries req).2 := by
  unfold handleAppendEntries checkAndAccept
  split
  · exact .refl hn
  · have hfollow : n.Draws K (n.followLeader req.term req.leaderId) :=
      .of_holding hn (followLeader_holding n _ _)
    have hrole := followLeader_role n req.term req.leaderId
    generalize n.followLeader req.term req.leaderId = m at hfollow hrole
    split
    · exact hfollow
    · obtain ⟨hne, htail⟩ :=
        appendNew_draws hfollow.anchored.nonempty (req.prevLogIndex + 1) hreq
      obtain ⟨log, storage, heq⟩ := m.appendNew_frame (req.prevLogIndex + 1) req.entries
      have happend : m.Draws K (m.appendNew (req.prevLogIndex + 1) req.entries) := by
        refine ⟨⟨hne, ?_⟩, htail, fun e he => .inl ?_, fun hleader => ?_⟩
        · rw [heq]
          exact hfollow.anchored.committed
        · rw [heq] at he
          exact he
        · rw [heq] at hleader
          simp [hrole] at hleader
      have hpersist : m.Draws K
          ((m.appendNew (req.prevLogIndex + 1) req.entries).persistRequest req.entries) := by
        unfold persistRequest
        split
        · exact happend.trans (.of_holding happend.anchored rfl) id
        · exact happend
      have haccept : m.Draws K (m.acceptEntries req) :=
        hpersist.trans (learnCommit_draws hpersist.anchored _)
          fun h => by rwa [acceptEntries, learnCommit_role] at h
      refine hfollow.trans haccept fun hleader => ?_
      rw [acceptEntries_role, hrole] at hleader
      simp at hleader

theorem handleInstallSnapshot_draws (hn : n.Anchored) (req : InstallSnapshotRequest) :
    n.Draws K (n.handleInstallSnapshot req).2 := by
  unfold handleInstallSnapshot takeChunk
  split
  · exact .refl hn
  · have hfollow : n.Draws K (n.followLeader req.term req.leaderId) :=
      .of_holding hn (followLeader_holding n _ _)
    have hrole := followLeader_role n req.term req.leaderId
    generalize n.followLeader req.term req.leaderId = m at hfollow hrole
    split
    · exact hfollow
    · have hkeep : ∀ m' : Node σ, m'.holding = m.holding → m'.role = m.role → n.Draws K m' :=
        fun m' hm' hr =>
          hfollow.trans (.of_holding hfollow.anchored hm') fun h => by rw [← hr]; exact h
      unfold receiveChunk
      split
      · exact hkeep _ rfl rfl
      · next recv _ =>
          split
          · exact hkeep _ rfl rfl
          · split
            · unfold installSnapshot
              split
              · exact hkeep _ rfl rfl
              · refine ⟨⟨by simp [replaceLog, send], ?_⟩, ?_, ?_, ?_⟩
                · simp only [replaceLog, send]
                  split
                  · exact le_rfl
                  · next hle => exact not_lt.mp hle
                · simp [replaceLog, send]
                · intro e he
                  simp only [replaceLog, send, List.mem_append, List.mem_singleton,
                    reduceCtorEq, or_false] at he
                  exact hfollow.sent e he
                · intro hleader
                  simp [replaceLog, send, hrole] at hleader
            · exact hkeep _ rfl rfl

theorem compactLog_draws (hn : n.Anchored) (data : Bytes) (index term : ℕ) :
    n.Draws K (n.compactLog data index term).2 := by
  obtain ⟨storage, heq | ⟨hlt, hle, heq⟩⟩ := n.compactLog_cases data index term
  · rw [heq]
    exact .of_holding hn rfl
  · rw [heq]
    have hlen := List.length_pos_of_ne_nil hn.nonempty
    unfold compacted
    cases hpos : n.logPos index with
    | none =>
        have hout : n.lastLogIndex < index := by
          have := end_le_of_logPos hpos hlt.le
          unfold lastLogIndex
          omega
        refine ⟨⟨by simp, hle⟩, by simp, fun e he => .inl he, fun _ => ?_⟩
        change n.lastLogIndex ≤ index + 1 - 1
        omega
    | some pos =>
        have hval := logPos_val hpos
        have hbound := pos.isLt
        refine ⟨⟨?_, hle⟩, fun e he => .inl ?_, fun e he => .inl he, fun _ => ?_⟩
        · simp only [ne_eq, List.drop_eq_nil_iff, not_le]
          exact hbound
        · simp only [List.tail_drop] at he
          rw [← List.drop_one]
          exact List.drop_subset_drop_left n.log (Nat.le_add_left 1 pos) he
        · simp only [lastLogIndex, List.length_drop]
          omega

theorem propose_draws (hn : n.Anchored) (data : Bytes) :
    n.Draws (insert (n.nextEntry data) K) (n.propose data).2 := by
  unfold propose
  split
  · exact .refl hn
  · have hown : n.Draws (insert (n.nextEntry data) K) (n.appendOwn (n.nextEntry data)) := by
      refine ⟨⟨by simp [appendOwn, persistEntries], hn.committed⟩, fun e he => ?_,
        fun e he => .inl he, fun _ => ?_⟩
      · simp only [appendOwn, persistEntries, List.tail_append_of_ne_nil hn.nonempty,
          List.mem_append, List.mem_singleton] at he
        rcases he with he | rfl
        · exact .inl he
        · exact .inr (Set.mem_insert _ _)
      · simp only [appendOwn, persistEntries, lastLogIndex, List.length_append]
        omega
    exact hown.trans (maybeAdvanceCommit_draws hown.anchored)
      fun h => by rwa [maybeAdvanceCommit_frame role fun _ _ => rfl] at h

/-- The index and the term that `Propose` returns are those of the new entry. -/
theorem nextEntry_of_propose {data : Bytes} {index term : ℕ}
    (h : (n.propose data).1 = some (index, term)) : n.nextEntry data = ⟨index, term, data⟩ := by
  unfold propose at h
  split at h
  · cases h
  · cases h
    rfl

/-- A leader's log grows by what it proposes. -/
theorem propose_lastLogIndex (hn : n.Anchored) (hleader : n.role = .leader) (data : Bytes) :
    (n.propose data).2.lastLogIndex = n.lastLogIndex + 1 := by
  have := List.length_pos_of_ne_nil hn.nonempty
  unfold propose
  rw [if_neg (not_not.mpr hleader)]
  simp only
  rw [maybeAdvanceCommit_lastLogIndex]
  simp only [appendOwn, persistEntries, lastLogIndex, List.length_append, List.length_singleton]
  omega

theorem propose_currentTerm (hleader : n.role = .leader) (data : Bytes) :
    (n.propose data).2.currentTerm = n.currentTerm := by
  unfold propose
  rw [if_neg (not_not.mpr hleader)]
  simp only
  rw [maybeAdvanceCommit_frame currentTerm fun _ _ => rfl]
  rfl

end Node

/-! ## A cluster -/

/-- `K` is the set of the entries made so far. -/
structure Created (K : Set LogEntry) (c : Cluster σ) : Prop where
  unique : ∀ e ∈ K, ∀ e' ∈ K, e.index = e'.index → e.term = e'.term → e = e'
  led : ∀ e ∈ K, ∃ i, (c.nodes i).Led e.term
  /-- A leader's next entry goes behind all entries of its term. -/
  behind : ∀ i, (c.nodes i).role = .leader → ∀ e ∈ K, e.term = (c.nodes i).currentTerm →
    e.index ≤ (c.nodes i).lastLogIndex
  anchored : ∀ i, (c.nodes i).Anchored
  logs : ∀ i, ∀ e ∈ (c.nodes i).log.tail, e ∈ K
  carried : ∀ r ∈ c.appends, ∀ e ∈ r.request.entries, e ∈ K
  sent : ∀ i e, .command e ∈ (c.nodes i).applyCh → e ∈ K

/-- Restarts, if this is one, find term, vote and log as they were in memory. -/
def Action.resumes : Action → Bool
  | .restart _ => false
  | .crash .. => false
  | _ => true

namespace Created

variable {K : Set LogEntry} {M : Members} {c c' : Cluster σ}

theorem initial [PersistentState σ] (M : Members) : Created ∅ (Cluster.initial M : Cluster σ) where
  unique := by simp
  led := by simp
  behind := by simp
  anchored i := ⟨by simp [Cluster.initial, Node.newNode], le_rfl⟩
  logs := by simp [Cluster.initial, Node.newNode]
  carried := by simp [Cluster.initial]
  sent := by simp [Cluster.initial, Node.newNode]

/-- What a step that makes no entry has to show.  A node that has just become leader
finds no entry of its term: its maker would have led the same term. -/
theorem follow (h : Created K c) (hE' : ElectionInv M c')
    (hdraws : ∀ i, (c.nodes i).Draws K (c'.nodes i))
    (hled : ∀ i t, (c.nodes i).Led t → (c'.nodes i).Led t)
    (hlead : ∀ i, (c'.nodes i).role = .leader →
      (c.nodes i).role = .leader ∧ (c'.nodes i).currentTerm = (c.nodes i).currentTerm ∨
        ¬ (c.nodes i).Led (c'.nodes i).currentTerm)
    (hcarried : ∀ r ∈ c'.appends, ∀ e ∈ r.request.entries, e ∈ K) : Created K c' where
  unique := h.unique
  led e he := by
    obtain ⟨i, hi⟩ := h.led e he
    exact ⟨i, hled i _ hi⟩
  behind i hrole e he hterm := by
    rcases hlead i hrole with ⟨hrole', hterm'⟩ | hnot
    · exact (h.behind i hrole' e he (hterm.trans hterm')).trans ((hdraws i).last hrole)
    · obtain ⟨j, hj⟩ := h.led e he
      rw [hterm] at hj
      obtain rfl : j = i := hE'.unique (hled j _ hj) ((hE'.ballot i).leads hrole)
      exact absurd hj hnot
  anchored i := (hdraws i).anchored
  logs i e he := ((hdraws i).log e he).elim (h.logs i e) id
  carried := hcarried
  sent i e he := by
    rcases (hdraws i).sent e he with he | he | he
    · exact h.sent i e he
    · exact h.logs i e he
    · exact he

/-- The same when one node has moved. -/
theorem follow_node (h : Created K c) (hE' : ElectionInv M c') {i : NodeId} {n : Node σ}
    (hnodes : c'.nodes = update c.nodes i n) (hdraws : (c.nodes i).Draws K n)
    (hled : ∀ t, (c.nodes i).Led t → n.Led t)
    (hlead : n.role = .leader → (c.nodes i).role = .leader ∧
      n.currentTerm = (c.nodes i).currentTerm ∨ ¬ (c.nodes i).Led n.currentTerm)
    (hcarried : ∀ r ∈ c'.appends, ∀ e ∈ r.request.entries, e ∈ K) : Created K c' := by
  have hnode : ∀ j, (j = i ∧ c'.nodes j = n) ∨ c'.nodes j = c.nodes j := by
    intro j
    rw [hnodes]
    by_cases hj : j = i
    · subst hj
      exact .inl ⟨rfl, update_self ..⟩
    · exact .inr (update_of_ne hj ..)
  refine h.follow hE' (fun j => ?_) (fun j t => ?_) (fun j hrole => ?_) hcarried
  · rcases hnode j with ⟨rfl, heq⟩ | heq
    · rw [heq]
      exact hdraws
    · rw [heq]
      exact .refl (h.anchored j)
  · rcases hnode j with ⟨rfl, heq⟩ | heq
    · rw [heq]
      exact hled t
    · rw [heq]
      exact id
  · rcases hnode j with ⟨rfl, heq⟩ | heq
    · rw [heq] at hrole ⊢
      exact hlead hrole
    · rw [heq] at hrole ⊢
      exact .inl ⟨hrole, rfl⟩

/-- A step of one node that is quiet in elections. -/
theorem quiet (h : Created K c) (hE' : ElectionInv M c') {i : NodeId} {n : Node σ}
    (hnodes : c'.nodes = update c.nodes i n) (hdraws : (c.nodes i).Draws K n)
    (hquiet : Quiet (c.nodes i) n)
    (hcarried : ∀ r ∈ c'.appends, ∀ e ∈ r.request.entries, e ∈ K) : Created K c' := by
  refine h.follow_node hE' hnodes hdraws (fun _ => hquiet.led.mpr) (fun hrole => .inl ?_) hcarried
  obtain ⟨hsame, hterm, -⟩ := hquiet.role (by simp [hrole])
  exact ⟨hsame ▸ hrole, hterm⟩

/-- A step of one node that may win an election. -/
theorem elects (h : Created K c) (hE' : ElectionInv M c') {i : NodeId} {n : Node σ}
    (hnodes : c'.nodes = update c.nodes i n) (hholding : n.holding = (c.nodes i).holding)
    (hled : ∀ t, (c.nodes i).Led t → n.Led t)
    (hlead : n.role = .leader → (c.nodes i).role = .leader ∧
      n.currentTerm = (c.nodes i).currentTerm ∨ ¬ (c.nodes i).Led n.currentTerm)
    (hcarried : c'.appends = c.appends) : Created K c' :=
  h.follow_node hE' hnodes (.of_holding (h.anchored i) hholding) hled hlead
    (hcarried ▸ h.carried)

/-- A step of no node. -/
theorem unchanged (h : Created K c) (hE' : ElectionInv M c') (hnodes : c'.nodes = c.nodes)
    (hcarried : ∀ r ∈ c'.appends, ∀ e ∈ r.request.entries, e ∈ K) : Created K c' := by
  refine h.follow hE' (fun j => ?_) (fun j t => ?_) (fun j hrole => .inl ?_) hcarried
  · rw [hnodes]
    exact .refl (h.anchored j)
  · rw [hnodes]
    exact id
  · rw [hnodes] at hrole ⊢
    exact ⟨hrole, rfl⟩

/-- Calls that were answered or taken carry what they carried. -/
theorem carried_modify (h : Created K c) (k : ℕ)
    {f : Rpc AppendEntriesRequest AppendEntriesResponse →
      Rpc AppendEntriesRequest AppendEntriesResponse}
    (hf : ∀ r, (f r).request = r.request) :
    ∀ r ∈ c.appends.modify k f, ∀ e ∈ r.request.entries, e ∈ K := by
  intro r hr
  obtain ⟨j, hj⟩ := List.mem_iff_getElem?.mp hr
  obtain ⟨r', hr', rfl⟩ := Rpc.getElem?_modify hj
  have hmem := List.mem_of_getElem? hr'
  split
  · rw [hf]
    exact h.carried r' hmem
  · exact h.carried r' hmem

variable [PersistentState σ]

theorem electionTimeout (h : Created K c) (hE : ElectionInv M c) {i : NodeId}
    (hE' : ElectionInv M (c.electionTimeout i)) : Created K (c.electionTimeout i) := by
  refine h.elects hE' rfl (Node.electionTimeout_holding _) (fun t ht => ?_) (fun hrole => ?_) rfl
  · obtain ⟨base, log, hmem⟩ := ht
    refine ⟨base, log, ?_⟩
    unfold Node.electionTimeout
    split
    · unfold Node.startElection
      split
      · simp [Node.campaign, Node.persistHardState, Node.becomeLeader, hmem]
      · simp [Node.campaign, Node.persistHardState, hmem]
    · exact hmem
  · by_cases hleader : (c.nodes i).role = .leader
    · refine .inl ⟨hleader, ?_⟩
      simp [Node.electionTimeout, hleader]
    · -- the election of a cluster of one: the term is new
      refine .inr fun hled => ?_
      have hle := (hE.ballot i).led_le _ hled
      have hterm : (c.nodes i).electionTimeout.2.currentTerm = (c.nodes i).currentTerm + 1 := by
        unfold Node.electionTimeout Node.startElection
        rw [if_pos hleader]
        split
        · rfl
        · rfl
      omega

theorem replyVote (h : Created K c) (hE : ElectionInv M c) {r : VoteRpc}
    {resp : RequestVoteResponse} (hE' : ElectionInv M c')
    (hnodes : c'.nodes =
      update c.nodes r.caller ((c.nodes r.caller).handleVoteReply r.request resp))
    (hcarried : c'.appends = c.appends) : Created K c' := by
  rcases (c.nodes r.caller).handleVoteReply_cases r.request resp with hquiet |
    ⟨-, hcandidate, hterm, heq⟩
  · exact h.quiet hE' hnodes (.of_holding (h.anchored _) (Node.handleVoteReply_holding _ _ _))
      hquiet (hcarried ▸ h.carried)
  · refine h.elects hE' hnodes (Node.handleVoteReply_holding _ _ _) (fun t ht => ?_)
      (fun _ => .inr fun hled => ?_) hcarried
    · obtain ⟨base, log, hmem⟩ := ht
      refine ⟨base, log, ?_⟩
      rw [heq]
      unfold Node.countVote
      split
      · simp [Node.becomeLeader, hmem]
      · exact hmem
    · have hsame : ((c.nodes r.caller).handleVoteReply r.request resp).currentTerm =
          (c.nodes r.caller).currentTerm := by
        rw [heq]
        unfold Node.countVote
        split
        · rfl
        · rfl
      rw [hsame] at hled
      exact (hE.ballot r.caller).unled hcandidate hled

/-- A granted vote leaves role, log and victories alone. -/
theorem deliverVote (h : Created K c) {r : VoteRpc} (hE' : ElectionInv M c')
    (hnodes : c'.nodes =
      update c.nodes r.callee ((c.nodes r.callee).handleRequestVote r.request).2)
    (hcarried : c'.appends = c.appends) : Created K c' := by
  rcases (c.nodes r.callee).handleRequestVote_cases r.request with ⟨-, hquiet⟩ |
    ⟨-, -, -, heq⟩
  · exact h.quiet hE' hnodes (.of_holding (h.anchored _) (Node.handleRequestVote_holding _ _))
      hquiet (hcarried ▸ h.carried)
  · have hobserve := (c.nodes r.callee).observeTerm_quiet r.request.term
    refine h.elects hE' hnodes (Node.handleRequestVote_holding _ _) (fun t ht => ?_)
      (fun hrole => .inl ?_) hcarried
    · obtain ⟨base, log, hmem⟩ := hobserve.led.mpr ht
      refine ⟨base, log, ?_⟩
      rw [heq]
      simp [Node.grantVote, Node.persistHardState, hmem]
    · rw [heq] at hrole ⊢
      have hrole' : ((c.nodes r.callee).observeTerm r.request.term).role = .leader := hrole
      obtain ⟨hsame, hterm, -⟩ := hobserve.role (by simp [hrole'])
      exact ⟨hsame ▸ hrole', hterm⟩

/-- A leader's proposal makes one entry, and its term has none like it. -/
theorem propose_leader (h : Created K c) (hE : ElectionInv M c) {i : NodeId}
    (hleader : (c.nodes i).role = .leader) (data : Bytes) :
    Created (insert ((c.nodes i).nextEntry data) K) (c.propose i data) := by
  have hquiet := (c.nodes i).propose_quiet data
  have hdraws := (c.nodes i).propose_draws (K := K) (h.anchored i) data
  have hself : (c.propose i data).nodes i = ((c.nodes i).propose data).2 := c.setNode_self ..
  have hother : ∀ j, j ≠ i → (c.propose i data).nodes j = c.nodes j := fun j hj =>
    c.setNode_of_ne _ hj
  have hleads := (hE.ballot i).leads hleader
  have hnew : ∀ e ∈ K, e.index = (c.nodes i).lastLogIndex + 1 →
      e.term ≠ (c.nodes i).currentTerm := by
    intro e he hindex hsame
    have := h.behind i hleader e he hsame
    omega
  constructor
  case unique =>
    rintro e (rfl | he) e' (rfl | he') hindex hsame
    · rfl
    · exact absurd hsame.symm (hnew e' he' hindex.symm)
    · exact absurd hsame (hnew e he hindex)
    · exact h.unique e he e' he' hindex hsame
  case led =>
    have hled : ∀ j t, (c.nodes j).Led t → ((c.propose i data).nodes j).Led t :=
      Cluster.setNode_forall (P := fun j n => ∀ t, (c.nodes j).Led t → n.Led t)
        (fun _ => hquiet.led.mpr) fun j _ _ => id
    rintro e (rfl | he)
    · exact ⟨i, hled i _ hleads⟩
    · obtain ⟨j, hj⟩ := h.led e he
      exact ⟨j, hled j _ hj⟩
  case behind =>
    intro j hrole e he hsame
    by_cases hji : j = i
    · subst hji
      rw [hself] at hsame ⊢
      rw [Node.propose_lastLogIndex (h.anchored j) hleader data]
      rw [Node.propose_currentTerm hleader] at hsame
      rcases he with rfl | he
      · exact le_rfl
      · exact (h.behind j hleader e he hsame).trans (Nat.le_succ _)
    · rw [hother j hji] at hrole hsame ⊢
      rcases he with rfl | he
      · -- another leader of the same term does not exist
        have hled := (hE.ballot j).leads hrole
        rw [← hsame] at hled
        exact absurd (hE.unique hled hleads) hji
      · exact h.behind j hrole e he hsame
  case anchored => exact c.setNode_forall hdraws.anchored fun j _ => h.anchored j
  case logs =>
    refine Cluster.setNode_forall
      (P := fun _ n => ∀ e ∈ n.log.tail, e ∈ insert ((c.nodes i).nextEntry data) K)
      (fun e he => ?_) fun j _ e he => .inr (h.logs j e he)
    exact (hdraws.log e he).elim (fun he => .inr (h.logs i e he)) id
  case carried => exact fun r hr e he => .inr (h.carried r hr e he)
  case sent =>
    refine Cluster.setNode_forall
      (P := fun _ n => ∀ e, .command e ∈ n.applyCh → e ∈ insert ((c.nodes i).nextEntry data) K)
      (fun e he => ?_) fun j _ e he => .inr (h.sent j e he)
    rcases hdraws.sent e he with he | he | he
    · exact .inr (h.sent i e he)
    · exact .inr (h.logs i e he)
    · exact he

/-- A proposal makes an entry if its node leads, and what it returns is that entry. -/
theorem propose (h : Created K c) (hE : ElectionInv M c) (i : NodeId) (data : Bytes) :
    ∃ K', K ⊆ K' ∧ Created K' (c.propose i data) ∧
      (∀ e ∈ K', e ∈ K ∨ (c.nodes i).role = .leader ∧ e = (c.nodes i).nextEntry data) ∧
      ∀ index term, ((c.nodes i).propose data).1 = some (index, term) →
        (⟨index, term, data⟩ : LogEntry) ∈ K' := by
  by_cases hleader : (c.nodes i).role = .leader
  · refine ⟨_, Set.subset_insert _ _, h.propose_leader hE hleader data, ?_, ?_⟩
    · rintro e (rfl | he)
      · exact .inr ⟨hleader, rfl⟩
      · exact .inl he
    intro index term hresult
    rw [← Node.nextEntry_of_propose hresult]
    exact Set.mem_insert _ _
  · have hquiet := (c.nodes i).propose_quiet data
    have hE' : ElectionInv M (c.propose i data) := hE.quiet_setNode hquiet rfl rfl
    have hsame : (c.nodes i).propose data = (none, c.nodes i) := if_pos hleader
    refine ⟨K, subset_rfl, ?_, fun e he => .inl he, ?_⟩
    · have hdraws : (c.nodes i).Draws K ((c.nodes i).propose data).2 := by
        rw [hsame]
        exact .refl (h.anchored i)
      exact h.quiet hE' rfl hdraws hquiet h.carried
    · intro index term hresult
      rw [hsame] at hresult
      simp at hresult

/-- Every action keeps the invariant, for a set that has grown by what it made. -/
theorem step (h : Created K c) (hE : ElectionInv M c) {a : Action} (ha : a.resumes)
    (hE' : ElectionInv M (c.step M a)) : ∃ K', K ⊆ K' ∧ Created K' (c.step M a) ∧
      ∀ e ∈ K', e ∈ K ∨ ∃ i data, a = .propose i data ∧ (c.nodes i).role = .leader ∧
        e = (c.nodes i).nextEntry data := by
  have heffect := c.step_effect M a
  generalize c.step M a = c' at heffect hE'
  -- only a proposal makes an entry
  suffices hsame : Created K c' ∨ ∃ i data, a = .propose i data ∧ c' = c.propose i data by
    rcases hsame with hsame | ⟨i, data, rfl, rfl⟩
    · exact ⟨K, subset_rfl, hsame, fun e he => .inl he⟩
    · obtain ⟨K', hsub, hcreated, hmade, -⟩ := h.propose hE i data
      exact ⟨K', hsub, hcreated, fun e he => (hmade e he).imp_right fun ⟨hleader, heq⟩ =>
        ⟨i, data, rfl, hleader, heq⟩⟩
  cases heffect with
  | idle => exact .inl h
  | electionTimeout => exact .inl (h.electionTimeout hE hE')
  | deliverVote => exact .inl (h.deliverVote hE' rfl rfl)
  | replyVote => exact .inl (h.replyVote hE hE' rfl rfl)
  | propose => exact .inr ⟨_, _, rfl, rfl⟩
  | startTask => exact .inl (h.unchanged hE' rfl h.carried)
  | @sendAppend i peer req _ _ built =>
      refine .inl (h.unchanged hE' rfl fun r hr => ?_)
      rcases List.mem_append.mp hr with hr | hr
      · exact h.carried r hr
      · rw [List.mem_singleton.mp hr]
        exact fun e he => h.logs i e (Node.replicateToPeer_entries built e he)
  | deliverAppend call =>
      have hreq := h.carried _ (List.mem_of_getElem? call)
      exact .inl (h.quiet hE' rfl (Node.handleAppendEntries_draws (h.anchored _) hreq)
        (Node.handleAppendEntries_quiet _ _) (h.carried_modify _ fun _ => rfl))
  | replyAppend =>
      exact .inl (h.quiet hE' rfl (Node.handleAppendReply_draws (h.anchored _) _ _ _)
        (Node.handleAppendReply_quiet _ _ _ _) (h.carried_modify _ fun _ => rfl))
  | dropTask => exact .inl (h.unchanged hE' rfl h.carried)
  | beginSnapshot => exact .inl (h.unchanged hE' rfl h.carried)
  | loadSnapshot => exact .inl (h.unchanged hE' rfl h.carried)
  | deliverSnapshot =>
      exact .inl (h.quiet hE' rfl (Node.handleInstallSnapshot_draws (h.anchored _) _)
        (Node.handleInstallSnapshot_quiet _ _) h.carried)
  | replySnapshot =>
      exact .inl (h.quiet hE' rfl
        (.of_holding (h.anchored _) (Node.handleSnapshotReply_holding _ _ _ _))
        (Node.handleSnapshotReply_quiet _ _ _ _) h.carried)
  | compactLog =>
      exact .inl (h.quiet hE' rfl (Node.compactLog_draws (h.anchored _) _ _ _)
        (Node.compactLog_quiet _ _ _ _) h.carried)
  | @resume i =>
      refine .inl (h.quiet hE' rfl ?_ (Node.resume_quiet _) fun r hr => ?_)
      · exact ⟨⟨(h.anchored i).nonempty, le_rfl⟩, fun e he => .inl he,
          fun e he => by simp [Node.resume, Node.newNode] at he, fun _ => le_rfl⟩
      · obtain ⟨r', hr', rfl⟩ := List.mem_map.mp hr
        rw [(Rpc.Later.abandon i r').request]
        exact h.carried r' hr'
  | restart => simp [Action.resumes] at ha
  | crash => simp [Action.resumes] at ha

end Created

end RaftKV.Raft
