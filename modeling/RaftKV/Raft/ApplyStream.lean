import RaftKV.Raft.Created
import RaftKV.Raft.Durability

/-!
# What leaves on `ApplyCh`

The application reads `ApplyCh` as a stream: each command is the next one after what it
has, and a snapshot takes it at least to the snapshot's index.  `heightAfter` follows such a
stream and gives up at the first command that is not the next one.

A node keeps to this as long as the log it was started with is numbered one by one
(`Node.InOrder`).  The log may end below `commitIndex` (a snapshot discards it whole), but an
`AppendEntries` request that is accepted brings at least as many entries as it commits.
`Start` takes over from storage what it finds, and then the stream is in order in every run
if and only if storage holds consecutive entries.
-/

namespace RaftKV.Raft

/-! ## Streams -/

/-- How far a reader at `h` gets with these messages; `none` if it meets a command that is
not the next one. -/
def heightAfter (h : ℕ) : List ApplyMsg → Option ℕ
  | [] => some h
  | .command e :: rest => if e.index = h + 1 then heightAfter (h + 1) rest else none
  | .snapshot _ index _ :: rest => heightAfter (max h index) rest

theorem heightAfter_append (h : ℕ) (msgs msgs' : List ApplyMsg) :
    heightAfter h (msgs ++ msgs') = (heightAfter h msgs).bind (heightAfter · msgs') := by
  induction msgs generalizing h with
  | nil => rfl
  | cons msg rest ih =>
      cases msg with
      | command e =>
          rw [List.cons_append, heightAfter, heightAfter]
          split
          · exact ih (h + 1)
          · rfl
      | snapshot data index term =>
          rw [List.cons_append, heightAfter, heightAfter]
          exact ih (max h index)

/-- Commands are in order if they are numbered one by one. -/
theorem heightAfter_commands {h : ℕ} {es : List LogEntry} (hes : Consecutive (h + 1) es) :
    heightAfter h (es.map .command) = some (h + es.length) := by
  induction es generalizing h with
  | nil => rfl
  | cons e rest ih =>
      rw [List.map_cons, heightAfter, if_pos hes.1, ih hes.2, List.length_cons]
      congr 1
      omega

theorem consecutive_of_heightAfter {h k : ℕ} {es : List LogEntry}
    (hes : heightAfter h (es.map .command) = some k) : Consecutive (h + 1) es := by
  induction es generalizing h with
  | nil => trivial
  | cons e rest ih =>
      rw [List.map_cons, heightAfter] at hes
      split at hes
      · next hindex => exact ⟨hindex, ih hes⟩
      · simp at hes

variable {σ : Type}

/-- The calls of the stream's contract: `AppendEntries` requests as `replicateToPeer` builds
them, and any other call. -/
def Section.Replicates : Section → Prop
  | .appendEntries req =>
      Consecutive (req.prevLogIndex + 1) req.entries ∧
        req.leaderCommit ≤ req.prevLogIndex + req.entries.length
  | _ => True

instance : (call : Section) → Decidable call.Replicates
  | .appendEntries _ => inferInstanceAs (Decidable (_ ∧ _))
  | .electionTimeout | .voteReply .. | .requestVote _ | .installSnapshot _ | .compactLog ..
  | .propose _ | .appendReply .. | .snapshotReply .. => inferInstanceAs (Decidable True)

namespace Node

/-! ## The invariant -/

/-- The log is numbered one by one, and the stream from `b` on has come to `commitIndex`. -/
structure InOrder (b : ℕ) (n : Node σ) : Prop where
  anchored : n.Anchored
  consecutive : Consecutive n.lastIncludedIndex n.log
  stream : heightAfter b n.applyCh = some n.commitIndex

/-- What a step leaves behind. -/
structure Advances (b : ℕ) (n n' : Node σ) : Prop where
  inOrder : n'.InOrder b
  commit_le : n.commitIndex ≤ n'.commitIndex

variable {b : ℕ} {n n' n'' : Node σ}

theorem Advances.of_holding (hn : n.InOrder b) (h : n'.holding = n.holding) :
    n.Advances b n' := by
  have hanchored := hn.anchored.congr h
  simp only [holding, Prod.mk.injEq] at h
  obtain ⟨hlog, hbase, hcommit, happlied⟩ := h
  refine ⟨⟨hanchored, ?_, ?_⟩, hcommit.ge⟩
  · rw [hlog, hbase]
    exact hn.consecutive
  · rw [happlied, hcommit]
    exact hn.stream

theorem Advances.refl (hn : n.InOrder b) : n.Advances b n :=
  .of_holding hn rfl

theorem Advances.trans (h : n.Advances b n') (h' : n'.Advances b n'') : n.Advances b n'' :=
  ⟨h'.inOrder, h.commit_le.trans h'.commit_le⟩

/-- A new log on the old baseline. -/
theorem InOrder.setLog (hn : n.InOrder b) {log : List LogEntry} (hne : log ≠ [])
    (hlog : Consecutive n.lastIncludedIndex log)
    (h : n'.holding = (log, n.lastIncludedIndex, n.commitIndex, n.applyCh)) :
    n.Advances b n' := by
  simp only [holding, Prod.mk.injEq] at h
  obtain ⟨rfl, hbase, hcommit, happlied⟩ := h
  refine ⟨⟨⟨hne, ?_⟩, hbase ▸ hlog, ?_⟩, hcommit.ge⟩
  · rw [hbase, hcommit]
    exact hn.anchored.committed
  · rw [happlied, hcommit]
    exact hn.stream

/-! ## Commits -/

/-- Looking up indices one by one is taking a part of the log. -/
theorem filterMap_logPos (n : Node σ) {start : ℕ} (hstart : n.lastIncludedIndex ≤ start)
    (count : ℕ) :
    (List.range' start count).filterMap (fun i => (n.logPos i).map n.log.get) =
      (n.log.drop (start - n.lastIncludedIndex)).take count := by
  induction count generalizing start with
  | zero => simp
  | succ count ih =>
      rw [List.range'_succ, List.filterMap_cons, ih (by omega)]
      have hsub : start + 1 - n.lastIncludedIndex = start - n.lastIncludedIndex + 1 := by omega
      rw [hsub]
      by_cases hlt : start - n.lastIncludedIndex < n.log.length
      · have hpos : n.logPos start = some ⟨_, hlt⟩ := by
          unfold logPos
          rw [if_neg (by omega), dif_pos hlt]
        rw [hpos, List.drop_eq_getElem_cons hlt, List.take_succ_cons]
        rfl
      · have hpos : n.logPos start = none := by
          unfold logPos
          rw [if_neg (by omega), dif_neg hlt]
        rw [hpos, List.drop_eq_nil_of_le (by omega), List.drop_eq_nil_of_le (by omega)]
        simp

/-- Advancing the commit point inside the log delivers everything up to it. -/
theorem InOrder.advanceCommitTo (hn : n.InOrder b) {m : ℕ} (hle : n.commitIndex ≤ m)
    (hm : m ≤ n.lastLogIndex) : n.Advances b (n.advanceCommitTo m) := by
  have hbase := hn.anchored.committed
  refine ⟨⟨⟨hn.anchored.nonempty, hbase.trans hle⟩, hn.consecutive, ?_⟩, hle⟩
  have hsent : (n.advanceCommitTo m).applyCh = n.applyCh ++
      ((n.log.drop (n.commitIndex + 1 - n.lastIncludedIndex)).take
        (m - n.commitIndex)).map .command := by
    rw [← filterMap_logPos n (by omega)]
    rfl
  have hnumbered : Consecutive (n.commitIndex + 1)
      ((n.log.drop (n.commitIndex + 1 - n.lastIncludedIndex)).take (m - n.commitIndex)) := by
    have hdrop := hn.consecutive.drop (n.commitIndex + 1 - n.lastIncludedIndex)
    rw [Nat.add_sub_cancel' (by omega)] at hdrop
    exact hdrop.take _
  have hlength : ((n.log.drop (n.commitIndex + 1 - n.lastIncludedIndex)).take
      (m - n.commitIndex)).length = m - n.commitIndex := by
    have := lastLogIndex_succ hn.anchored.nonempty
    rw [List.length_take, List.length_drop]
    omega
  rw [hsent, heightAfter_append, hn.stream, Option.bind_some, heightAfter_commands hnumbered,
    hlength, Nat.add_sub_cancel' hle]
  rfl

theorem InOrder.maybeAdvanceCommit (hn : n.InOrder b) : n.Advances b n.maybeAdvanceCommit := by
  unfold Node.maybeAdvanceCommit
  rcases n.advanceCommitFrom_cases n.lastLogIndex with heq | ⟨idx, -, hlt, hle, -, -, -, heq⟩
  · rw [heq]
    exact .refl hn
  · rw [heq, commitThrough]
    have hevent : n.Advances b { n with events := n.events ++
        [Event.committed n.currentTerm idx n.lastIncludedIndex n.log] } := .of_holding hn rfl
    exact hevent.trans (hevent.inOrder.advanceCommitTo hlt.le hle)

/-- The leader's commit index lies inside the log. -/
theorem InOrder.learnCommit (hn : n.InOrder b) {leaderCommit : ℕ}
    (hle : leaderCommit ≤ n.lastLogIndex) : n.Advances b (n.learnCommit leaderCommit) := by
  unfold Node.learnCommit
  split
  · next hlt =>
      rw [if_neg (by omega)]
      exact hn.advanceCommitTo hlt.le hle
  · exact .refl hn

/-! ## Appending -/

variable [PersistentState σ]

/-- The append loop keeps the numbering, and the log ends no earlier than the request. -/
theorem appendNew_consecutive {n : Node σ} (hne : n.log ≠ [])
    (hlog : Consecutive n.lastIncludedIndex n.log) {idx : ℕ} {es : List LogEntry}
    (hidx : idx ≤ n.lastLogIndex + 1) (hes : Consecutive idx es) :
    (n.appendNew idx es).log ≠ [] ∧
      Consecutive n.lastIncludedIndex (n.appendNew idx es).log ∧
      idx + es.length ≤ (n.appendNew idx es).lastLogIndex + 1 := by
  induction es generalizing n idx with
  | nil => exact ⟨hne, hlog, hidx⟩
  | cons entry rest ih =>
      have hlast := lastLogIndex_succ hne
      have hbase := base_le_lastLogIndex hne
      have hrest : idx + (entry :: rest).length = idx + 1 + rest.length := by
        rw [List.length_cons]
        omega
      rw [hrest]
      -- the log that ends with this entry
      have hgrow : ∀ (front : List LogEntry) (storage : σ),
          Consecutive n.lastIncludedIndex front → n.lastIncludedIndex + front.length = idx →
          (({ n with log := front ++ [entry], storage := storage } : Node σ).appendNew (idx + 1)
              rest).log ≠ [] ∧
            Consecutive n.lastIncludedIndex
              (({ n with log := front ++ [entry], storage := storage } : Node σ).appendNew
                (idx + 1) rest).log ∧
            idx + 1 + rest.length ≤
              (({ n with log := front ++ [entry], storage := storage } : Node σ).appendNew
                (idx + 1) rest).lastLogIndex + 1 := by
        intro front storage hfront hend
        refine ih (n := { n with log := front ++ [entry], storage := storage }) (by simp) ?_ ?_
          hes.2
        · exact hfront.append ⟨hes.1.trans hend.symm, trivial⟩
        · rw [lastLogIndex_succ (by simp)]
          simp only [List.length_append, List.length_singleton]
          omega
      rw [appendNew]
      split
      · next hle => exact ih hne hlog (by omega) hes.2
      · next hgt =>
          split
          · next hnone =>
              have hend : n.lastIncludedIndex + n.log.length = idx := by
                have := end_le_of_logPos hnone (by omega)
                omega
              exact hgrow n.log n.storage hlog hend
          · next pos hpos =>
              have hval := logPos_val hpos
              have hpos_lt := pos.isLt
              split
              · refine hgrow (n.log.take pos) _ (hlog.take _) ?_
                rw [List.length_take]
                omega
              · exact ih hne hlog (by omega) hes.2

theorem persistRequest_holding (n : Node σ) (entries : List LogEntry) :
    (n.persistRequest entries).holding = n.holding := by
  unfold persistRequest
  split <;> rfl

theorem InOrder.handleAppendEntries (hn : n.InOrder b) {req : AppendEntriesRequest}
    (hreq : (Section.appendEntries req).Replicates) :
    n.Advances b (n.handleAppendEntries req).2 := by
  obtain ⟨hentries, hcommit⟩ := hreq
  unfold Node.handleAppendEntries
  split
  · exact .refl hn
  · have hfollow : n.Advances b (n.followLeader req.term req.leaderId) :=
      .of_holding hn (followLeader_holding n _ _)
    refine hfollow.trans ?_
    generalize n.followLeader req.term req.leaderId = m at hfollow ⊢
    have hm := hfollow.inOrder
    unfold checkAndAccept
    split
    · exact .refl hm
    · next hconflict =>
        unfold acceptEntries
        obtain ⟨hne, hlog, hend⟩ := appendNew_consecutive hm.anchored.nonempty hm.consecutive
          (Nat.add_le_add_right (le_lastLogIndex_of_conflict hconflict) 1) hentries
        obtain ⟨log, storage, heq⟩ := m.appendNew_frame (req.prevLogIndex + 1) req.entries
        have hpersist := persistRequest_holding
          (m.appendNew (req.prevLogIndex + 1) req.entries) req.entries
        have happend : m.Advances b
            ((m.appendNew (req.prevLogIndex + 1) req.entries).persistRequest req.entries) := by
          refine hm.setLog hne hlog (hpersist.trans ?_)
          rw [heq]
          rfl
        refine happend.trans (happend.inOrder.learnCommit ?_)
        rw [lastLogIndex_of_holding hpersist]
        omega

theorem InOrder.propose (hn : n.InOrder b) (data : Bytes) : n.Advances b (n.propose data).2 := by
  unfold Node.propose
  split
  · exact .refl hn
  · have hlen := List.length_pos_of_ne_nil hn.anchored.nonempty
    have hne : n.log ++ [n.nextEntry data] ≠ [] := by simp
    have happend : n.Advances b (n.appendOwn (n.nextEntry data)) := by
      refine hn.setLog hne ?_ rfl
      refine hn.consecutive.append ⟨?_, trivial⟩
      simp only [nextEntry, lastLogIndex]
      omega
    exact happend.trans happend.inOrder.maybeAdvanceCommit

theorem InOrder.handleAppendReply (hn : n.InOrder b) (peer : NodeId)
    (req : AppendEntriesRequest) (resp : AppendEntriesResponse) :
    n.Advances b (n.handleAppendReply peer req resp) := by
  unfold Node.handleAppendReply
  split
  · exact .of_holding hn (becomeFollower_holding _ _)
  · split
    · exact .refl hn
    · split
      · have hmatch : n.Advances b
            (n.recordMatch peer (req.prevLogIndex + req.entries.length)) :=
          .of_holding hn (recordMatch_holding _ _ _)
        exact hmatch.trans hmatch.inOrder.maybeAdvanceCommit
      · exact .of_holding hn rfl

/-! ## Snapshots -/

theorem InOrder.installSnapshot (hn : n.InOrder b) (recv : SnapshotRecvState) :
    n.Advances b (n.installSnapshot recv).2 := by
  unfold Node.installSnapshot
  split
  · exact .of_holding hn rfl
  · refine ⟨⟨⟨by simp [replaceLog, send], ?_⟩, ⟨rfl, trivial⟩, ?_⟩, ?_⟩
    · simp only [replaceLog, send]
      split <;> omega
    · simp only [replaceLog, send]
      rw [heightAfter_append, hn.stream, Option.bind_some, heightAfter, heightAfter]
      congr 1
      split <;> omega
    · simp only [replaceLog, send]
      split <;> omega

theorem InOrder.handleInstallSnapshot (hn : n.InOrder b) (req : InstallSnapshotRequest) :
    n.Advances b (n.handleInstallSnapshot req).2 := by
  unfold Node.handleInstallSnapshot
  split
  · exact .refl hn
  · have hfollow : n.Advances b (n.followLeader req.term req.leaderId) :=
      .of_holding hn (followLeader_holding n _ _)
    refine hfollow.trans ?_
    generalize n.followLeader req.term req.leaderId = m at hfollow ⊢
    have hm := hfollow.inOrder
    unfold takeChunk
    split
    · exact .refl hm
    · unfold receiveChunk
      split
      · exact .of_holding hm rfl
      · split
        · exact .of_holding hm rfl
        · split
          · exact hm.installSnapshot _
          · exact .of_holding hm rfl

theorem InOrder.compactLog (hn : n.InOrder b) (data : Bytes) (index term : ℕ) :
    n.Advances b (n.compactLog data index term).2 := by
  obtain ⟨storage, heq | ⟨hnew, hcommitted, heq⟩⟩ := n.compactLog_cases data index term
  · rw [heq]
    exact .of_holding hn rfl
  · rw [heq]
    refine ⟨⟨⟨?_, hcommitted⟩, ?_, hn.stream⟩, le_rfl⟩
    · simp only [compacted]
      split
      · next pos hpos =>
          refine List.ne_nil_of_length_pos ?_
          rw [List.length_drop]
          exact Nat.sub_pos_of_lt pos.isLt
      · simp
    · simp only [compacted]
      split
      · next pos hpos =>
          have hdrop := hn.consecutive.drop pos
          have hbase : n.lastIncludedIndex + (pos : ℕ) = index := by
            rw [logPos_val hpos]
            omega
          rwa [hbase] at hdrop
      · exact ⟨rfl, trivial⟩

/-- Every critical section keeps the stream in order. -/
theorem InOrder.run (hn : n.InOrder b) {call : Section} (hcall : call.Replicates) :
    n.Advances b (call.run n) := by
  cases call with
  | electionTimeout => exact .of_holding hn n.electionTimeout_holding
  | voteReply req resp => exact .of_holding hn (n.handleVoteReply_holding req resp)
  | requestVote req => exact .of_holding hn (n.handleRequestVote_holding req)
  | appendEntries req => exact hn.handleAppendEntries hcall
  | installSnapshot req => exact hn.handleInstallSnapshot req
  | compactLog data index term => exact hn.compactLog data index term
  | propose data => exact hn.propose data
  | appendReply peer req resp => exact hn.handleAppendReply peer req resp
  | snapshotReply peer t resp => exact .of_holding hn (n.handleSnapshotReply_holding peer t resp)

/-! ## A process from its start on -/

omit [PersistentState σ] in
theorem seed_fresh (cfg : Config) (storage : σ) (index term : ℕ) :
    ((newNode cfg storage).seed index term).lastIncludedIndex = index ∧
      ((newNode cfg storage).seed index term).commitIndex = index ∧
      (∃ first : LogEntry, first.index = index ∧
        ((newNode cfg storage).seed index term).log = [first]) := by
  unfold seed
  split
  · exact ⟨rfl, rfl, _, rfl, rfl⟩
  · next hzero =>
      obtain rfl : index = 0 := by omega
      exact ⟨rfl, rfl, LogEntry.sentinel 0 0, rfl, rfl⟩

/-- What `Start` leaves: the commit point at the baseline, and behind the baseline's entry
whatever storage holds. -/
theorem start_shape {cfg : Config} {storage : σ} (h : (newNode cfg storage).start = .ok n) :
    n.commitIndex = n.lastIncludedIndex ∧ n.applyCh = [] ∧
      ∃ first es, n.log = first :: es ∧ first.index = n.lastIncludedIndex ∧
        loadEntries storage = .ok es := by
  obtain ⟨⟨index, term⟩, hard, es, -, -, hload, rfl⟩ := start_ok h
  obtain ⟨hbase, hcommit, first, hfirst, hlog⟩ := seed_fresh cfg storage index term
  refine ⟨hcommit.trans hbase.symm, ?_, first, es, ?_, hfirst.trans hbase.symm, hload⟩
  · exact ((newNode cfg storage).seed_frame index term).2.2.2
  · change ((newNode cfg storage).seed index term).log ++ es = first :: es
    rw [hlog]
    rfl

/-- The stream that a node sends is in order, and its commit point never falls. -/
def SendsInOrder (n : Node σ) : Prop :=
  ∀ n', Reaches Section.run (fun _ call => call.Replicates) n n' →
    heightAfter n.lastIncludedIndex n'.applyCh = some n'.commitIndex ∧
      ∀ call : Section, call.Replicates → n'.commitIndex ≤ (call.run n').commitIndex

theorem InOrder.sendsInOrder (hn : n.InOrder n.lastIncludedIndex) : n.SendsInOrder := by
  intro n' hrun
  have hn' : n'.InOrder n.lastIncludedIndex :=
    Reaches.invariant (P := InOrder n.lastIncludedIndex) hrun hn
      fun m call hm hcall => (hm.run hcall).inOrder
  exact ⟨hn'.stream, fun call hcall => (hn'.run hcall).commit_le⟩

omit [PersistentState σ] in
/-- A request that starts at the end of the log passes the consistency check. -/
theorem conflict_last (hne : n.log ≠ []) : n.conflict n.lastLogIndex n.lastLogTerm = none := by
  have hlen := List.length_pos_of_ne_nil hne
  have hsub : n.lastLogIndex - n.lastIncludedIndex = n.log.length - 1 := by
    unfold lastLogIndex
    omega
  have hlt : n.lastLogIndex - n.lastIncludedIndex < n.log.length := by omega
  have hpos : n.logPos n.lastLogIndex = some ⟨_, hlt⟩ := by
    have hbase : ¬ n.lastLogIndex < n.lastIncludedIndex := by
      unfold lastLogIndex
      omega
    unfold logPos
    rw [if_neg hbase, dif_pos hlt]
  have hterm : (n.log.get ⟨_, hlt⟩).term = n.lastLogTerm := by
    unfold lastLogTerm
    rw [List.getLast?_eq_getElem?, ← hsub, List.getElem?_eq_getElem hlt]
    rfl
  unfold conflict
  split
  · rw [if_neg (lt_irrefl _), hpos]
    simp only
    rw [if_neg (not_not.mpr hterm)]
  · rfl

/-- A heartbeat of the node's own term that commits its whole log. -/
def commitAll (n : Node σ) : AppendEntriesRequest where
  term := n.currentTerm
  leaderId := ""
  prevLogIndex := n.lastLogIndex
  prevLogTerm := n.lastLogTerm
  entries := []
  leaderCommit := n.lastLogIndex

omit [PersistentState σ] in
/-- Committing the whole log delivers everything above the baseline. -/
theorem applyCh_learnCommit {first : LogEntry} {es : List LogEntry} (hlog : n.log = first :: es)
    (hcommit : n.commitIndex = n.lastIncludedIndex) (hsent : n.applyCh = []) :
    (n.learnCommit n.lastLogIndex).applyCh = es.map .command := by
  have hlast := lastLogIndex_cons hlog
  unfold Node.learnCommit
  split
  · rw [if_neg (lt_irrefl _)]
    change n.applyCh ++ ((List.range' (n.commitIndex + 1)
      (n.lastLogIndex - n.commitIndex)).filterMap fun i => (n.logPos i).map n.log.get).map
        .command = es.map .command
    rw [filterMap_logPos n (by omega), hsent, hcommit, hlast, hlog]
    simp
  · next hle =>
      obtain rfl : es = [] := List.length_eq_zero_iff.mp (by omega)
      exact hsent

theorem applyCh_commitAll {first : LogEntry} {es : List LogEntry} (hlog : n.log = first :: es)
    (hcommit : n.commitIndex = n.lastIncludedIndex) (hsent : n.applyCh = []) :
    (n.handleAppendEntries n.commitAll).2.applyCh = es.map .command := by
  have hne : n.log ≠ [] := by simp [hlog]
  have hcurrent : ¬ n.commitAll.term < n.currentTerm := lt_irrefl n.currentTerm
  obtain ⟨term, vote, storage, heq⟩ := n.followLeader_frame n.commitAll.term n.commitAll.leaderId
  have hchecked : (n.followLeader n.commitAll.term n.commitAll.leaderId).conflict
      n.commitAll.prevLogIndex n.commitAll.prevLogTerm = none := by
    rw [heq]
    exact conflict_last hne
  unfold Node.handleAppendEntries
  rw [if_neg hcurrent, checkAndAccept, hchecked, heq]
  exact applyCh_learnCommit hlog hcommit hsent

/-- **The stream of a started node.**  In every run from `Start` on, each command on `ApplyCh`
is the next one and `commitIndex` is where the stream has come to, if and only if the entries
that `Start` has read are numbered one by one from the baseline on. -/
theorem sendsInOrder_iff {cfg : Config} {storage : σ} {n : Node σ}
    (hstart : (newNode cfg storage).start = .ok n) :
    n.SendsInOrder ↔ ∃ es, loadEntries storage = .ok es ∧
      Consecutive (n.lastIncludedIndex + 1) es := by
  obtain ⟨hcommit, hsent, first, es, hlog, hfirst, hload⟩ := start_shape hstart
  constructor
  · intro h
    refine ⟨es, hload, ?_⟩
    have hcall : (Section.appendEntries n.commitAll).Replicates := ⟨trivial, le_rfl⟩
    have hstream := (h _ (.next .refl hcall)).1
    have hall : (Section.run n (.appendEntries n.commitAll)).applyCh = es.map .command :=
      applyCh_commitAll hlog hcommit hsent
    rw [hall] at hstream
    exact consecutive_of_heightAfter hstream
  · rintro ⟨es', hload', hnumbered⟩
    obtain rfl : es = es' := Except.ok.inj (hload.symm.trans hload')
    refine InOrder.sendsInOrder ⟨⟨by simp [hlog], hcommit.ge⟩, ?_, ?_⟩
    · rw [hlog]
      exact ⟨hfirst, hnumbered⟩
    · rw [hsent, hcommit]
      rfl

/-- A node that was stopped after a compaction and a replaced entry. -/
def restarted : Except String (Node MemState) :=
  (newNode replacedEntryEnd.cfg replacedEntryEnd.storage).start

theorem sendsInOrder_replacedEntry :
    ∃ n, restarted = .ok n ∧
      heightAfter 1 (Section.run n (.appendEntries ⟨2, "c", 2, 2, [⟨3, 2, [5]⟩], 3⟩)).applyCh =
        some 3 := by
  have hstart : ∃ n, restarted = .ok n ∧ n.lastIncludedIndex = 1 ∧
      (Section.run n (.appendEntries ⟨2, "c", 2, 2, [⟨3, 2, [5]⟩], 3⟩)).commitIndex = 3 :=
    ⟨_, rfl, by decide, by decide⟩
  obtain ⟨n, hstart, hbase, hcommit⟩ := hstart
  have horder := (sendsInOrder_iff hstart).mpr ⟨[⟨2, 2, [9]⟩], by decide, by rw [hbase]; decide⟩
  refine ⟨n, hstart, ?_⟩
  have hnext : Reaches Section.run (fun _ call => call.Replicates) n
      (Section.run n (.appendEntries ⟨2, "c", 2, 2, [⟨3, 2, [5]⟩], 3⟩)) :=
    .next .refl (by decide)
  rw [← hbase, (horder _ hnext).1, hcommit]

/-- The leader's next entry, which it has committed. -/
def nextRequest : AppendEntriesRequest :=
  ⟨1, "b", 1, 1, [⟨2, 1, [8]⟩], 2⟩

/-- After a retransmission and a restart the first entry is delivered twice, and the second
one never. -/
theorem stream_repeats_entry :
    Reaches Section.run (fun _ call => call.Replicates)
        (newNode (Members.trio.config "a") PersistentState.fresh) retransmittedEnd ∧
      ∃ n, (newNode retransmittedEnd.cfg retransmittedEnd.storage).start = .ok n ∧
        (Section.run n (.appendEntries nextRequest)).applyCh =
          [.command ⟨1, 1, [7]⟩, .command ⟨1, 1, [7]⟩] ∧ ¬ n.SendsInOrder := by
  have hstart : ∃ n, (newNode retransmittedEnd.cfg retransmittedEnd.storage).start = .ok n ∧
      (Section.run n (.appendEntries nextRequest)).applyCh =
        [.command ⟨1, 1, [7]⟩, .command ⟨1, 1, [7]⟩] ∧
      heightAfter n.lastIncludedIndex (Section.run n (.appendEntries nextRequest)).applyCh =
        none :=
    ⟨_, rfl, by decide, by decide⟩
  obtain ⟨n, hstart, hsent, hheight⟩ := hstart
  refine ⟨.foldl .refl _ (by decide), n, hstart, hsent, fun horder => ?_⟩
  have hcall : (Section.appendEntries nextRequest).Replicates := by decide
  rw [(horder _ (.next .refl hcall)).1] at hheight
  simp at hheight

end Node

end RaftKV.Raft
