import RaftKV.Raft.ApplyStream
import RaftKV.Raft.ChunkedTransfer
import RaftKV.Raft.Safety

/-!
# What a cluster without compaction delivers

The readers of the nodes' `ApplyCh` belong to the application.  `Delivery` is what a
cluster without compaction keeps for readers that have each come to some index: the
messages under way are the commands that follow, one by one, and all of them have been
recorded, so that no two readers ever get different entries at one index.

The reader of a node that restarts starts over.
-/

namespace RaftKV.Raft

variable {σ : Type}

/-! ## Messages and events -/

namespace Node

/-- Whatever a step sends is recorded, and no record is lost. -/
structure Sends (n n' : Node σ) : Prop where
  grows : ∀ e ∈ n.events, e ∈ n'.events
  sent : ∀ msg ∈ n'.applyCh, msg ∈ n.applyCh ∨ .applied msg ∈ n'.events

variable {n n' n'' : Node σ}

theorem Sends.of_silent {events : List Event} (happlied : n'.applyCh = n.applyCh)
    (hevents : n'.events = n.events ++ events) : n.Sends n' where
  grows e he := by
    rw [hevents]
    exact List.mem_append_left _ he
  sent msg hmsg := .inl (happlied ▸ hmsg)

theorem Sends.refl (n : Node σ) : n.Sends n :=
  ⟨fun _ => id, fun _ => .inl⟩

theorem Sends.same (happlied : n'.applyCh = n.applyCh) (hevents : n'.events = n.events) :
    n.Sends n' :=
  .of_silent happlied (hevents.trans (List.append_nil _).symm)

theorem Sends.trans (h : n.Sends n') (h' : n'.Sends n'') : n.Sends n'' where
  grows e he := h'.grows e (h.grows e he)
  sent msg hmsg := by
    rcases h'.sent msg hmsg with hold | hnew
    · exact (h.sent msg hold).imp_right (h'.grows _)
    · exact .inr hnew

theorem advanceCommitTo_sends (n : Node σ) (newCommit : ℕ) :
    n.Sends (n.advanceCommitTo newCommit) where
  grows _ he := List.mem_append_left _ he
  sent _ hmsg := (List.mem_append.mp hmsg).imp_right fun hnew =>
    List.mem_append_right _ (List.mem_map_of_mem hnew)

theorem maybeAdvanceCommit_sends (n : Node σ) : n.Sends n.maybeAdvanceCommit := by
  unfold maybeAdvanceCommit
  rcases n.advanceCommitFrom_cases n.lastLogIndex with heq | ⟨idx, -, -, -, -, -, -, heq⟩
  · rw [heq]
    exact .refl n
  · rw [heq, commitThrough]
    have hevent : n.Sends { n with events := n.events ++
        [Event.committed n.currentTerm idx n.lastIncludedIndex n.log] } := .of_silent rfl rfl
    exact hevent.trans (advanceCommitTo_sends _ idx)

theorem learnCommit_sends (n : Node σ) (leaderCommit : ℕ) :
    n.Sends (n.learnCommit leaderCommit) := by
  unfold learnCommit
  split
  · exact advanceCommitTo_sends n _
  · exact .refl n

theorem becomeLeader_sends (n : Node σ) : n.Sends n.becomeLeader :=
  .of_silent rfl rfl

theorem recordMatch_sends (n : Node σ) (peer : NodeId) (newMatch : ℕ) :
    n.Sends (n.recordMatch peer newMatch) := by
  unfold recordMatch
  split
  · exact .same rfl rfl
  · exact .refl n

variable [PersistentState σ]

theorem becomeFollower_sends (n : Node σ) (term : ℕ) : n.Sends (n.becomeFollower term) := by
  unfold becomeFollower
  split
  · exact .same rfl rfl
  · exact .same rfl rfl

theorem observeTerm_sends (n : Node σ) (term : ℕ) : n.Sends (n.observeTerm term) := by
  unfold observeTerm
  split
  · exact becomeFollower_sends n term
  · exact .refl n

theorem followLeader_sends (n : Node σ) (term : ℕ) (leaderId : NodeId) :
    n.Sends (n.followLeader term leaderId) := by
  unfold followLeader
  split
  · exact (becomeFollower_sends n term).trans (.same rfl rfl)
  · exact .same rfl rfl

theorem electionTimeout_sends (n : Node σ) : n.Sends n.electionTimeout.2 := by
  have hcampaign : n.Sends n.campaign := .of_silent rfl rfl
  unfold electionTimeout
  split
  · unfold startElection
    split
    · exact hcampaign.trans (becomeLeader_sends _)
    · exact hcampaign
  · exact .refl n

theorem handleVoteReply_sends (n : Node σ) (req : RequestVoteRequest)
    (resp : RequestVoteResponse) : n.Sends (n.handleVoteReply req resp) := by
  unfold handleVoteReply
  split
  · exact becomeFollower_sends n _
  · split
    · have hcount : n.Sends
          { n with votes := Function.update n.votes req.term (n.votes req.term + 1) } :=
        .same rfl rfl
      unfold countVote
      split
      · exact hcount.trans (becomeLeader_sends _)
      · exact hcount
    · exact .refl n

theorem handleRequestVote_sends (n : Node σ) (req : RequestVoteRequest) :
    n.Sends (n.handleRequestVote req).2 := by
  unfold handleRequestVote
  split
  · exact .refl n
  · refine (observeTerm_sends n req.term).trans ?_
    generalize n.observeTerm req.term = m
    unfold decideVote
    split
    · exact .refl m
    · split
      · exact .refl m
      · exact .of_silent rfl rfl

theorem handleAppendEntries_sends (n : Node σ) (req : AppendEntriesRequest) :
    n.Sends (n.handleAppendEntries req).2 := by
  unfold handleAppendEntries
  split
  · exact .refl n
  · refine (followLeader_sends n req.term req.leaderId).trans ?_
    generalize n.followLeader req.term req.leaderId = m
    unfold checkAndAccept
    split
    · exact .refl m
    · obtain ⟨storage, heq⟩ := m.acceptEntries_eq req
      rw [heq]
      have happend : m.Sends
          { m with
            log := (m.appendNew (req.prevLogIndex + 1) req.entries).log
            storage := storage } := .same rfl rfl
      exact happend.trans (learnCommit_sends _ _)

theorem propose_sends (n : Node σ) (data : Bytes) : n.Sends (n.propose data).2 := by
  unfold propose
  split
  · exact .refl n
  · have happend : n.Sends (n.appendOwn (n.nextEntry data)) := .same rfl rfl
    exact happend.trans (maybeAdvanceCommit_sends _)

theorem handleAppendReply_sends (n : Node σ) (peer : NodeId) (req : AppendEntriesRequest)
    (resp : AppendEntriesResponse) : n.Sends (n.handleAppendReply peer req resp) := by
  unfold handleAppendReply
  split
  · exact becomeFollower_sends n _
  · split
    · exact .refl n
    · split
      · exact (recordMatch_sends n peer _).trans (maybeAdvanceCommit_sends _)
      · exact .same rfl rfl

end Node

/-- The critical sections of a cluster without compaction. -/
def Section.plain : Section → Bool
  | .installSnapshot _ => false
  | .compactLog .. => false
  | .snapshotReply .. => false
  | _ => true

theorem Section.unrelated_of_plain {call : Section} (h : call.plain) : call.unrelated := by
  cases call with
  | installSnapshot req => exact absurd h Bool.false_ne_true
  | _ => rfl

section Plain

variable [PersistentState σ]

theorem Section.sends {call : Section} (h : call.plain) (n : Node σ) : n.Sends (call.run n) := by
  cases call with
  | electionTimeout => exact n.electionTimeout_sends
  | voteReply req resp => exact n.handleVoteReply_sends req resp
  | requestVote req => exact n.handleRequestVote_sends req
  | appendEntries req => exact n.handleAppendEntries_sends req
  | installSnapshot req => exact absurd h Bool.false_ne_true
  | compactLog data index term => exact absurd h Bool.false_ne_true
  | propose data => exact n.propose_sends data
  | appendReply peer req resp => exact n.handleAppendReply_sends peer req resp
  | snapshotReply peer t resp => exact absurd h Bool.false_ne_true

/-! ## One action -/

variable {M : Members} {c : Cluster σ} {s : Abstract}

omit [PersistentState σ] in
theorem Indexed.consecutive {l : List LogEntry} (h : Indexed l) (start count : ℕ) :
    Consecutive (start + 1) ((l.take (start + count)).drop start) := by
  have hall : Consecutive 1 l := .of_index_eq fun k e he => by
    rw [h k e he]
    omega
  rw [Nat.add_comm start 1]
  exact (hall.take _).drop start

omit [PersistentState σ] in
/-- A request carries the entries that follow its `PrevLogIndex`, at least as many as it
commits. -/
theorem AppendRel.replicates {r : Rpc AppendEntriesRequest AppendEntriesResponse}
    (h : AppendRel M s r) (hindexed : ∀ t, Indexed (s.chain t)) :
    (Section.appendEntries r.request).Replicates := by
  refine ⟨?_, h.commit_le⟩
  have hentries := (hindexed r.request.term).consecutive r.request.prevLogIndex
    r.request.entries.length
  rw [← h.entries] at hentries
  exact hentries

/-- What an action does to each node. -/
theorem Cluster.step_plain (hU : Uncompacted c) (hR : Rel M c s) {a : Action} (ha : a.plain)
    (i : NodeId) : (c.step M a).nodes i = c.nodes i ∨
      (∃ call : Section, call.plain ∧ call.Replicates ∧
        (c.step M a).nodes i = call.run (c.nodes i)) ∨
      a = .resume i ∧ (c.step M a).nodes i = (c.nodes i).resume := by
  -- a step that sets one node concerns no other
  have hset : ∀ (call : Section) {j : NodeId} {c' : Cluster σ}, call.plain → call.Replicates →
      c'.nodes = Function.update c.nodes j (call.run (c.nodes j)) →
      c'.nodes i = c.nodes i ∨ ∃ call : Section, call.plain ∧ call.Replicates ∧
        c'.nodes i = call.run (c.nodes i) := by
    intro call j c' hplain hreplicates hnodes
    by_cases hij : i = j
    · subst hij
      rw [hnodes, Function.update_self]
      exact .inr ⟨call, hplain, hreplicates, rfl⟩
    · rw [hnodes, Function.update_of_ne hij]
      exact .inl rfl
  have heffect := c.step_effect M a
  generalize c.step M a = c' at heffect
  rw [← or_assoc]
  cases heffect with
  | idle => exact .inl (.inl rfl)
  | @electionTimeout j => exact .inl (hset .electionTimeout rfl trivial rfl)
  | @deliverVote k rpc => exact .inl (hset (.requestVote rpc.request) rfl trivial rfl)
  | @replyVote k r rpc resp =>
      exact .inl (hset (.voteReply rpc.request resp) rfl trivial rfl)
  | @propose j data => exact .inl (hset (.propose data) rfl trivial rfl)
  | startTask => exact .inl (.inl rfl)
  | sendAppend => exact .inl (.inl rfl)
  | @deliverAppend k rpc call =>
      have hreplicates := (hR.append rpc (List.mem_of_getElem? call)).replicates hR.indexed
      exact .inl (hset (.appendEntries rpc.request) rfl hreplicates rfl)
  | @replyAppend k r rpc resp =>
      exact .inl (hset (.appendReply rpc.callee rpc.request resp) rfl trivial rfl)
  | dropTask => exact .inl (.inl rfl)
  | beginSnapshot => exact .inl (.inl rfl)
  | loadSnapshot => exact .inl (.inl rfl)
  | deliverSnapshot call =>
      rw [hU.snapshots] at call
      cases call
  | replySnapshot call =>
      rw [hU.snapshots] at call
      cases call
  | compactLog => exact absurd ha Bool.false_ne_true
  | @resume j =>
      by_cases hij : i = j
      · subst hij
        exact .inr ⟨rfl, Function.update_self ..⟩
      · exact .inl (.inl (Function.update_of_ne hij ..))
  | restart => exact absurd ha Bool.false_ne_true
  | crash => exact absurd ha Bool.false_ne_true

/-! ## Readers -/

omit [PersistentState σ] in
/-- What a cluster without compaction keeps for readers of the nodes' `ApplyCh` that have
come to these indices. -/
structure Delivery (M : Members) (reader : NodeId → ℕ) (c : Cluster σ) : Prop where
  election : ElectionInv M c
  uncompacted : Uncompacted c
  refines : ∃ s, Rel M c s
  inOrder : ∀ i, (c.nodes i).InOrder (reader i)
  installed : ∀ i, (c.nodes i).installed = []
  recorded : ∀ i, ∀ msg ∈ (c.nodes i).applyCh, .applied msg ∈ (c.nodes i).events

/-- A reader starts over with its process. -/
def restartReader (reader : NodeId → ℕ) : Action → NodeId → ℕ
  | .resume i => Function.update reader i 0
  | _ => reader

theorem restartReader_of_ne {reader : NodeId → ℕ} {a : Action} {i : NodeId}
    (h : a ≠ .resume i) : restartReader reader a i = reader i := by
  cases a with
  | resume j =>
      have hne : i ≠ j := fun heq => h (congrArg Action.resume heq.symm)
      exact Function.update_of_ne hne ..
  | _ => rfl

omit [PersistentState σ] in
/-- A restart without a baseline: nothing is committed and nothing under way. -/
theorem Node.InOrder.resume {b : ℕ} {n : Node σ} (h : n.InOrder b)
    (hbase : n.lastIncludedIndex = 0) : n.resume.InOrder 0 where
  anchored := ⟨h.anchored.nonempty, le_rfl⟩
  consecutive := h.consecutive
  stream := by
    change some 0 = some n.lastIncludedIndex
    rw [hbase]

namespace Delivery

variable {reader : NodeId → ℕ}

theorem initial (M : Members) : Delivery M (fun _ => 0) (Cluster.initial M : Cluster σ) where
  election := .initial M
  uncompacted := ⟨fun _ => ⟨rfl, fun _ he => absurd he List.not_mem_nil⟩, rfl, rfl⟩
  refines := ⟨_, .initial M⟩
  inOrder _ := ⟨⟨List.cons_ne_nil _ _, le_rfl⟩, ⟨rfl, trivial⟩, rfl⟩
  installed _ := rfl
  recorded _ _ hmsg := absurd hmsg List.not_mem_nil

omit [PersistentState σ] in
/-- No two readers get different entries at one index. -/
theorem unique (h : Delivery M reader c) {i j : NodeId} {e e' : LogEntry}
    (hi : Event.applied (.command e) ∈ (c.nodes i).events)
    (hj : Event.applied (.command e') ∈ (c.nodes j).events) (hindex : e.index = e'.index) :
    e = e' := by
  obtain ⟨s, hR⟩ := h.refines
  exact hR.applied_unique hi hj hindex

/-- No record is lost. -/
theorem grows (h : Delivery M reader c) {a : Action} (ha : a.plain) (i : NodeId) {e : Event}
    (he : e ∈ (c.nodes i).events) : e ∈ ((c.step M a).nodes i).events := by
  obtain ⟨s, hR⟩ := h.refines
  rcases c.step_plain h.uncompacted hR ha i with hsame | ⟨call, hplain, -, hrun⟩ | ⟨-, hresume⟩
  · rw [hsame]
    exact he
  · rw [hrun]
    exact (Section.sends hplain _).grows e he
  · rw [hresume]
    exact he

theorem step (h : Delivery M reader c) {a : Action} (ha : a.plain)
    (hmember : ∀ i, a = .resume i → i ∈ M.ids) :
    Delivery M (restartReader reader a) (c.step M a) := by
  obtain ⟨s, hR⟩ := h.refines
  have hnode := c.step_plain h.uncompacted hR ha
  refine ⟨h.election.step a ?_ ?_, h.uncompacted.step hR ha,
    hR.step h.election (h.uncompacted.covered ha), fun i => ?_, fun i => ?_, fun i msg hmsg => ?_⟩
  · rintro i rfl
    exact absurd ha Bool.false_ne_true
  · rintro i inside calls rfl
    exact absurd ha Bool.false_ne_true
  · by_cases hresumed : a = .resume i
    · subst hresumed
      have hresume : (c.step M (.resume i)).nodes i = (c.nodes i).resume := by
        simp only [Cluster.step]
        rw [if_pos (hmember i rfl)]
        exact Function.update_self ..
      have hreader : restartReader reader (.resume i) i = 0 := Function.update_self ..
      rw [hresume, hreader]
      exact (h.inOrder i).resume (h.uncompacted.node i).node
    · rw [restartReader_of_ne hresumed]
      rcases hnode i with hsame | ⟨call, -, hreplicates, hrun⟩ | ⟨heq, -⟩
      · rw [hsame]
        exact h.inOrder i
      · rw [hrun]
        exact ((h.inOrder i).run hreplicates).inOrder
      · exact absurd heq hresumed
  · rcases hnode i with hsame | ⟨call, hplain, -, hrun⟩ | ⟨-, hresume⟩
    · rw [hsame]
      exact h.installed i
    · rw [hrun]
      exact (Section.passes (Section.unrelated_of_plain hplain) _).installed.trans (h.installed i)
    · rw [hresume]
      exact h.installed i
  · rcases hnode i with hsame | ⟨call, hplain, -, hrun⟩ | ⟨-, hresume⟩
    · rw [hsame] at hmsg ⊢
      exact h.recorded i msg hmsg
    · rw [hrun] at hmsg ⊢
      have hsends := Section.sends hplain (c.nodes i)
      exact (hsends.sent msg hmsg).elim (fun hold => hsends.grows _ (h.recorded i msg hold)) id
    · rw [hresume] at hmsg
      exact absurd hmsg List.not_mem_nil

omit [PersistentState σ] in
/-- A reader takes the next message: it is a command, and the next one. -/
theorem take (h : Delivery M reader c) {i : NodeId} {msg : ApplyMsg} {rest : List ApplyMsg}
    (hnext : (c.nodes i).applyCh = msg :: rest) :
    ∃ e, msg = .command e ∧ e.index = reader i + 1 ∧
      Event.applied (.command e) ∈ (c.nodes i).events ∧
      Delivery M (Function.update reader i (reader i + 1))
        (c.setNode i { c.nodes i with applyCh := rest }) := by
  have hrecorded := h.recorded i msg (hnext ▸ List.mem_cons_self)
  have hstream := (h.inOrder i).stream
  rw [hnext] at hstream
  cases msg with
  | snapshot data index term =>
      -- that would be the record of an installed snapshot
      have hmem : (index, data) ∈ (c.nodes i).installed :=
        List.mem_filterMap.mpr ⟨_, hrecorded, rfl⟩
      rw [h.installed i] at hmem
      exact absurd hmem List.not_mem_nil
  | command e =>
      rw [heightAfter] at hstream
      split at hstream
      · next hindex =>
          refine ⟨e, rfl, hindex, hrecorded, ?_⟩
          have hquiet : Quiet (c.nodes i) { c.nodes i with applyCh := rest } := .of_electoral rfl
          obtain ⟨s, hR⟩ := h.refines
          have hmoves : Moves M s s i (c.nodes i) { c.nodes i with applyCh := rest } :=
            .same ((hR.node i).congr rfl rfl fun hleader => ⟨hleader, rfl⟩) (fun _ => id)
              fun _ => .inl
          have hunbased : Node.Unbased { c.nodes i with applyCh := rest } :=
            (h.uncompacted.node i).congr rfl rfl
          refine ⟨h.election.quiet_setNode hquiet rfl rfl, h.uncompacted.set hunbased rfl rfl rfl,
            ⟨s, hR.quiet_setNode h.election hmoves hquiet⟩, ?_, ?_, ?_⟩
          · intro j
            by_cases hj : j = i
            · subst hj
              rw [Cluster.setNode_self, Function.update_self]
              have hanchored := (h.inOrder j).anchored
              exact ⟨⟨hanchored.nonempty, hanchored.committed⟩, (h.inOrder j).consecutive, hstream⟩
            · rw [c.setNode_of_ne _ hj, Function.update_of_ne hj]
              exact h.inOrder j
          · exact Cluster.setNode_forall (P := fun _ n => n.installed = []) (h.installed i)
              fun j _ => h.installed j
          · refine Cluster.setNode_forall
              (P := fun _ n => ∀ msg ∈ n.applyCh, .applied msg ∈ n.events) (fun msg hmsg => ?_)
              fun j _ => h.recorded j
            exact h.recorded i msg (hnext ▸ List.mem_cons_of_mem _ hmsg)
      · cases hstream

end Delivery

end Plain

end RaftKV.Raft
