import RaftKV.Raft.ClusterRefinement

/-!
# Whom a node takes for the leader

`leaderID` is written by `becomeLeader` (the node itself), by the two handlers of a
leader's requests (their sender) and by `becomeFollower`, which clears it; a
candidate keeps what it had.  So in every state of a cluster, through any
elections, step-downs and restarts, it is empty or the name of a member, and a
node that is leader names itself.
-/

namespace RaftKV.Raft

variable {σ : Type}

/-- `leaderID` is empty or one of `names`, and a leader's is its own. -/
structure Node.Hints (names : List NodeId) (n : Node σ) : Prop where
  self : n.cfg.id ∈ names
  known : n.leaderID = "" ∨ n.leaderID ∈ names
  own : n.role = .leader → n.leaderID = n.cfg.id

/-- The part of a node that `Hints` reads. -/
def Node.hintState (n : Node σ) : Config × NodeId × Role :=
  (n.cfg, n.leaderID, n.role)

namespace Node.Hints

variable {names : List NodeId} {n n' : Node σ}

theorem congr (h : n.Hints names) (heq : n'.hintState = n.hintState) : n'.Hints names := by
  simp only [hintState, Prod.mk.injEq] at heq
  obtain ⟨hcfg, hleader, hrole⟩ := heq
  refine ⟨hcfg ▸ h.self, hleader ▸ h.known, fun hlead => ?_⟩
  rw [hleader, hcfg]
  exact h.own (hrole ▸ hlead)

/-- A node that is no leader. -/
theorem of_role (h : n.Hints names) (hcfg : n'.cfg = n.cfg) (hrole : n'.role ≠ .leader)
    (hknown : n'.leaderID = "" ∨ n'.leaderID ∈ names) : n'.Hints names :=
  ⟨hcfg ▸ h.self, hknown, fun hlead => absurd hlead hrole⟩

theorem becomeLeader (h : n.Hints names) : n.becomeLeader.Hints names :=
  ⟨h.self, .inr h.self, fun _ => rfl⟩

theorem maybeAdvanceCommit (h : n.Hints names) : n.maybeAdvanceCommit.Hints names :=
  h.congr (maybeAdvanceCommit_frame hintState (fun _ _ => rfl) n)

theorem recordMatch (h : n.Hints names) (peer : NodeId) (newMatch : ℕ) :
    (n.recordMatch peer newMatch).Hints names := by
  unfold Node.recordMatch
  split
  · exact h.congr rfl
  · exact h

variable [PersistentState σ]

theorem becomeFollower (h : n.Hints names) (term : ℕ) : (n.becomeFollower term).Hints names := by
  unfold Node.becomeFollower
  split
  · exact h.of_role rfl (by simp [persistHardState]) (.inl rfl)
  · exact h.of_role rfl (by simp) (.inl rfl)

theorem followLeader (h : n.Hints names) (term : ℕ) {leaderId : NodeId} (hid : leaderId ∈ names) :
    (n.followLeader term leaderId).Hints names := by
  unfold Node.followLeader
  split
  · have hfollow := h.becomeFollower term
    exact hfollow.of_role rfl (by simp [Node.becomeFollower_role]) (.inr hid)
  · exact h.of_role rfl (by simp) (.inr hid)

theorem campaign (h : n.Hints names) : n.campaign.Hints names :=
  h.of_role rfl (by simp [Node.campaign, persistHardState]) h.known

/-! ## The handlers -/

theorem electionTimeout (h : n.Hints names) : n.electionTimeout.2.Hints names := by
  unfold Node.electionTimeout startElection
  split
  · split
    · exact h.campaign.becomeLeader
    · exact h.campaign
  · exact h

theorem handleVoteReply (h : n.Hints names) (req : RequestVoteRequest)
    (resp : RequestVoteResponse) : (n.handleVoteReply req resp).Hints names := by
  unfold Node.handleVoteReply countVote
  split
  · exact h.becomeFollower _
  · split
    · split
      · exact becomeLeader (h.congr rfl)
      · exact h.congr rfl
    · exact h

theorem handleRequestVote (h : n.Hints names) (req : RequestVoteRequest) :
    (n.handleRequestVote req).2.Hints names := by
  have hobserve : (n.observeTerm req.term).Hints names := by
    unfold observeTerm
    split
    · exact h.becomeFollower _
    · exact h
  unfold Node.handleRequestVote decideVote
  split
  · exact h
  · split
    · exact hobserve
    · split
      · exact hobserve
      · exact hobserve.congr rfl

theorem handleAppendEntries (h : n.Hints names) {req : AppendEntriesRequest}
    (hid : req.leaderId ∈ names) : (n.handleAppendEntries req).2.Hints names := by
  unfold Node.handleAppendEntries checkAndAccept
  split
  · exact h
  · have hfollow := h.followLeader req.term hid
    split
    · exact hfollow
    · obtain ⟨storage, heq⟩ := (n.followLeader req.term req.leaderId).acceptEntries_eq req
      refine hfollow.congr ?_
      rw [heq]
      unfold learnCommit
      split
      · rfl
      · rfl

theorem handleInstallSnapshot (h : n.Hints names) {req : InstallSnapshotRequest}
    (hid : req.leaderId ∈ names) : (n.handleInstallSnapshot req).2.Hints names := by
  unfold Node.handleInstallSnapshot takeChunk
  split
  · exact h
  · have hfollow := h.followLeader req.term hid
    split
    · exact hfollow
    · refine hfollow.congr ?_
      unfold receiveChunk installSnapshot
      split
      · rfl
      · split
        · rfl
        · split
          · split
            · rfl
            · rfl
          · rfl

theorem compactLog (h : n.Hints names) (data : Bytes) (index term : ℕ) :
    (n.compactLog data index term).2.Hints names := by
  obtain ⟨storage, heq | ⟨-, -, heq⟩⟩ := n.compactLog_cases data index term
  · rw [heq]
    exact h.congr rfl
  · rw [heq]
    exact h.congr rfl

theorem propose (h : n.Hints names) (data : Bytes) : (n.propose data).2.Hints names := by
  unfold Node.propose
  split
  · exact h
  · exact maybeAdvanceCommit (h.congr rfl)

theorem handleAppendReply (h : n.Hints names) (peer : NodeId) (req : AppendEntriesRequest)
    (resp : AppendEntriesResponse) : (n.handleAppendReply peer req resp).Hints names := by
  unfold Node.handleAppendReply
  split
  · exact h.becomeFollower _
  · split
    · exact h
    · split
      · exact (h.recordMatch peer _).maybeAdvanceCommit
      · exact h.congr rfl

theorem handleSnapshotReply (h : n.Hints names) (peer : NodeId) (t : SnapshotTransfer)
    (resp : InstallSnapshotResponse) : (n.handleSnapshotReply peer t resp).2.Hints names := by
  unfold Node.handleSnapshotReply
  split
  · exact h.becomeFollower _
  · split
    · exact h
    · split
      · exact h
      · split
        · exact h.recordMatch peer _
        · exact h

theorem restart (h : n.Hints names) {storage : σ} (hstart : n.restart storage = .ok n') :
    n'.Hints names := by
  obtain ⟨snapshot, hard, entries, -, -, rfl⟩ := restart_ok hstart
  have hnew : (newNode n.cfg storage).Hints names := ⟨h.self, .inl rfl, by simp [newNode]⟩
  refine hnew.congr ?_
  unfold seed
  split
  · rfl
  · rfl

end Node.Hints

/-- Every member's hint is in order, and so is the sender's name in every request. -/
structure HintsKnown (M : Members) (c : Cluster σ) : Prop where
  nodes : ∀ i, i ∈ M.ids → (c.nodes i).Hints M.ids
  appends : ∀ r ∈ c.appends, r.request.leaderId ∈ M.ids
  snapshots : ∀ r ∈ c.snapshots, r.request.leaderId ∈ M.ids
  tasks : ∀ task ∈ c.tasks, task.caller ∈ M.ids
  loads : ∀ caller callee t, SnapshotTask.load caller callee t ∈ c.tasks → t.leaderId ∈ M.ids

namespace HintsKnown

variable [PersistentState σ] {M : Members} {c : Cluster σ}

theorem initial (M : Members) : HintsKnown M (Cluster.initial M : Cluster σ) where
  nodes i hi := ⟨hi, .inl rfl, by simp [Cluster.initial, Node.newNode]⟩
  appends := by simp [Cluster.initial]
  snapshots := by simp [Cluster.initial]
  tasks := by simp [Cluster.initial]
  loads := by simp [Cluster.initial]

omit [PersistentState σ] in
/-- Answering and consuming a call keeps its request. -/
theorem modify {Q A : Type} {leader : Q → NodeId} {l : List (Rpc Q A)}
    (h : ∀ r ∈ l, leader r.request ∈ M.ids) (k : ℕ) {f : Rpc Q A → Rpc Q A}
    (hf : ∀ r, Rpc.Later r (f r)) : ∀ r ∈ l.modify k f, leader r.request ∈ M.ids := by
  intro r hr
  obtain ⟨r₀, hr₀, hlater⟩ := Rpc.later_modify hf r hr
  rw [hlater.request]
  exact h r₀ hr₀

omit [PersistentState σ] in
/-- A node was replaced by one whose hint is in order. -/
theorem setNode (h : HintsKnown M c) {i : NodeId} {n : Node σ}
    (hn : (c.nodes i).Hints M.ids → n.Hints M.ids) :
    ∀ j, j ∈ M.ids → ((c.setNode i n).nodes j).Hints M.ids :=
  Cluster.setNode_forall (P := fun j n => j ∈ M.ids → n.Hints M.ids)
    (fun hi => hn (h.nodes i hi)) fun j _ => h.nodes j

omit [PersistentState σ] in
theorem reboot (h : HintsKnown M c) {i : NodeId} {n : Node σ}
    (hn : (c.nodes i).Hints M.ids → n.Hints M.ids) : HintsKnown M (c.reboot i n) where
  nodes := h.setNode hn
  appends r hr := by
    obtain ⟨r', hr', rfl⟩ := List.mem_map.mp hr
    rw [(Rpc.Later.abandon i r').request]
    exact h.appends r' hr'
  snapshots r hr := by
    obtain ⟨r', hr', rfl⟩ := List.mem_map.mp hr
    rw [(Rpc.Later.abandon i r').request]
    exact h.snapshots r' hr'
  tasks task ht := h.tasks task (List.mem_of_mem_filter ht)
  loads caller callee t ht := h.loads caller callee t (List.mem_of_mem_filter ht)

/-- Every action keeps the hints in order. -/
theorem step (h : HintsKnown M c) (a : Action) : HintsKnown M (c.step M a) := by
  have heffect := c.step_effect M a
  generalize c.step M a = c' at heffect
  cases heffect with
  | idle => exact h
  | electionTimeout =>
      exact { h with nodes := h.setNode Node.Hints.electionTimeout }
  | deliverVote => exact { h with nodes := h.setNode fun hn => hn.handleRequestVote _ }
  | replyVote => exact { h with nodes := h.setNode fun hn => hn.handleVoteReply _ _ }
  | propose => exact { h with nodes := h.setNode fun hn => hn.propose _ }
  | @startTask i _ member =>
      refine { h with tasks := fun task ht => ?_, loads := fun caller callee t ht => ?_ }
      · rcases List.mem_append.mp ht with ht | ht
        · exact h.tasks task ht
        · rw [List.mem_singleton.mp ht]
          exact member
      · rcases List.mem_append.mp ht with ht | ht
        · exact h.loads caller callee t ht
        · cases List.mem_singleton.mp ht
  | @sendAppend i peer req member _ built =>
      refine { h with appends := fun r hr => ?_ }
      rcases List.mem_append.mp hr with hr | hr
      · exact h.appends r hr
      · rw [List.mem_singleton.mp hr]
        obtain ⟨-, -, rfl⟩ := Node.replicateToPeer_appendEntries built
        exact (h.nodes i member).self
  | deliverAppend call =>
      exact { h with
        nodes := h.setNode fun hn =>
          hn.handleAppendEntries (h.appends _ (List.mem_of_getElem? call))
        appends := modify h.appends _ fun r => .answer r _ }
  | replyAppend =>
      exact { h with
        nodes := h.setNode fun hn => hn.handleAppendReply _ _ _
        appends := modify h.appends _ .consume }
  | dropTask =>
      exact { h with
        tasks := fun task ht => h.tasks task (List.mem_of_mem_eraseIdx ht)
        loads := fun caller callee t ht => h.loads caller callee t (List.mem_of_mem_eraseIdx ht) }
  | @beginSnapshot k caller callee transfer task begun =>
      have hcaller := h.tasks _ (List.mem_of_getElem? task)
      refine { h with tasks := fun task ht => ?_, loads := fun caller' callee' t ht => ?_ }
      · rcases List.mem_or_eq_of_mem_set ht with ht | rfl
        · exact h.tasks task ht
        · exact hcaller
      · rcases List.mem_or_eq_of_mem_set ht with ht | heq
        · exact h.loads caller' callee' t ht
        · cases heq
          obtain ⟨-, rfl⟩ := Node.beginTransfer_eq_some begun
          exact (h.nodes caller hcaller).self
  | @loadSnapshot k caller callee transfer loaded task found =>
      have hleader := h.loads _ _ _ (List.mem_of_getElem? task)
      refine { h with
        snapshots := fun r hr => ?_
        tasks := fun task ht => h.tasks task (List.mem_of_mem_eraseIdx ht)
        loads := fun caller callee t ht => h.loads caller callee t (List.mem_of_mem_eraseIdx ht) }
      rcases List.mem_append.mp hr with hr | hr
      · exact h.snapshots r hr
      · rw [List.mem_singleton.mp hr]
        obtain ⟨data, rfl⟩ := Node.loadTransfer_data found
        exact hleader
  | deliverSnapshot call =>
      exact { h with
        nodes := h.setNode fun hn =>
          hn.handleInstallSnapshot (h.snapshots _ (List.mem_of_getElem? call))
        snapshots := modify h.snapshots _ fun r => .answer r _ }
  | @replySnapshot k r rpc resp call =>
      have hleader := h.snapshots _ (List.mem_of_getElem? call)
      refine { h with
        nodes := h.setNode fun hn => hn.handleSnapshotReply _ _ _
        snapshots := fun r hr => ?_ }
      rcases List.mem_append.mp hr with hr | hr
      · exact modify h.snapshots k .consume r hr
      · obtain ⟨t, ht, rfl⟩ := List.mem_map.mp hr
        have hnext : t.leaderId = rpc.request.leaderId := by
          rw [Node.handleSnapshotReply_next (Option.mem_toList.mp ht)]
        exact hnext ▸ hleader
  | compactLog => exact { h with nodes := h.setNode fun hn => hn.compactLog _ _ _ }
  | resume => exact h.reboot fun hn => ⟨hn.self, .inl rfl, by simp [Node.resume, Node.newNode]⟩
  | restart _ started => exact h.reboot fun hn => hn.restart started
  | crash _ started => exact h.reboot fun hn => hn.restart started

/-- In every state of a cluster `leaderID` is empty or the name of a member, and a
leader's is its own. -/
theorem of_reachable (hrun : Reaches (Cluster.step M) (fun _ _ => True) (Cluster.initial M) c) :
    HintsKnown M c :=
  hrun.invariant (initial M) fun _ a h _ => h.step a

end HintsKnown

end RaftKV.Raft
