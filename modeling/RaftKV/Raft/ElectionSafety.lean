import RaftKV.Raft.Election

/-!
# Election safety along every run

The steps of the cluster, sorted into the cases of `ElectionInv`, and the
durability argument for restarts: between critical sections memory and disk hold
the same hard state, and a process that dies inside one leaves a hard state that
is not behind the one it started from.  So no restart allows a second vote.
-/

namespace RaftKV.Raft

open Function

variable {σ : Type} [PersistentState σ] {M : Members} {c : Cluster σ}

/-! ## The actions -/

omit [PersistentState σ] in
/-- A quiet change of one node, with the calls as they are up to abandoned ones. -/
theorem ElectionInv.quiet_node (h : ElectionInv M c) {i : NodeId} {n : Node σ}
    (hn : Quiet (c.nodes i) n) {c' : Cluster σ} (hnodes : c'.nodes = update c.nodes i n)
    (hcalls : ∀ (k : ℕ) (r' : VoteRpc), c'.votes[k]? = some r' → ∃ r : VoteRpc,
      c.votes[k]? = some r ∧ r.Later r' ∧
        ∀ resp ∈ r'.responses, resp.voteGranted → resp ∈ r.responses) :
    ElectionInv M c' := by
  refine h.quiet (fun j => ?_) hcalls
  rw [hnodes]
  exact Cluster.setNode_forall (P := fun j m => Quiet (c.nodes j) m) hn (fun j _ => .refl _) j

omit [PersistentState σ] in
/-- The calls are unchanged. -/
theorem ElectionInv.quiet_setNode (h : ElectionInv M c) {i : NodeId} {n : Node σ}
    (hn : Quiet (c.nodes i) n) {c' : Cluster σ} (hnodes : c'.nodes = update c.nodes i n)
    (hvotes : c'.votes = c.votes) : ElectionInv M c' := by
  refine h.quiet_node hn hnodes fun k r hr => ?_
  rw [hvotes] at hr
  exact ⟨r, hr, .refl r, fun _ hresp _ => hresp⟩

omit [PersistentState σ] in
theorem ElectionInv.reboot (h : ElectionInv M c) {i : NodeId} {n : Node σ}
    (hn : Quiet (c.nodes i) n) : ElectionInv M (c.reboot i n) := by
  refine h.quiet_node hn rfl fun k r' hr' => ?_
  have hr' : (c.votes.map (Rpc.abandon i))[k]? = some r' := hr'
  rw [List.getElem?_map] at hr'
  obtain ⟨r, hr, rfl⟩ := Option.map_eq_some_iff.mp hr'
  refine ⟨r, hr, .abandon i r, fun resp hresp _ => ?_⟩
  unfold Rpc.abandon at hresp
  split at hresp
  · exact hresp
  · exact hresp

theorem ElectionInv.electionTimeout (h : ElectionInv M c) {i : NodeId} (hi : i ∈ M.ids) :
    ElectionInv M (c.electionTimeout i) := by
  have hcampaign := h.campaign hi
  have hcfg : (c.nodes i).cfg = M.config i := h.config i
  unfold Cluster.electionTimeout Node.electionTimeout
  split
  · unfold Node.startElection
    split
    · next hsingle =>
        -- the node's own vote is a quorum
        have hwin := hcampaign.win (i := i) (by simp [Node.campaign, Node.persistHardState]) (by
          simpa [Node.campaign, Node.persistHardState, Node.quorum] using hsingle)
        simpa [Cluster.setNode, update_idem] using hwin
    · have hcall := hcampaign.call hi (fun k r hr hcaller => ?_)
        (by simp [Node.campaign, Node.persistHardState]) (c.nodes i).lastLogIndex
        (c.nodes i).lastLogTerm
      · simpa [Node.campaign, Node.persistHardState, hcfg, Members.config, Cluster.setNode,
          Function.comp_def] using hcall
      · -- calls already on record belong to earlier elections
        have hle := (h.sent k r hr).2.2.2
        rw [hcaller] at hle
        rw [Cluster.setNode_self]
        exact Nat.lt_succ_of_le hle
  · exact h.quiet_setNode (.refl _) rfl (by simp)

theorem ElectionInv.deliverVote (h : ElectionInv M c) {k : ℕ} {r : VoteRpc}
    (hr : c.votes[k]? = some r) : ElectionInv M
      { c.setNode r.callee ((c.nodes r.callee).handleRequestVote r.request).2 with
        votes := c.votes.modify k
          (.answer ((c.nodes r.callee).handleRequestVote r.request).1) } := by
  rcases (c.nodes r.callee).handleRequestVote_cases r.request with
    ⟨hrefused, hquiet⟩ | ⟨hterm, hfree, -, heq⟩
  · refine h.quiet_node hquiet rfl fun j r' hr' => ?_
    obtain ⟨r₀, hr₀, rfl⟩ := Rpc.getElem?_modify hr'
    split
    · refine ⟨r₀, hr₀, .answer r₀ _, fun resp hresp hgranted => ?_⟩
      rcases List.mem_append.mp hresp with hresp | hresp
      · exact hresp
      · rw [List.mem_singleton.mp hresp, hrefused] at hgranted
        simp at hgranted
    · exact ⟨r₀, hr₀, .refl r₀, fun _ hresp _ => hresp⟩
  · -- first the voter reaches the term, then it votes
    have hobserve : ElectionInv M
        (c.setNode r.callee ((c.nodes r.callee).observeTerm r.request.term)) :=
      h.quiet_setNode (Node.observeTerm_quiet _ _) rfl rfl
    have hgrant := hobserve.grant (k := k) (r := r) hr (by rw [Cluster.setNode_self, hterm])
      (by rw [Cluster.setNode_self]; exact hfree) ⟨r.request.term, true⟩
    rw [heq]
    simpa [Cluster.setNode, update_idem] using hgrant

theorem ElectionInv.replyVote (h : ElectionInv M c) {k : ℕ} {r : VoteRpc}
    (hr : c.votes[k]? = some r) (hlive : r.live) {resp : RequestVoteResponse}
    (hresp : resp ∈ r.responses) : ElectionInv M
      { c.setNode r.caller ((c.nodes r.caller).handleVoteReply r.request resp) with
        votes := c.votes.modify k .consume } := by
  rcases (c.nodes r.caller).handleVoteReply_cases r.request resp with
    hquiet | ⟨hgranted, hrole, hterm, heq⟩
  · refine h.quiet_node hquiet rfl fun j r' hr' => ?_
    obtain ⟨r₀, hr₀, rfl⟩ := Rpc.getElem?_modify hr'
    split
    · exact ⟨r₀, hr₀, .consume r₀, fun _ hresp _ => hresp⟩
    · exact ⟨r₀, hr₀, .refl r₀, fun _ hresp _ => hresp⟩
  · have hcount := h.count hr hlive hresp hgranted hrole hterm
    rw [heq]
    unfold Node.countVote
    split
    · next henough =>
        have hwin := hcount.win (i := r.caller) (by simpa using hrole)
          (by simpa [hterm, Node.quorum] using henough)
        simpa [Cluster.setNode, update_idem] using hwin
    · exact hcount

/-- Every action keeps the invariant, provided that a restart finds a hard state
on disk that has not fallen back. -/
theorem ElectionInv.step (h : ElectionInv M c) (a : Action)
    (hrestart : ∀ i, a = .restart i → ∀ hard, loadHardState (c.nodes i).storage = .ok hard →
      HardLe (c.nodes i).hardState hard)
    (hcrash : ∀ i inside calls, a = .crash i inside calls → ∀ hard,
      loadHardState (Cluster.durableAfter (c.nodes i) inside calls) = .ok hard →
      HardLe (c.nodes i).hardState hard) : ElectionInv M (c.step M a) := by
  have hcalls : ∀ (k : ℕ) (r : VoteRpc), c.votes[k]? = some r → ∃ r₀ : VoteRpc,
      c.votes[k]? = some r₀ ∧ r₀.Later r ∧
        ∀ resp ∈ r.responses, resp.voteGranted → resp ∈ r₀.responses :=
    fun k r hr => ⟨r, hr, .refl r, fun _ hresp _ => hresp⟩
  have heffect := c.step_effect M a
  generalize c.step M a = c' at heffect
  cases heffect with
  | idle => exact h
  | electionTimeout member => exact h.electionTimeout member
  | deliverVote call => exact h.deliverVote call
  | replyVote call live response => exact h.replyVote call live response
  | propose => exact h.quiet_setNode (Node.propose_quiet _ _) rfl rfl
  | startTask => exact h.quiet (fun _ => .refl _) hcalls
  | sendAppend => exact h.quiet (fun _ => .refl _) hcalls
  | deliverAppend => exact h.quiet_setNode (Node.handleAppendEntries_quiet _ _) rfl rfl
  | replyAppend => exact h.quiet_setNode (Node.handleAppendReply_quiet _ _ _ _) rfl rfl
  | dropTask => exact h.quiet (fun _ => .refl _) hcalls
  | beginSnapshot => exact h.quiet (fun _ => .refl _) hcalls
  | loadSnapshot => exact h.quiet (fun _ => .refl _) hcalls
  | deliverSnapshot => exact h.quiet_setNode (Node.handleInstallSnapshot_quiet _ _) rfl rfl
  | replySnapshot => exact h.quiet_setNode (Node.handleSnapshotReply_quiet _ _ _ _) rfl rfl
  | compactLog => exact h.quiet_setNode (Node.compactLog_quiet _ _ _ _) rfl rfl
  | resume => exact h.reboot (Node.resume_quiet _)
  | restart _ started => exact h.reboot (Node.restart_quiet started (hrestart _ rfl))
  | crash _ started => exact h.reboot (Node.restart_quiet started (hcrash _ _ _ rfl))

/-! ## Memory and disk -/

/-- The storage holds exactly the hard state in memory. -/
def Synced (hard : ℕ × NodeId) (storage : σ) : Prop :=
  loadHardState storage = .ok hard

theorem persists_synced [LawfulHardState σ] : Persists (Synced : ℕ × NodeId → σ → Prop) where
  save {_ h' s} _ _ := LawfulHardState.load_save h'.1 h'.2 s
  append {_ s} entries h := (LawfulHardState.load_appendEntries entries s).trans h
  cutSuffix {_ s} keepIndex h := (LawfulHardState.load_truncateSuffix keepIndex s).trans h
  snapshot {_ s} data index term h := (LawfulHardState.load_saveSnapshot data index term s).trans h
  cutFront {_ s} discardIndex h := (LawfulHardState.load_truncatePrefix discardIndex s).trans h

/-- Neither memory nor the disk under an interrupted process is behind `old`. -/
def NotBehind (old : ℕ × NodeId) (hard : ℕ × NodeId) (s : Interrupted σ) : Prop :=
  HardLe old hard ∧ ∃ durable, Synced durable s.durable ∧ HardLe old durable

/-- A storage call that leaves the hard state alone, made or not made. -/
theorem NotBehind.write {old hard : ℕ × NodeId} {s : Interrupted σ} (h : NotBehind old hard s)
    {call : σ → Except String Unit × σ}
    (hcall : ∀ s, loadHardState (call s).2 = loadHardState s) :
    NotBehind old hard (Interrupted.write call s).2 := by
  obtain ⟨hle, durable, hsynced, hdurable⟩ := h
  refine ⟨hle, durable, ?_, hdurable⟩
  unfold Interrupted.write
  split
  · exact hsynced
  · exact (hcall _).trans hsynced

theorem persists_notBehind [LawfulHardState σ] (old : ℕ × NodeId) :
    Persists (NotBehind old : ℕ × NodeId → Interrupted σ → Prop) where
  save {h h' s} hs hle := by
    obtain ⟨hold, durable, hsynced, hdurable⟩ := hs
    refine ⟨hold.trans hle, ?_⟩
    change ∃ durable, Synced durable
      (Interrupted.write (saveHardState h'.1 h'.2) s).2.durable ∧ HardLe old durable
    unfold Interrupted.write
    split
    · exact ⟨durable, hsynced, hdurable⟩
    · exact ⟨h', LawfulHardState.load_save h'.1 h'.2 _, hold.trans hle⟩
  append entries h := h.write (LawfulHardState.load_appendEntries entries)
  cutSuffix keepIndex h := h.write (LawfulHardState.load_truncateSuffix keepIndex)
  snapshot data index term h := h.write (LawfulHardState.load_saveSnapshot data index term)
  cutFront discardIndex h := h.write (LawfulHardState.load_truncatePrefix discardIndex)

/-- A process that dies inside a critical section leaves a hard state on disk that
is not behind the one it entered with. -/
theorem durableAfter_hardLe [LawfulHardState σ] {n : Node σ} (hn : n.Backed Synced)
    (inside : Section) (calls : ℕ) {hard : ℕ × NodeId}
    (hload : loadHardState (Cluster.durableAfter n inside calls) = .ok hard) :
    HardLe n.hardState hard := by
  have hstart : Node.Backed (NotBehind n.hardState)
      { n with storage := (⟨n.storage, calls⟩ : Interrupted σ) } :=
    ⟨.refl _, n.hardState, hn, .refl _⟩
  obtain ⟨-, durable, hsynced, hle⟩ :=
    Section.backed (persists_notBehind n.hardState) hstart inside
  have heq : hard = durable := Except.ok.inj (hload.symm.trans hsynced)
  exact heq ▸ hle

theorem Node.restart_synced {n n' : Node σ} {storage : σ} (h : n.restart storage = .ok n') :
    n'.Backed Synced := by
  obtain ⟨snapshot, hard, entries, -, hload, rfl⟩ := Node.restart_ok h
  obtain ⟨-, -, hstorage, -⟩ := (Node.newNode n.cfg storage).seed_frame snapshot.1 snapshot.2
  change loadHardState ((Node.newNode n.cfg storage).seed snapshot.1 snapshot.2).storage
    = .ok hard
  rw [hstorage]
  exact hload

/-- Between critical sections every node is on a storage that holds its hard
state. -/
theorem synced_step [LawfulHardState σ] (h : ∀ i, (c.nodes i).Backed Synced) (a : Action) :
    ∀ i, ((c.step M a).nodes i).Backed Synced := by
  have hset : ∀ {i : NodeId} {n : Node σ}, n.Backed Synced →
      ∀ j, (update c.nodes i n j).Backed Synced :=
    fun hn => Cluster.setNode_forall (P := fun _ n => n.Backed Synced) hn fun j _ => h j
  have hrun : ∀ (i : NodeId) (inside : Section), (inside.run (c.nodes i)).Backed Synced :=
    fun i inside => Section.backed persists_synced (h i) inside
  have heffect := c.step_effect M a
  generalize c.step M a = c' at heffect
  cases heffect with
  | idle => exact h
  | electionTimeout => exact hset (hrun _ .electionTimeout)
  | deliverVote => exact hset (hrun _ (.requestVote _))
  | replyVote => exact hset (hrun _ (.voteReply _ _))
  | propose => exact hset (hrun _ (.propose _))
  | startTask => exact h
  | sendAppend => exact h
  | deliverAppend => exact hset (hrun _ (.appendEntries _))
  | replyAppend => exact hset (hrun _ (.appendReply _ _ _))
  | dropTask => exact h
  | beginSnapshot => exact h
  | loadSnapshot => exact h
  | deliverSnapshot => exact hset (hrun _ (.installSnapshot _))
  | replySnapshot => exact hset (hrun _ (.snapshotReply _ _ _))
  | compactLog => exact hset (hrun _ (.compactLog _ _ _))
  | resume => exact hset (h _)
  | restart _ started => exact hset (Node.restart_synced started)
  | crash _ started => exact hset (Node.restart_synced started)

/-! ## The theorem -/

/-- Every run keeps the election invariant, with restarts from storage and
crashes inside critical sections. -/
theorem electionInv_of_reachable [LawfulHardState σ] {ok : Cluster σ → Action → Prop}
    (h : Cluster.Reachable M ok c) : ElectionInv M c ∧ ∀ i, (c.nodes i).Backed Synced := by
  refine Reaches.invariant (P := fun c => ElectionInv M c ∧ ∀ i, (c.nodes i).Backed Synced) h
    ⟨.initial M, fun i => LawfulHardState.load_fresh⟩ ?_
  rintro c a ⟨hinv, hsynced⟩ -
  refine ⟨hinv.step a ?_ ?_, synced_step hsynced a⟩
  · intro i _ hard hload
    have heq : hard = (c.nodes i).hardState := Except.ok.inj (hload.symm.trans (hsynced i))
    exact heq ▸ .refl _
  · intro i inside calls _ hard hload
    exact durableAfter_hardLe (hsynced i) inside calls hload

/-- **Election safety.**  In any run, with compaction, snapshots, crashes inside
critical sections and restarts from storage, no two different nodes execute
`becomeLeader` in the same term. -/
theorem election_safety [LawfulHardState σ] (M : Members) (c : Cluster σ)
    (h : Cluster.Reachable M (fun _ _ => True) c) (i j : NodeId) (t : ℕ)
    (hi : (c.nodes i).Led t) (hj : (c.nodes j).Led t) : i = j :=
  (electionInv_of_reachable h).1.unique hi hj

/-- Two elections of a cluster of three: `a` wins term 1 and restarts, and `c`
dies while granting the vote that makes `b` the leader of term 2. -/
def twoElections : List Action :=
  [.electionTimeout "a", .deliverVote 0, .replyVote 0 0, .restart "a", .electionTimeout "b",
    .crash "c" (.requestVote ⟨2, "b", 0, 0⟩) 1, .deliverVote 3, .replyVote 3 0]

theorem election_safety_twoElections :
    ((twoElections.foldl (Cluster.step .trio)
      (Cluster.initial .trio : Cluster MemState)).nodes "a").Led 1 ∧
    ((twoElections.foldl (Cluster.step .trio)
      (Cluster.initial .trio : Cluster MemState)).nodes "b").Led 2 ∧ "b" = "b" := by
  have ha : ((twoElections.foldl (Cluster.step .trio)
      (Cluster.initial .trio : Cluster MemState)).nodes "a").Led 1 :=
    ⟨0, [LogEntry.sentinel 0 0], by decide⟩
  have hb : ((twoElections.foldl (Cluster.step .trio)
      (Cluster.initial .trio : Cluster MemState)).nodes "b").Led 2 :=
    ⟨0, [LogEntry.sentinel 0 0], by decide⟩
  exact ⟨ha, hb, election_safety .trio _ (Reaches.foldl .refl _ (by decide)) "b" "b" 2
    hb hb⟩

end RaftKV.Raft
