import RaftKV.Raft.Replication

/-!
# Every action of the cluster is followed by the abstract protocol

The critical sections of one node, put together with the calls between nodes.
`Rel.follow` says that an action that `Covered` allows leads from a cluster related
to some abstract state to a cluster related to one that abstract steps lead to, and
`rel_of_reachable` that whole runs stay related.

Two actions are not always allowed.  `CompactLog` has to be given the term that
the log holds at its index, as the only caller in the source does, and a snapshot
may only be installed by a node whose log does not reach beyond it.  Restarts are
those of the storage contract.
-/

namespace RaftKV.Raft

open Consensus (Inv Later Decided Committed Voted Step Steps)
open Function

variable {σ : Type} {M : Members} {c c' : Cluster σ} {s s' : Abstract} {i : NodeId} {n : Node σ}

/-! ## Compaction, restarts, and what a leader sends -/

/-- Above the baseline a node holds the entries of its full log. -/
theorem Node.Holds.entryAt_eq {l : List LogEntry} (h : n.Holds l) {index : ℕ}
    (hindex : n.lastIncludedIndex < index) :
    entryAt n.lastIncludedIndex n.log index = l[index - 1]? := by
  unfold entryAt
  rw [if_neg (by omega), h.tail.getElem?_above hindex]

/-- Compaction at an entry the log holds. -/
theorem moves_compactLog [PersistentState σ] (h : NodeRel M s i n) (hI : Inv M.rules s)
    (hindexed : ∀ t, Indexed (s.chain t)) (data : Bytes) {index term : ℕ}
    (hheld : n.lastIncludedIndex < index → index ≤ n.commitIndex →
      ∃ e ∈ entryAt n.lastIncludedIndex n.log index, e.term = term) :
    Moves M s s i n (n.compactLog data index term).2 := by
  obtain ⟨storage, heq | ⟨hlt, hcommit, heq⟩⟩ := n.compactLog_cases data index term
  · rw [heq]
    exact .same (h.congr rfl rfl fun hrole => ⟨hrole, rfl⟩) (fun _ he => he) fun _ he => .inl he
  · rw [heq]
    obtain ⟨e, he, rfl⟩ := hheld hlt hcommit
    rw [h.holds.entryAt_eq hlt, Option.mem_def] at he
    have hindex : e.index = index := by
      have := indexed_of_rooted hindexed (hI.log_rooted i) _ _ he
      omega
    have hterm : e.term = termAt (s.log i) index := by
      obtain ⟨k, rfl⟩ : ∃ k, index = k + 1 := ⟨index - 1, by omega⟩
      exact (termAt_succ he).symm
    refine .same ?_ (fun _ he => he) fun _ he => .inl he
    exact ⟨h.term, ⟨h.holds.compacted hlt he hindex, hterm⟩, hcommit, h.commit_le, h.decided,
      h.tracked, h.receiving, fun hrole => ⟨(h.leading hrole).leads, (h.leading hrole).whole,
        (h.leading hrole).own, (h.leading hrole).next, (h.leading hrole).acked⟩⟩

/-- A restart under the storage contract falls back to the baseline. -/
theorem NodeRel.resume (h : NodeRel M s i n) : NodeRel M s i n.resume where
  term := h.term
  holds := h.holds.congr rfl rfl rfl
  base_le := le_rfl
  commit_le := h.base_le.trans h.commit_le
  decided := h.decided.mono (List.take_prefix_take_left h.base_le) le_rfl
  tracked p hp := by simp [Node.resume, Node.newNode] at hp
  receiving r hr := by simp [Node.resume, Node.newNode] at hr
  leading hrole := by simp [Node.resume, Node.newNode] at hrole

/-- A leader's baseline is a snapshot of its own log. -/
theorem NodeRel.beginTransfer (h : NodeRel M s i n) {t : SnapshotTransfer}
    (ht : n.beginTransfer = some t) :
    Covers M s t.term t.lastIncludedIndex t.lastIncludedTerm := by
  obtain ⟨hrole, rfl⟩ := Node.beginTransfer_eq_some ht
  have hl := h.leading hrole
  have hle := h.holds.tail.le
  have hterm := h.holds.baseTerm
  have hdecided := h.decided.mono (List.take_prefix_take_left h.base_le) le_rfl
  rw [hl.whole] at hle hterm hdecided
  exact ⟨hl.leads, hle, hterm, hdecided⟩

/-- What a leader sends to a peer is a part of its log. -/
theorem NodeRel.replicateToPeer (h : NodeRel M s i n) (hi : i ∈ M.ids) {peer : NodeId}
    (hpeer : peer ∈ (M.config i).peers) {req : AppendEntriesRequest}
    (hreq : n.replicateToPeer peer = .appendEntries req) : AppendRel M s (.call i peer req) := by
  have hrole : n.role = .leader := by
    by_contra hne
    simp [Node.replicateToPeer, hne] at hreq
  have hl := h.leading hrole
  obtain ⟨-, hle, heq⟩ := h.holds.replicateToPeer_append (hl.next peer hpeer).2 hreq
  rw [hl.whole] at hle heq
  have hterm : req.term = n.currentTerm := by rw [heq]
  have hentries : req.entries = (s.chain req.term).drop req.prevLogIndex := by rw [hterm, heq]
  have hprev : req.prevLogTerm = termAt (s.chain req.term) req.prevLogIndex := by rw [hterm, heq]
  have hcommit : req.leaderCommit = n.commitIndex := by rw [heq]
  rw [← hterm] at hle
  have hspan : req.prevLogIndex + req.entries.length = (s.chain req.term).length := by
    rw [hentries, List.length_drop]
    omega
  have hdecided := h.decided
  have hcommit_le := h.commit_le
  rw [hl.whole, ← hterm, ← hcommit] at hdecided hcommit_le
  exact {
    member := hi
    towards := hpeer
    leads := by
      change (s.base req.term).isSome
      rw [hterm]
      exact hl.leads
    span := hspan.le
    entries := by
      change req.entries = ((s.chain req.term).take
        (req.prevLogIndex + req.entries.length)).drop req.prevLogIndex
      rw [hspan, List.take_length, hentries]
    prevTerm := hprev
    commit_le := hcommit_le.trans hspan.ge
    decided := hdecided
    accepted := fun resp hresp => by simp [Rpc.call] at hresp
    rejected := fun resp hresp => by simp [Rpc.call] at hresp }

/-- Loading a snapshot fills in its data. -/
theorem Node.loadTransfer_data [PersistentState σ] {t loaded : SnapshotTransfer}
    (h : n.loadTransfer t = some loaded) : ∃ data, loaded = { t with data := data } := by
  unfold loadTransfer at h
  split at h
  · simp at h
  · next data _ _ _ =>
      split at h
      · simp at h
      · rw [Option.some.injEq] at h
        exact ⟨data, h.symm⟩

/-- A leader goes on with a transfer at the end of the chunk just sent. -/
theorem Node.handleSnapshotReply_next [PersistentState σ] {peer : NodeId}
    {t next : SnapshotTransfer} {resp : InstallSnapshotResponse}
    (h : (n.handleSnapshotReply peer t resp).1 = some next) :
    next = { t with offset := t.chunkEnd } := by
  unfold handleSnapshotReply at h
  split at h
  · simp at h
  split at h
  · simp at h
  split at h
  · simp at h
  split at h
  · simp at h
  · rw [Option.some.injEq] at h
    exact h.symm

theorem moves_handleRequestVote [PersistentState σ] (h : NodeRel M s i n) (hI : Inv M.rules s)
    (req : RequestVoteRequest) : ∃ s', Moves M s s' i n (n.handleRequestVote req).2 := by
  unfold Node.handleRequestVote
  split
  · exact ⟨s, .same h (fun _ he => he) fun _ he => .inl he⟩
  obtain ⟨s', hobserve⟩ := moves_observeTerm h hI req.term
  obtain ⟨hI', -⟩ := hobserve.later hI
  have hquiet := n.observeTerm_quiet req.term
  unfold Node.decideVote
  split
  · exact ⟨s', hobserve⟩
  split
  · exact ⟨s', hobserve⟩
  next hlog =>
  have hgrant := moves_grantVote hobserve.node hI' (not_not.mp hlog)
  refine ⟨s', hobserve.trans hgrant hI ?_ ?_⟩
  · intro hrole
    obtain ⟨hsame, hterm, -⟩ := hquiet.role (by simp [hrole])
    exact ⟨hsame ▸ hrole, hterm⟩
  · by_cases hrole : (n.observeTerm req.term).role = .candidate
    · exact .inl (hobserve.stays hrole)
    · exact .inr hrole

/-! ## Putting a node's move into the cluster -/

/-- The relation after node `i` has moved. -/
theorem Rel.move (h : Rel M c s) (hE : ElectionInv M c) (hm : Moves M s s' i (c.nodes i) n)
    (hnodes : c'.nodes = update c.nodes i n) (happends : ∀ r ∈ c'.appends, AppendRel M s' r)
    (hsnapshots : ∀ r ∈ c'.snapshots, SnapshotRel M s' r)
    (htasks : ∀ task ∈ c'.tasks, TaskRel M s' task)
    (hcandidate : ∀ j, (c'.nodes j).role = .candidate → CandidateRel c' (s'.log j) j) :
    Rel M c' s' := by
  obtain ⟨hI', hlater⟩ := hm.later h.inv
  refine ⟨hI', hm.indexed h.indexed, ?_, ?_, ?_, happends, hsnapshots, htasks, hcandidate⟩
  · rw [hnodes]
    refine Cluster.setNode_forall (P := fun j n => NodeRel M s' j n) hm.node fun j hj => ?_
    refine (h.node j).later h.inv hlater (hm.term_of j hj) (hm.log_of j hj) fun hleader => ?_
    -- the leader log of another leader's term does not move
    rcases hm.chains (c.nodes j).currentTerm with heq | hnone | ⟨hrole, hterm⟩
    · exact heq
    · have hleads := ((h.node j).leading hleader).leads
      simp [hnone] at hleads
    · have hled := (hE.ballot j).leads hleader
      rw [hterm] at hled
      exact absurd (hE.unique hled ((hE.ballot i).leads hrole)) hj
  · rw [hnodes]
    refine Cluster.setNode_forall (P := fun j n => ∀ e ∈ n.events, EventRel M s' j e) ?_
      fun j _ e he => (h.event j e he).later h.inv hlater
    intro e he
    rcases hm.events e he with he | hrel
    · exact (h.event i e he).later h.inv hlater
    · exact hrel
  · intro t ht
    have hgrows : ∀ j, (c.nodes j).Led t → (c'.nodes j).Led t := by
      rw [hnodes]
      refine Cluster.setNode_forall (P := fun j n => (c.nodes j).Led t → n.Led t) ?_
        fun j _ hled => hled
      rintro ⟨b, log, hmem⟩
      exact ⟨b, log, hm.grows _ hmem⟩
    rcases hm.elected t ht with ht | hled
    · obtain ⟨j, hj⟩ := h.elected t ht
      exact ⟨j, hgrows j hj⟩
    · refine ⟨i, ?_⟩
      rw [hnodes, update_self]
      exact hled

/-- What candidates have claimed stays true as long as nobody starts an
election. -/
theorem Rel.candidate_of (h : Rel M c s)
    (hrole : ∀ j, (c'.nodes j).role = .candidate → (c.nodes j).role = .candidate ∧
      (c'.nodes j).currentTerm = (c.nodes j).currentTerm ∧ s'.log j = s.log j)
    (hvoted : ∀ v t j x y, Event.voted t j x y ∈ (c'.nodes v).events →
      Event.voted t j x y ∈ (c.nodes v).events ∨ ∃ r ∈ c.votes, r.caller = j ∧
        r.request.term = t ∧ r.request.lastLogIndex = x ∧ r.request.lastLogTerm = y)
    (hcalls : ∀ r ∈ c'.votes, ∃ r₀ ∈ c.votes, r₀.Later r) (j : NodeId)
    (hj : (c'.nodes j).role = .candidate) : CandidateRel c' (s'.log j) j := by
  obtain ⟨hj', hterm, hlog⟩ := hrole j hj
  obtain ⟨hevents, hrequests⟩ := h.candidate j hj'
  unfold CandidateRel
  rw [hterm, hlog]
  refine ⟨?_, ?_⟩
  · intro v x y hmem
    rcases hvoted v _ j x y hmem with hmem | ⟨r, hr, hcaller, hreq, rfl, rfl⟩
    · exact hevents v x y hmem
    · exact hrequests r hr hcaller hreq
  · intro r hr hcaller hreq
    obtain ⟨r₀, hr₀, hlater⟩ := hcalls r hr
    rw [hlater.request] at hreq ⊢
    exact hrequests r₀ hr₀ (hlater.caller ▸ hcaller) hreq

/-- The roles and terms of candidates after node `i` has moved quietly. -/
theorem Moves.stays_candidate (hm : Moves M s s' i (c.nodes i) n)
    (hq : n.role ≠ .follower → n.role = (c.nodes i).role ∧
      n.currentTerm = (c.nodes i).currentTerm) (hnodes : c'.nodes = update c.nodes i n) :
    ∀ j, (c'.nodes j).role = .candidate → (c.nodes j).role = .candidate ∧
      (c'.nodes j).currentTerm = (c.nodes j).currentTerm ∧ s'.log j = s.log j := by
  rw [hnodes]
  refine Cluster.setNode_forall (P := fun j n => n.role = .candidate →
    (c.nodes j).role = .candidate ∧ n.currentTerm = (c.nodes j).currentTerm ∧
      s'.log j = s.log j) ?_ fun j hj hrole => ⟨hrole, rfl, hm.log_of j hj⟩
  intro hrole
  obtain ⟨hsame, hterm⟩ := hq (by simp [hrole])
  exact ⟨hsame ▸ hrole, hterm, hm.stays hrole⟩

/-- The relation after a quiet move. -/
theorem Rel.quiet (h : Rel M c s) (hE : ElectionInv M c) (hm : Moves M s s' i (c.nodes i) n)
    (hq : Quiet (c.nodes i) n) (hnodes : c'.nodes = update c.nodes i n)
    (hcalls : ∀ r ∈ c'.votes, ∃ r₀ ∈ c.votes, r₀.Later r)
    (happends : ∀ r ∈ c'.appends, AppendRel M s' r)
    (hsnapshots : ∀ r ∈ c'.snapshots, SnapshotRel M s' r)
    (htasks : ∀ task ∈ c'.tasks, TaskRel M s' task) : Rel M c' s' := by
  refine h.move hE hm hnodes happends hsnapshots htasks (h.candidate_of
    (hm.stays_candidate (fun hrole => ?_) hnodes) (fun v t j x y hmem => .inl ?_) hcalls)
  · obtain ⟨hsame, hterm, -⟩ := hq.role hrole
    exact ⟨hsame, hterm⟩
  · rw [hnodes] at hmem
    revert v
    refine Cluster.setNode_forall (P := fun v n => Event.voted t j x y ∈ n.events →
      Event.voted t j x y ∈ (c.nodes v).events) (hq.mem_events rfl).mp fun v _ hmem => hmem

/-- The calls and tasks on record fit a later history. -/
theorem Rel.calls_later (h : Rel M c s) (hm : Moves M s s' i (c.nodes i) n) :
    (∀ r ∈ c.appends, AppendRel M s' r) ∧ (∀ r ∈ c.snapshots, SnapshotRel M s' r) ∧
      ∀ task ∈ c.tasks, TaskRel M s' task := by
  obtain ⟨-, hlater⟩ := hm.later h.inv
  exact ⟨fun r hr => (h.append r hr).later h.inv hlater,
    fun r hr => (h.snapshot r hr).later h.inv hlater,
    fun task htask => (h.task task htask).later h.inv hlater⟩

/-- A member of a list one of whose elements was updated. -/
theorem Rpc.mem_modify {Q A : Type} {l : List (Rpc Q A)} {k : ℕ} {f : Rpc Q A → Rpc Q A}
    {r : Rpc Q A} (h : r ∈ l.modify k f) :
    r ∈ l ∨ ∃ r₀, l[k]? = some r₀ ∧ r = f r₀ := by
  obtain ⟨j, hj⟩ := List.mem_iff_getElem?.mp h
  obtain ⟨r₀, hr₀, rfl⟩ := Rpc.getElem?_modify hj
  split
  · next hkj => exact .inr ⟨r₀, hkj ▸ hr₀, rfl⟩
  · exact .inl (List.mem_of_getElem? hr₀)

/-- Answering and consuming a call keeps who asked whom for what. -/
theorem Rpc.later_modify {Q A : Type} {l : List (Rpc Q A)} {k : ℕ} {f : Rpc Q A → Rpc Q A}
    (hf : ∀ r, Rpc.Later r (f r)) : ∀ r ∈ l.modify k f, ∃ r₀ ∈ l, Rpc.Later r₀ r := by
  intro r hr
  rcases Rpc.mem_modify hr with hr | ⟨r₀, hr₀, rfl⟩
  · exact ⟨r, hr, .refl r⟩
  · exact ⟨r₀, List.mem_of_getElem? hr₀, hf r₀⟩

/-! ## Elections -/

/-- A candidate with enough votes becomes leader. -/
theorem Rel.win (h : Rel M c s) (hE : ElectionInv M c)
    (hrole : (c.nodes i).role = .candidate)
    (henough : (c.nodes i).quorum ≤ (c.nodes i).votes (c.nodes i).currentTerm) :
    ∃ s', Steps M.rules s s' ∧ Rel M (c.setNode i (c.nodes i).becomeLeader) s' := by
  obtain ⟨Q, hQ, hvoters⟩ := hE.quorum_of_tally hrole henough
  have hwin := hE.win hrole henough
  -- no leader of this term yet: it would be node `i` itself
  have hfresh : s.base (c.nodes i).currentTerm = none := by
    by_contra hsome
    obtain ⟨j, b, log, hmem⟩ := h.elected _ (Option.isSome_iff_ne_none.mpr hsome)
    have hself : ((c.setNode i (c.nodes i).becomeLeader).nodes i).Led (c.nodes i).currentTerm := by
      rw [Cluster.setNode_self]
      exact ⟨_, _, List.mem_append_right _ (List.mem_singleton.mpr rfl)⟩
    have hother : ((c.setNode i (c.nodes i).becomeLeader).nodes j).Led
        (c.nodes i).currentTerm := by
      by_cases hj : j = i
      · exact hj ▸ hself
      · rw [Cluster.setNode_of_ne _ _ hj]
        exact ⟨b, log, hmem⟩
    have heq := hwin.unique hother hself
    exact (hE.ballot i).unled hrole ⟨b, log, heq ▸ hmem⟩
  have hvotes : ∀ v ∈ Q, ∃ l, Voted M.rules s v (c.nodes i).currentTerm l ∧
      Consensus.UpToDate M.rules l (s.log i) := by
    intro v hv
    obtain ⟨x, y, hmem⟩ := hvoters v hv
    obtain ⟨rfl, rfl⟩ := (h.candidate i hrole).1 v x y hmem
    obtain ⟨l, hvoted, hup⟩ := h.event v _ hmem
    refine ⟨l, hvoted, ?_⟩
    unfold termAt at hup
    rw [List.take_length, List.take_length] at hup
    exact hup
  have hm := moves_becomeLeader (h.node i) h.inv (hE.config i) hQ hfresh hvotes
  obtain ⟨happends, hsnapshots, htasks⟩ := h.calls_later hm
  refine ⟨_, hm.steps, h.move hE hm rfl happends hsnapshots htasks
    (h.candidate_of ?_ ?_ fun r hr => ⟨r, hr, .refl r⟩)⟩
  · refine Cluster.setNode_forall (P := fun j n => n.role = .candidate →
      (c.nodes j).role = .candidate ∧ n.currentTerm = (c.nodes j).currentTerm ∧
        (s.elect i (c.nodes i).currentTerm).log j = s.log j) ?_
      fun j hj hcandidate => ⟨hcandidate, rfl, rfl⟩
    intro hcandidate
    simp [Node.becomeLeader] at hcandidate
  · refine Cluster.setNode_forall (P := fun v n => ∀ t j x y, Event.voted t j x y ∈ n.events →
      Event.voted t j x y ∈ (c.nodes v).events ∨ ∃ r ∈ c.votes, r.caller = j ∧
        r.request.term = t ∧ r.request.lastLogIndex = x ∧ r.request.lastLogTerm = y) ?_
      fun v _ t j x y hmem => .inl hmem
    intro t j x y hmem
    refine .inl ?_
    simpa [Node.becomeLeader] using hmem

variable [PersistentState σ]

/-- A member starts an election; no call has been made yet. -/
theorem Rel.campaign (h : Rel M c s) (hE : ElectionInv M c) :
    Rel M (c.setNode i (c.nodes i).campaign) (s.advance i ((c.nodes i).currentTerm + 1)) := by
  have hm := moves_campaign (h.node i) h.inv
  obtain ⟨happends, hsnapshots, htasks⟩ := h.calls_later hm
  have hid : (c.nodes i).cfg.id = i := by
    rw [hE.config i]
    rfl
  -- events of the new cluster: those of the old one and the node's vote for itself
  have hvoted : ∀ v t j x y, Event.voted t j x y ∈
      ((c.setNode i (c.nodes i).campaign).nodes v).events →
      Event.voted t j x y ∈ (c.nodes v).events ∨ (j = i ∧
        x = (c.nodes i).lastLogIndex ∧ y = (c.nodes i).lastLogTerm) := by
    refine Cluster.setNode_forall (P := fun v n => ∀ t j x y, Event.voted t j x y ∈ n.events →
      Event.voted t j x y ∈ (c.nodes v).events ∨ (j = i ∧
        x = (c.nodes i).lastLogIndex ∧ y = (c.nodes i).lastLogTerm)) ?_
      fun v _ t j x y hmem => .inl hmem
    intro t j x y hmem
    simp only [Node.campaign, Node.persistHardState, List.mem_append, List.mem_singleton,
      Event.voted.injEq, hid] at hmem
    rcases hmem with hmem | ⟨-, hj, hx, hy⟩
    · exact .inl hmem
    · exact .inr ⟨hj, hx, hy⟩
  refine h.move hE hm rfl happends hsnapshots htasks fun j hrole => ?_
  by_cases hj : j = i
  · -- nobody can have voted for the new election, or been asked to
    subst hj
    unfold CandidateRel
    rw [Cluster.setNode_self]
    refine ⟨?_, ?_⟩
    · intro v x y hmem
      rcases hvoted v _ _ x y hmem with hmem | ⟨-, rfl, rfl⟩
      · exact absurd (hE.asked v _ _ ⟨x, y, hmem⟩) (Nat.not_succ_le_self _)
      · exact ⟨(h.node j).holds.lastLogIndex_eq, (h.node j).holds.lastLogTerm_eq⟩
    · intro r hr hcaller hreq
      obtain ⟨k, hk⟩ := List.mem_iff_getElem?.mp hr
      have hsent := (hE.sent k r hk).2.2.2
      rw [hcaller, hreq] at hsent
      exact absurd hsent (Nat.not_succ_le_self _)
  · rw [Cluster.setNode_of_ne _ _ hj] at hrole
    obtain ⟨hevents, hrequests⟩ := h.candidate j hrole
    unfold CandidateRel
    rw [Cluster.setNode_of_ne _ _ hj]
    refine ⟨?_, hrequests⟩
    intro v x y hmem
    rcases hvoted v _ _ x y hmem with hmem | ⟨heq, -⟩
    · exact hevents v x y hmem
    · exact absurd heq hj

omit [PersistentState σ] in
/-- Candidate `i` asks for votes for the log it holds. -/
theorem Rel.call (h : Rel M c s) {calls : List VoteRpc}
    (hcalls : ∀ r ∈ calls, r.caller = i ∧ r.request.lastLogIndex = (c.nodes i).lastLogIndex ∧
      r.request.lastLogTerm = (c.nodes i).lastLogTerm) :
    Rel M { c with votes := c.votes ++ calls } s := by
  refine ⟨h.inv, h.indexed, h.node, h.event, h.elected, h.append, h.snapshot, h.task, ?_⟩
  intro j hrole
  obtain ⟨hevents, hrequests⟩ := h.candidate j hrole
  refine ⟨hevents, fun r hr hcaller hreq => ?_⟩
  rcases List.mem_append.mp hr with hr | hr
  · exact hrequests r hr hcaller hreq
  · obtain ⟨hi, hindex, hterm⟩ := hcalls r hr
    obtain rfl : i = j := hi.symm.trans hcaller
    rw [hindex, hterm, (h.node i).holds.lastLogIndex_eq, (h.node i).holds.lastLogTerm_eq]
    exact ⟨rfl, rfl⟩

theorem Rel.electionTimeout (h : Rel M c s) (hE : ElectionInv M c) (hi : i ∈ M.ids) :
    ∃ s', Steps M.rules s s' ∧ Rel M (c.electionTimeout i) s' := by
  have hcampaign := h.campaign hE (i := i)
  have hadvance := (moves_campaign (h.node i) h.inv).steps
  unfold Cluster.electionTimeout Node.electionTimeout
  split
  · unfold Node.startElection
    split
    · next hsingle =>
        obtain ⟨s', hsteps, hwin⟩ := hcampaign.win (hE.campaign hi) (i := i)
          (by simp [Node.campaign, Node.persistHardState])
          (by simpa [Node.campaign, Node.persistHardState, Node.quorum] using hsingle)
        exact ⟨s', hadvance.trans hsteps, by simpa [Cluster.setNode, update_idem] using hwin⟩
    · refine ⟨_, hadvance, hcampaign.call (i := i) ?_⟩
      intro r hr
      obtain ⟨-, ⟨-, hcall, rfl⟩, rfl⟩ := by simpa only [List.mem_map] using hr
      rw [Cluster.setNode_self]
      exact ⟨rfl, rfl, rfl⟩
  · have hset : c.setNode i (c.nodes i) = c := by
      unfold Cluster.setNode
      rw [update_eq_self]
    refine ⟨s, .refl, ?_⟩
    simpa [hset] using h

theorem Rel.deliverVote (h : Rel M c s) (hE : ElectionInv M c) {k : ℕ} {r : VoteRpc}
    (hr : c.votes[k]? = some r) : ∃ s', Steps M.rules s s' ∧ Rel M
      { c.setNode r.callee ((c.nodes r.callee).handleRequestVote r.request).2 with
        votes := c.votes.modify k
          (.answer ((c.nodes r.callee).handleRequestVote r.request).1) } s' := by
  obtain ⟨s', hm⟩ := moves_handleRequestVote (h.node r.callee) h.inv r.request
  obtain ⟨happends, hsnapshots, htasks⟩ := h.calls_later hm
  have hcalls := Rpc.later_modify (l := c.votes) (k := k)
    (f := .answer ((c.nodes r.callee).handleRequestVote r.request).1) fun r => .answer r _
  have hmem : r ∈ c.votes := List.mem_of_getElem? hr
  rcases (c.nodes r.callee).handleRequestVote_cases r.request with
    ⟨-, hquiet⟩ | ⟨hterm, -, -, heq⟩
  · exact ⟨s', hm.steps, h.quiet hE hm hquiet rfl hcalls happends
      hsnapshots htasks⟩
  · have hobserve := (c.nodes r.callee).observeTerm_quiet r.request.term
    have hid := (hE.sent k r hr).2.2.1
    refine ⟨s', hm.steps, h.move hE hm rfl happends hsnapshots htasks
      (h.candidate_of (hm.stays_candidate ?_ rfl) ?_ hcalls)⟩
    · rw [heq]
      intro hrole
      obtain ⟨hsame, hsameTerm, -⟩ := hobserve.role hrole
      exact ⟨hsame, hsameTerm⟩
    · -- the one new vote is for the log the call names
      rw [heq]
      refine Cluster.setNode_forall (P := fun v n => ∀ t j x y, Event.voted t j x y ∈ n.events →
        Event.voted t j x y ∈ (c.nodes v).events ∨ ∃ r ∈ c.votes, r.caller = j ∧
          r.request.term = t ∧ r.request.lastLogIndex = x ∧ r.request.lastLogTerm = y) ?_
        fun v _ t j x y hold => .inl hold
      intro t j x y hvote
      simp only [Node.grantVote, Node.persistHardState, List.mem_append, List.mem_singleton,
        Event.voted.injEq] at hvote
      rcases hvote with hold | ⟨rfl, rfl, rfl, rfl⟩
      · exact .inl ((hobserve.mem_events rfl).mp hold)
      · exact .inr ⟨r, hmem, hid.symm, hterm.symm, rfl, rfl⟩

omit [PersistentState σ] in
/-- A candidate counts a vote that call `k` brought. -/
theorem Rel.count (h : Rel M c s) (hE : ElectionInv M c) {k : ℕ} (votes : ℕ → ℕ) :
    Rel M { c.setNode i { c.nodes i with votes := votes } with
      votes := c.votes.modify k .consume } s := by
  have hm : Moves M s s i (c.nodes i) { c.nodes i with votes := votes } :=
    .same ((h.node i).congr rfl rfl fun hrole => ⟨hrole, rfl⟩) (fun _ he => he)
      fun _ he => .inl he
  refine h.move hE hm rfl h.append h.snapshot h.task (h.candidate_of
    (hm.stays_candidate (fun _ => ⟨rfl, rfl⟩) rfl) ?_ (Rpc.later_modify fun r => .consume r))
  refine Cluster.setNode_forall (P := fun v n => ∀ t j x y, Event.voted t j x y ∈ n.events →
    Event.voted t j x y ∈ (c.nodes v).events ∨ ∃ r ∈ c.votes, r.caller = j ∧
      r.request.term = t ∧ r.request.lastLogIndex = x ∧ r.request.lastLogTerm = y)
    (fun t j x y hmem => .inl hmem) fun v _ t j x y hmem => .inl hmem

theorem Rel.replyVote (h : Rel M c s) (hE : ElectionInv M c) {k : ℕ} {r : VoteRpc}
    (hr : c.votes[k]? = some r) (hlive : r.live) {resp : RequestVoteResponse}
    (hresp : resp ∈ r.responses) : ∃ s', Steps M.rules s s' ∧ Rel M
      { c.setNode r.caller ((c.nodes r.caller).handleVoteReply r.request resp) with
        votes := c.votes.modify k .consume } s' := by
  have hcalls := Rpc.later_modify (l := c.votes) (k := k) (f := Rpc.consume) fun r => .consume r
  unfold Node.handleVoteReply
  split
  · obtain ⟨s', hm⟩ := moves_becomeFollower (h.node r.caller) h.inv resp.term
    obtain ⟨happends, hsnapshots, htasks⟩ := h.calls_later hm
    exact ⟨s', hm.steps, h.quiet hE hm (Node.becomeFollower_quiet _ _) rfl hcalls happends
      hsnapshots htasks⟩
  · split
    · next hcounted =>
        obtain ⟨hgranted, hrole, hterm⟩ := hcounted
        have hcount := h.count hE (i := r.caller) (k := k)
          (update (c.nodes r.caller).votes r.request.term
            ((c.nodes r.caller).votes r.request.term + 1))
        unfold Node.countVote
        split
        · next henough =>
            obtain ⟨s', hsteps, hwin⟩ := hcount.win (hE.count hr hlive hresp hgranted hrole hterm)
              (i := r.caller) (by simpa using hrole)
              (by simpa [hterm, Node.quorum] using henough)
            exact ⟨s', hsteps, by simpa [Cluster.setNode, update_idem] using hwin⟩
        · exact ⟨s, .refl, hcount⟩
    · have hm : Moves M s s r.caller (c.nodes r.caller) (c.nodes r.caller) :=
        .same (h.node r.caller) (fun _ he => he) fun _ he => .inl he
      exact ⟨s, .refl, h.quiet hE hm (.refl _) rfl hcalls h.append h.snapshot h.task⟩

/-! ## Calls on record -/

section Records

omit [PersistentState σ]

theorem AppendRel.answer {r : Rpc AppendEntriesRequest AppendEntriesResponse}
    (h : AppendRel M s r) {resp : AppendEntriesResponse}
    (haccepted : resp.success →
      r.request.prevLogIndex + r.request.entries.length ≤ s.acks r.callee r.request.term)
    (hrejected : resp.success = false →
      r.request.term < resp.term ∨ resp.conflictIndex ≤ r.request.prevLogIndex) :
    AppendRel M s (r.answer resp) :=
  { h with
    accepted := fun resp' hresp' => by
      rcases List.mem_append.mp hresp' with hold | hnew
      · exact h.accepted resp' hold
      · rw [List.mem_singleton.mp hnew]
        exact haccepted
    rejected := fun resp' hresp' => by
      rcases List.mem_append.mp hresp' with hold | hnew
      · exact h.rejected resp' hold
      · rw [List.mem_singleton.mp hnew]
        exact hrejected }

theorem AppendRel.consume {r : Rpc AppendEntriesRequest AppendEntriesResponse}
    (h : AppendRel M s r) : AppendRel M s r.consume :=
  { h with }

theorem AppendRel.abandon {r : Rpc AppendEntriesRequest AppendEntriesResponse}
    (h : AppendRel M s r) (i : NodeId) : AppendRel M s (r.abandon i) := by
  unfold Rpc.abandon
  split
  · exact h.consume
  · exact h

theorem SnapshotRel.answer {r : Rpc SnapshotTransfer InstallSnapshotResponse}
    (h : SnapshotRel M s r) {resp : InstallSnapshotResponse}
    (haccepted : resp.success → r.request.done →
      r.request.lastIncludedIndex ≤ s.acks r.callee r.request.term) :
    SnapshotRel M s (r.answer resp) :=
  { h with
    accepted := fun resp' hresp' => by
      rcases List.mem_append.mp hresp' with hold | hnew
      · exact h.accepted resp' hold
      · rw [List.mem_singleton.mp hnew]
        exact haccepted }

theorem SnapshotRel.consume {r : Rpc SnapshotTransfer InstallSnapshotResponse}
    (h : SnapshotRel M s r) : SnapshotRel M s r.consume :=
  { h with }

theorem SnapshotRel.abandon {r : Rpc SnapshotTransfer InstallSnapshotResponse}
    (h : SnapshotRel M s r) (i : NodeId) : SnapshotRel M s (r.abandon i) := by
  unfold Rpc.abandon
  split
  · exact h.consume
  · exact h

/-- A call that has not been answered yet. -/
theorem SnapshotRel.call {caller callee : NodeId} {t : SnapshotTransfer}
    (hpeer : callee ∈ (M.config caller).peers)
    (hcovers : Covers M s t.term t.lastIncludedIndex t.lastIncludedTerm) :
    SnapshotRel M s (.call caller callee t) :=
  ⟨hpeer, hcovers, fun resp hresp => by simp [Rpc.call] at hresp⟩

end Records

/-! ## All actions -/

omit [PersistentState σ] in
/-- The actions the abstract protocol can follow. -/
def Covered (c : Cluster σ) : Action → Prop
  | .compactLog i _ index term => (c.nodes i).lastIncludedIndex < index →
      index ≤ (c.nodes i).commitIndex →
        ∃ e ∈ entryAt (c.nodes i).lastIncludedIndex (c.nodes i).log index, e.term = term
  | .deliverSnapshot k => ∀ rpc ∈ c.snapshots[k]?,
      (c.nodes rpc.callee).Installs rpc.request.request →
        (c.nodes rpc.callee).lastLogIndex ≤ rpc.request.lastIncludedIndex
  | .restart _ => False
  | .crash .. => False
  | _ => True

theorem Rel.initial (M : Members) :
    Rel M (Cluster.initial M : Cluster σ) Consensus.State.initial := by
  refine ⟨.initial, ?_, ?_, ?_, ?_, ?_, ?_, ?_, ?_⟩
  · intro t k e he
    simp [Consensus.State.initial] at he
  · intro i
    refine ⟨rfl, ⟨⟨le_rfl, _, rfl, rfl, rfl, fun _ => rfl⟩, rfl⟩, le_rfl, le_rfl, .inl rfl, ?_, ?_,
      ?_⟩
    · exact fun p hp => absurd hp List.not_mem_nil
    · exact fun r hr => by simp [Cluster.initial, Node.newNode] at hr
    · exact fun hrole => by simp [Cluster.initial, Node.newNode] at hrole
  · exact fun i e he => absurd he List.not_mem_nil
  · exact fun t ht => by simp [Consensus.State.initial] at ht
  · exact fun r hr => absurd hr List.not_mem_nil
  · exact fun r hr => absurd hr List.not_mem_nil
  · exact fun task htask => absurd htask List.not_mem_nil
  · exact fun i hrole => by simp [Cluster.initial, Node.newNode] at hrole

omit [PersistentState σ] in
/-- A change of the calls and tasks between a leader and its peers. -/
theorem Rel.calls (h : Rel M c s) (hnodes : c'.nodes = c.nodes) (hvotes : c'.votes = c.votes)
    (happends : ∀ r ∈ c'.appends, AppendRel M s r)
    (hsnapshots : ∀ r ∈ c'.snapshots, SnapshotRel M s r)
    (htasks : ∀ task ∈ c'.tasks, TaskRel M s task) : Rel M c' s := by
  refine ⟨h.inv, h.indexed, ?_, ?_, ?_, happends, hsnapshots, htasks, ?_⟩
  · exact hnodes ▸ h.node
  · exact hnodes ▸ h.event
  · exact hnodes ▸ h.elected
  · unfold CandidateRel
    rw [hnodes, hvotes]
    exact h.candidate

omit [PersistentState σ] in
/-- A quiet move that touches no call. -/
theorem Rel.quiet_setNode (h : Rel M c s) (hE : ElectionInv M c)
    (hm : Moves M s s' i (c.nodes i) n) (hq : Quiet (c.nodes i) n) :
    Rel M (c.setNode i n) s' := by
  obtain ⟨happends, hsnapshots, htasks⟩ := h.calls_later hm
  exact h.quiet hE hm hq rfl (fun r hr => ⟨r, hr, .refl r⟩) happends hsnapshots htasks

theorem Rel.deliverAppend (h : Rel M c s) (hE : ElectionInv M c) {k : ℕ}
    {r : Rpc AppendEntriesRequest AppendEntriesResponse} (hr : c.appends[k]? = some r) :
    ∃ s', Steps M.rules s s' ∧ Rel M
      { c.setNode r.callee ((c.nodes r.callee).handleAppendEntries r.request).2 with
        appends := c.appends.modify k
          (.answer ((c.nodes r.callee).handleAppendEntries r.request).1) } s' := by
  obtain ⟨s', hm, haccepted, hrejected⟩ := moves_handleAppendEntries (h.node r.callee) h.inv
    h.indexed (h.append r (List.mem_of_getElem? hr))
  obtain ⟨happends, hsnapshots, htasks⟩ := h.calls_later hm
  refine ⟨s', hm.steps, h.quiet hE hm (Node.handleAppendEntries_quiet _ _) rfl
    (fun r hr => ⟨r, hr, .refl r⟩) (fun r' hr' => ?_) hsnapshots htasks⟩
  rcases Rpc.mem_modify hr' with hold | ⟨r₀, hr₀, rfl⟩
  · exact happends r' hold
  · obtain rfl : r = r₀ := Option.some.inj (hr.symm.trans hr₀)
    exact (happends r (List.mem_of_getElem? hr)).answer haccepted hrejected

theorem Rel.replyAppend (h : Rel M c s) (hE : ElectionInv M c) {k : ℕ}
    {r : Rpc AppendEntriesRequest AppendEntriesResponse} (hr : c.appends[k]? = some r)
    {resp : AppendEntriesResponse} (hresp : resp ∈ r.responses) :
    ∃ s', Steps M.rules s s' ∧ Rel M
      { c.setNode r.caller ((c.nodes r.caller).handleAppendReply r.callee r.request resp) with
        appends := c.appends.modify k .consume } s' := by
  have hrel := h.append r (List.mem_of_getElem? hr)
  obtain ⟨s', hm⟩ := moves_handleAppendReply (h.node r.caller) h.inv h.indexed hrel.member
    (hE.config r.caller) hrel rfl hresp
  obtain ⟨happends, hsnapshots, htasks⟩ := h.calls_later hm
  refine ⟨s', hm.steps, h.quiet hE hm (Node.handleAppendReply_quiet _ _ _ _) rfl
    (fun r hr => ⟨r, hr, .refl r⟩) (fun r' hr' => ?_) hsnapshots htasks⟩
  rcases Rpc.mem_modify hr' with hold | ⟨r₀, hr₀, rfl⟩
  · exact happends r' hold
  · exact (happends r₀ (List.mem_of_getElem? hr₀)).consume

theorem Rel.deliverSnapshot (h : Rel M c s) (hE : ElectionInv M c) {k : ℕ}
    {r : Rpc SnapshotTransfer InstallSnapshotResponse} (hr : c.snapshots[k]? = some r)
    (hinstall : (c.nodes r.callee).Installs r.request.request →
      (c.nodes r.callee).lastLogIndex ≤ r.request.lastIncludedIndex) :
    ∃ s', Steps M.rules s s' ∧ Rel M
      { c.setNode r.callee ((c.nodes r.callee).handleInstallSnapshot r.request.request).2 with
        snapshots := c.snapshots.modify k
          (.answer ((c.nodes r.callee).handleInstallSnapshot r.request.request).1) } s' := by
  have hrel := h.snapshot r (List.mem_of_getElem? hr)
  obtain ⟨s', hm, haccepted⟩ := moves_handleInstallSnapshot (h.node r.callee) h.inv hrel.covers
    hinstall
  obtain ⟨happends, hsnapshots, htasks⟩ := h.calls_later hm
  refine ⟨s', hm.steps, h.quiet hE hm (Node.handleInstallSnapshot_quiet _ _) rfl
    (fun r hr => ⟨r, hr, .refl r⟩) happends (fun r' hr' => ?_) htasks⟩
  rcases Rpc.mem_modify hr' with hold | ⟨r₀, hr₀, rfl⟩
  · exact hsnapshots r' hold
  · obtain rfl : r = r₀ := Option.some.inj (hr.symm.trans hr₀)
    exact (hsnapshots r (List.mem_of_getElem? hr)).answer haccepted

theorem Rel.replySnapshot (h : Rel M c s) (hE : ElectionInv M c) {k : ℕ}
    {r : Rpc SnapshotTransfer InstallSnapshotResponse} (hr : c.snapshots[k]? = some r)
    {resp : InstallSnapshotResponse} (hresp : resp ∈ r.responses) :
    ∃ s', Steps M.rules s s' ∧ Rel M
      { c.setNode r.caller
          ((c.nodes r.caller).handleSnapshotReply r.callee r.request resp).2 with
        snapshots := c.snapshots.modify k .consume ++
          ((c.nodes r.caller).handleSnapshotReply r.callee r.request resp).1.toList.map
            (.call r.caller r.callee) } s' := by
  have hrel := h.snapshot r (List.mem_of_getElem? hr)
  obtain ⟨s', hm⟩ := moves_handleSnapshotReply (h.node r.caller) h.inv hrel rfl hresp
  obtain ⟨happends, hsnapshots, htasks⟩ := h.calls_later hm
  have hrel' := hsnapshots r (List.mem_of_getElem? hr)
  refine ⟨s', hm.steps, h.quiet hE hm (Node.handleSnapshotReply_quiet _ _ _ _) rfl
    (fun r hr => ⟨r, hr, .refl r⟩) happends (fun r' hr' => ?_) htasks⟩
  rcases List.mem_append.mp hr' with hold | hnew
  · rcases Rpc.mem_modify hold with hold | ⟨r₀, hr₀, rfl⟩
    · exact hsnapshots r' hold
    · exact (hsnapshots r₀ (List.mem_of_getElem? hr₀)).consume
  · -- the next chunk is one of the same snapshot
    obtain ⟨t, ht, rfl⟩ := List.mem_map.mp hnew
    refine .call hrel'.towards ?_
    have ht : ((c.nodes r.caller).handleSnapshotReply r.callee r.request resp).1 = some t := by
      simpa using ht
    obtain rfl := Node.handleSnapshotReply_next ht
    exact hrel'.covers

omit [PersistentState σ] in
theorem Rel.resume (h : Rel M c s) (hE : ElectionInv M c) : Rel M (c.resume i) s := by
  have hm : Moves M s s i (c.nodes i) (c.nodes i).resume :=
    .same (h.node i).resume (fun _ he => he) fun _ he => .inl he
  refine h.quiet hE hm (Node.resume_quiet _) rfl ?_ ?_ ?_ ?_
  · intro r' hr'
    obtain ⟨r, hr, rfl⟩ := List.mem_map.mp hr'
    exact ⟨r, hr, .abandon i r⟩
  · intro r' hr'
    obtain ⟨r, hr, rfl⟩ := List.mem_map.mp hr'
    exact (h.append r hr).abandon i
  · intro r' hr'
    obtain ⟨r, hr, rfl⟩ := List.mem_map.mp hr'
    exact (h.snapshot r hr).abandon i
  · exact fun task htask => h.task task (List.mem_of_mem_filter htask)

/-- Every covered action is followed by the abstract protocol. -/
theorem Rel.follow (h : Rel M c s) (hE : ElectionInv M c) {a : Action} (ha : Covered c a) :
    ∃ s', Steps M.rules s s' ∧ Rel M (c.step M a) s' := by
  have heffect := c.step_effect M a
  generalize c.step M a = c' at heffect
  cases heffect with
  | idle => exact ⟨s, .refl, h⟩
  | electionTimeout member => exact h.electionTimeout hE member
  | deliverVote call => exact h.deliverVote hE call
  | replyVote call live response => exact h.replyVote hE call live response
  | propose member =>
      obtain ⟨s', hm⟩ := moves_propose (h.node _) h.inv h.indexed member (hE.config _) _
      exact ⟨s', hm.steps, h.quiet_setNode hE hm (Node.propose_quiet _ _)⟩
  | startTask member towards =>
      refine ⟨s, .refl, h.calls rfl rfl h.append h.snapshot fun task htask => ?_⟩
      rcases List.mem_append.mp htask with hold | hnew
      · exact h.task task hold
      · rw [List.mem_singleton.mp hnew]
        exact towards
  | sendAppend member towards built =>
      refine ⟨s, .refl, h.calls rfl rfl (fun r hr => ?_) h.snapshot h.task⟩
      rcases List.mem_append.mp hr with hold | hnew
      · exact h.append r hold
      · rw [List.mem_singleton.mp hnew]
        exact (h.node _).replicateToPeer member towards built
  | deliverAppend call => exact h.deliverAppend hE call
  | replyAppend call _ response => exact h.replyAppend hE call response
  | dropTask =>
      exact ⟨s, .refl, h.calls rfl rfl h.append h.snapshot fun task htask =>
        h.task task (List.mem_of_mem_eraseIdx htask)⟩
  | beginSnapshot task begun =>
      refine ⟨s, .refl, h.calls rfl rfl h.append h.snapshot fun task' htask' => ?_⟩
      rcases List.mem_or_eq_of_mem_set htask' with hold | rfl
      · exact h.task task' hold
      · exact ⟨h.task _ (List.mem_of_getElem? task), (h.node _).beginTransfer begun⟩
  | loadSnapshot task found =>
      have hload := h.task _ (List.mem_of_getElem? task)
      refine ⟨s, .refl, h.calls rfl rfl h.append (fun r hr => ?_) fun task' htask' =>
        h.task task' (List.mem_of_mem_eraseIdx htask')⟩
      rcases List.mem_append.mp hr with hold | hnew
      · exact h.snapshot r hold
      · rw [List.mem_singleton.mp hnew]
        obtain ⟨data, rfl⟩ := Node.loadTransfer_data found
        exact .call hload.1 hload.2
  | deliverSnapshot call => exact h.deliverSnapshot hE call (ha _ call)
  | replySnapshot call _ response => exact h.replySnapshot hE call response
  | @compactLog i data index term member =>
      have hm := moves_compactLog (h.node i) h.inv h.indexed data ha
      exact ⟨s, .refl, h.quiet_setNode hE hm (Node.compactLog_quiet _ _ _ _)⟩
  | resume member => exact ⟨s, .refl, h.resume hE⟩
  | restart => exact ha.elim
  | crash => exact ha.elim

theorem Rel.step (h : Rel M c s) (hE : ElectionInv M c) {a : Action} (ha : Covered c a) :
    ∃ s', Rel M (c.step M a) s' := by
  obtain ⟨s', -, hR⟩ := h.follow hE ha
  exact ⟨s', hR⟩

/-- A run of covered actions stays related to the abstract protocol. -/
theorem rel_of_reachable {ok : Cluster σ → Action → Prop} (hok : ∀ c a, ok c a → Covered c a)
    (h : Cluster.Reachable M ok c) : ElectionInv M c ∧ ∃ s, Rel M c s := by
  refine Reaches.invariant (P := fun c => ElectionInv M c ∧ ∃ s, Rel M c s) h
    ⟨.initial M, _, .initial M⟩ ?_
  rintro c a ⟨hE, s, hR⟩ ha
  have ha := hok c a ha
  refine ⟨hE.step a ?_ ?_, hR.step hE ha⟩
  · rintro i rfl
    exact ha.elim
  · rintro i inside calls rfl
    exact ha.elim

end RaftKV.Raft
