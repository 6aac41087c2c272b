import RaftKV.Raft.ClusterRefinement

/-!
# Safety of runs without compaction

In a cluster that never calls `CompactLog` no log ever gets a baseline, so no
snapshot is ever sent and every action is covered by the abstract protocol.  What
the abstract protocol guarantees is then read off the nodes themselves:

* `state_machine_safety`: no two nodes apply different entries at one index;
* `leader_completeness`: a committed entry is in the log of every later leader;
* `log_matching`: logs that share an index and a term agree up to it.
-/

namespace RaftKV.Raft

open Consensus (Inv Later Decided Committed Voted)
open Function

variable {σ : Type} {M : Members} {c : Cluster σ} {s : Abstract}

/-! ## No baseline -/

/-- The actions of a cluster without compaction, with restarts under the storage
contract. -/
def Action.plain : Action → Bool
  | .compactLog .. => false
  | .restart _ => false
  | .crash .. => false
  | _ => true

/-- The baseline under which an event recorded a log. -/
def Event.baseline : Event → Option ℕ
  | .becameLeader _ lastIncludedIndex _ => some lastIncludedIndex
  | .committed _ _ lastIncludedIndex _ => some lastIncludedIndex
  | _ => none

/-- Neither the node's log nor a log it recorded has been compacted. -/
structure Node.Unbased (n : Node σ) : Prop where
  node : n.lastIncludedIndex = 0
  events : ∀ e ∈ n.events, ∀ b, e.baseline = some b → b = 0

namespace Node.Unbased

variable {n n' : Node σ}

theorem of_events (h : n.Unbased) (hbase : n'.lastIncludedIndex = n.lastIncludedIndex)
    (hevents : ∀ e ∈ n'.events, e ∈ n.events ∨ ∀ b, e.baseline = some b →
      b = n.lastIncludedIndex) : n'.Unbased := by
  refine ⟨hbase.trans h.node, fun e he b hb => ?_⟩
  rcases hevents e he with hold | hnew
  · exact h.events e hold b hb
  · exact (hnew b hb).trans h.node

/-- One more event. -/
theorem of_event (h : n.Unbased) (hbase : n'.lastIncludedIndex = n.lastIncludedIndex)
    {e : Event} (hevents : n'.events = n.events ++ [e])
    (he : ∀ b, e.baseline = some b → b = n.lastIncludedIndex) : n'.Unbased := by
  refine h.of_events hbase fun e' he' => ?_
  rw [hevents, List.mem_append, List.mem_singleton] at he'
  rcases he' with hold | rfl
  · exact .inl hold
  · exact .inr he

theorem congr (h : n.Unbased) (hbase : n'.lastIncludedIndex = n.lastIncludedIndex)
    (hevents : n'.events = n.events) : n'.Unbased :=
  h.of_events hbase fun _ he => .inl (hevents ▸ he)

theorem becomeLeader (h : n.Unbased) : n.becomeLeader.Unbased :=
  h.of_event rfl rfl fun b hb => by simpa [Event.baseline, eq_comm] using hb

theorem advanceCommitTo (h : n.Unbased) (newCommit : ℕ) :
    (n.advanceCommitTo newCommit).Unbased := by
  refine h.of_events rfl fun e he => ?_
  rcases List.mem_append.mp he with hold | hnew
  · exact .inl hold
  · obtain ⟨msg, -, rfl⟩ := List.mem_map.mp hnew
    exact .inr fun b hb => by simp [Event.baseline] at hb

theorem maybeAdvanceCommit (h : n.Unbased) : n.maybeAdvanceCommit.Unbased := by
  unfold Node.maybeAdvanceCommit
  rcases n.advanceCommitFrom_cases n.lastLogIndex with heq | ⟨idx, -, -, -, -, -, -, heq⟩
  · rw [heq]
    exact h
  · rw [heq]
    refine advanceCommitTo ?_ idx
    exact h.of_event rfl rfl fun b hb => by simpa [Event.baseline, eq_comm] using hb

theorem recordMatch (h : n.Unbased) (peer : NodeId) (newMatch : ℕ) :
    (n.recordMatch peer newMatch).Unbased := by
  unfold Node.recordMatch
  split
  · exact h.congr rfl rfl
  · exact h

variable [PersistentState σ]

theorem becomeFollower (h : n.Unbased) (term : ℕ) : (n.becomeFollower term).Unbased := by
  unfold Node.becomeFollower
  split
  · exact h.congr rfl rfl
  · exact h.congr rfl rfl

theorem followLeader (h : n.Unbased) (term : ℕ) (leaderId : NodeId) :
    (n.followLeader term leaderId).Unbased := by
  unfold Node.followLeader
  split
  · exact (h.becomeFollower term).congr rfl rfl
  · exact h.congr rfl rfl

theorem electionTimeout (h : n.Unbased) : n.electionTimeout.2.Unbased := by
  have hcampaign : n.campaign.Unbased :=
    h.of_event rfl rfl fun b hb => by simp [Event.baseline] at hb
  unfold Node.electionTimeout
  split
  · unfold Node.startElection
    split
    · exact hcampaign.becomeLeader
    · exact hcampaign
  · exact h

theorem handleRequestVote (h : n.Unbased) (req : RequestVoteRequest) :
    (n.handleRequestVote req).2.Unbased := by
  unfold Node.handleRequestVote
  split
  · exact h
  have hobserve : (n.observeTerm req.term).Unbased := by
    unfold Node.observeTerm
    split
    · exact h.becomeFollower _
    · exact h
  unfold Node.decideVote
  split
  · exact hobserve
  split
  · exact hobserve
  · exact hobserve.of_event rfl rfl fun b hb => by simp [Event.baseline] at hb

theorem handleVoteReply (h : n.Unbased) (req : RequestVoteRequest) (resp : RequestVoteResponse) :
    (n.handleVoteReply req resp).Unbased := by
  unfold Node.handleVoteReply
  split
  · exact h.becomeFollower _
  split
  · unfold Node.countVote
    split
    · exact becomeLeader (h.congr rfl rfl)
    · exact h.congr rfl rfl
  · exact h

theorem propose (h : n.Unbased) (data : Bytes) : (n.propose data).2.Unbased := by
  unfold Node.propose
  split
  · exact h
  · exact maybeAdvanceCommit (h.congr rfl rfl)

theorem handleAppendEntries (h : n.Unbased) (req : AppendEntriesRequest) :
    (n.handleAppendEntries req).2.Unbased := by
  unfold Node.handleAppendEntries
  split
  · exact h
  have hfollow := h.followLeader req.term req.leaderId
  generalize n.followLeader req.term req.leaderId = m at hfollow
  unfold Node.checkAndAccept
  split
  · exact hfollow
  · obtain ⟨storage, heq⟩ := m.acceptEntries_eq req
    rw [heq]
    have happend : Unbased
        { m with
          log := (m.appendNew (req.prevLogIndex + 1) req.entries).log
          storage := storage } := hfollow.congr rfl rfl
    unfold Node.learnCommit
    split
    · exact happend.advanceCommitTo _
    · exact happend

theorem handleAppendReply (h : n.Unbased) (peer : NodeId) (req : AppendEntriesRequest)
    (resp : AppendEntriesResponse) : (n.handleAppendReply peer req resp).Unbased := by
  unfold Node.handleAppendReply
  split
  · exact h.becomeFollower _
  split
  · exact h
  split
  · exact (h.recordMatch _ _).maybeAdvanceCommit
  · exact h.congr rfl rfl

end Node.Unbased

/-- No log has been compacted, and no snapshot is on its way. -/
structure Uncompacted (c : Cluster σ) : Prop where
  node : ∀ i, (c.nodes i).Unbased
  snapshots : c.snapshots = []
  tasks : c.tasks = []

theorem Uncompacted.set (h : Uncompacted c) {i : NodeId} {n : Node σ} (hn : n.Unbased)
    {c' : Cluster σ} (hnodes : c'.nodes = update c.nodes i n)
    (hsnapshots : c'.snapshots = c.snapshots) (htasks : c'.tasks = c.tasks) : Uncompacted c' := by
  refine ⟨?_, hsnapshots.trans h.snapshots, htasks.trans h.tasks⟩
  rw [hnodes]
  exact Cluster.setNode_forall (P := fun _ n => n.Unbased) hn fun j _ => h.node j

variable [PersistentState σ]

omit [PersistentState σ] in
theorem Uncompacted.covered (h : Uncompacted c) {a : Action} (ha : a.plain) : Covered c a := by
  cases a with
  | compactLog => exact absurd ha Bool.false_ne_true
  | deliverSnapshot k =>
      intro rpc hrpc
      rw [h.snapshots] at hrpc
      simp at hrpc
  | restart => exact absurd ha Bool.false_ne_true
  | crash => exact absurd ha Bool.false_ne_true
  | _ => trivial

theorem Uncompacted.step (h : Uncompacted c) (hR : Rel M c s) {a : Action} (ha : a.plain) :
    Uncompacted (c.step M a) := by
  have heffect := c.step_effect M a
  generalize c.step M a = c' at heffect
  cases heffect with
  | idle => exact h
  | electionTimeout => exact h.set (h.node _).electionTimeout rfl rfl rfl
  | deliverVote => exact h.set ((h.node _).handleRequestVote _) rfl rfl rfl
  | replyVote => exact h.set ((h.node _).handleVoteReply _ _) rfl rfl rfl
  | propose => exact h.set ((h.node _).propose _) rfl rfl rfl
  | @startTask i peer _ towards behind =>
      -- `nextIndex` is never below 1, and the baseline is 0
      obtain ⟨hrole, hle⟩ := Node.replicateToPeer_sendSnapshot behind
      have hnext := (((hR.node i).leading hrole).next peer towards).1
      have hbase := (h.node i).node
      omega
  | sendAppend => exact ⟨h.node, h.snapshots, h.tasks⟩
  | deliverAppend => exact h.set ((h.node _).handleAppendEntries _) rfl rfl rfl
  | replyAppend => exact h.set ((h.node _).handleAppendReply _ _ _) rfl rfl rfl
  | dropTask => exact ⟨h.node, h.snapshots, by simp [h.tasks]⟩
  | beginSnapshot task => simp [h.tasks] at task
  | loadSnapshot task => simp [h.tasks] at task
  | deliverSnapshot call => simp [h.snapshots] at call
  | replySnapshot call => simp [h.snapshots] at call
  | compactLog => exact absurd ha Bool.false_ne_true
  | @resume i =>
      refine ⟨?_, by simp [Cluster.resume, Cluster.reboot, h.snapshots],
        by simp [Cluster.resume, Cluster.reboot, h.tasks]⟩
      exact Cluster.setNode_forall (P := fun _ n => n.Unbased) ((h.node i).congr rfl rfl)
        fun j _ => h.node j
  | restart => exact absurd ha Bool.false_ne_true
  | crash => exact absurd ha Bool.false_ne_true

/-- Runs without compaction refine the abstract protocol. -/
theorem rel_of_plain (h : Cluster.Reachable M (fun _ a => a.plain) c) :
    Uncompacted c ∧ ∃ s, Rel M c s := by
  have hall : ElectionInv M c ∧ Uncompacted c ∧ ∃ s, Rel M c s := by
    refine Reaches.invariant (P := fun c => ElectionInv M c ∧ Uncompacted c ∧ ∃ s, Rel M c s) h
      ⟨.initial M, ⟨fun i => ⟨rfl, fun e he => absurd he List.not_mem_nil⟩, rfl, rfl⟩, _,
        .initial M⟩ ?_
    rintro c a ⟨hE, hU, s, hR⟩ ha
    refine ⟨hE.step a ?_ ?_, hU.step hR ha, hR.step hE (hU.covered ha)⟩
    · rintro i rfl
      exact absurd ha Bool.false_ne_true
    · rintro i inside calls rfl
      exact absurd ha Bool.false_ne_true
  exact hall.2

omit [PersistentState σ] in
/-- Without a baseline the log in memory is the full log behind the sentinel. -/
theorem Rel.log_eq (hR : Rel M c s) (hU : Uncompacted c) (i : NodeId) :
    (c.nodes i).log = LogEntry.sentinel 0 0 :: s.log i := by
  have htail := (hR.node i).holds.tail
  rw [(hU.node i).node] at htail
  obtain ⟨first, hlog, -, -, hfirst⟩ := htail.shape
  rw [hlog, hfirst rfl, List.drop_zero]

/-! ## State machine safety -/

omit [PersistentState σ] in
/-- Under the refinement relation an index is applied with one entry. -/
theorem Rel.applied_unique (hR : Rel M c s) {i j : NodeId} {e e' : LogEntry}
    (hi : Event.applied (.command e) ∈ (c.nodes i).events)
    (hj : Event.applied (.command e') ∈ (c.nodes j).events) (hindex : e.index = e'.index) :
    e = e' := by
  obtain ⟨l, u, hl, -, hget⟩ := hR.event i _ hi
  obtain ⟨l', u', hl', -, hget'⟩ := hR.event j _ hj
  rw [← hindex] at hget'
  -- one of the two decided lists is a prefix of the other
  rcases hl.comparable hR.inv hl' with ⟨rest, rfl⟩ | ⟨rest, rfl⟩
  · rw [List.getElem?_append_left (List.getElem?_eq_some_iff.mp hget).1, hget] at hget'
    exact Option.some.inj hget'
  · rw [List.getElem?_append_left (List.getElem?_eq_some_iff.mp hget').1, hget'] at hget
    exact (Option.some.inj hget).symm

/-- **State machine safety.**  In any run without compaction, if two nodes, or one
node at two times, apply an entry at the same index, it is the same entry. -/
theorem state_machine_safety (M : Members) (c : Cluster σ)
    (h : Cluster.Reachable M (fun _ a => a.plain) c) (i j : NodeId) (e e' : LogEntry)
    (hi : Event.applied (.command e) ∈ (c.nodes i).events)
    (hj : Event.applied (.command e') ∈ (c.nodes j).events) (hindex : e.index = e'.index) :
    e = e' := by
  obtain ⟨-, s, hR⟩ := rel_of_plain h
  exact hR.applied_unique hi hj hindex

/-- `a` leads term 1 and commits an entry that `b` has acknowledged, `b` learns of
the commit, restarts, and leads term 2 with the vote of `c`. -/
def failover : List Action :=
  [.electionTimeout "a", .deliverVote 0, .replyVote 0 0, .propose "a" [7], .replicate "a" "b",
    .deliverAppend 0, .replyAppend 0 0, .replicate "a" "b", .deliverAppend 1, .resume "b",
    .electionTimeout "b", .deliverVote 3, .replyVote 3 0]

def failoverEnd : Cluster MemState :=
  failover.foldl (Cluster.step .trio) (Cluster.initial .trio)

theorem failoverEnd_reachable : Cluster.Reachable .trio (fun _ a => a.plain) failoverEnd :=
  .foldl .refl _ (by decide)

theorem state_machine_safety_failover :
    Event.applied (.command ⟨1, 1, [7]⟩) ∈ (failoverEnd.nodes "a").events ∧
    Event.applied (.command ⟨1, 1, [7]⟩) ∈ (failoverEnd.nodes "b").events ∧
    (⟨1, 1, [7]⟩ : LogEntry) = ⟨1, 1, [7]⟩ := by
  have ha : Event.applied (.command ⟨1, 1, [7]⟩) ∈ (failoverEnd.nodes "a").events := by decide
  have hb : Event.applied (.command ⟨1, 1, [7]⟩) ∈ (failoverEnd.nodes "b").events := by decide
  exact ⟨ha, hb, state_machine_safety .trio failoverEnd failoverEnd_reachable "a" "b" _ _ ha hb rfl⟩

/-! ## Leader completeness -/

omit [PersistentState σ] in
/-- An uncompacted log holds the sentinel at index 0 and the full log above. -/
theorem TailOf.entryAt_zero {l log : List LogEntry} (h : TailOf l 0 log) (k : ℕ) :
    entryAt 0 log k = (LogEntry.sentinel 0 0 :: l)[k]? := by
  obtain ⟨first, rfl, -, -, hfirst⟩ := h.shape
  rw [hfirst rfl]
  rfl

/-- **Leader completeness.**  In any run without compaction, if a leader of term
`t` commits through `index` under a log that holds `e` at some `k ≤ index`, then
every node that becomes leader in a later term holds `e` at `k` when it does. -/
theorem leader_completeness (M : Members) (c : Cluster σ)
    (h : Cluster.Reachable M (fun _ a => a.plain) c) (i j : NodeId) (t t' index b b' k : ℕ)
    (log log' : List LogEntry) (e : LogEntry)
    (hcommitted : Event.committed t index b log ∈ (c.nodes i).events)
    (hleader : Event.becameLeader t' b' log' ∈ (c.nodes j).events) (ht : t < t')
    (hk : k ≤ index) (he : entryAt b log k = some e) : entryAt b' log' k = some e := by
  obtain ⟨hU, s, hR⟩ := rel_of_plain h
  obtain rfl : b = 0 := (hU.node i).events _ hcommitted b rfl
  obtain rfl : b' = 0 := (hU.node j).events _ hleader b' rfl
  obtain ⟨hquorum, l, hl, hindex, htail⟩ := hR.event i _ hcommitted
  obtain ⟨base, hbase, htail'⟩ := hR.event j _ hleader
  rw [htail.entryAt_zero] at he
  rw [htail'.entryAt_zero]
  have hextends := Consensus.completeness hR.inv hquorum t' ht base hbase
  cases k with
  | zero => exact he
  | succ m =>
      rw [List.getElem?_cons_succ] at he ⊢
      -- `l` and the leader log of term `t` agree on the committed part
      have hchain : ((s.chain t).take index)[m]? = some e := by
        obtain ⟨rest, hrest⟩ := hl
        rw [List.getElem?_take_of_lt hk, ← hrest,
          List.getElem?_append_left (List.getElem?_eq_some_iff.mp he).1, he]
      obtain ⟨rest, hrest⟩ := hextends
      rw [← hrest, List.getElem?_append_left (List.getElem?_eq_some_iff.mp hchain).1, hchain]

theorem leader_completeness_failover :
    Event.committed 1 1 0 [LogEntry.sentinel 0 0, ⟨1, 1, [7]⟩] ∈ (failoverEnd.nodes "a").events ∧
    Event.becameLeader 2 0 [LogEntry.sentinel 0 0, ⟨1, 1, [7]⟩] ∈
      (failoverEnd.nodes "b").events ∧
    entryAt 0 [LogEntry.sentinel 0 0, ⟨1, 1, [7]⟩] 1 = some ⟨1, 1, [7]⟩ := by
  have ha : Event.committed 1 1 0 [LogEntry.sentinel 0 0, ⟨1, 1, [7]⟩] ∈
    (failoverEnd.nodes "a").events := by decide
  have hb : Event.becameLeader 2 0 [LogEntry.sentinel 0 0, ⟨1, 1, [7]⟩] ∈
    (failoverEnd.nodes "b").events := by decide
  exact ⟨ha, hb, leader_completeness .trio failoverEnd failoverEnd_reachable "a" "b" 1 2 1 0 0 1
    _ _ _ ha hb (by decide) (by decide) (by decide)⟩

/-! ## Log matching -/

omit [PersistentState σ] in
/-- Along a rooted log the terms never decrease. -/
theorem pairwise_term_of_rooted (hI : Inv M.rules s) {l : List LogEntry}
    (hl : Consensus.Rooted M.rules s l) : l.Pairwise fun e e' => e.term ≤ e'.term := by
  induction l using List.reverseRecOn with
  | nil => exact .nil
  | append_singleton front last ih =>
      rw [List.pairwise_append]
      refine ⟨ih (hl.mono (List.prefix_append _ _)), List.pairwise_singleton _ _, ?_⟩
      intro e he e' he'
      rw [List.mem_singleton.mp he']
      exact hI.termOf_le_last hl (List.mem_append_left _ he)

/-- **Log matching.**  In any run without compaction, logs that hold entries of the
same index and term are identical up to that index; the entries of a log are
indexed consecutively from 1 behind the sentinel, their terms never decrease, and
none exceeds the term of the node. -/
theorem log_matching (M : Members) (c : Cluster σ)
    (h : Cluster.Reachable M (fun _ a => a.plain) c) :
    (∀ i j, ∀ e ∈ (c.nodes i).log, ∀ e' ∈ (c.nodes j).log, e.index = e'.index →
      e.term = e'.term → (c.nodes i).log.take (e.index + 1) = (c.nodes j).log.take (e.index + 1)) ∧
    ∀ i, (∀ (k : ℕ) (e : LogEntry), (c.nodes i).log[k]? = some e → e.index = k) ∧
      ((c.nodes i).log.Pairwise fun e e' => e.term ≤ e'.term) ∧
      ∀ e ∈ (c.nodes i).log, e.term ≤ (c.nodes i).currentTerm := by
  obtain ⟨hU, s, hR⟩ := rel_of_plain h
  have hindexed : ∀ (i : NodeId) (k : ℕ) (e : LogEntry),
      (c.nodes i).log[k]? = some e → e.index = k := by
    intro i k e he
    rw [hR.log_eq hU i] at he
    cases k with
    | zero =>
        rw [List.getElem?_cons_zero, Option.some.injEq] at he
        exact he ▸ rfl
    | succ m => exact indexed_of_rooted hR.indexed (hR.inv.log_rooted i) m e he
  refine ⟨?_, fun i => ⟨hindexed i, ?_, ?_⟩⟩
  · intro i j e he e' he' hindex hterm
    obtain ⟨k, hk⟩ := List.mem_iff_getElem?.mp he
    obtain ⟨k', hk'⟩ := List.mem_iff_getElem?.mp he'
    obtain rfl := hindexed i k e hk
    obtain rfl := hindexed j k' e' hk'
    rw [← hindex] at hk'
    rw [hR.log_eq hU] at hk hk' ⊢
    rw [hR.log_eq hU j]
    rw [List.take_succ_cons, List.take_succ_cons]
    congr 1
    cases hm : e.index with
    | zero => rfl
    | succ m =>
        rw [hm, List.getElem?_cons_succ] at hk hk'
        refine take_eq_of_termAt_eq (hR.inv.log_rooted i) (hR.inv.log_rooted j)
          (List.getElem?_eq_some_iff.mp hk).1 (List.getElem?_eq_some_iff.mp hk').1 ?_
        rw [termAt_succ hk, termAt_succ hk', hterm]
  · rw [hR.log_eq hU i, List.pairwise_cons]
    exact ⟨fun e _ => Nat.zero_le _, pairwise_term_of_rooted hR.inv (hR.inv.log_rooted i)⟩
  · intro e he
    rw [hR.log_eq hU i, List.mem_cons] at he
    rcases he with rfl | he
    · exact Nat.zero_le _
    · rw [← (hR.node i).term]
      exact hR.inv.log_le i e he

theorem log_matching_failover :
    (⟨1, 1, [7]⟩ : LogEntry) ∈ (failoverEnd.nodes "a").log ∧
    (⟨1, 1, [7]⟩ : LogEntry) ∈ (failoverEnd.nodes "b").log ∧
    (failoverEnd.nodes "a").log.take 2 = (failoverEnd.nodes "b").log.take 2 := by
  have ha : (⟨1, 1, [7]⟩ : LogEntry) ∈ (failoverEnd.nodes "a").log := by decide
  have hb : (⟨1, 1, [7]⟩ : LogEntry) ∈ (failoverEnd.nodes "b").log := by decide
  exact ⟨ha, hb, (log_matching .trio failoverEnd failoverEnd_reachable).1 "a" "b" _ ha _ hb rfl rfl⟩

end RaftKV.Raft
