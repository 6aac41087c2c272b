import RaftKV.Raft.CompactedSafety

/-!
# What a run never takes back

Three guarantees about two states of one run, or about a state and its past.

* `leader_append_only`: as long as a node leads one term, its log only grows.  Every
  handler that cuts a log makes its node a follower first, and a follower becomes leader
  only in a later term.  This holds for all runs, with crashes and restarts from storage.
* `committed_entries_stay`: whatever else happens, a node never loses or replaces an entry
  up to its `commitIndex`.  It takes entries over from leaders of its own term only, and
  those hold everything decided in earlier terms.
* `committed_on_majority`: an entry that a leader has committed is held, from then on, by
  a majority of the members.
-/

namespace RaftKV.Raft

open Consensus (Steps)
open Function

variable {σ : Type}

/-! ## The log of a leader -/

namespace Node

variable {n n' n'' : Node σ}

/-- The log of `n'` goes on from that of `n`: it reaches as far, and holds the same
entries as long as they are above the new baseline. -/
structure Extends (n n' : Node σ) : Prop where
  base_le : n.lastIncludedIndex ≤ n'.lastIncludedIndex
  last_le : n.lastLogIndex ≤ n'.lastLogIndex
  kept : ∀ k e, n'.lastIncludedIndex < k → entryAt n.lastIncludedIndex n.log k = some e →
    entryAt n'.lastIncludedIndex n'.log k = some e

theorem Extends.of_log (hbase : n'.lastIncludedIndex = n.lastIncludedIndex)
    (hlog : n'.log = n.log) : n.Extends n' where
  base_le := hbase.ge
  last_le := by
    unfold lastLogIndex
    rw [hbase, hlog]
  kept k e _ he := by
    rw [hbase, hlog]
    exact he

theorem Extends.refl (n : Node σ) : n.Extends n :=
  .of_log rfl rfl

theorem Extends.trans (h : n.Extends n') (h' : n'.Extends n'') : n.Extends n'' where
  base_le := h.base_le.trans h'.base_le
  last_le := h.last_le.trans h'.last_le
  kept k e hk he := h'.kept k e hk (h.kept k e (h'.base_le.trans_lt hk) he)

theorem Extends.append (n : Node σ) (entries : List LogEntry) :
    n.Extends { n with log := n.log ++ entries } where
  base_le := le_rfl
  last_le := by
    simp only [lastLogIndex, List.length_append]
    omega
  kept k e hk he := by
    have hk : n.lastIncludedIndex < k := hk
    simp only [entryAt, if_neg (show ¬ k < n.lastIncludedIndex by omega)] at he ⊢
    rw [List.getElem?_append_left (List.getElem?_eq_some_iff.mp he).1, he]

/-- Compaction drops entries at the front; if it goes beyond the end of the log, there is
nothing above the new baseline that could be lost. -/
theorem Extends.compacted {index : ℕ} (hindex : n.lastIncludedIndex < index) (term : ℕ)
    (storage : σ) : n.Extends
      { n with
        storage := storage
        log := n.compacted index term
        lastIncludedIndex := index
        lastIncludedTerm := term } := by
  cases hpos : n.logPos index with
  | some pos =>
      obtain ⟨-, -, hval⟩ := logPos_bounds hpos
      have hlog : n.compacted index term = n.log.drop (index - n.lastIncludedIndex) := by
        simp only [Node.compacted, hpos, hval]
      refine ⟨hindex.le, ?_, fun k e hk he => ?_⟩
      · have := pos.isLt
        simp only [lastLogIndex, hlog, List.length_drop]
        omega
      · have hk : index < k := hk
        simp only [entryAt, if_neg (show ¬ k < n.lastIncludedIndex by omega)] at he
        simp only [entryAt, if_neg (show ¬ k < index by omega), hlog, List.getElem?_drop]
        rw [show index - n.lastIncludedIndex + (k - index) = k - n.lastIncludedIndex by omega, he]
  | none =>
      have hend := end_le_of_logPos hpos hindex.le
      have hlog : n.compacted index term = [LogEntry.sentinel index term] := by
        simp only [Node.compacted, hpos]
      refine ⟨hindex.le, ?_, fun k e hk he => ?_⟩
      · simp only [lastLogIndex, hlog, List.length_singleton]
        omega
      · have hk : index < k := hk
        simp only [entryAt, if_neg (show ¬ k < n.lastIncludedIndex by omega)] at he
        have hlt := (List.getElem?_eq_some_iff.mp he).1
        omega

theorem maybeAdvanceCommit_log (n : Node σ) :
    n.maybeAdvanceCommit.log = n.log ∧
      n.maybeAdvanceCommit.lastIncludedIndex = n.lastIncludedIndex :=
  ⟨maybeAdvanceCommit_frame log (fun _ _ => rfl) n,
    maybeAdvanceCommit_frame lastIncludedIndex (fun _ _ => rfl) n⟩

theorem recordMatch_log (n : Node σ) (peer : NodeId) (newMatch : ℕ) :
    (n.recordMatch peer newMatch).log = n.log ∧
      (n.recordMatch peer newMatch).lastIncludedIndex = n.lastIncludedIndex := by
  unfold recordMatch
  split
  · exact ⟨rfl, rfl⟩
  · exact ⟨rfl, rfl⟩

/-- What becomes of a leader or a follower that stays in its term: a follower stays one,
and a leader steps down or goes on with its log. -/
structure Lasts (n n' : Node σ) : Prop where
  term_le : n.currentTerm ≤ n'.currentTerm
  follower : n'.currentTerm = n.currentTerm → n.role = .follower → n'.role = .follower
  leader : n'.currentTerm = n.currentTerm → n.role = .leader →
    n'.role = .follower ∨ n'.role = .leader ∧ n.Extends n'

theorem Lasts.of_quiet (hquiet : Quiet n n') (hleader : n'.role = .leader → n.Extends n') :
    n.Lasts n' where
  term_le := hquiet.hard.term_le
  follower _ hrole := by
    by_contra hne
    exact hne ((hquiet.role hne).1.trans hrole)
  leader _ hrole := by
    by_cases hne : n'.role = .follower
    · exact .inl hne
    · have hsame : n'.role = .leader := (hquiet.role hne).1.trans hrole
      exact .inr ⟨hsame, hleader hsame⟩

theorem Lasts.refl (n : Node σ) : n.Lasts n :=
  .of_quiet (.refl n) fun _ => .refl n

/-- A node that steps down. -/
theorem Lasts.steps_down (hquiet : Quiet n n') (hrole : n'.role = .follower) : n.Lasts n' :=
  .of_quiet hquiet fun hleader => by
    rw [hrole] at hleader
    cases hleader

/-- Only the term, the role and the log count. -/
theorem Lasts.congr (h : n.Lasts n') (hterm : n''.currentTerm = n'.currentTerm)
    (hrole : n''.role = n'.role) (hbase : n''.lastIncludedIndex = n'.lastIncludedIndex)
    (hlog : n''.log = n'.log) : n.Lasts n'' where
  term_le := hterm ▸ h.term_le
  follower := by
    rw [hterm, hrole]
    exact h.follower
  leader hsame hleader := by
    rw [hterm] at hsame
    rw [hrole]
    exact (h.leader hsame hleader).imp_right fun ⟨hr, hext⟩ =>
      ⟨hr, hext.trans (.of_log hbase hlog)⟩

/-- In the term of `n₀` the node is a follower by now, or it leads with a log that goes on
from that of `n₀`. -/
def StillLeads (n₀ n : Node σ) : Prop :=
  n₀.currentTerm < n.currentTerm ∨ n.currentTerm = n₀.currentTerm ∧
    (n.role = .follower ∨ n.role = .leader ∧ n₀.Extends n)

theorem StillLeads.step {n₀ : Node σ} (h : n₀.StillLeads n) (hlasts : n.Lasts n') :
    n₀.StillLeads n' := by
  rcases h with hlater | ⟨hsame, hstate⟩
  · exact .inl (hlater.trans_le hlasts.term_le)
  rcases Nat.eq_or_lt_of_le hlasts.term_le with heq | hlt
  · refine .inr ⟨heq.symm.trans hsame, ?_⟩
    rcases hstate with hfollower | ⟨hleader, hext⟩
    · exact .inl (hlasts.follower heq.symm hfollower)
    · exact (hlasts.leader heq.symm hleader).imp_right fun ⟨hr, hgo⟩ => ⟨hr, hext.trans hgo⟩
  · exact .inl (hsame ▸ hlt)

variable [PersistentState σ]

theorem becomeFollower_lasts (n : Node σ) (term : ℕ) : n.Lasts (n.becomeFollower term) :=
  .steps_down (becomeFollower_quiet n term) (becomeFollower_role n term)

theorem electionTimeout_lasts (n : Node σ) : n.Lasts n.electionTimeout.2 := by
  have hlater : ∀ m : Node σ, m.currentTerm = n.currentTerm + 1 → n.Lasts m := by
    intro m hm
    exact ⟨by omega, fun heq => by omega, fun heq => by omega⟩
  unfold electionTimeout
  split
  · unfold startElection
    split
    · exact hlater _ rfl
    · exact hlater _ rfl
  · exact .refl n

theorem handleVoteReply_lasts (n : Node σ) (req : RequestVoteRequest)
    (resp : RequestVoteResponse) : n.Lasts (n.handleVoteReply req resp) := by
  unfold handleVoteReply
  split
  · exact n.becomeFollower_lasts _
  · split
    · next hcounted =>
        obtain ⟨-, hrole, -⟩ := hcounted
        have hterm : (n.countVote req.term).currentTerm = n.currentTerm := by
          unfold countVote
          split
          · rfl
          · rfl
        refine ⟨hterm.ge, fun _ h => ?_, fun _ h => ?_⟩
        · rw [hrole] at h
          cases h
        · rw [hrole] at h
          cases h
    · exact .refl n

theorem handleRequestVote_lasts (n : Node σ) (req : RequestVoteRequest) :
    n.Lasts (n.handleRequestVote req).2 := by
  have hobserve : n.Lasts (n.observeTerm req.term) := by
    unfold observeTerm
    split
    · exact n.becomeFollower_lasts _
    · exact .refl n
  unfold handleRequestVote
  split
  · exact .refl n
  · unfold decideVote
    split
    · exact hobserve
    · split
      · exact hobserve
      · exact hobserve.congr rfl rfl rfl rfl

/-- Behind the term check `HandleAppendEntries` leaves a follower. -/
theorem handleAppendEntries_lasts (n : Node σ) (req : AppendEntriesRequest) :
    n.Lasts (n.handleAppendEntries req).2 := by
  by_cases hstale : req.term < n.currentTerm
  · simp only [handleAppendEntries, if_pos hstale]
    exact .refl n
  · refine .steps_down (n.handleAppendEntries_quiet req) ?_
    simp only [handleAppendEntries, if_neg hstale]
    have hrole := n.followLeader_role req.term req.leaderId
    generalize n.followLeader req.term req.leaderId = m at hrole
    unfold checkAndAccept
    split
    · exact hrole
    · obtain ⟨storage, heq⟩ := m.acceptEntries_eq req
      rw [heq]
      unfold learnCommit
      split
      · exact hrole
      · exact hrole

theorem handleInstallSnapshot_lasts (n : Node σ) (req : InstallSnapshotRequest) :
    n.Lasts (n.handleInstallSnapshot req).2 := by
  by_cases hstale : req.term < n.currentTerm
  · simp only [handleInstallSnapshot, if_pos hstale]
    exact .refl n
  · refine .steps_down (n.handleInstallSnapshot_quiet req) ?_
    simp only [handleInstallSnapshot, if_neg hstale]
    have hrole := n.followLeader_role req.term req.leaderId
    generalize n.followLeader req.term req.leaderId = m at hrole
    unfold takeChunk
    split
    · exact hrole
    · unfold receiveChunk
      split
      · exact hrole
      · split
        · exact hrole
        · split
          · unfold installSnapshot
            split
            · exact hrole
            · exact hrole
          · exact hrole

theorem compactLog_lasts (n : Node σ) (data : Bytes) (index term : ℕ) :
    n.Lasts (n.compactLog data index term).2 := by
  refine .of_quiet (n.compactLog_quiet data index term) fun _ => ?_
  obtain ⟨storage, heq | ⟨hlt, -, heq⟩⟩ := n.compactLog_cases data index term
  · rw [heq]
    exact .of_log rfl rfl
  · rw [heq]
    exact .compacted hlt term storage

theorem propose_lasts (n : Node σ) (data : Bytes) : n.Lasts (n.propose data).2 := by
  refine .of_quiet (n.propose_quiet data) fun _ => ?_
  unfold propose
  split
  · exact .refl n
  · obtain ⟨hlog, hbase⟩ := (n.appendOwn (n.nextEntry data)).maybeAdvanceCommit_log
    exact (Extends.append n [n.nextEntry data]).trans (.of_log hbase hlog)

theorem handleAppendReply_lasts (n : Node σ) (peer : NodeId) (req : AppendEntriesRequest)
    (resp : AppendEntriesResponse) : n.Lasts (n.handleAppendReply peer req resp) := by
  by_cases hterm : resp.term > n.currentTerm
  · simp only [handleAppendReply, if_pos hterm]
    exact n.becomeFollower_lasts _
  · refine .of_quiet (n.handleAppendReply_quiet peer req resp) fun _ => ?_
    unfold handleAppendReply
    rw [if_neg hterm]
    split
    · exact .refl n
    · split
      · obtain ⟨hlog, hbase⟩ :=
          n.recordMatch_log peer (req.prevLogIndex + req.entries.length)
        obtain ⟨hlog', hbase'⟩ := (n.recordMatch peer
          (req.prevLogIndex + req.entries.length)).maybeAdvanceCommit_log
        exact .of_log (hbase'.trans hbase) (hlog'.trans hlog)
      · exact .of_log rfl rfl

theorem handleSnapshotReply_lasts (n : Node σ) (peer : NodeId) (t : SnapshotTransfer)
    (resp : InstallSnapshotResponse) : n.Lasts (n.handleSnapshotReply peer t resp).2 := by
  by_cases hterm : resp.term > n.currentTerm
  · simp only [handleSnapshotReply, if_pos hterm]
    exact n.becomeFollower_lasts _
  · refine .of_quiet (n.handleSnapshotReply_quiet peer t resp) fun _ => ?_
    unfold handleSnapshotReply
    rw [if_neg hterm]
    split
    · exact .refl n
    · split
      · exact .refl n
      · split
        · obtain ⟨hlog, hbase⟩ := n.recordMatch_log peer t.lastIncludedIndex
          exact .of_log hbase hlog
        · exact .refl n

theorem restart_lasts {storage : σ} (h : n.restart storage = .ok n')
    (hhard : ∀ hard, loadHardState storage = .ok hard → HardLe n.hardState hard) :
    n.Lasts n' := by
  refine .steps_down (restart_quiet h hhard) ?_
  obtain ⟨snapshot, hard, entries, -, -, rfl⟩ := restart_ok h
  exact ((newNode n.cfg storage).seed_frame snapshot.1 snapshot.2).2.1

end Node

variable [PersistentState σ] {M : Members} {c c' : Cluster σ}

/-- Every action leaves every node in its term or takes it to a later one, provided that
a restart finds a hard state on disk that has not fallen back. -/
theorem Cluster.step_lasts (a : Action)
    (hrestart : ∀ i, a = .restart i → ∀ hard, loadHardState (c.nodes i).storage = .ok hard →
      HardLe (c.nodes i).hardState hard)
    (hcrash : ∀ i inside calls, a = .crash i inside calls → ∀ hard,
      loadHardState (Cluster.durableAfter (c.nodes i) inside calls) = .ok hard →
      HardLe (c.nodes i).hardState hard) (i : NodeId) :
    (c.nodes i).Lasts ((c.step M a).nodes i) := by
  have hset : ∀ {j : NodeId} {n : Node σ}, (c.nodes j).Lasts n →
      ∀ i, (c.nodes i).Lasts (update c.nodes j n i) :=
    fun hn => setNode_forall (P := fun i n => (c.nodes i).Lasts n) hn fun i _ => .refl _
  have heffect := c.step_effect M a
  generalize c.step M a = c' at heffect
  cases heffect with
  | idle => exact .refl _
  | electionTimeout => exact hset (Node.electionTimeout_lasts _) i
  | deliverVote => exact hset (Node.handleRequestVote_lasts _ _) i
  | replyVote => exact hset (Node.handleVoteReply_lasts _ _ _) i
  | propose => exact hset (Node.propose_lasts _ _) i
  | startTask => exact .refl _
  | sendAppend => exact .refl _
  | deliverAppend => exact hset (Node.handleAppendEntries_lasts _ _) i
  | replyAppend => exact hset (Node.handleAppendReply_lasts _ _ _ _) i
  | dropTask => exact .refl _
  | beginSnapshot => exact .refl _
  | loadSnapshot => exact .refl _
  | deliverSnapshot => exact hset (Node.handleInstallSnapshot_lasts _ _) i
  | replySnapshot => exact hset (Node.handleSnapshotReply_lasts _ _ _ _) i
  | compactLog => exact hset (Node.compactLog_lasts _ _ _ _) i
  | resume => exact hset (.steps_down (Node.resume_quiet _) rfl) i
  | restart _ started => exact hset (Node.restart_lasts started (hrestart _ rfl)) i
  | crash _ started => exact hset (Node.restart_lasts started (hcrash _ _ _ rfl)) i

/-- On a lawful storage the hard state never falls back, so this holds in every run. -/
theorem Cluster.Reachable.step_lasts [LawfulHardState σ] {ok : Cluster σ → Action → Prop}
    (h : Cluster.Reachable M ok c) (a : Action) (i : NodeId) :
    (c.nodes i).Lasts ((c.step M a).nodes i) := by
  obtain ⟨-, hsynced⟩ := electionInv_of_reachable h
  refine Cluster.step_lasts a ?_ ?_ i
  · intro j _ hard hload
    have heq : hard = (c.nodes j).hardState := Except.ok.inj (hload.symm.trans (hsynced j))
    exact heq ▸ .refl _
  · intro j inside calls _ hard hload
    exact durableAfter_hardLe (hsynced j) inside calls hload

/-- **Leader append-only.**  In any run, with compaction, snapshots, crashes inside
critical sections and restarts from storage: if a node leads the same term at two moments,
its later log goes on from the earlier one.  No entry was removed or replaced in between,
except that compaction may have raised the baseline. -/
theorem leader_append_only [LawfulHardState σ] (M : Members) (c c' : Cluster σ)
    (h : Cluster.Reachable M (fun _ _ => True) c)
    (hrun : Reaches (Cluster.step M) (fun _ _ => True) c c') (i : NodeId)
    (hrole : (c.nodes i).role = .leader) (hrole' : (c'.nodes i).role = .leader)
    (hterm : (c'.nodes i).currentTerm = (c.nodes i).currentTerm) :
    (c.nodes i).Extends (c'.nodes i) := by
  have hstill : Cluster.Reachable M (fun _ _ => True) c' ∧ (c.nodes i).StillLeads (c'.nodes i) := by
    refine Reaches.invariant (P := fun d => Cluster.Reachable M (fun _ _ => True) d ∧
      (c.nodes i).StillLeads (d.nodes i)) hrun ⟨h, .inr ⟨rfl, .inr ⟨hrole, .refl _⟩⟩⟩ ?_
    rintro d a ⟨hd, hstill⟩ -
    exact ⟨.next hd trivial, hstill.step (hd.step_lasts a i)⟩
  rcases hstill.2 with hlt | ⟨-, hfollower | ⟨-, hext⟩⟩
  · omega
  · rw [hrole'] at hfollower
    cases hfollower
  · exact hext

/-- `a` has been elected in a cluster of three. -/
def electedTrio : Cluster MemState :=
  [Action.electionTimeout "a", .deliverVote 0, .replyVote 0 0].foldl (Cluster.step .trio)
    (Cluster.initial .trio)

/-- It proposes twice, `b` acknowledges, and it compacts at the first entry. -/
def leaderAtWork : List Action :=
  [.propose "a" [7], .propose "a" [8], .replicate "a" "b", .deliverAppend 0, .replyAppend 0 0,
    .compactLog "a" [1] 1 1]

theorem leader_append_only_leaderAtWork :
    (electedTrio.nodes "a").Extends
      ((leaderAtWork.foldl (Cluster.step .trio) electedTrio).nodes "a") ∧
    ((leaderAtWork.foldl (Cluster.step .trio) electedTrio).nodes "a").lastIncludedIndex = 1 :=
  ⟨leader_append_only .trio _ _ (Reaches.foldl .refl _ (by decide))
    (Reaches.foldl .refl _ (by decide)) "a" (by decide) (by decide) (by decide), by decide⟩

/-! ## Committed entries -/

omit [PersistentState σ] in
/-- The node has `e` at index `k`: in its log, or within its snapshot. -/
structure Node.Retains (n : Node σ) (k : ℕ) (e : LogEntry) : Prop where
  reaches : k ≤ n.lastLogIndex
  held : n.lastIncludedIndex < k → entryAt n.lastIncludedIndex n.log k = some e
  base : n.lastIncludedIndex = k → n.lastIncludedTerm = e.term

omit [PersistentState σ] in
/-- What the full log of a node holds, the node has. -/
theorem Node.Holds.retains {n : Node σ} {l : List LogEntry} (h : n.Holds l) {k : ℕ}
    {e : LogEntry} (hk : 0 < k) (he : l[k - 1]? = some e) : n.Retains k e where
  reaches := by
    have := (List.getElem?_eq_some_iff.mp he).1
    rw [h.lastLogIndex_eq]
    omega
  held hlt := (h.entryAt_eq hlt).trans he
  base heq := by
    rw [h.baseTerm, heq]
    obtain ⟨m, rfl⟩ : ∃ m, k = m + 1 := ⟨k - 1, by omega⟩
    exact termAt_succ he

/-- The abstract protocol follows a whole run. -/
theorem Rel.follow_run {s : Abstract} (hE : ElectionInv M c) (hR : Rel M c s)
    (hrun : Reaches (Cluster.step M) Maintains c c') :
    ElectionInv M c' ∧ ∃ s', Steps M.rules s s' ∧ Rel M c' s' := by
  refine Reaches.invariant (P := fun d => ElectionInv M d ∧ ∃ s', Steps M.rules s s' ∧ Rel M d s')
    hrun ⟨hE, s, .refl, hR⟩ ?_
  rintro d a ⟨hE', s', hsteps, hR'⟩ ha
  obtain ⟨s'', hsteps', hR''⟩ := hR'.follow hE' (hR'.covered ha)
  refine ⟨hE'.step a ?_ ?_, s'', hsteps.trans hsteps', hR''⟩
  · rintro i rfl
    exact ha.elim
  · rintro i inside calls rfl
    exact ha.elim

/-- **Committed entries stay.**  An entry up to a node's `commitIndex` is on that node in
every later state of the run, through restarts, changes of leadership, conflicting
requests, compaction and installed snapshots. -/
theorem committed_entries_stay (M : Members) (c c' : Cluster σ)
    (h : Cluster.Reachable M Maintains c) (hrun : Reaches (Cluster.step M) Maintains c c')
    (i : NodeId) (k : ℕ) (e : LogEntry) (hbase : (c.nodes i).lastIncludedIndex < k)
    (hk : k ≤ (c.nodes i).commitIndex)
    (he : entryAt (c.nodes i).lastIncludedIndex (c.nodes i).log k = some e) :
    (c'.nodes i).Retains k e := by
  obtain ⟨hE, s, hR⟩ := rel_of_maintains h
  obtain ⟨-, s', hsteps, hR'⟩ := hR.follow_run hE hrun
  have hdecided := (hR.node i).decided
  rw [← (hR.node i).term] at hdecided
  -- the committed part of the full log is decided, and the later full log extends it
  obtain ⟨-, hkept⟩ := hdecided.kept_by_steps hR.inv hsteps ( List.take_prefix _ _)
  rw [(hR.node i).holds.entryAt_eq hbase] at he
  refine (hR'.node i).holds.retains (by omega) (getElem?_of_extends hkept ?_)
  rw [List.getElem?_take_of_lt (by omega), he]

theorem committed_entries_stay_newLeader :
    let c := snapshotFirst.foldl (Cluster.step .trio) (Cluster.initial .trio : Cluster MemState)
    let c' := [Action.resume "a", .electionTimeout "b", .deliverVote 3, .replyVote 3 0,
      .replicate "b" "a", .deliverAppend 2].foldl (Cluster.step .trio) c
    (c'.nodes "a").leaderID = "b" ∧ (c'.nodes "a").Retains 2 ⟨2, 1, [8]⟩ := by
  refine ⟨by decide, ?_⟩
  exact committed_entries_stay .trio _ _ (Reaches.foldl .refl _ (by decide))
    (Reaches.foldl .refl _ (by decide)) "a" 2 _ (by decide) (by decide) (by decide)

/-- **Committed entries are on a majority.**  Once a leader has committed an index, there
is a majority of the members each of which has the entries up to it, in every state from
then on. -/
theorem committed_on_majority (M : Members) (c : Cluster σ)
    (h : Cluster.Reachable M Maintains c) (i : NodeId) (t index b : ℕ) (log : List LogEntry)
    (hcommitted : Event.committed t index b log ∈ (c.nodes i).events) :
    ∃ Q, M.Quorum Q ∧ ∀ v ∈ Q, ∀ k e, b < k → k ≤ index → entryAt b log k = some e →
      (c.nodes v).Retains k e := by
  obtain ⟨-, s, hR⟩ := rel_of_maintains h
  have hevent := hR.event i _ hcommitted
  obtain ⟨Q, hQ, hheld⟩ := hevent.1.held hR.inv
  refine ⟨Q, hQ, fun v hv k e hb hk he => (hR.node v).holds.retains (by omega) ?_⟩
  exact getElem?_of_extends (hheld v hv) (hevent.committed_entry hb hk he).2

theorem committed_on_majority_compactedFailover :
    ∃ Q, Members.trio.Quorum Q ∧ ∀ v ∈ Q,
      (compactedFailoverEnd.nodes v).Retains 2 ⟨2, 1, [8]⟩ := by
  obtain ⟨Q, hQ, hall⟩ := committed_on_majority .trio compactedFailoverEnd
    compactedFailoverEnd_reachable "a" 1 2 0
    [LogEntry.sentinel 0 0, ⟨1, 1, [7]⟩, ⟨2, 1, [8]⟩] (by decide)
  exact ⟨Q, hQ, fun v hv => hall v hv 2 _ (by decide) (by decide) (by decide)⟩

end RaftKV.Raft
