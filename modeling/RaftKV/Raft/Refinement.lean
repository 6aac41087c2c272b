import RaftKV.Raft.ElectionSafety
import RaftKV.Raft.FullLog
import RaftKV.Consensus.Completeness

/-!
# The cluster refines the abstract replicated log

`Rel M c s` relates a cluster to a state of the abstract protocol of
`RaftKV.Consensus`.  A node's full log is its abstract log; what it has committed
is decided; a leader's full log is the leader log of its term, and its
`matchIndex` counts abstract acknowledgements.  Every request in flight carries a
part of the leader log of its term, so that a late or repeated one can always be
answered by taking over that part.

All of it survives when the abstract history grows (the `later` lemmas), which is
what makes old requests, old responses and old events harmless.
-/

namespace RaftKV.Raft

open Consensus (Inv Later Decided Committed Voted Step Steps)

/-- The abstract protocol the cluster runs. -/
def Members.rules (M : Members) : Consensus.Rules NodeId LogEntry where
  termOf := LogEntry.term
  Quorum := M.Quorum
  meets hA hB := hA.meets hB

abbrev Abstract := Consensus.State NodeId LogEntry

/-- Entries carry their own position. -/
def Indexed (l : List LogEntry) : Prop :=
  ∀ (k : ℕ) (e : LogEntry), l[k]? = some e → e.index = k + 1

/-- A snapshot that covers the first `index` entries of the leader log of term
`t`, the last of them of term `term`. -/
structure Covers (M : Members) (s : Abstract) (t index term : ℕ) : Prop where
  leads : (s.base t).isSome
  le : index ≤ (s.chain t).length
  term_eq : term = termAt (s.chain t) index
  decided : Decided M.rules s t ((s.chain t).take index)

variable {σ : Type}

/-- What a leader knows about its log and its peers. -/
structure Leading (M : Members) (s : Abstract) (i : NodeId) (n : Node σ) : Prop where
  leads : (s.base n.currentTerm).isSome
  whole : s.log i = s.chain n.currentTerm
  own : s.base n.currentTerm = some (s.chain n.currentTerm) ∨
    (s.chain n.currentTerm).length ≤ s.acks i n.currentTerm
  next : ∀ p ∈ (M.config i).peers,
    1 ≤ n.nextIndex.get p ∧ n.nextIndex.get p ≤ (s.log i).length + 1
  acked : ∀ p ∈ (M.config i).peers, n.matchIndex.get p ≤ s.acks p n.currentTerm

/-- One node. -/
structure NodeRel (M : Members) (s : Abstract) (i : NodeId) (n : Node σ) : Prop where
  term : s.term i = n.currentTerm
  holds : n.Holds (s.log i)
  base_le : n.lastIncludedIndex ≤ n.commitIndex
  commit_le : n.commitIndex ≤ (s.log i).length
  decided : Decided M.rules s n.currentTerm ((s.log i).take n.commitIndex)
  tracked : ∀ p ∈ n.matchIndex.keys, p ∈ (M.config i).peers
  receiving : ∀ r, n.recvSnapshot = some r →
    ∃ t ≤ n.currentTerm, Covers M s t r.lastIncludedIndex r.lastIncludedTerm
  leading : n.role = .leader → Leading M s i n

/-- What an event of node `v` says about the history. -/
def EventRel (M : Members) (s : Abstract) (v : NodeId) : Event → Prop
  | .voted t _ lastLogIndex lastLogTerm => ∃ l, Voted M.rules s v t l ∧
      (termAt l l.length < lastLogTerm ∨
        (termAt l l.length = lastLogTerm ∧ l.length ≤ lastLogIndex))
  | .becameLeader t lastIncludedIndex log =>
      ∃ b, s.base t = some b ∧ TailOf b lastIncludedIndex log
  | .committed t index lastIncludedIndex log => Committed M.rules s t index ∧
      ∃ l, l <+: s.chain t ∧ index ≤ l.length ∧ TailOf l lastIncludedIndex log
  | .applied (.command e) => ∃ l u, Decided M.rules s u l ∧ 0 < e.index ∧ l[e.index - 1]? = some e
  | .applied (.snapshot ..) => True

/-- An `AppendEntries` call: it carries a part of the leader log of its term. -/
structure AppendRel (M : Members) (s : Abstract)
    (r : Rpc AppendEntriesRequest AppendEntriesResponse) : Prop where
  member : r.caller ∈ M.ids
  towards : r.callee ∈ (M.config r.caller).peers
  leads : (s.base r.request.term).isSome
  span : r.request.prevLogIndex + r.request.entries.length ≤ (s.chain r.request.term).length
  entries : r.request.entries = ((s.chain r.request.term).take
    (r.request.prevLogIndex + r.request.entries.length)).drop r.request.prevLogIndex
  prevTerm : r.request.prevLogTerm = termAt (s.chain r.request.term) r.request.prevLogIndex
  commit_le : r.request.leaderCommit ≤ r.request.prevLogIndex + r.request.entries.length
  decided : Decided M.rules s r.request.term
    ((s.chain r.request.term).take r.request.leaderCommit)
  accepted : ∀ resp ∈ r.responses, resp.success →
    r.request.prevLogIndex + r.request.entries.length ≤ s.acks r.callee r.request.term
  rejected : ∀ resp ∈ r.responses, resp.success = false →
    r.request.term < resp.term ∨ resp.conflictIndex ≤ r.request.prevLogIndex

/-- An `InstallSnapshot` call. -/
structure SnapshotRel (M : Members) (s : Abstract)
    (r : Rpc SnapshotTransfer InstallSnapshotResponse) : Prop where
  towards : r.callee ∈ (M.config r.caller).peers
  covers : Covers M s r.request.term r.request.lastIncludedIndex r.request.lastIncludedTerm
  accepted : ∀ resp ∈ r.responses, resp.success → r.request.done →
    r.request.lastIncludedIndex ≤ s.acks r.callee r.request.term

/-- A snapshot transfer before its first chunk. -/
def TaskRel (M : Members) (s : Abstract) : SnapshotTask → Prop
  | .begin caller callee => callee ∈ (M.config caller).peers
  | .load caller callee t => callee ∈ (M.config caller).peers ∧
      Covers M s t.term t.lastIncludedIndex t.lastIncludedTerm

/-- As long as a node is a candidate, its votes and its calls of this term name
the log it holds. -/
def CandidateRel (c : Cluster σ) (l : List LogEntry) (i : NodeId) : Prop :=
  (∀ v lastLogIndex lastLogTerm,
    Event.voted (c.nodes i).currentTerm i lastLogIndex lastLogTerm ∈ (c.nodes v).events →
      lastLogIndex = l.length ∧ lastLogTerm = termAt l l.length) ∧
  ∀ r ∈ c.votes, r.caller = i → r.request.term = (c.nodes i).currentTerm →
    r.request.lastLogIndex = l.length ∧ r.request.lastLogTerm = termAt l l.length

/-- The refinement relation. -/
structure Rel (M : Members) (c : Cluster σ) (s : Abstract) : Prop where
  inv : Inv M.rules s
  indexed : ∀ t, Indexed (s.chain t)
  node : ∀ i, NodeRel M s i (c.nodes i)
  event : ∀ i, ∀ e ∈ (c.nodes i).events, EventRel M s i e
  elected : ∀ t, (s.base t).isSome → ∃ j, (c.nodes j).Led t
  append : ∀ r ∈ c.appends, AppendRel M s r
  snapshot : ∀ r ∈ c.snapshots, SnapshotRel M s r
  task : ∀ task ∈ c.tasks, TaskRel M s task
  candidate : ∀ i, (c.nodes i).role = .candidate → CandidateRel c (s.log i) i

/-! ## Growing history -/

section Later

variable {M : Members} {s s' : Abstract}

theorem leads_later (h : Later s s') {t : ℕ} (ht : (s.base t).isSome) : (s'.base t).isSome := by
  obtain ⟨b, hb⟩ := Option.isSome_iff_exists.mp ht
  rw [h.base t b hb]
  rfl

theorem Covers.later {t index term : ℕ} (h : Covers M s t index term) (hI : Inv M.rules s)
    (hlater : Later s s') : Covers M s' t index term where
  leads := leads_later hlater h.leads
  le := h.le.trans (hlater.chain t).length_le
  term_eq := h.term_eq.trans (termAt_take (hlater.take_chain h.le).symm)
  decided := by
    rw [hlater.take_chain h.le]
    exact h.decided.later hI hlater

theorem EventRel.later {v : NodeId} {e : Event} (h : EventRel M s v e) (hI : Inv M.rules s)
    (hlater : Later s s') : EventRel M s' v e := by
  cases e with
  | voted t candidate lastLogIndex lastLogTerm =>
      obtain ⟨l, hvoted, hlog⟩ := h
      exact ⟨l, hvoted.later hI hlater, hlog⟩
  | becameLeader t lastIncludedIndex log =>
      obtain ⟨b, hb, htail⟩ := h
      exact ⟨b, hlater.base t b hb, htail⟩
  | committed t index lastIncludedIndex log =>
      obtain ⟨hcommitted, l, hl, hindex, htail⟩ := h
      exact ⟨hcommitted.later hI hlater, l, hl.trans (hlater.chain t), hindex, htail⟩
  | applied msg =>
      cases msg with
      | command e =>
          obtain ⟨l, u, hdecided, hpos, hget⟩ := h
          exact ⟨l, u, hdecided.later hI hlater, hpos, hget⟩
      | snapshot => trivial

theorem AppendRel.later {r : Rpc AppendEntriesRequest AppendEntriesResponse}
    (h : AppendRel M s r) (hI : Inv M.rules s) (hlater : Later s s') : AppendRel M s' r where
  member := h.member
  towards := h.towards
  leads := leads_later hlater h.leads
  span := h.span.trans (hlater.chain _).length_le
  entries := by
    rw [hlater.take_chain h.span]
    exact h.entries
  prevTerm := h.prevTerm.trans (termAt_take (hlater.take_chain (by have := h.span; omega)).symm)
  commit_le := h.commit_le
  decided := by
    rw [hlater.take_chain (h.commit_le.trans h.span)]
    exact h.decided.later hI hlater
  accepted resp hresp hsuccess := (h.accepted resp hresp hsuccess).trans (hlater.acks _ _)
  rejected := h.rejected

theorem SnapshotRel.later {r : Rpc SnapshotTransfer InstallSnapshotResponse}
    (h : SnapshotRel M s r) (hI : Inv M.rules s) (hlater : Later s s') : SnapshotRel M s' r where
  towards := h.towards
  covers := h.covers.later hI hlater
  accepted resp hresp hsuccess hdone :=
    (h.accepted resp hresp hsuccess hdone).trans (hlater.acks _ _)

theorem TaskRel.later {task : SnapshotTask} (h : TaskRel M s task) (hI : Inv M.rules s)
    (hlater : Later s s') : TaskRel M s' task := by
  cases task with
  | begin => exact h
  | load => exact ⟨h.1, h.2.later hI hlater⟩

/-- A node that takes no part in the growth. -/
theorem NodeRel.later {i : NodeId} {n : Node σ} (h : NodeRel M s i n) (hI : Inv M.rules s)
    (hlater : Later s s') (hterm : s'.term i = s.term i) (hlog : s'.log i = s.log i)
    (hchain : n.role = .leader → s'.chain n.currentTerm = s.chain n.currentTerm) :
    NodeRel M s' i n where
  term := hterm.trans h.term
  holds := hlog ▸ h.holds
  base_le := h.base_le
  commit_le := hlog ▸ h.commit_le
  decided := by
    rw [hlog]
    exact h.decided.later hI hlater
  tracked := h.tracked
  receiving r hr := by
    obtain ⟨t, ht, hcovers⟩ := h.receiving r hr
    exact ⟨t, ht, hcovers.later hI hlater⟩
  leading hrole := by
    have hl := h.leading hrole
    refine ⟨leads_later hlater hl.leads, ?_, ?_, ?_, ?_⟩
    · rw [hlog, hchain hrole]
      exact hl.whole
    · rw [hchain hrole]
      rcases hl.own with hbase | hacks
      · exact .inl (hlater.base _ _ hbase)
      · exact .inr (hacks.trans (hlater.acks _ _))
    · rw [hlog]
      exact hl.next
    · exact fun p hp => (hl.acked p hp).trans (hlater.acks _ _)

end Later

end RaftKV.Raft
