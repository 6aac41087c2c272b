import RaftKV.Raft.Safety
import RaftKV.Raft.SnapshotInstall

/-!
# Safety of runs with compaction

The three guarantees of `RaftKV.Raft.Safety`, for clusters that compact their logs and
send snapshots.  `CompactLog` is called the way the state machine calls it, with the
index and term of an entry that the node has delivered: such an entry is decided, so it
is the one the log holds, and the term under which the log is compacted is right
(`Rel.covered`).  What remains to be asked for is that an arriving snapshot reaches as
far as the log it replaces.

A log that has been compacted says nothing below its baseline, and the entry at the
baseline carries a term but no command.  So the statements compare logs index by index,
above the baselines.
-/

namespace RaftKV.Raft

open Consensus (Inv Decided Committed)

variable {σ : Type} {M : Members} {c : Cluster σ} {s : Abstract}

/-! ## The runs -/

/-- The event is the delivery of an entry of this index and term. -/
def Event.delivers (index term : ℕ) : Event → Bool
  | .applied (.command e) => e.index = index ∧ e.term = term
  | _ => false

/-- `CompactLog` is called for an entry that the node has delivered, an installed
snapshot reaches as far as the log it replaces, and restarts are those of the storage
contract. -/
def Maintains (c : Cluster σ) : Action → Prop
  | .compactLog i _ index term => ∃ event ∈ (c.nodes i).events, event.delivers index term
  | .restart _ => False
  | .crash .. => False
  | a => InstallsWhole c a

instance (c : Cluster σ) : ∀ a, Decidable (Maintains c a)
  | .compactLog i _ index term =>
      inferInstanceAs (Decidable (∃ event ∈ (c.nodes i).events, event.delivers index term))
  | .deliverSnapshot k => inferInstanceAs (Decidable (InstallsWhole c (.deliverSnapshot k)))
  | .electionTimeout _ | .deliverVote _ | .replyVote .. | .propose .. | .replicate ..
  | .deliverAppend _ | .replyAppend .. | .beginSnapshot _ | .loadSnapshot _
  | .replySnapshot .. | .resume _ => inferInstanceAs (Decidable True)
  | .restart _ | .crash .. => inferInstanceAs (Decidable False)

/-- What one node has applied, every node that has committed the index has in its full
log. -/
theorem Rel.applied_in_log (hR : Rel M c s) {i j : NodeId} {e : LogEntry}
    (happlied : Event.applied (.command e) ∈ (c.nodes i).events)
    (hcommit : e.index ≤ (c.nodes j).commitIndex) : (s.log j)[e.index - 1]? = some e := by
  obtain ⟨l, u, hdecided, hpos, hget⟩ := hR.event i _ happlied
  have hlen := (hR.node j).commit_le
  have hlt : e.index - 1 < (s.log j).length := by omega
  have hheld : ((s.log j).take (c.nodes j).commitIndex)[e.index - 1]? =
      some (s.log j)[e.index - 1] := by
    rw [List.getElem?_take_of_lt (by omega), List.getElem?_eq_getElem hlt]
  rw [List.getElem?_eq_getElem hlt]
  exact congrArg some (hdecided.entry_unique hR.inv (hR.node j).decided hget hheld).symm

/-- The calls of `CompactLog` name the term that the log holds. -/
theorem Rel.covered (hR : Rel M c s) {a : Action} (ha : Maintains c a) : Covered c a := by
  cases a with
  | compactLog i data index term =>
      intro hbase hcommit
      obtain ⟨event, hevent, hdelivers⟩ := ha
      cases event with
      | applied msg =>
          cases msg with
          | command e =>
              obtain ⟨rfl, rfl⟩ : e.index = index ∧ e.term = term := of_decide_eq_true hdelivers
              refine ⟨e, ?_, rfl⟩
              rw [Option.mem_def, (hR.node i).holds.entryAt_eq hbase]
              exact hR.applied_in_log hevent hcommit
          | snapshot => exact absurd hdelivers Bool.false_ne_true
      | voted => exact absurd hdelivers Bool.false_ne_true
      | becameLeader => exact absurd hdelivers Bool.false_ne_true
      | committed => exact absurd hdelivers Bool.false_ne_true
  | deliverSnapshot => exact ha
  | restart => exact ha
  | crash => exact ha
  | _ => trivial

variable [PersistentState σ]

/-- Runs with compaction refine the abstract protocol. -/
theorem rel_of_maintains (h : Cluster.Reachable M Maintains c) :
    ElectionInv M c ∧ ∃ s, Rel M c s := by
  refine Reaches.invariant (P := fun c => ElectionInv M c ∧ ∃ s, Rel M c s) h
    ⟨.initial M, _, .initial M⟩ ?_
  rintro c a ⟨hE, s, hR⟩ ha
  refine ⟨hE.step a ?_ ?_, hR.step hE (hR.covered ha)⟩
  · rintro i rfl
    exact ha.elim
  · rintro i inside calls rfl
    exact ha.elim

/-! ## State machine safety -/

/-- **State machine safety with compaction.**  An entry that some node has applied is the
only one that any node applies at its index; every node that has committed the index and
still holds it holds this entry; and a node whose snapshot ends at the index has its
term. -/
theorem state_machine_safety_compacted (M : Members) (c : Cluster σ)
    (h : Cluster.Reachable M Maintains c) (i j : NodeId) (e : LogEntry)
    (hi : Event.applied (.command e) ∈ (c.nodes i).events) :
    (∀ e', Event.applied (.command e') ∈ (c.nodes j).events → e'.index = e.index → e' = e) ∧
    (e.index ≤ (c.nodes j).commitIndex → (c.nodes j).lastIncludedIndex < e.index →
      entryAt (c.nodes j).lastIncludedIndex (c.nodes j).log e.index = some e) ∧
    (e.index = (c.nodes j).lastIncludedIndex → (c.nodes j).lastIncludedTerm = e.term) := by
  obtain ⟨-, s, hR⟩ := rel_of_maintains h
  refine ⟨?_, ?_, ?_⟩
  · intro e' hj hindex
    exact hR.applied_unique hj hi hindex
  · intro hcommit hbase
    rw [(hR.node j).holds.entryAt_eq hbase]
    exact hR.applied_in_log hi hcommit
  · intro hbase
    have hcommit : e.index ≤ (c.nodes j).commitIndex := hbase ▸ (hR.node j).base_le
    have hheld := hR.applied_in_log hi hcommit
    obtain ⟨-, -, -, hpos, -⟩ := hR.event i _ hi
    rw [(hR.node j).holds.baseTerm, ← hbase]
    obtain ⟨k, hk⟩ : ∃ k, e.index = k + 1 := ⟨e.index - 1, by omega⟩
    rw [hk] at hheld ⊢
    exact termAt_succ hheld

/-- `a` leads term 1 and commits two entries with `c`, compacts at the first and sends
`b` its snapshot, the entries reach `b` behind it, and `b` learns of the commit and leads
term 2. -/
def compactedFailover : List Action :=
  snapshotFirst ++ [.replicate "a" "b", .deliverAppend 2, .electionTimeout "b", .deliverVote 2,
    .replyVote 2 0]

def compactedFailoverEnd : Cluster MemState :=
  compactedFailover.foldl (Cluster.step .trio) (Cluster.initial .trio)

theorem compactedFailoverEnd_reachable :
    Cluster.Reachable .trio Maintains compactedFailoverEnd :=
  .foldl .refl _ (by decide)

theorem state_machine_safety_compactedFailover :
    Event.applied (.command ⟨2, 1, [8]⟩) ∈ (compactedFailoverEnd.nodes "a").events ∧
    (compactedFailoverEnd.nodes "b").lastIncludedIndex = 1 ∧
    entryAt 1 (compactedFailoverEnd.nodes "b").log 2 = some ⟨2, 1, [8]⟩ := by
  have ha : Event.applied (.command ⟨2, 1, [8]⟩) ∈ (compactedFailoverEnd.nodes "a").events := by
    decide
  exact ⟨ha, by decide, (state_machine_safety_compacted .trio compactedFailoverEnd
    compactedFailoverEnd_reachable "a" "b" _ ha).2.1 (by decide) (by decide)⟩

/-! ## Leader completeness -/

omit [PersistentState σ] in
/-- Above its baseline a recorded log holds the entries of the full log. -/
theorem TailOf.entryAt_above {l log : List LogEntry} {b k : ℕ} (h : TailOf l b log)
    (hk : b < k) : entryAt b log k = l[k - 1]? := by
  unfold entryAt
  rw [if_neg (by omega), h.getElem?_above hk]

omit [PersistentState σ] in
/-- At its baseline it holds an entry of that index, with the term of the full log. -/
theorem TailOf.entryAt_base {l log : List LogEntry} {b : ℕ} (h : TailOf l b log) :
    ∃ first ∈ entryAt b log b, first.index = b ∧ first.term = termAt l b := by
  obtain ⟨first, rfl, hindex, hterm, -⟩ := h.shape
  refine ⟨first, ?_, hindex, hterm⟩
  simp [entryAt]

omit [PersistentState σ] in
theorem getElem?_of_extends {l l' : List LogEntry} (h : l <+: l') {k : ℕ} {e : LogEntry}
    (he : l[k]? = some e) : l'[k]? = some e := by
  obtain ⟨rest, rfl⟩ := h
  rw [List.getElem?_append_left (List.getElem?_eq_some_iff.mp he).1, he]

omit [PersistentState σ] in
/-- What a leader has committed is in the committed part of the leader log of its term. -/
theorem EventRel.committed_entry {v : NodeId} {t index b k : ℕ} {log : List LogEntry}
    {e : LogEntry} (h : EventRel M s v (.committed t index b log)) (hb : b < k) (hk : k ≤ index)
    (he : entryAt b log k = some e) :
    Committed M.rules s t index ∧ ((s.chain t).take index)[k - 1]? = some e := by
  obtain ⟨hquorum, l, hl, -, htail⟩ := h
  rw [htail.entryAt_above hb] at he
  refine ⟨hquorum, ?_⟩
  rw [List.getElem?_take_of_lt (by omega)]
  exact getElem?_of_extends hl he

/-- **Leader completeness with compaction.**  If a leader of term `t` commits through
`index` under a log that holds `e` at some `k ≤ index`, then a node that becomes leader
in a later term holds `e` at `k` when it does, or an entry of the same term if `k` is
where its snapshot ends, or its snapshot reaches beyond `k`. -/
theorem leader_completeness_compacted (M : Members) (c : Cluster σ)
    (h : Cluster.Reachable M Maintains c) (i j : NodeId) (t t' index b b' k : ℕ)
    (log log' : List LogEntry) (e : LogEntry)
    (hcommitted : Event.committed t index b log ∈ (c.nodes i).events)
    (hleader : Event.becameLeader t' b' log' ∈ (c.nodes j).events) (ht : t < t')
    (hb : b < k) (hk : k ≤ index) (he : entryAt b log k = some e) :
    (b' < k → entryAt b' log' k = some e) ∧
    (b' = k → ∃ first ∈ entryAt b' log' k, first.index = k ∧ first.term = e.term) := by
  obtain ⟨-, s, hR⟩ := rel_of_maintains h
  obtain ⟨hquorum, hchain⟩ := (hR.event i _ hcommitted).committed_entry hb hk he
  obtain ⟨base, hbase, htail'⟩ := hR.event j _ hleader
  -- the committed part of the leader log of term `t` is in the log of the later leader
  have hheld : base[k - 1]? = some e :=
    getElem?_of_extends (Consensus.completeness hR.inv hquorum t' ht base hbase) hchain
  refine ⟨fun hlt => (htail'.entryAt_above hlt).trans hheld, ?_⟩
  rintro rfl
  obtain ⟨first, hfirst, hindex, hterm⟩ := htail'.entryAt_base
  refine ⟨first, hfirst, hindex, hterm.trans ?_⟩
  obtain ⟨m, rfl⟩ : ∃ m, b' = m + 1 := ⟨b' - 1, by omega⟩
  exact termAt_succ hheld

theorem leader_completeness_compactedFailover :
    Event.committed 1 2 0 [LogEntry.sentinel 0 0, ⟨1, 1, [7]⟩, ⟨2, 1, [8]⟩] ∈
      (compactedFailoverEnd.nodes "a").events ∧
    Event.becameLeader 2 1 [LogEntry.sentinel 1 1, ⟨2, 1, [8]⟩] ∈
      (compactedFailoverEnd.nodes "b").events ∧
    entryAt 1 [LogEntry.sentinel 1 1, ⟨2, 1, [8]⟩] 2 = some ⟨2, 1, [8]⟩ := by
  have ha : Event.committed 1 2 0 [LogEntry.sentinel 0 0, ⟨1, 1, [7]⟩, ⟨2, 1, [8]⟩] ∈
    (compactedFailoverEnd.nodes "a").events := by decide
  have hb : Event.becameLeader 2 1 [LogEntry.sentinel 1 1, ⟨2, 1, [8]⟩] ∈
    (compactedFailoverEnd.nodes "b").events := by decide
  exact ⟨ha, hb, (leader_completeness_compacted .trio compactedFailoverEnd
    compactedFailoverEnd_reachable "a" "b" 1 2 2 0 1 2 _ _ _ ha hb (by decide) (by decide)
    (by decide) (by decide)).1 (by decide)⟩

/-! ## Log matching -/

omit [PersistentState σ] in
/-- An entry of a node's log carries its index, and the term of the full log there. -/
theorem Rel.entryAt_spec (hR : Rel M c s) {i : NodeId} {k : ℕ} {e : LogEntry}
    (he : entryAt (c.nodes i).lastIncludedIndex (c.nodes i).log k = some e) :
    k ≤ (s.log i).length ∧ e.index = k ∧ e.term = termAt (s.log i) k := by
  have htail := (hR.node i).holds.tail
  have hle : (c.nodes i).lastIncludedIndex ≤ k := by
    by_contra hlt
    rw [entryAt, if_pos (not_le.mp hlt)] at he
    exact absurd he (by simp)
  rcases Nat.eq_or_lt_of_le hle with heq | hlt
  · obtain ⟨first, hfirst, hindex, hterm⟩ := htail.entryAt_base
    rw [heq] at htail he hfirst hindex hterm
    obtain rfl : e = first := Option.some.inj (he.symm.trans hfirst)
    exact ⟨htail.le, hindex, hterm⟩
  · rw [htail.entryAt_above hlt] at he
    have hindex := indexed_of_rooted hR.indexed (hR.inv.log_rooted i) _ _ he
    have hlen := (List.getElem?_eq_some_iff.mp he).1
    obtain ⟨m, rfl⟩ : ∃ m, k = m + 1 := ⟨k - 1, by omega⟩
    exact ⟨hlen, hindex, (termAt_succ he).symm⟩

omit [PersistentState σ] in
/-- A log reaches from its baseline to the end of the full log. -/
theorem Rel.exists_entryAt (hR : Rel M c s) {i : NodeId} {k : ℕ}
    (hbase : (c.nodes i).lastIncludedIndex ≤ k) (hk : k ≤ (s.log i).length) :
    ∃ e ∈ entryAt (c.nodes i).lastIncludedIndex (c.nodes i).log k,
      e.term = termAt (s.log i) k := by
  have htail := (hR.node i).holds.tail
  rcases Nat.eq_or_lt_of_le hbase with heq | hlt
  · obtain ⟨first, hfirst, -, hterm⟩ := htail.entryAt_base
    rw [heq] at hfirst hterm ⊢
    exact ⟨first, hfirst, hterm⟩
  · have hget : entryAt (c.nodes i).lastIncludedIndex (c.nodes i).log k =
        some (s.log i)[k - 1] := by
      rw [htail.entryAt_above hlt, List.getElem?_eq_getElem]
    exact ⟨_, hget, (hR.entryAt_spec hget).2.2⟩

omit [PersistentState σ] in
/-- Two nodes have the same full log up to an index that both have committed. -/
theorem Rel.take_eq_of_committed (hR : Rel M c s) {i j : NodeId} {k : ℕ}
    (hi : k ≤ (c.nodes i).commitIndex) (hj : k ≤ (c.nodes j).commitIndex) :
    (s.log i).take k = (s.log j).take k := by
  have hlen : ((s.log i).take k).length = ((s.log j).take k).length := by
    rw [List.length_take, List.length_take, Nat.min_eq_left (hi.trans (hR.node i).commit_le),
      Nat.min_eq_left (hj.trans (hR.node j).commit_le)]
  have hdecided := (hR.node i).decided.mono (List.take_prefix_take_left hi) le_rfl
  have hdecided' := (hR.node j).decided.mono (List.take_prefix_take_left hj) le_rfl
  rcases hdecided.comparable hR.inv hdecided' with hle | hle
  · exact hle.eq_of_length hlen
  · exact (hle.eq_of_length hlen.symm).symm

/-- **Log matching with compaction.**  If two logs hold entries of the same term at one
index, they agree at every index up to it that lies above both baselines.  A log that has
committed through another node's baseline, and still reaches down to it, holds an entry of
the baseline's term there.  The entries of a log are indexed consecutively, none of a term
beyond the node's own, and the log reaches from the baseline over everything committed. -/
theorem log_matching_compacted (M : Members) (c : Cluster σ)
    (h : Cluster.Reachable M Maintains c) :
    (∀ i j k e e', entryAt (c.nodes i).lastIncludedIndex (c.nodes i).log k = some e →
      entryAt (c.nodes j).lastIncludedIndex (c.nodes j).log k = some e' → e.term = e'.term →
      ∀ m, (c.nodes i).lastIncludedIndex < m → (c.nodes j).lastIncludedIndex < m → m ≤ k →
        entryAt (c.nodes i).lastIncludedIndex (c.nodes i).log m =
          entryAt (c.nodes j).lastIncludedIndex (c.nodes j).log m) ∧
    (∀ i j, (c.nodes j).lastIncludedIndex ≤ (c.nodes i).lastIncludedIndex →
      (c.nodes i).lastIncludedIndex ≤ (c.nodes j).commitIndex →
      ∃ e ∈ entryAt (c.nodes j).lastIncludedIndex (c.nodes j).log (c.nodes i).lastIncludedIndex,
        e.term = (c.nodes i).lastIncludedTerm) ∧
    ∀ i, (∀ k e, entryAt (c.nodes i).lastIncludedIndex (c.nodes i).log k = some e →
        e.index = k ∧ e.term ≤ (c.nodes i).currentTerm) ∧
      (c.nodes i).lastIncludedIndex ≤ (c.nodes i).commitIndex ∧
      (c.nodes i).commitIndex ≤ (c.nodes i).lastLogIndex := by
  obtain ⟨-, s, hR⟩ := rel_of_maintains h
  refine ⟨?_, ?_, fun i => ⟨fun k e he => ?_, (hR.node i).base_le, ?_⟩⟩
  · intro i j k e e' he he' hterm m hi hj hm
    obtain ⟨hlen, -, hei⟩ := hR.entryAt_spec he
    obtain ⟨hlen', -, hej⟩ := hR.entryAt_spec he'
    have htake : (s.log i).take k = (s.log j).take k :=
      take_eq_of_termAt_eq (hR.inv.log_rooted i) (hR.inv.log_rooted j) hlen hlen'
        (by rw [← hei, ← hej, hterm])
    rw [(hR.node i).holds.entryAt_eq hi, (hR.node j).holds.entryAt_eq hj,
      ← List.getElem?_take_of_lt (show m - 1 < k by omega), htake,
      List.getElem?_take_of_lt (by omega)]
  · intro i j hbase hcommit
    obtain ⟨e, he, hterm⟩ := hR.exists_entryAt hbase (hcommit.trans (hR.node j).commit_le)
    refine ⟨e, he, hterm.trans ?_⟩
    rw [(hR.node i).holds.baseTerm]
    exact termAt_take (hR.take_eq_of_committed hcommit (hR.node i).base_le)
  · obtain ⟨hlen, hindex, hterm⟩ := hR.entryAt_spec he
    refine ⟨hindex, ?_⟩
    rw [hterm, ← (hR.node i).term]
    cases k with
    | zero => exact Nat.zero_le _
    | succ m =>
        rw [termAt_succ (List.getElem?_eq_getElem hlen)]
        exact hR.inv.log_le i _ (List.getElem_mem hlen)
  · rw [(hR.node i).holds.lastLogIndex_eq]
    exact (hR.node i).commit_le

theorem log_matching_compactedFailover :
    entryAt (compactedFailoverEnd.nodes "b").lastIncludedIndex
        (compactedFailoverEnd.nodes "b").log 2 =
      entryAt (compactedFailoverEnd.nodes "c").lastIncludedIndex
        (compactedFailoverEnd.nodes "c").log 2 :=
  (log_matching_compacted .trio compactedFailoverEnd compactedFailoverEnd_reachable).1 "b" "c" 2
    ⟨2, 1, [8]⟩ ⟨2, 1, [8]⟩ (by decide) (by decide) rfl 2 (by decide) (by decide) le_rfl

end RaftKV.Raft
