import RaftKV.Raft.Simulation

/-!
# Simulating replication

The handlers of `AppendEntries` and `InstallSnapshot`, on both sides.  The
follower's side is always the abstract transition `accept`: the part of the
leader log that a request carries is taken over, and what was decided before
survives because every leader log of the follower's term extends it.

An installed snapshot throws away whatever the follower held beyond it.  That is
`accept` too as long as there was nothing, which is the hypothesis of
`moves_handleInstallSnapshot`.
-/

namespace RaftKV.Raft

open Consensus (Inv Later Decided Committed Voted Step Steps overwrite)
open Function

variable {σ : Type} {M : Members} {s : Abstract} {i : NodeId} {n n' : Node σ}

/-! ## Taking over a part of a leader log -/

/-- What the node has committed is in every leader log of its term. -/
theorem NodeRel.committed_extends (h : NodeRel M s i n) (hI : Inv M.rules s)
    (hleads : (s.base n.currentTerm).isSome) :
    (s.log i).take n.commitIndex <+: s.chain n.currentTerm :=
  h.decided.extends_chain hI le_rfl hleads

/-- So the log and the leader log agree up to the commit index. -/
theorem NodeRel.take_eq_chain (h : NodeRel M s i n) (hI : Inv M.rules s)
    (hleads : (s.base n.currentTerm).isSome) {j : ℕ} (hj : j ≤ n.commitIndex) :
    (s.log i).take j = (s.chain n.currentTerm).take j := by
  have hpre := List.prefix_iff_eq_take.mp (h.committed_extends hI hleads)
  rw [List.length_take, Nat.min_eq_left h.commit_le] at hpre
  exact take_eq_of_le hpre hj

/-- A follower takes over `P`, and commits what it had committed or `P`. -/
theorem moves_accept (h : NodeRel M s i n) (hI : Inv M.rules s)
    (hleads : (s.base n.currentTerm).isSome) {P : List LogEntry}
    (hP : P <+: s.chain n.currentTerm) (hholds : n'.Holds (overwrite (s.log i) P))
    (hterm : n'.currentTerm = n.currentTerm) (hrole : n'.role = .follower)
    (hmatch : n'.matchIndex = n.matchIndex)
    (hrecv : n'.recvSnapshot = n.recvSnapshot ∨ n'.recvSnapshot = none)
    (hbase : n'.lastIncludedIndex ≤ n'.commitIndex)
    (hcommit : n'.commitIndex = n.commitIndex ∨
      (n'.commitIndex = P.length ∧ Decided M.rules s n.currentTerm P))
    (hgrows : ∀ e ∈ n.events, e ∈ n'.events)
    (hevents : ∀ e ∈ n'.events, e ∈ n.events ∨
      EventRel M (s.accept i n.currentTerm P) i e) :
    Moves M s (s.accept i n.currentTerm P) i n n' := by
  have hstep : Step M.rules s (s.accept i n.currentTerm P) := .accept hleads h.term hP
  obtain ⟨-, hlater⟩ := hI.step hstep
  have hlog : (s.accept i n.currentTerm P).log i = overwrite (s.log i) P := update_self ..
  have hkept : (s.log i).take n.commitIndex <+: overwrite (s.log i) P :=
    Consensus.extends_overwrite_of_comparable (h.committed_extends hI hleads) hP
      ( List.take_prefix _ _)
  have htaken : P <+: overwrite (s.log i) P := Consensus.extends_overwrite _ _
  have hlen : ((s.log i).take n.commitIndex).length = n.commitIndex := by
    rw [List.length_take, Nat.min_eq_left h.commit_le]
  refine ⟨.single hstep, fun _ _ => rfl, fun j hj => update_of_ne hj .., fun _ => .inl rfl, id,
    ?_, by simp [hrole], hgrows, hevents, fun _ ht => .inl ht⟩
  refine ⟨hterm ▸ h.term, hlog ▸ hholds, hbase, ?_, ?_, hmatch ▸ h.tracked, ?_, by simp [hrole]⟩
  · rw [hlog]
    rcases hcommit with heq | ⟨heq, -⟩
    · rw [heq, ← hlen]
      exact hkept.length_le
    · rw [heq]
      exact htaken.length_le
  · rw [hlog, hterm]
    rcases hcommit with heq | ⟨heq, hdecided⟩
    · have htake := List.prefix_iff_eq_take.mp hkept
      rw [hlen] at htake
      rw [heq, ← htake]
      exact h.decided.later hI hlater
    · rw [heq, ← List.prefix_iff_eq_take.mp htaken]
      exact hdecided.later hI hlater
  · intro r hr
    rcases hrecv with heq | hnone
    · obtain ⟨t, ht, hcovers⟩ := h.receiving r (heq ▸ hr)
      exact ⟨t, hterm ▸ ht, hcovers.later hI hlater⟩
    · rw [hnone] at hr
      simp at hr

theorem acks_accept {t : ℕ} {P : List LogEntry} : P.length ≤ (s.accept i t P).acks i t := by
  simp [Consensus.State.accept]

/-! ## AppendEntries -/

section Append

variable [PersistentState σ]

/-- The append loop puts the part of the leader log that ends with the request over the
log. -/
theorem holds_appendNew (h : NodeRel M s i n) (hI : Inv M.rules s)
    {r : Rpc AppendEntriesRequest AppendEntriesResponse} (hr : AppendRel M s r)
    (hterm : n.currentTerm = r.request.term)
    (hcheck : n.conflict r.request.prevLogIndex r.request.prevLogTerm = none)
    {P : List LogEntry} (hP : P = (s.chain n.currentTerm).take
      (r.request.prevLogIndex + r.request.entries.length))
    (hlen : P.length = r.request.prevLogIndex + r.request.entries.length) :
    (n.appendNew (r.request.prevLogIndex + 1) r.request.entries).Holds
      (overwrite (s.log i) P) := by
  obtain ⟨hprev, hcase⟩ := h.holds.conflict_none hcheck
  have hleads : (s.base n.currentTerm).isSome := hterm ▸ hr.leads
  have hprefix : P <+: s.chain n.currentTerm := hP ▸ List.take_prefix _ _
  have hentries : r.request.entries = P.drop r.request.prevLogIndex := by
    rw [hP, hterm]
    exact hr.entries
  have htake : ∀ j, j ≤ P.length → P.take j = (s.chain n.currentTerm).take j := by
    intro j hj
    rw [hlen] at hj
    rw [hP, List.take_take, Nat.min_eq_left hj]
  have hmatch : ∀ j, j ≤ (s.log i).length → j ≤ P.length →
      termAt (s.log i) j = termAt P j → (s.log i).take j = P.take j :=
    fun j hj hj' => take_eq_of_termAt_eq (hI.log_rooted i)
      ((hI.chain_rooted _).mono hprefix) hj hj'
  have hbelow : ∀ j, j ≤ n.commitIndex → j ≤ P.length → (s.log i).take j = P.take j := by
    intro j hj hj'
    rw [h.take_eq_chain hI hleads hj, htake j hj']
  -- the consistency check compares terms at one index, and below it the logs agree
  have hagree : (s.log i).take r.request.prevLogIndex = P.take r.request.prevLogIndex := by
    rcases hcase with hlt | hzero | hsame
    · exact hbelow _ (hlt.le.trans h.base_le) (by omega)
    · rw [hzero]
      rfl
    · refine hmatch _ hprev (by omega) ?_
      rw [hsame, hr.prevTerm, ← hterm]
      exact (termAt_take (htake _ (by omega))).symm
  rw [← merge_eq_overwrite hprev hagree
    (fun j hj => hbelow j (hj.trans h.base_le)) hmatch, hentries]
  exact h.holds.appendNew (by omega) _

omit [PersistentState σ] in
/-- The leader's commit index is taken over when the log reaches as far. -/
theorem moves_learnCommit {n₁ : Node σ} {P : List LogEntry}
    (hmove : Moves M s (s.accept i n.currentTerm P) i n n₁) (hI : Inv M.rules s)
    (hindexed : ∀ t, Indexed (s.chain t)) (hP : P <+: s.chain n.currentTerm) {commit : ℕ}
    (hcover : commit ≤ P.length)
    (hdecided : Decided M.rules s n.currentTerm ((s.chain n.currentTerm).take commit))
    (hterm : n₁.currentTerm = n.currentTerm) (hrole : n₁.role = .follower) :
    Moves M s (s.accept i n.currentTerm P) i n (n₁.learnCommit commit) := by
  obtain ⟨hI', hlater⟩ := hmove.later hI
  unfold Node.learnCommit
  split
  · next hgt =>
      have hlog : (s.accept i n.currentTerm P).log i = overwrite (s.log i) P := update_self ..
      have hextends : P <+: overwrite (s.log i) P := Consensus.extends_overwrite _ _
      have hle : commit ≤ ((s.accept i n.currentTerm P).log i).length := by
        rw [hlog]
        exact hcover.trans hextends.length_le
      have htake : ((s.accept i n.currentTerm P).log i).take commit =
          (s.chain n.currentTerm).take commit := by
        obtain ⟨rest, hrest⟩ := hextends
        rw [hlog, ← hrest, List.take_append_of_le_length hcover, List.prefix_iff_eq_take.mp hP,
          List.take_take, Nat.min_eq_left hcover]
      have hfollower : n₁.role ≠ .candidate := by simp [hrole]
      rw [hmove.node.holds.lastLogIndex_eq, if_neg (by omega)]
      refine hmove.trans (moves_advanceCommitTo hmove.node
        (indexed_of_rooted (hmove.indexed hindexed) (hI'.log_rooted i)) hle hgt.le ?_) hI
        (by simp [hrole]) (.inr hfollower)
      rw [htake, hterm]
      exact hdecided.later hI hlater
  · exact hmove

/-- The follower accepts a request that passed the consistency check. -/
theorem moves_acceptEntries (h : NodeRel M s i n) (hI : Inv M.rules s)
    (hindexed : ∀ t, Indexed (s.chain t)) {r : Rpc AppendEntriesRequest AppendEntriesResponse}
    (hr : AppendRel M s r) (hterm : n.currentTerm = r.request.term) (hrole : n.role = .follower)
    (hcheck : n.conflict r.request.prevLogIndex r.request.prevLogTerm = none) :
    ∃ s', Moves M s s' i n (n.acceptEntries r.request) ∧
      r.request.prevLogIndex + r.request.entries.length ≤ s'.acks i r.request.term := by
  have hleads : (s.base n.currentTerm).isSome := hterm ▸ hr.leads
  obtain ⟨P, hPdef⟩ : ∃ P, P = (s.chain n.currentTerm).take
      (r.request.prevLogIndex + r.request.entries.length) := ⟨_, rfl⟩
  have hspan : r.request.prevLogIndex + r.request.entries.length ≤
      (s.chain n.currentTerm).length := hterm ▸ hr.span
  have hP : P <+: s.chain n.currentTerm := hPdef ▸ List.take_prefix _ _
  have hlen : P.length = r.request.prevLogIndex + r.request.entries.length := by
    rw [hPdef, List.length_take, Nat.min_eq_left hspan]
  have hloop := holds_appendNew h hI hr hterm hcheck hPdef hlen
  have hdecided : Decided M.rules s n.currentTerm
      ((s.chain n.currentTerm).take r.request.leaderCommit) := hterm ▸ hr.decided
  obtain ⟨log, storage, hframe⟩ := n.appendNew_frame (r.request.prevLogIndex + 1) r.request.entries
  obtain ⟨storage', heq⟩ := n.acceptEntries_eq r.request
  rw [hframe] at hloop heq
  have hmove : Moves M s (s.accept i n.currentTerm P) i n
      { n with log := log, storage := storage' } :=
    moves_accept h hI hleads hP (hloop.congr rfl rfl rfl) rfl hrole rfl (.inl rfl) h.base_le
      (.inl rfl) (fun _ he => he) fun _ he => .inl he
  refine ⟨s.accept i n.currentTerm P, ?_, ?_⟩
  · rw [heq]
    exact moves_learnCommit hmove hI hindexed hP (hlen ▸ hr.commit_le) hdecided rfl hrole
  · rw [← hterm, ← hlen]
    exact acks_accept

/-- `HandleAppendEntries`, with what its response may be taken to mean. -/
theorem moves_handleAppendEntries (h : NodeRel M s i n) (hI : Inv M.rules s)
    (hindexed : ∀ t, Indexed (s.chain t)) {r : Rpc AppendEntriesRequest AppendEntriesResponse}
    (hr : AppendRel M s r) :
    ∃ s', Moves M s s' i n (n.handleAppendEntries r.request).2 ∧
      ((n.handleAppendEntries r.request).1.success →
        r.request.prevLogIndex + r.request.entries.length ≤ s'.acks i r.request.term) ∧
      ((n.handleAppendEntries r.request).1.success = false →
        r.request.term < (n.handleAppendEntries r.request).1.term ∨
          (n.handleAppendEntries r.request).1.conflictIndex ≤ r.request.prevLogIndex) := by
  unfold Node.handleAppendEntries
  split
  · next hstale =>
      exact ⟨s, .same h (fun _ he => he) fun _ he => .inl he, by simp, fun _ => .inl hstale⟩
  next hfresh =>
  obtain ⟨hterm, hrole, -, hfollow⟩ := moves_followLeader h hI hfresh r.request.leaderId
  obtain ⟨hI', hlater⟩ := hfollow.later hI
  generalize n.followLeader r.request.term r.request.leaderId = m at hterm hrole hfollow
  unfold Node.checkAndAccept
  split
  · next conflictIndex conflictTerm hconflict =>
      exact ⟨_, hfollow, by simp, fun _ => .inr (hfollow.node.holds.conflict_some hconflict)⟩
  · next hcheck =>
      obtain ⟨s', haccept, hacks⟩ := moves_acceptEntries hfollow.node hI'
        (hfollow.indexed hindexed) (hr.later hI hlater) hterm hrole hcheck
      exact ⟨s', hfollow.trans haccept hI (by simp [hrole]) (.inl rfl), fun _ => hacks, by simp⟩

omit [PersistentState σ] in
/-- A leader learns that a peer has acknowledged everything up to `newMatch`. -/
theorem NodeRel.recordMatch (h : NodeRel M s i n) {p : NodeId} (hp : p ∈ (M.config i).peers)
    {newMatch : ℕ} (hrole : n.role = .leader) (hacked : newMatch ≤ s.acks p n.currentTerm)
    (hle : newMatch ≤ (s.log i).length) : NodeRel M s i (n.recordMatch p newMatch) := by
  have hl := h.leading hrole
  unfold Node.recordMatch
  split
  · refine ⟨h.term, h.holds.congr rfl rfl rfl, h.base_le, h.commit_le, h.decided, ?_, h.receiving,
      fun _ => ⟨hl.leads, hl.whole, hl.own, ?_, ?_⟩⟩
    · intro q hq
      rcases (AList.mem_insert n.matchIndex).mp hq with rfl | hq
      · exact hp
      · exact h.tracked q hq
    · intro q hq
      simp only [GoMap.get_insert]
      split
      · exact ⟨Nat.le_add_left _ _, Nat.succ_le_succ hle⟩
      · exact hl.next q hq
    · intro q hq
      simp only [GoMap.get_insert]
      split
      · next heq => exact heq ▸ hacked
      · exact hl.acked q hq
  · exact h

/-- The leader's side of `AppendEntries`. -/
theorem moves_handleAppendReply (h : NodeRel M s i n) (hI : Inv M.rules s)
    (hindexed : ∀ t, Indexed (s.chain t)) (hi : i ∈ M.ids) (hcfg : n.cfg = M.config i)
    {r : Rpc AppendEntriesRequest AppendEntriesResponse} (hr : AppendRel M s r)
    (hcaller : r.caller = i) {resp : AppendEntriesResponse} (hresp : resp ∈ r.responses) :
    ∃ s', Moves M s s' i n (n.handleAppendReply r.callee r.request resp) := by
  have hpeer : r.callee ∈ (M.config i).peers := hcaller ▸ hr.towards
  unfold Node.handleAppendReply
  split
  · exact moves_becomeFollower h hI _
  next hterm =>
  split
  · exact ⟨s, .same h (fun _ he => he) fun _ he => .inl he⟩
  next hcurrent =>
  obtain ⟨hrole, hsame⟩ : n.role = .leader ∧ n.currentTerm = r.request.term := by
    rw [not_or, not_not, not_not] at hcurrent
    exact hcurrent
  have hl := h.leading hrole
  have hwhole : s.chain r.request.term = s.log i := by rw [← hsame, hl.whole]
  split
  · next hsuccess =>
      have hacked := hr.accepted resp hresp hsuccess
      rw [← hsame] at hacked
      have hrecord := h.recordMatch hpeer hrole hacked (hwhole ▸ hr.span)
      have hfirst : Moves M s s i n
          (n.recordMatch r.callee (r.request.prevLogIndex + r.request.entries.length)) := by
        refine .same hrecord ?_ ?_
        · intro e he
          unfold Node.recordMatch
          split
          · exact he
          · exact he
        · intro e he
          unfold Node.recordMatch at he
          split at he
          · exact .inl he
          · exact .inl he
      have hfields : (n.recordMatch r.callee
            (r.request.prevLogIndex + r.request.entries.length)).cfg = n.cfg ∧
          (n.recordMatch r.callee
            (r.request.prevLogIndex + r.request.entries.length)).role = n.role ∧
          (n.recordMatch r.callee
            (r.request.prevLogIndex + r.request.entries.length)).currentTerm = n.currentTerm := by
        unfold Node.recordMatch
        split
        · exact ⟨rfl, rfl, rfl⟩
        · exact ⟨rfl, rfl, rfl⟩
      exact ⟨s, hfirst.trans (moves_maybeAdvanceCommit hrecord hI hindexed hi
        (hfields.1.trans hcfg) (hfields.2.1.trans hrole)) hI (fun _ => ⟨hrole, hfields.2.2⟩)
        (.inl rfl)⟩
  · next hfailure =>
      have hfalse : resp.success = false := by simpa using hfailure
      have hconflict : resp.conflictIndex ≤ (s.log i).length + 1 := by
        rcases hr.rejected resp hresp hfalse with hlt | hle
        · omega
        · have := hr.span
          rw [hwhole] at this
          omega
      refine ⟨s, .same ⟨h.term, h.holds.congr rfl rfl rfl, h.base_le, h.commit_le, h.decided,
        h.tracked, h.receiving, fun _ => ⟨hl.leads, hl.whole, hl.own, ?_, hl.acked⟩⟩
        (fun _ he => he) fun _ he => .inl he⟩
      intro q hq
      simp only [GoMap.get_insert]
      split
      · exact h.holds.backUp_bounds hconflict
      · exact hl.next q hq

end Append

/-! ## InstallSnapshot -/

/-- The request is the final chunk of a snapshot that the node will install. -/
def Node.Installs (n : Node σ) (req : InstallSnapshotRequest) : Prop :=
  n.currentTerm ≤ req.term ∧ n.lastIncludedIndex < req.lastIncludedIndex ∧ req.done ∧
    ∃ recv ∈ n.receiving req, recv.lastIncludedIndex = req.lastIncludedIndex ∧
      recv.data.length = req.offset

instance (n : Node σ) (req : InstallSnapshotRequest) : Decidable (n.Installs req) :=
  inferInstanceAs (Decidable (_ ∧ _ ∧ _ ∧ ∃ recv ∈ n.receiving req, _ ∧ _))

/-- Two snapshots of one index agree on its term. -/
theorem Covers.term_unique {t t' index term term' : ℕ} (h : Covers M s t index term)
    (h' : Covers M s t' index term') (hI : Inv M.rules s) (hle : t ≤ t') : term = term' := by
  have hext : (s.chain t).take index <+: s.chain t' := h.decided.extends_chain hI hle h'.leads
  have htake := List.prefix_iff_eq_take.mp hext
  rw [List.length_take, Nat.min_eq_left h.le] at htake
  rw [h.term_eq, h'.term_eq]
  exact termAt_take htake

section Snapshot

variable [PersistentState σ]

omit [PersistentState σ] in
/-- The reassembly buffer behind a request is about a snapshot of a leader. -/
theorem NodeRel.receiving_covers (h : NodeRel M s i n) {r : SnapshotTransfer}
    (hr : Covers M s r.term r.lastIncludedIndex r.lastIncludedTerm)
    (hterm : n.currentTerm = r.term) {recv : SnapshotRecvState}
    (hrecv : n.receiving r.request = some recv) :
    ∃ t ≤ n.currentTerm, Covers M s t recv.lastIncludedIndex recv.lastIncludedTerm := by
  unfold Node.receiving at hrecv
  split at hrecv
  · rw [Option.some.injEq] at hrecv
    subst hrecv
    exact ⟨r.term, hterm.ge, hr⟩
  · exact h.receiving recv hrecv

omit [PersistentState σ] in
/-- Changing nothing but the reassembly buffer and the storage. -/
theorem NodeRel.withBuffer (h : NodeRel M s i n) {recv : Option SnapshotRecvState} (storage : σ)
    (hrecv : ∀ r, recv = some r →
      ∃ t ≤ n.currentTerm, Covers M s t r.lastIncludedIndex r.lastIncludedTerm) :
    NodeRel M s i { n with recvSnapshot := recv, storage := storage } :=
  ⟨h.term, h.holds.congr rfl rfl rfl, h.base_le, h.commit_le, h.decided, h.tracked, hrecv,
    fun hrole => ⟨(h.leading hrole).leads, (h.leading hrole).whole, (h.leading hrole).own,
      (h.leading hrole).next, (h.leading hrole).acked⟩⟩

omit [PersistentState σ] in
/-- Installing a snapshot over a log that does not reach beyond it. -/
theorem moves_replaceLog (h : NodeRel M s i n) (hI : Inv M.rules s) (hrole : n.role = .follower)
    {recv : SnapshotRecvState}
    (hcovers : Covers M s n.currentTerm recv.lastIncludedIndex recv.lastIncludedTerm)
    (hnew : n.lastIncludedIndex < recv.lastIncludedIndex)
    (hshort : (s.log i).length ≤ recv.lastIncludedIndex) (storage : σ) :
    Moves M s (s.accept i n.currentTerm ((s.chain n.currentTerm).take recv.lastIncludedIndex)) i n
      (n.replaceLog recv storage) := by
  set P := (s.chain n.currentTerm).take recv.lastIncludedIndex with hPdef
  have hP : P <+: s.chain n.currentTerm := List.take_prefix _ _
  have hlen : P.length = recv.lastIncludedIndex := by
    rw [hPdef, List.length_take, Nat.min_eq_left hcovers.le]
  have hover : overwrite (s.log i) P = P := by
    by_cases hpre : P <+: s.log i
    · rw [Consensus.overwrite_of_extends hpre]
      exact (hpre.eq_of_length (le_antisymm hpre.length_le (hlen ▸ hshort))).symm
    · exact Consensus.overwrite_of_not_extends hpre
  have hterm : recv.lastIncludedTerm = termAt P P.length := by
    rw [hcovers.term_eq, hlen, hPdef, termAt_of_take le_rfl]
  have hcommit : (n.replaceLog recv storage).commitIndex = recv.lastIncludedIndex := by
    have hle := h.commit_le
    change (if recv.lastIncludedIndex > n.commitIndex then recv.lastIncludedIndex
      else n.commitIndex) = recv.lastIncludedIndex
    split
    · rfl
    · omega
  have hholds : (n.replaceLog recv storage).Holds (overwrite (s.log i) P) := by
    have htail := TailOf.sentinel (l := P) (by omega)
    rw [hover]
    refine ⟨?_, ?_⟩
    · change TailOf P recv.lastIncludedIndex
        [LogEntry.sentinel recv.lastIncludedIndex recv.lastIncludedTerm]
      rw [hterm, ← hlen]
      exact htail
    · change recv.lastIncludedTerm = termAt P recv.lastIncludedIndex
      rw [hterm, hlen]
  refine moves_accept h hI hcovers.leads hP hholds rfl hrole rfl (.inr rfl) hcommit.ge
    (.inr ⟨hcommit.trans hlen.symm, hcovers.decided⟩) (fun e he => List.mem_append_left _ he)
    fun e he => ?_
  rcases List.mem_append.mp he with he | he
  · exact .inl he
  · rw [List.map_singleton, List.mem_singleton] at he
    subst he
    exact .inr trivial

/-- Reassembling a chunk, and installing the snapshot behind the last one. -/
theorem moves_receiveChunk (h : NodeRel M s i n) (hI : Inv M.rules s) (hrole : n.role = .follower)
    {r : SnapshotTransfer} (hr : Covers M s r.term r.lastIncludedIndex r.lastIncludedTerm)
    (hterm : n.currentTerm = r.term) (hnew : n.lastIncludedIndex < r.lastIncludedIndex)
    (hinstall : n.Installs r.request → n.lastLogIndex ≤ r.lastIncludedIndex) :
    ∃ s', Moves M s s' i n (n.receiveChunk r.request).2 ∧
      ((n.receiveChunk r.request).1 → r.done → r.lastIncludedIndex ≤ s'.acks i r.term) := by
  have hsame : ∀ m : Node σ, NodeRel M s i m → m.events = n.events → Moves M s s i n m :=
    fun m hm heq => .same hm (fun e he => heq ▸ he) fun e he => .inl (heq ▸ he)
  unfold Node.receiveChunk
  split
  · exact ⟨s, hsame _ (h.withBuffer n.storage (by simp)) rfl, by simp⟩
  next recv hrecv =>
  have hbuffer := h.receiving_covers hr hterm hrecv
  split
  · refine ⟨s, hsame _ (h.withBuffer n.storage fun r' hr' => ?_) rfl, by simp⟩
    rw [Option.some.injEq] at hr'
    exact hr' ▸ hbuffer
  next hfits =>
  rw [not_or, not_not, not_not] at hfits
  split
  · next hdone =>
      unfold Node.installSnapshot
      split
      · next storage _ => exact ⟨s, hsame _ (h.withBuffer storage (by simp)) rfl, by simp⟩
      · have hindex : recv.lastIncludedIndex = r.lastIncludedIndex := hfits.1
        have hcovers : Covers M s n.currentTerm recv.lastIncludedIndex recv.lastIncludedTerm := by
          obtain ⟨t, ht, hcov⟩ := hbuffer
          rw [hindex] at hcov ⊢
          rw [hcov.term_unique hr hI (hterm ▸ ht), hterm]
          exact hr
        have hshort : (s.log i).length ≤ recv.lastIncludedIndex := by
          rw [hindex, ← h.holds.lastLogIndex_eq]
          exact hinstall ⟨hterm.le, hnew, hdone, recv, hrecv, hfits.1, hfits.2⟩
        set whole : SnapshotRecvState := { recv with data := recv.data ++ r.request.data }
        have hcovers : Covers M s n.currentTerm whole.lastIncludedIndex whole.lastIncludedTerm :=
          hcovers
        refine ⟨_, moves_replaceLog h hI hrole hcovers (hindex ▸ hnew) hshort _, fun _ _ => ?_⟩
        have hlen := acks_accept (s := s) (i := i) (t := n.currentTerm)
          (P := (s.chain n.currentTerm).take recv.lastIncludedIndex)
        rw [List.length_take, Nat.min_eq_left hcovers.le, hindex] at hlen
        rw [← hterm]
        exact hindex ▸ hlen
  · next hmore =>
      refine ⟨s, hsame _ (h.withBuffer n.storage fun r' hr' => ?_) rfl,
        fun _ hdone => absurd hdone hmore⟩
      rw [Option.some.injEq] at hr'
      exact hr' ▸ hbuffer

/-- `HandleInstallSnapshot`, as long as an installed snapshot covers the whole log
of the node. -/
theorem moves_handleInstallSnapshot (h : NodeRel M s i n) (hI : Inv M.rules s)
    {r : SnapshotTransfer} (hr : Covers M s r.term r.lastIncludedIndex r.lastIncludedTerm)
    (hinstall : n.Installs r.request → n.lastLogIndex ≤ r.lastIncludedIndex) :
    ∃ s', Moves M s s' i n (n.handleInstallSnapshot r.request).2 ∧
      ((n.handleInstallSnapshot r.request).1.success → r.done →
        r.lastIncludedIndex ≤ s'.acks i r.term) := by
  unfold Node.handleInstallSnapshot
  split
  · exact ⟨s, .same h (fun _ he => he) fun _ he => .inl he, by simp⟩
  next hfresh =>
  obtain ⟨hterm, hrole, hview, hfollow⟩ := moves_followLeader h hI hfresh r.request.leaderId
  have hterm : (n.followLeader r.request.term r.request.leaderId).currentTerm = r.term := hterm
  obtain ⟨hI', hlater⟩ := hfollow.later hI
  have hcovers := hr.later hI hlater
  have hinstall' : (n.followLeader r.request.term r.request.leaderId).Installs r.request →
      (n.followLeader r.request.term r.request.leaderId).lastLogIndex ≤ r.lastIncludedIndex := by
    rintro ⟨-, hnew, hdone, recv, hrecv, hrest⟩
    simp only [Node.logView, Prod.mk.injEq] at hview
    obtain ⟨⟨hbase, -, hlog⟩, -, hbuffer, -⟩ := hview
    unfold Node.lastLogIndex
    rw [hbase, hlog]
    refine hinstall ⟨not_lt.mp hfresh, hbase ▸ hnew, hdone, recv, ?_, hrest⟩
    unfold Node.receiving at hrecv ⊢
    rw [← hbuffer]
    exact hrecv
  generalize n.followLeader r.request.term r.request.leaderId = m
    at hterm hrole hfollow hinstall'
  unfold Node.takeChunk
  split
  · next hstale =>
      -- a snapshot the node already has: nothing changes, and it may be acknowledged
      have hstale : r.lastIncludedIndex ≤ m.lastIncludedIndex := hstale
      have hm := hfollow.node
      have hleads := hcovers.leads
      have hle := hcovers.le
      rw [← hterm] at hleads hle
      set P := ((s.advance i r.request.term).chain m.currentTerm).take r.lastIncludedIndex with hP
      have hlen : P.length = r.lastIncludedIndex := by
        rw [hP, List.length_take, Nat.min_eq_left hle]
      have hextends : P <+: (s.advance i r.request.term).log i := by
        rw [hP, ← hm.take_eq_chain hI' hleads (hstale.trans hm.base_le)]
        exact List.take_prefix _ _
      have hmove := moves_accept hm hI' hleads ( List.take_prefix _ _)
        ((Consensus.overwrite_of_extends hextends).symm ▸ hm.holds) rfl hrole rfl
        (.inl rfl) hm.base_le (.inl rfl) (fun _ he => he) fun _ he => .inl he
      have hacks := acks_accept (s := s.advance i r.request.term) (i := i) (t := m.currentTerm)
        (P := P)
      rw [hlen] at hacks
      refine ⟨_, hfollow.trans hmove hI (by simp [hrole]) (.inl rfl), fun _ _ => ?_⟩
      rw [← hterm]
      exact hacks
  · next hnew =>
      obtain ⟨s', hmove, hacks⟩ := moves_receiveChunk hfollow.node hI' hrole hcovers hterm
        (not_le.mp hnew) hinstall'
      exact ⟨s', hfollow.trans hmove hI (by simp [hrole]) (.inl rfl), hacks⟩

/-- The leader's side of a chunk. -/
theorem moves_handleSnapshotReply (h : NodeRel M s i n) (hI : Inv M.rules s)
    {r : Rpc SnapshotTransfer InstallSnapshotResponse} (hr : SnapshotRel M s r)
    (hcaller : r.caller = i) {resp : InstallSnapshotResponse} (hresp : resp ∈ r.responses) :
    ∃ s', Moves M s s' i n (n.handleSnapshotReply r.callee r.request resp).2 := by
  have hpeer : r.callee ∈ (M.config i).peers := hcaller ▸ hr.towards
  have hstay : Moves M s s i n n := .same h (fun _ he => he) fun _ he => .inl he
  unfold Node.handleSnapshotReply
  split
  · exact moves_becomeFollower h hI _
  split
  · exact ⟨s, hstay⟩
  next hcurrent =>
  obtain ⟨hrole, hsame⟩ : n.role = .leader ∧ n.currentTerm = r.request.term := by
    rw [not_or, not_not, not_not] at hcurrent
    exact hcurrent
  split
  · exact ⟨s, hstay⟩
  next hsuccess =>
  split
  · next hdone =>
      have hacked := hr.accepted resp hresp (not_not.mp hsuccess) hdone
      have hle := hr.covers.le
      rw [← hsame] at hacked hle
      rw [← (h.leading hrole).whole] at hle
      refine ⟨s, .same (h.recordMatch hpeer hrole hacked hle) ?_ ?_⟩
      · intro e he
        unfold Node.recordMatch
        split
        · exact he
        · exact he
      · intro e he
        unfold Node.recordMatch at he
        split at he
        · exact .inl he
        · exact .inl he
  · exact ⟨s, hstay⟩

end Snapshot

end RaftKV.Raft
