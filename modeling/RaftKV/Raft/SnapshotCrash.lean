import RaftKV.Raft.Durability

/-!
# Crashes inside snapshotting

`CompactLog` and the final chunk of `HandleInstallSnapshot` write to storage twice: the
snapshot is saved under its new index `S`, and then the log is cut at `S`.  A process that
dies in between leaves the new index next to the old entries:

```text
calls that reach the disk    index    entries               what `Start` makes of them
none                         base     base+1 … last         base, base+1, …
SaveSnapshot                 S        base+1 … last         S, base+1, …
SaveSnapshot, TruncatePrefix S        S+1 … last            S, S+1, …
```

`Start` puts whatever entries it finds behind the entry for the baseline, so in the middle
row the log is no longer numbered from its baseline on, unless there are no entries at
all.  `HandleInstallSnapshot` may save a higher term first, which is one call more.
-/

namespace RaftKV.Raft

variable {σ : Type} [PersistentState σ]

/-! ## Storage -/

/-- Storage holds the log of the node: the place of its baseline, and the entries behind it.
The log is numbered from the baseline on. -/
structure Node.OnDisk (n : Node σ) : Prop where
  nonempty : n.log ≠ []
  aligned : Consecutive n.lastIncludedIndex n.log
  entries : loadEntries n.storage = .ok n.log.tail
  baseline : loadSnapshotMeta n.storage = .ok (n.lastIncludedIndex, n.lastIncludedTerm)

theorem Node.OnDisk.tail_consecutive {n : Node σ} (h : n.OnDisk) :
    Consecutive (n.lastIncludedIndex + 1) n.log.tail := by
  have hdrop := h.aligned.drop 1
  rwa [List.drop_one] at hdrop

/-- `SaveSnapshot` and `TruncatePrefix`, of which the first `calls` reach the disk. -/
def saveAndCut (data : Bytes) (index term : ℕ) (storage : σ) : ℕ → σ
  | 0 => storage
  | 1 => (saveSnapshot data index term storage).2
  | _ + 2 => ( truncatePrefix index (saveSnapshot data index term storage).2).2

section Interrupted

variable [LawfulLog σ]

theorem saveSnapshot_interrupted (data : Bytes) (index term calls : ℕ) (storage : σ) :
    (saveSnapshot data index term (⟨storage, calls⟩ : Interrupted σ)).1 = .ok () := by
  cases calls with
  | zero => rfl
  | succ calls => exact LawfulLog.saveSnapshot_ok data index term storage

theorem truncatePrefix_interrupted (index : ℕ) (s : Interrupted σ) :
    ( truncatePrefix index s).1 = .ok () := by
  obtain ⟨storage, calls⟩ := s
  cases calls with
  | zero => rfl
  | succ calls => exact LawfulLog.truncatePrefix_ok index storage

omit [LawfulLog σ] in
theorem durable_saveAndCut (data : Bytes) (index term calls : ℕ) (storage : σ) :
    ( truncatePrefix index
        (saveSnapshot data index term (⟨storage, calls⟩ : Interrupted σ)).2).2.durable =
      saveAndCut data index term storage calls := by
  match calls with
  | 0 => rfl
  | 1 => rfl
  | calls + 2 => rfl

/-- What `CompactLog` leaves on disk. -/
theorem durableAfter_compactLog (n : Node σ) (data : Bytes) (index term calls : ℕ) :
    Cluster.durableAfter n (.compactLog data index term) calls =
      if n.lastIncludedIndex < index ∧ index ≤ n.commitIndex then
        saveAndCut data index term n.storage calls
      else n.storage := by
  have hsave := saveSnapshot_interrupted data index term calls n.storage
  have hcut := truncatePrefix_interrupted index
    (saveSnapshot data index term (⟨n.storage, calls⟩ : Interrupted σ)).2
  unfold Cluster.durableAfter
  simp only [Section.run, Node.compactLog]
  split
  · next hstale => rw [if_neg (by omega)]
  split
  · next hbeyond => rw [if_neg (by omega)]
  next hnew hcommitted =>
  rw [if_pos (by omega), ← durable_saveAndCut]
  split
  · next heq =>
      rw [heq] at hsave
      simp at hsave
  · next storage heq =>
      rw [heq] at hcut ⊢
      split
      · next heq' =>
          simp only [heq'] at hcut
          simp at hcut
      · next storage' heq' => rw [heq']

omit [LawfulLog σ] in
/-- Following a leader takes up to one call, and touches neither the log nor what was received
of a snapshot. -/
theorem followLeader_interrupted (n : Node σ) (term calls : ℕ) (leaderId : NodeId) :
    ∃ currentTerm votedFor storage,
      (storage = n.storage ∨ ∃ t v, storage = (saveHardState t v n.storage).2) ∧
      ({ n with storage := (⟨n.storage, calls⟩ : Interrupted σ) } : Node _).followLeader term
          leaderId =
        { n with
          currentTerm := currentTerm
          votedFor := votedFor
          role := .follower
          leaderID := leaderId
          storage := (⟨storage, calls - n.termCalls term⟩ : Interrupted σ) } := by
  unfold Node.followLeader Node.termCalls
  split
  · next hhigher =>
      unfold Node.becomeFollower
      rw [if_pos hhigher]
      cases calls with
      | zero => exact ⟨_, _, n.storage, .inl rfl, rfl⟩
      | succ calls => exact ⟨_, _, _, .inr ⟨_, _, rfl⟩, rfl⟩
  · exact ⟨_, _, n.storage, .inl rfl, rfl⟩

theorem durable_installSnapshot (m : Node (Interrupted σ)) (recv : SnapshotRecvState) :
    (m.installSnapshot recv).2.storage.durable =
      saveAndCut recv.data recv.lastIncludedIndex recv.lastIncludedTerm m.storage.durable
        m.storage.callsLeft := by
  have hsave := saveSnapshot_interrupted recv.data recv.lastIncludedIndex recv.lastIncludedTerm
    m.storage.callsLeft m.storage.durable
  rw [← durable_saveAndCut, Node.installSnapshot]
  split
  · next heq =>
      rw [heq] at hsave
      simp at hsave
  · next storage heq =>
      rw [heq]
      rfl

/-- Only the final chunk of a snapshot that fits is written. -/
theorem durable_receiveChunk (m : Node (Interrupted σ)) (req : InstallSnapshotRequest) :
    ∃ data term, (m.receiveChunk req).2.storage.durable =
      if req.done ∧ ∃ recv ∈ m.receiving req, recv.lastIncludedIndex = req.lastIncludedIndex ∧
          recv.data.length = req.offset then
        saveAndCut data req.lastIncludedIndex term m.storage.durable m.storage.callsLeft
      else m.storage.durable := by
  unfold Node.receiveChunk
  split
  · next hnone =>
      refine ⟨[], 0, (if_neg ?_).symm⟩
      simp [hnone]
  next recv hrecv =>
  split
  · next hmisfit =>
      refine ⟨[], 0, (if_neg ?_).symm⟩
      rintro ⟨-, recv', hrecv', hfits⟩
      obtain rfl : recv = recv' := Option.some.inj (hrecv.symm.trans hrecv')
      exact hmisfit.elim (fun h => h hfits.1) (fun h => h hfits.2)
  next hfits =>
  rw [not_or, not_not, not_not] at hfits
  split
  · next hdone =>
      refine ⟨recv.data ++ req.data, recv.lastIncludedTerm, ?_⟩
      rw [durable_installSnapshot, if_pos ⟨hdone, recv, hrecv, hfits⟩, ← hfits.1]
  · next hmore => exact ⟨[], 0, (if_neg fun h => hmore h.1).symm⟩

/-- What `HandleInstallSnapshot` leaves on disk: perhaps a new hard state, and for a final
chunk the two calls. -/
theorem durableAfter_installSnapshot (n : Node σ) (req : InstallSnapshotRequest) (calls : ℕ) :
    ∃ storage data term,
      (storage = n.storage ∨ ∃ t v, storage = (saveHardState t v n.storage).2) ∧
      Cluster.durableAfter n (.installSnapshot req) calls =
        if n.Installs req then
          saveAndCut data req.lastIncludedIndex term storage (calls - n.termCalls req.term)
        else storage := by
  obtain ⟨currentTerm, votedFor, storage, hstorage, hfollow⟩ :=
    followLeader_interrupted n req.term calls req.leaderId
  have hreceive := durable_receiveChunk
    (({ n with storage := (⟨n.storage, calls⟩ : Interrupted σ) } : Node _).followLeader req.term
      req.leaderId) req
  rw [hfollow] at hreceive
  unfold Cluster.durableAfter
  simp only [Section.run, Node.handleInstallSnapshot]
  split
  · next hstale =>
      have hnot : ¬ n.Installs req := fun h => absurd h.1 (not_le.mpr hstale)
      exact ⟨n.storage, [], 0, .inl rfl, (if_neg hnot).symm⟩
  next hfresh =>
  rw [hfollow]
  simp only [Node.takeChunk]
  split
  · next hold =>
      have hnot : ¬ n.Installs req := fun h => absurd h.2.1 (not_lt.mpr hold)
      exact ⟨storage, [], 0, hstorage, (if_neg hnot).symm⟩
  · next hnew =>
      obtain ⟨data, term, hdurable⟩ := hreceive
      refine ⟨storage, data, term, hstorage, hdurable.trans (if_congr ?_ rfl rfl)⟩
      exact ⟨fun h => ⟨not_lt.mp hfresh, not_le.mp hnew, h⟩, fun h => h.2.2⟩

end Interrupted

/-! ## Starting again -/

omit [PersistentState σ] in
/-- Entries that go on behind one index do not go on behind a later one. -/
theorem Consecutive.eq_nil_of_later {b b' : ℕ} {es : List LogEntry} (h : Consecutive b es)
    (h' : Consecutive b' es) (hlt : b < b') : es = [] := by
  cases es with
  | nil => rfl
  | cons e rest => exact absurd (h.1.symm.trans h'.1) hlt.ne

/-- `Start` puts the entries behind the entry for the baseline. -/
theorem Node.consecutive_of_start {cfg : Config} {storage : σ} {b t : ℕ} {es : List LogEntry}
    (hbase : loadSnapshotMeta storage = .ok (b, t)) (hentries : loadEntries storage = .ok es)
    {m : Node σ} (hstart : (Node.newNode cfg storage).start = .ok m) :
    Consecutive m.lastIncludedIndex m.log ↔ Consecutive (b + 1) es := by
  obtain ⟨snapshot, hard, entries, hmeta, -, hload, rfl⟩ := Node.start_ok hstart
  obtain rfl : (b, t) = snapshot := Except.ok.inj (hbase.symm.trans hmeta)
  obtain rfl : es = entries := Except.ok.inj (hentries.symm.trans hload)
  unfold Node.recover Node.seed
  split
  · exact ⟨fun h => h.2, fun h => ⟨rfl, h⟩⟩
  · next hzero =>
      obtain rfl : b = 0 := by
        simp only [gt_iff_lt, not_lt] at hzero
        omega
      exact ⟨fun h => h.2, fun h => ⟨rfl, h⟩⟩

section Start

variable [LawfulLog σ]

/-- The three rows of the table. -/
theorem reads_saveAndCut {storage : σ} {base baseTerm : ℕ} {es : List LogEntry}
    (hbase : loadSnapshotMeta storage = .ok (base, baseTerm))
    (hentries : loadEntries storage = .ok es) (hes : Consecutive (base + 1) es) (data : Bytes)
    {index : ℕ} (hnew : base < index) (term calls : ℕ) :
    ∃ b t es', loadSnapshotMeta (saveAndCut data index term storage calls) = .ok (b, t) ∧
      loadEntries (saveAndCut data index term storage calls) = .ok es' ∧
      (Consecutive (b + 1) es' ↔ (calls = 1 → es = [])) := by
  match calls with
  | 0 => exact ⟨base, baseTerm, es, hbase, hentries, iff_of_true hes (by simp)⟩
  | 1 =>
      refine ⟨index, term, es, LawfulLog.base_saveSnapshot data index term storage, ?_, ?_, ?_⟩
      · exact (LawfulLog.entries_saveSnapshot data index term storage).trans hentries
      · -- the old entries go on behind the old baseline, which is lower
        exact fun h _ => hes.eq_nil_of_later h (by omega)
      · rintro h
        rw [h rfl]
        trivial
  | calls + 2 =>
      have hcut : loadEntries (saveAndCut data index term storage (calls + 2)) =
          .ok (es.filter fun e => index < e.index) := by
        unfold saveAndCut
        rw [LawfulLog.entries_truncatePrefix, LawfulLog.entries_saveSnapshot, hentries]
        rfl
      refine ⟨index, term, _, ?_, hcut, iff_of_true ?_ (by omega)⟩
      · unfold saveAndCut
        rw [LawfulLog.base_truncatePrefix, LawfulLog.base_saveSnapshot]
      · rw [hes.filter_gt]
        have hdrop := hes.drop (index + 1 - (base + 1))
        have heq : base + 1 + (index + 1 - (base + 1)) = index + 1 := by omega
        rwa [heq] at hdrop

omit [LawfulLog σ] in
theorem loadHardState_saveAndCut [LawfulHardState σ] (data : Bytes) (index term calls : ℕ)
    (storage : σ) :
    loadHardState (saveAndCut data index term storage calls) = loadHardState storage := by
  match calls with
  | 0 => rfl
  | 1 => exact LawfulHardState.load_saveSnapshot data index term storage
  | calls + 2 =>
      unfold saveAndCut
      rw [LawfulHardState.load_truncatePrefix, LawfulHardState.load_saveSnapshot]

/-- The same when the two calls are made under a condition. -/
theorem reads_ite_saveAndCut [LawfulHardState σ] {storage : σ} {base baseTerm : ℕ}
    {es : List LogEntry} (hbase : loadSnapshotMeta storage = .ok (base, baseTerm))
    (hentries : loadEntries storage = .ok es) (hes : Consecutive (base + 1) es) (data : Bytes)
    {index : ℕ} {valid : Prop} [Decidable valid] (hnew : valid → base < index) (term calls : ℕ) :
    ∃ b t es',
      loadSnapshotMeta (if valid then saveAndCut data index term storage calls else storage) =
        .ok (b, t) ∧
      loadEntries (if valid then saveAndCut data index term storage calls else storage) = .ok es' ∧
      (Consecutive (b + 1) es' ↔ (valid ∧ calls = 1 → es = [])) ∧
      loadHardState (if valid then saveAndCut data index term storage calls else storage) =
        loadHardState storage := by
  by_cases hvalid : valid
  · obtain ⟨b, t, es', hbase', hentries', hiff⟩ :=
      reads_saveAndCut hbase hentries hes data (hnew hvalid) term calls
    rw [if_pos hvalid]
    have hhard := loadHardState_saveAndCut data index term calls storage
    refine ⟨b, t, es', hbase', hentries', ?_, hhard⟩
    rw [hiff, and_iff_right hvalid]
  · rw [if_neg hvalid]
    exact ⟨base, baseTerm, es, hbase, hentries,
      iff_of_true hes fun hdies => absurd hdies.1 hvalid, rfl⟩

end Start

/-- The call inside which the process dies takes a snapshot. -/
def Section.TakesSnapshot : Section → Prop
  | .compactLog .. => True
  | .installSnapshot _ => True
  | _ => False

/-- The process dies when the snapshot is saved and the log is not yet cut. -/
def Node.DiesBetween (n : Node σ) (calls : ℕ) : Section → Prop
  | .compactLog _ index _ => n.lastIncludedIndex < index ∧ index ≤ n.commitIndex ∧ calls = 1
  | .installSnapshot req => n.Installs req ∧ calls = n.termCalls req.term + 1
  | _ => False

/-- A new hard state leaves the log as it is. -/
theorem Node.OnDisk.reads_saveHardState [LawfulLog σ] [LawfulHardState σ] {n : Node σ}
    (h : n.OnDisk) {storage : σ}
    (hstorage : storage = n.storage ∨ ∃ t v, storage = (saveHardState t v n.storage).2) :
    loadSnapshotMeta storage = .ok (n.lastIncludedIndex, n.lastIncludedTerm) ∧
      loadEntries storage = .ok n.log.tail ∧
      ∀ hard, loadHardState n.storage = .ok hard → ∃ hard', loadHardState storage = .ok hard' := by
  rcases hstorage with rfl | ⟨t, v, rfl⟩
  · exact ⟨h.baseline, h.entries, fun hard hload => ⟨hard, hload⟩⟩
  · rw [LawfulLog.base_saveHardState, LawfulLog.entries_saveHardState]
    exact ⟨h.baseline, h.entries, fun _ _ => ⟨(t, v), LawfulHardState.load_save t v n.storage⟩⟩

/-- What a crash inside snapshotting leaves to be read. -/
theorem Node.OnDisk.reads_durableAfter [LawfulLog σ] [LawfulHardState σ] {n : Node σ}
    (h : n.OnDisk) {inside : Section} (hinside : inside.TakesSnapshot) (calls : ℕ) :
    ∃ b t es, loadSnapshotMeta (Cluster.durableAfter n inside calls) = .ok (b, t) ∧
      loadEntries (Cluster.durableAfter n inside calls) = .ok es ∧
      (Consecutive (b + 1) es ↔ (n.DiesBetween calls inside → n.log.tail = [])) ∧
      ∀ hard, loadHardState n.storage = .ok hard →
        ∃ hard', loadHardState (Cluster.durableAfter n inside calls) = .ok hard' := by
  have htail := h.tail_consecutive
  cases inside with
  | compactLog data index term =>
      rw [durableAfter_compactLog]
      have hnew : n.lastIncludedIndex < index ∧ index ≤ n.commitIndex →
          n.lastIncludedIndex < index := And.left
      obtain ⟨b, t, es, hbase, hentries, hiff, hsame⟩ :=
        reads_ite_saveAndCut h.baseline h.entries htail data hnew term calls
      refine ⟨b, t, es, hbase, hentries, ?_, fun hard hload => ⟨hard, hsame.trans hload⟩⟩
      rw [hiff, and_assoc]
      rfl
  | installSnapshot req =>
      obtain ⟨storage, data, term, hstorage, hdurable⟩ := durableAfter_installSnapshot n req calls
      obtain ⟨hbase, hentries, hhard⟩ := h.reads_saveHardState hstorage
      have hnew : n.Installs req → n.lastIncludedIndex < req.lastIncludedIndex :=
        fun hinstalls => hinstalls.2.1
      obtain ⟨b, t, es, hbase', hentries', hiff, hsame⟩ := reads_ite_saveAndCut hbase hentries
        htail data hnew term (calls - n.termCalls req.term)
      rw [hdurable]
      refine ⟨b, t, es, hbase', hentries', hiff.trans ?_, fun hard hload => ?_⟩
      · -- the term is saved first, if it is a higher one
        have hcalls : calls - n.termCalls req.term = 1 ↔ calls = n.termCalls req.term + 1 := by
          omega
        simp only [Node.DiesBetween, hcalls]
      · rw [hsame]
        exact hhard hard hload
  | electionTimeout => exact hinside.elim
  | voteReply req resp => exact hinside.elim
  | requestVote req => exact hinside.elim
  | appendEntries req => exact hinside.elim
  | propose data => exact hinside.elim
  | appendReply peer req resp => exact hinside.elim
  | snapshotReply peer transfer resp => exact hinside.elim

/-- **Starting after a crash inside snapshotting.**  Let storage hold the log of a node that
dies inside `CompactLog` or `HandleInstallSnapshot`, at whatever call.  `Start` rebuilds a log
that is numbered from its baseline on, exactly if the process did not die between saving the
snapshot and cutting the log, or there is no entry behind the old baseline. -/
theorem Node.OnDisk.start_aligned_iff [LawfulLog σ] [LawfulHardState σ] {n : Node σ}
    (h : n.OnDisk) {inside : Section} (hinside : inside.TakesSnapshot) (calls : ℕ) :
    (∀ m, (Node.newNode n.cfg (Cluster.durableAfter n inside calls)).start = .ok m →
      (Consecutive m.lastIncludedIndex m.log ↔
        (n.DiesBetween calls inside → n.log.tail = []))) ∧
    ∀ hard, loadHardState n.storage = .ok hard →
      ∃ m, (Node.newNode n.cfg (Cluster.durableAfter n inside calls)).start = .ok m := by
  obtain ⟨b, t, es, hbase, hentries, hiff, hloads⟩ := h.reads_durableAfter hinside calls
  refine ⟨fun m hstart => ?_, fun hard hhard => ?_⟩
  · exact (Node.consecutive_of_start hbase hentries hstart).trans hiff
  · obtain ⟨hard', hload⟩ := hloads hard hhard
    exact ⟨_, Node.start_eq hbase hload hentries⟩

/-- Two entries, both committed, and storage in step with memory. -/
def twoCommitted : Node MemState :=
  { Node.newNode (Members.trio.config "a")
      ⟨1, "b", [⟨1, 1, [7]⟩, ⟨2, 1, [8]⟩], [], 0, 0⟩ with
    currentTerm := 1
    votedFor := "b"
    log := [LogEntry.sentinel 0 0, ⟨1, 1, [7]⟩, ⟨2, 1, [8]⟩]
    commitIndex := 2 }

theorem twoCommitted_onDisk : twoCommitted.OnDisk :=
  ⟨by decide, by decide, rfl, rfl⟩

/-- When both calls have reached the disk, the log starts at the snapshot. -/
theorem start_aligned_iff_cut :
    ∃ m, (Node.newNode twoCommitted.cfg
        (Cluster.durableAfter twoCommitted (.compactLog [1] 1 1) 2)).start = .ok m ∧
      Consecutive m.lastIncludedIndex m.log := by
  obtain ⟨haligned, hstarts⟩ :=
    twoCommitted_onDisk.start_aligned_iff (show Section.TakesSnapshot (.compactLog [1] 1 1) from
      trivial) 2
  obtain ⟨m, hm⟩ := hstarts (1, "b") rfl
  exact ⟨m, hm, (haligned m hm).mpr fun hdies => absurd hdies.2.2 (by decide)⟩

/-- When only the snapshot was saved, the entry at its index is in the log a second time. -/
theorem start_after_save_misaligned :
    ∃ m, (Node.newNode twoCommitted.cfg
        (Cluster.durableAfter twoCommitted (.compactLog [1] 1 1) 1)).start = .ok m ∧
      twoCommitted.OnDisk ∧ m.lastIncludedIndex = 1 ∧
      m.log = [LogEntry.sentinel 1 1, ⟨1, 1, [7]⟩, ⟨2, 1, [8]⟩] ∧
      ¬ Consecutive m.lastIncludedIndex m.log :=
  ⟨_, rfl, twoCommitted_onDisk, rfl, by decide, by decide⟩

end RaftKV.Raft
