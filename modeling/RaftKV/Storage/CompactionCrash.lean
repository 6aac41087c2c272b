import RaftKV.Storage.Operations

/-!
# A crash during a compaction

A compaction writes the merged table and then removes the old files, the newest first.
The merged table has no tombstones, since nothing older is left when it is done.  But
before it is done something older may be left: a value whose tombstone was in a file that
is already removed.  A crash brings such a value back.

Opening after a crash finds the same map exactly if every deleted key is still deleted in,
or missing from, the old files that are left.
-/

namespace RaftKV.Storage.Engine

variable {e : Engine} {tables : List Table}

/-- Where a compaction is interrupted: before the merged file exists, when this many bytes
of it are written, or when it is complete and so many old files are removed. -/
inductive CompactionPoint
  | before
  | writing (bytes : ℕ)
  | removing (count : ℕ)

/-- The records that a compaction writes. -/
def merged (e : Engine) : List MemEntry :=
  match readTables e.files e.sstables.reverse with
  | .error _ => []
  | .ok inputs => mergeEntries inputs

/-- The directory that a crash during `doCompaction` leaves. -/
def crashedAt (e : Engine) : CompactionPoint → Directory
  | .before => e.files
  | .writing bytes =>
      e.files.insert (fileName e.nextSeq) ((tableBytes e.merged).take bytes)
  | .removing count =>
      removeFiles ((e.sstables.map SSTableReader.path).take count) (e.writeTable e.merged).files

/-- A merged file that is not complete is skipped by `loadSSTables`. -/
def SkipsIncomplete (e : Engine) : CompactionPoint → Prop
  | .writing bytes =>
      (openSSTable (e.crashedAt (.writing bytes)) (fileName e.nextSeq)).toOption = none
  | _ => True

/-- No deleted key has a value in the old files that are left. -/
def StaysDeleted (e : Engine) : CompactionPoint → Prop
  | .removing count =>
      ∀ key record, newest MemEntry.key key e.diskLayers = some record → ¬ record.live →
        ∀ older, newest MemEntry.key key (e.diskLayers.drop count) = some older → ¬ older.live
  | _ => True

theorem Backed.merged (h : e.Backed tables) : e.merged = mergeEntries e.diskLayers.reverse := by
  unfold Engine.merged
  rw [h.readTables]

/-- The merged records with the old layers that are left. -/
theorem visible_merged_drop_iff {layers : List (List MemEntry)}
    (hsorted : ∀ layer ∈ layers, SortedEntries layer) (count : ℕ) :
    visible (mergeEntries layers.reverse :: layers.drop count) = visible layers ↔
      ∀ key record, newest MemEntry.key key layers = some record → ¬ record.live →
        ∀ older, newest MemEntry.key key (layers.drop count) = some older → ¬ older.live := by
  have hnewest : ∀ key, newest MemEntry.key key
      (mergeEntries layers.reverse :: layers.drop count) =
        ((newest MemEntry.key key layers).filter MemEntry.live).or
          (newest MemEntry.key key (layers.drop count)) := by
    intro key
    rw [← List.singleton_append, newest_append, newest_mergeEntries hsorted]
  have hdrop : ∀ key, newest MemEntry.key key layers = none →
      newest MemEntry.key key (layers.drop count) = none := by
    intro key hnone
    rw [← List.take_append_drop count layers, newest_append, Option.or_eq_none_iff] at hnone
    exact hnone.2
  constructor
  · intro heq key record hrecord hdead older holder hlive
    have hkey := congrFun heq key
    unfold visible at hkey
    rw [hnewest, hrecord, holder] at hkey
    simp [Option.filter_some, hdead, hlive] at hkey
  · intro h
    funext key
    unfold visible
    rw [hnewest]
    -- the newest record of all decides, unless it is a tombstone or there is none
    cases hrecord : newest MemEntry.key key layers with
    | none => simp [hdrop key hrecord]
    | some record =>
        by_cases hlive : record.live
        · simp [Option.filter_some, hlive]
        · cases holder : newest MemEntry.key key (layers.drop count) with
          | none => simp [Option.filter_some, hlive]
          | some older =>
              have hdead := h key record hrecord hlive older holder
              simp [Option.filter_some, hlive, hdead]

/-! ## What is found after a crash -/

theorem Backed.tableEntries_merged (h : e.Backed tables)
    (hw : (e.writeTable e.merged).Writable) : TableEntries e.merged := by
  have hsize := hw.length_lt (lookup_writeTable_self e e.merged)
  rw [h.merged] at hsize ⊢
  exact h.tableEntries_merge hsize

/-- An engine with the merged table and the old tables that are left, on the directory of the
crash. -/
def halfRemoved (e : Engine) (tables : List Table) (count : ℕ) : Engine :=
  { e.writeTable e.merged with
    sstables := readerOf (fileName e.nextSeq) e.merged :: (tables.drop count).map Table.reader
    files := e.crashedAt (.removing count)
    active := .new
    immutable := none }

/-- The files that are left are not among those that were removed. -/
theorem Backed.lookup_crashedAt (h : e.Backed tables) (hnext : e.nextSeq < 10 ^ 16) (count : ℕ) :
    (e.crashedAt (.removing count)).lookup (fileName e.nextSeq) = some (tableBytes e.merged) ∧
      ∀ t ∈ tables.drop count,
        (e.crashedAt (.removing count)).lookup t.path = some (tableBytes t.entries) := by
  have hdistinct : (tables.map Table.path).Nodup := h.descending_paths.imp fun hlt => hlt.ne'
  simp only [crashedAt, h.paths_eq, ← List.map_take]
  refine ⟨?_, fun t ht => ?_⟩
  · have hkept : fileName e.nextSeq ∉ (tables.take count).map Table.path := by
      intro hmem
      obtain ⟨t, ht, hpath⟩ := List.mem_map.mp hmem
      exact h.path_ne hnext (List.mem_of_mem_take ht) hpath
    exact (lookup_removeFiles hkept _).trans (lookup_writeTable_self e e.merged)
  · have hkept : t.path ∉ (tables.take count).map Table.path := by
      intro hmem
      rw [← List.take_append_drop count tables, List.map_append, List.nodup_append] at hdistinct
      exact hdistinct.2.2 _ hmem _ (List.mem_map_of_mem ht) rfl
    rw [lookup_removeFiles hkept]
    exact h.lookup_writeTable hnext _ (List.mem_of_mem_drop ht)

theorem Backed.halfRemoved (h : e.Backed tables) (hw : (e.writeTable e.merged).Writable)
    (count : ℕ) : (e.halfRemoved tables count).Backed
      (⟨e.nextSeq, e.merged, h.tableEntries_merged hw⟩ :: tables.drop count) := by
  have hnext : e.nextSeq < 10 ^ 16 := hw.2
  have hseq : e.nextSeq = e.sstableSeq + 1 := nextSeq_of_lt h.narrow
  obtain ⟨hmerged, hleft⟩ := h.lookup_crashedAt hnext count
  constructor
  · rfl
  · intro t ht
    rcases List.mem_cons.mp ht with rfl | ht
    · exact hmerged
    · exact hleft t ht
  · intro path hpath
    simp only [Engine.halfRemoved, crashedAt, h.paths_eq, ← List.map_take] at hpath
    obtain ⟨hmem, hnot⟩ := mem_removeFiles hpath
    rcases mem_paths_writeTable hmem with rfl | hold
    · exact List.mem_cons_self
    · have hmem' := h.paths path hold
      rw [← List.take_append_drop count tables, List.map_append, List.mem_append] at hmem'
      exact List.mem_cons_of_mem _ (hmem'.resolve_left hnot)
  · refine List.pairwise_cons.mpr ⟨fun t ht => ?_, ?_⟩
    · have := h.numbered t (List.mem_of_mem_drop ht)
      simp only
      omega
    · exact h.descending.sublist (List.drop_sublist _ _)
  · intro t ht
    rcases List.mem_cons.mp ht with rfl | ht
    · exact le_rfl
    · have := h.numbered t (List.mem_of_mem_drop ht)
      change t.seq ≤ e.nextSeq
      omega
  · exact hnext
  · intro layer hlayer
    rw [List.mem_singleton.mp hlayer]
    simp [Engine.halfRemoved, Memtable.new]

/-- The merged table in front of the old tables that are left. -/
theorem Backed.removing (h : e.Backed tables) (hw : (e.writeTable e.merged).Writable)
    (count : ℕ) :
    ∃ e', Engine.openDir (e.crashedAt (.removing count)) = .ok e' ∧
      e'.onDisk = visible (e.merged :: e.diskLayers.drop count) := by
  have hleft := h.halfRemoved hw count
  obtain ⟨e', hopen, -, -, hdisk⟩ := hleft.openDir_contents
  refine ⟨e', hopen, ?_⟩
  rw [hdisk, onDisk, hleft.diskLayers, List.map_cons, h.diskLayers, List.map_drop]

/-- A file that does not open leaves the old tables. -/
theorem Backed.writing (h : e.Backed tables) (hw : (e.writeTable e.merged).Writable) {bytes : ℕ}
    (hskips : e.SkipsIncomplete (.writing bytes)) :
    ∃ e', Engine.openDir (e.crashedAt (.writing bytes)) = .ok e' ∧ e'.onDisk = e.onDisk := by
  have hnext : e.nextSeq < 10 ^ 16 := hw.2
  have hlookup : ∀ t ∈ tables,
      (e.crashedAt (.writing bytes)).lookup t.path = some (tableBytes t.entries) := by
    intro t ht
    simp only [crashedAt]
    rw [AList.lookup_insert_ne (h.path_ne hnext ht)]
    exact h.files t ht
  have hpaths : Storage.tablePaths (e.crashedAt (.writing bytes)) =
      fileName e.nextSeq :: tables.map Table.path := by
    have hsorted : (fileName e.nextSeq :: tables.map Table.path).Pairwise (· > ·) := by
      refine List.pairwise_cons.mpr ⟨fun path hpath => ?_, ?_⟩
      · obtain ⟨t, ht, rfl⟩ := List.mem_map.mp hpath
        have := h.numbered t ht
        refine fileName_lt hnext ?_
        rw [nextSeq_of_lt h.narrow]
        omega
      · exact h.descending_paths
    refine insertionSort_filter_keys (hsorted.imp fun hlt => hlt.le)
      (hsorted.imp fun hlt => hlt.ne') fun path => ?_
    simp only [crashedAt]
    rw [List.mem_cons]
    constructor
    · rintro (rfl | hpath)
      · exact ⟨(AList.mem_insert _).mpr (.inl rfl), isSuffixOf_fileName _⟩
      · obtain ⟨t, ht, rfl⟩ := List.mem_map.mp hpath
        exact ⟨(AList.mem_insert _).mpr (.inr (h.path_mem ht)), isSuffixOf_fileName _⟩
    · rintro ⟨hpath, -⟩
      exact ((AList.mem_insert _).mp hpath).imp_right (h.paths path)
  have hreaders : (fileName e.nextSeq :: tables.map Table.path).filterMap
      (fun path => (openSSTable (e.crashedAt (.writing bytes)) path).toOption) =
        tables.map Table.reader := by
    have hnone : (openSSTable (e.crashedAt (.writing bytes)) (fileName e.nextSeq)).toOption =
        none := hskips
    rw [List.filterMap_cons, hnone]
    exact filterMap_openSSTable hlookup
  unfold Engine.openDir loadSSTables
  simp only [hpaths, hreaders, parseSequence_fileName hnext]
  refine ⟨_, rfl, ?_⟩
  unfold onDisk
  rw [h.diskLayers]
  refine congrArg visible ?_
  exact records_map hlookup

/-- Crashes during a compaction.  Wherever a compaction is interrupted, opening the directory
finds the tables as they were before, or the merged table with the old tables that are left;
the map is the same exactly if no deleted key has a value in the latter. -/
theorem crash_during_compaction_iff (h : e.Backed tables)
    (hw : (e.writeTable e.merged).Writable) (point : CompactionPoint)
    (hskips : e.SkipsIncomplete point) :
    (∃ e', openDir (e.crashedAt point) = .ok e' ∧ e'.onDisk = e.onDisk) ↔
      e.StaysDeleted point := by
  cases point with
  | before =>
      obtain ⟨e', hopen, -, -, hdisk⟩ := h.openDir_contents
      exact iff_of_true ⟨e', hopen, hdisk⟩ trivial
  | writing bytes => exact iff_of_true (h.writing hw hskips) trivial
  | removing count =>
      obtain ⟨e', hopen, hdisk⟩ := h.removing hw count
      rw [h.merged] at hdisk
      refine Iff.trans ?_ (visible_merged_drop_iff h.sorted_diskLayers count)
      rw [← hdisk]
      constructor
      · rintro ⟨opened, hok, heq⟩
        obtain rfl : e' = opened := Except.ok.inj (hopen.symm.trans hok)
        exact heq
      · exact fun heq => ⟨e', hopen, heq⟩

def oneKey : Engine :=
  { fresh with active := Memtable.new.put [107] [1] }.rotateAndFlush

/-- A value in an older table, and its tombstone in a newer one. -/
def deletedKey : Engine :=
  { oneKey with active := Memtable.new.delete [107] }.rotateAndFlush

theorem backed_deletedKey : ∃ tables, deletedKey.Backed tables := by
  have hput : ∀ entry ∈ (Memtable.new.put [107] [1]).entries, entry.Fits := by decide
  have hdelete : ∀ entry ∈ (Memtable.new.delete [107]).entries, entry.Fits := by decide
  have hold : oneKey.Sound :=
    ((sound_fresh.setActive _ fresh.flushCh hput).rotateAndFlush (by decide +kernel)).1
  have hnew : deletedKey.Sound :=
    ((hold.setActive _ oneKey.flushCh hdelete).rotateAndFlush (by decide +kernel)).1
  exact hnew.backed

/-- With both old files removed the key stays deleted. -/
theorem crash_during_compaction_deletedKey :
    ∃ tables, deletedKey.Backed tables ∧
      ∃ e', openDir (deletedKey.crashedAt (.removing 2)) = .ok e' ∧
        e'.onDisk = deletedKey.onDisk := by
  obtain ⟨tables, hbacked⟩ := backed_deletedKey
  refine ⟨tables, hbacked,
    (crash_during_compaction_iff hbacked (by decide +kernel) (.removing 2) trivial).mpr ?_⟩
  intro key record _ _ older holder
  have hnone : deletedKey.diskLayers.drop 2 = [] := by decide +kernel
  rw [hnone] at holder
  simp at holder

/-- A crash after the file with the tombstone is removed: the deleted key is back. -/
theorem deleted_key_resurrected :
    ∃ tables e', deletedKey.Backed tables ∧
      openDir (deletedKey.crashedAt (.removing 1)) = .ok e' ∧
      deletedKey.onDisk [107] = none ∧ e'.onDisk [107] = some [1] := by
  obtain ⟨tables, hbacked⟩ := backed_deletedKey
  obtain ⟨e', hopen, hdisk⟩ := hbacked.removing (by decide +kernel) 1
  refine ⟨tables, e', hbacked, hopen, by decide +kernel, ?_⟩
  rw [hdisk]
  decide +kernel

end RaftKV.Storage.Engine
