import RaftKV.Storage.Contents

/-!
# Operations and contents

What each completed operation of the engine does to its contents, and that it keeps
the engine sound.
-/

namespace RaftKV.Storage

/-- What a snapshot is written from: sorted live records that the format can hold. -/
structure SnapshotEntries (entries : List MemEntry) : Prop where
  sorted : SortedEntries entries
  fits : ∀ e ∈ entries, e.Fits
  live : ∀ e ∈ entries, e.live

/-- An engine between two operations. -/
structure Engine.Sound (e : Engine) : Prop where
  backed : ∃ tables, e.Backed tables
  idle : e.Idle
  isOpen : e.closed = false

namespace Engine

variable {e : Engine} {tables : List Table}

/-! ## Puts and deletes -/

theorem sound_fresh : fresh.Sound where
  backed := by
    refine ⟨[], rfl, ?_, ?_, List.Pairwise.nil, ?_, by decide, ?_⟩
    · simp
    · intro path hpath
      exact hpath
    · simp
    · intro layer hlayer
      rw [List.mem_singleton.mp hlayer]
      simp [fresh, Memtable.new]
  idle := by simp [Idle, fresh]
  isOpen := rfl

theorem contents_fresh : fresh.contents = Store.empty :=
  rfl

/-- A put on an open engine, whatever its layers are. -/
theorem put_open (h : e.closed = false) (key : Key) (value : Bytes) :
    ∃ e', e.put key value = .ok e' ∧ e'.closed = false ∧
      e'.contents = e.contents.put key value := by
  refine ⟨{ e with
    active := e.active.put key value
    flushCh := e.flushCh || (e.active.put key value).shouldFlush }, ?_, h, ?_⟩
  · rw [Engine.put, h]
    rfl
  · exact visible_put e.active key value _

theorem delete_open (h : e.closed = false) (key : Key) :
    ∃ e', e.delete key = .ok e' ∧ e'.closed = false ∧ e'.contents = e.contents.delete key := by
  refine ⟨{ e with active := e.active.delete key }, ?_, h, ?_⟩
  · rw [Engine.delete, h]
    rfl
  · exact visible_delete e.active key _

/-- Nothing that `LoadSnapshot` does closes the engine. -/
theorem loadSnapshot_closed (e : Engine) (data : Bytes) :
    (e.loadSnapshot data).2.closed = e.closed := by
  have hflush : ∀ e₀ : Engine, e₀.doFlush.closed = e₀.closed := by
    intro e₀
    unfold doFlush writeTable
    repeat' split
    all_goals rfl
  unfold loadSnapshot
  cases decodeSnapshot data with
  | error err => rfl
  | ok entries =>
      simp only [hflush]
      split <;> rfl

/-- A write to the active memtable. -/
theorem Sound.setActive (h : e.Sound) (m : Memtable) (flushCh : Bool)
    (hfits : ∀ entry ∈ m.entries, entry.Fits) :
    { e with active := m, flushCh := flushCh }.Sound where
  backed := by
    obtain ⟨tables, hb⟩ := h.backed
    refine ⟨tables, hb.congr rfl rfl rfl fun layer hlayer => ?_⟩
    rcases List.mem_cons.mp hlayer with rfl | hlayer
    · exact hfits
    · exact hb.fits layer (List.mem_cons_of_mem _ hlayer)
  idle := h.idle
  isOpen := h.isOpen

theorem Sound.fits_active (h : e.Sound) : ∀ entry ∈ e.active.entries, entry.Fits := by
  obtain ⟨tables, hb⟩ := h.backed
  exact hb.fits _ List.mem_cons_self

theorem Sound.put (h : e.Sound) {key : Key} {value : Bytes}
    (hfits : key.length < 2 ^ 32 ∧ value.length < 2 ^ 32) :
    ∃ e', e.put key value = .ok e' ∧ e'.Sound ∧ e'.contents = e.contents.put key value := by
  refine ⟨_, ?_, h.setActive (e.active.put key value)
    (e.flushCh || (e.active.put key value).shouldFlush) fun entry hentry => ?_, ?_⟩
  · rw [Engine.put, h.isOpen]
    rfl
  · rcases Memtable.mem_insert hentry with rfl | hold
    · exact hfits
    · exact h.fits_active entry hold
  · exact visible_put e.active key value _

theorem Sound.delete (h : e.Sound) {key : Key} (hfits : key.length < 2 ^ 32) :
    ∃ e', e.delete key = .ok e' ∧ e'.Sound ∧ e'.contents = e.contents.delete key := by
  refine ⟨_, ?_, h.setActive (e.active.delete key) e.flushCh fun entry hentry => ?_, ?_⟩
  · rw [Engine.delete, h.isOpen]
    rfl
  · rcases Memtable.mem_insert hentry with rfl | hold
    · exact ⟨hfits, Nat.two_pow_pos 32⟩
    · exact h.fits_active entry hold
  · exact visible_delete e.active key _

/-- Puts and deletes stay in memory. -/
theorem onDisk_put {e' : Engine} {key : Key} {value : Bytes} (h : e.put key value = .ok e') :
    e'.onDisk = e.onDisk := by
  unfold Engine.put at h
  split at h
  · simp at h
  · rw [← Except.ok.inj h]
    rfl

theorem onDisk_delete {e' : Engine} {key : Key} (h : e.delete key = .ok e') :
    e'.onDisk = e.onDisk := by
  unfold Engine.delete at h
  split at h
  · simp at h
  · rw [← Except.ok.inj h]
    rfl

/-! ## Writing a table -/

theorem nextSeq_of_lt (h : e.sstableSeq < 10 ^ 16) : e.nextSeq = e.sstableSeq + 1 := by
  unfold nextSeq
  omega

theorem Writable.length_lt (h : e.Writable) {path : FileName} {file : Bytes}
    (hfile : e.files.lookup path = some file) : file.length < maxInt64 :=
  h.1 ⟨path, file⟩ (AList.mem_lookup_iff.mp hfile)

/-- The name of the next table is new. -/
theorem Backed.path_ne (h : e.Backed tables) (hnext : e.nextSeq < 10 ^ 16) {t : Table}
    (ht : t ∈ tables) : t.path ≠ fileName e.nextSeq := by
  refine fileName_ne hnext ?_
  have := h.numbered t ht
  rw [nextSeq_of_lt h.narrow]
  omega

theorem Backed.lookup_writeTable (h : e.Backed tables) (hnext : e.nextSeq < 10 ^ 16)
    (entries : List MemEntry) {t : Table} (ht : t ∈ tables) :
    (e.writeTable entries).files.lookup t.path = some (tableBytes t.entries) := by
  change (e.files.insert _ _).lookup t.path = _
  rw [AList.lookup_insert_ne (h.path_ne hnext ht)]
  exact h.files t ht

theorem lookup_writeTable_self (e : Engine) (entries : List MemEntry) :
    (e.writeTable entries).files.lookup (fileName e.nextSeq) = some (tableBytes entries) :=
  AList.lookup_insert _

theorem mem_paths_writeTable {entries : List MemEntry} {path : FileName}
    (h : path ∈ (e.writeTable entries).files.keys) :
    path = fileName e.nextSeq ∨ path ∈ e.files.keys :=
  (AList.mem_insert e.files).mp h

/-! ## Flushing -/

theorem doFlush_of_empty (h : ∀ imm ∈ e.immutable, imm.entries = []) : e.doFlush = e := by
  unfold doFlush
  cases himm : e.immutable with
  | none => rfl
  | some imm =>
      have hzero := imm.size_eq_zero.mpr (h imm himm)
      simp [hzero]

theorem doFlush_files {imm : Memtable} (himm : e.immutable = some imm) (hne : imm.entries ≠ []) :
    e.doFlush.files = (e.writeTable imm.entries).files ∧ e.doFlush.sstableSeq = e.nextSeq := by
  have hsize : imm.size ≠ 0 := mt imm.size_eq_zero.mp hne
  unfold doFlush
  rw [himm]
  simp only
  rw [if_neg hsize]
  split
  · exact ⟨rfl, rfl⟩
  · exact ⟨rfl, rfl⟩

/-- What a flush that can write its table does. -/
theorem doFlush_eq {imm : Memtable} (himm : e.immutable = some imm) (hne : imm.entries ≠ [])
    (hwritten : TableEntries imm.entries) : e.doFlush = { e.writeTable imm.entries with
      sstables := readerOf (fileName e.nextSeq) imm.entries :: e.sstables
      immutable := none } := by
  have hopen := openSSTable_tableBytes hwritten (lookup_writeTable_self e imm.entries)
  have hsize : imm.size ≠ 0 := mt imm.size_eq_zero.mp hne
  unfold Engine.doFlush
  rw [himm]
  simp only
  rw [if_neg hsize, Memtable.snapshot, hopen]

/-- A flush that has something to write publishes a new table. -/
theorem Backed.doFlush (h : e.Backed tables) {imm : Memtable} (himm : e.immutable = some imm)
    (hne : imm.entries ≠ []) (hw : e.doFlush.Writable) :
    ∃ t : Table, t.entries = imm.entries ∧ e.doFlush.Backed (t :: tables) ∧
      e.doFlush.active = e.active ∧ e.doFlush.immutable = none ∧
      e.doFlush.closed = e.closed := by
  obtain ⟨hfiles, hseq⟩ := doFlush_files himm hne
  have hnext : e.nextSeq < 10 ^ 16 := hseq ▸ hw.2
  have hlookup := lookup_writeTable_self e imm.entries
  have hmem : imm.entries ∈ e.memLayers := by simp [memLayers, himm]
  have hwritten : TableEntries imm.entries :=
    ⟨imm.sorted, h.fits _ hmem, hw.length_lt (hfiles ▸ hlookup)⟩
  rw [doFlush_eq himm hne hwritten]
  refine ⟨⟨e.nextSeq, imm.entries, hwritten⟩, rfl, ?_, rfl, rfl, rfl⟩
  constructor
  · change readerOf _ _ :: e.sstables = _
    rw [h.readers]
    rfl
  · intro t ht
    rcases List.mem_cons.mp ht with rfl | ht
    · exact hlookup
    · exact h.lookup_writeTable hnext _ ht
  · intro path hpath
    rcases mem_paths_writeTable hpath with rfl | hold
    · exact List.mem_cons_self
    · exact List.mem_cons_of_mem _ (h.paths path hold)
  · refine List.pairwise_cons.mpr ⟨fun t ht => ?_, h.descending⟩
    have := h.numbered t ht
    have := nextSeq_of_lt h.narrow
    change t.seq < e.nextSeq
    omega
  · intro t ht
    rcases List.mem_cons.mp ht with rfl | ht
    · exact le_rfl
    · have := h.numbered t ht
      have := nextSeq_of_lt h.narrow
      change t.seq ≤ e.nextSeq
      omega
  · exact hnext
  · intro layer hlayer
    rw [List.mem_singleton.mp hlayer]
    exact h.fits _ List.mem_cons_self

/-- Rotating keeps the layers, but for an empty one. -/
theorem contents_rotate (h : e.Idle) : e.rotate.contents = e.contents := by
  change visible ([] :: e.active.entries :: e.diskLayers) = _
  rw [visible_nil_cons]
  unfold contents memLayers
  cases himm : e.immutable with
  | none => rfl
  | some imm =>
      have hempty : imm.entries = [] := h imm himm
      refine (visible_append_congr [e.active.entries] fun key => ?_).symm
      change (newest MemEntry.key key (imm.entries :: e.diskLayers)).filter _ = _
      rw [hempty, newest_cons, lookup_nil, Option.none_or]
      rfl

theorem Backed.rotate (h : e.Backed tables) : e.rotate.Backed tables := by
  refine h.congr rfl rfl rfl fun layer hlayer => ?_
  rcases List.mem_cons.mp hlayer with rfl | hlayer
  · simp [Engine.rotate, Memtable.new]
  · rw [List.mem_singleton.mp hlayer]
    exact h.fits _ List.mem_cons_self

/-- Rotating and flushing puts everything on disk. -/
theorem Backed.doFlush_rotate (h : e.Backed tables) (hidle : e.Idle)
    (hw : e.rotate.doFlush.Writable) :
    (∃ tables', e.rotate.doFlush.Backed tables') ∧ e.rotate.doFlush.Idle ∧
      e.rotate.doFlush.closed = e.closed ∧ e.rotate.doFlush.contents = e.contents ∧
      e.rotate.doFlush.onDisk = e.contents := by
  have hrotate := contents_rotate hidle
  by_cases hempty : e.active.entries = []
  · have himm : ∀ imm ∈ e.rotate.immutable, imm.entries = [] := by
      intro imm himm
      obtain rfl : e.active = imm := by simpa [Engine.rotate] using himm
      exact hempty
    rw [doFlush_of_empty himm]
    refine ⟨⟨tables, h.rotate⟩, himm, rfl, hrotate, ?_⟩
    rw [← hrotate]
    change _ = visible ([] :: e.active.entries :: e.diskLayers)
    rw [hempty, visible_nil_cons, visible_nil_cons]
    rfl
  · obtain ⟨t, hentries, hb, hactive, himm, hclosed⟩ := h.rotate.doFlush rfl hempty hw
    have hdisk : e.rotate.doFlush.diskLayers = e.active.entries :: e.diskLayers := by
      rw [hb.diskLayers, h.diskLayers, List.map_cons, hentries]
    have hcontents : e.rotate.doFlush.contents = e.contents := by
      rw [← hrotate, contents, memLayers, hactive, himm, hdisk]
      rfl
    refine ⟨⟨_, hb⟩, by simp [Idle, himm], hclosed, hcontents, ?_⟩
    rw [← hcontents, contents, memLayers, hactive, himm]
    exact (visible_nil_cons).symm

theorem Sound.rotateAndFlush (h : e.Sound) (hw : e.rotateAndFlush.Writable) :
    e.rotateAndFlush.Sound ∧ e.rotateAndFlush.contents = e.contents := by
  obtain ⟨tables, hb⟩ := h.backed
  unfold Engine.rotateAndFlush at hw ⊢
  split
  · exact ⟨h, rfl⟩
  · next hnone =>
      rw [if_neg hnone] at hw
      obtain ⟨⟨tables', hb'⟩, hidle, hclosed, hcontents, -⟩ := hb.doFlush_rotate h.idle hw
      refine ⟨⟨⟨tables', hb'.congr rfl rfl rfl hb'.fits⟩, hidle, hclosed.trans h.isOpen⟩, ?_⟩
      exact hcontents

/-- A flush that was not skipped leaves nothing in memory only. -/
theorem Sound.onDisk_rotateAndFlush (h : e.Sound) (himm : e.immutable = none)
    (hw : e.rotateAndFlush.Writable) : e.rotateAndFlush.onDisk = e.contents := by
  obtain ⟨tables, hb⟩ := h.backed
  have heq : e.rotateAndFlush = { e.rotate.doFlush with
      compactCh := e.compactCh || compactionThreshold ≤ e.rotate.doFlush.sstables.length } := by
    rw [Engine.rotateAndFlush, himm]
    rfl
  rw [heq] at hw ⊢
  obtain ⟨-, -, -, -, hdisk⟩ := hb.doFlush_rotate h.idle hw
  exact hdisk

/-! ## Compaction -/

theorem doCompaction_files {inputs : List (List MemEntry)} (hlen : ¬ e.sstables.length < 2)
    (hread : readTables e.files e.sstables.reverse = .ok inputs) :
    e.doCompaction.sstableSeq = e.nextSeq ∧
      (e.doCompaction.files = (e.writeTable (mergeEntries inputs)).files ∨
        e.doCompaction.files = removeFiles (e.sstables.map SSTableReader.path)
          (e.writeTable (mergeEntries inputs)).files) := by
  unfold doCompaction
  rw [if_neg hlen, hread]
  simp only
  split
  · exact ⟨rfl, .inl rfl⟩
  · exact ⟨rfl, .inr rfl⟩

theorem Backed.paths_eq (h : e.Backed tables) :
    e.sstables.map SSTableReader.path = tables.map Table.path := by
  rw [h.readers, List.map_map]
  rfl

/-- The merged records make a table, if its file can be written. -/
theorem Backed.tableEntries_merge (h : e.Backed tables)
    (hsize : (tableBytes (mergeEntries e.diskLayers.reverse)).length < maxInt64) :
    TableEntries (mergeEntries e.diskLayers.reverse) := by
  have hsorted : ∀ input ∈ e.diskLayers.reverse, SortedEntries input := fun input hinput =>
    h.sorted_diskLayers input (List.mem_reverse.mp hinput)
  refine ⟨sortedEntries_mergeEntries hsorted, fun entry hentry => ?_, hsize⟩
  obtain ⟨input, hinput, hentry⟩ := mem_mergeEntries hsorted hentry
  exact h.fits_diskLayers input (List.mem_reverse.mp hinput) entry hentry

/-- A compaction replaces the tables by one with their merged records. -/
theorem Backed.doCompaction (h : e.Backed tables) (hlen : ¬ e.sstables.length < 2)
    (hw : e.doCompaction.Writable) :
    ∃ t : Table, t.entries = mergeEntries e.diskLayers.reverse ∧ e.doCompaction.Backed [t] ∧
      e.doCompaction.active = e.active ∧ e.doCompaction.immutable = e.immutable ∧
      e.doCompaction.closed = e.closed := by
  obtain ⟨hseq, hfiles⟩ := doCompaction_files hlen h.readTables
  have hnext : e.nextSeq < 10 ^ 16 := hseq ▸ hw.2
  have hkept : fileName e.nextSeq ∉ e.sstables.map SSTableReader.path := by
    rw [h.paths_eq]
    intro hmem
    obtain ⟨t, ht, hpath⟩ := List.mem_map.mp hmem
    exact h.path_ne hnext ht hpath
  have hlookup := lookup_writeTable_self e (mergeEntries e.diskLayers.reverse)
  have hlookup' : e.doCompaction.files.lookup (fileName e.nextSeq) =
      some (tableBytes (mergeEntries e.diskLayers.reverse)) := by
    rcases hfiles with heq | heq
    · rw [heq, hlookup]
    · rw [heq, lookup_removeFiles hkept, hlookup]
  have hwritten := h.tableEntries_merge (hw.length_lt hlookup')
  have heq : e.doCompaction = { e.writeTable (mergeEntries e.diskLayers.reverse) with
      sstables := [readerOf (fileName e.nextSeq) (mergeEntries e.diskLayers.reverse)]
      files := removeFiles (e.sstables.map SSTableReader.path)
        (e.writeTable (mergeEntries e.diskLayers.reverse)).files } := by
    unfold Engine.doCompaction
    rw [if_neg hlen, h.readTables]
    simp only
    rw [openSSTable_tableBytes hwritten hlookup]
  rw [heq]
  refine ⟨⟨e.nextSeq, _, hwritten⟩, rfl, ?_, rfl, rfl, rfl⟩
  constructor
  · rfl
  · intro t ht
    rw [List.mem_singleton.mp ht]
    exact (lookup_removeFiles hkept _).trans hlookup
  · intro path hpath
    obtain ⟨hmem, hnot⟩ := mem_removeFiles hpath
    rcases mem_paths_writeTable hmem with rfl | hold
    · exact List.mem_cons_self
    · exact absurd (h.paths path hold) (h.paths_eq ▸ hnot)
  · exact List.pairwise_singleton _ _
  · intro t ht
    rw [List.mem_singleton.mp ht]
    exact le_rfl
  · exact hnext
  · exact h.fits

theorem Sound.doCompaction (h : e.Sound) (hw : e.doCompaction.Writable) :
    e.doCompaction.Sound ∧ e.doCompaction.contents = e.contents ∧
      e.doCompaction.onDisk = e.onDisk := by
  obtain ⟨tables, hb⟩ := h.backed
  by_cases hlen : e.sstables.length < 2
  · have heq : e.doCompaction = e := by rw [Engine.doCompaction, if_pos hlen]
    rw [heq]
    exact ⟨h, rfl, rfl⟩
  · obtain ⟨t, hentries, hb', hactive, himm, hclosed⟩ := hb.doCompaction hlen hw
    have hdisk : e.doCompaction.diskLayers = [mergeEntries e.diskLayers.reverse] := by
      rw [hb'.diskLayers, List.map_singleton, hentries]
    refine ⟨⟨⟨_, hb'⟩, ?_, hclosed.trans h.isOpen⟩, ?_, ?_⟩
    · intro imm himm'
      exact h.idle imm (himm ▸ himm')
    · rw [contents, memLayers, hactive, himm, hdisk]
      exact visible_mergeEntries hb.sorted_diskLayers e.memLayers
    · rw [onDisk, hdisk]
      exact visible_mergeEntries hb.sorted_diskLayers []

/-! ## Reopening -/

theorem isSuffixOf_fileName (n : ℕ) : sstExtension.isSuffixOf (fileName n) = true :=
  List.isSuffixOf_iff_suffix.mpr (List.suffix_append _ _)

theorem Backed.descending_paths (h : e.Backed tables) :
    (tables.map Table.path).Pairwise (· > ·) := by
  rw [List.pairwise_map]
  refine h.descending.imp_of_mem fun hnewer _ hlt => ?_
  exact fileName_lt ((h.numbered _ hnewer).trans_lt h.narrow) hlt

theorem Backed.path_mem (h : e.Backed tables) {t : Table} (ht : t ∈ tables) :
    t.path ∈ e.files.keys :=
  AList.lookup_isSome.mp (by rw [h.files t ht]; rfl)

theorem Backed.tablePaths (h : e.Backed tables) :
    tablePaths e.files = tables.map Table.path := by
  have hdesc := h.descending_paths
  refine insertionSort_filter_keys (hdesc.imp fun hlt => hlt.le)
    (hdesc.imp fun hlt => hlt.ne') fun path => ⟨fun hpath => ?_, fun hpath => h.paths path hpath.1⟩
  obtain ⟨t, ht, rfl⟩ := List.mem_map.mp hpath
  exact ⟨h.path_mem ht, isSuffixOf_fileName _⟩

/-- Opening the files of tables. -/
theorem filterMap_openSSTable {files : Directory} {tables : List Table}
    (h : ∀ t ∈ tables, files.lookup t.path = some (tableBytes t.entries)) :
    (tables.map Table.path).filterMap (fun path => (openSSTable files path).toOption) =
      tables.map Table.reader := by
  rw [List.filterMap_map, ← List.filterMap_eq_map]
  refine List.filterMap_congr fun t ht => ?_
  simp only [Function.comp, openSSTable_tableBytes t.written (h t ht)]
  rfl

/-- Opening the directory finds the tables again, with nothing in memory. -/
theorem Backed.openDir (h : e.Backed tables) :
    ∃ e', openDir e.files = .ok e' ∧ e'.Backed tables ∧ e'.files = e.files ∧
      e'.active = .new ∧ e'.immutable = none ∧ e'.closed = false := by
  have hreaders := filterMap_openSSTable h.files
  have hnew : ∀ layer ∈ [(Memtable.new).entries], ∀ entry ∈ layer, MemEntry.Fits entry := by
    simp [Memtable.new]
  unfold Engine.openDir loadSSTables
  simp only [h.tablePaths, hreaders]
  cases tables with
  | nil =>
      refine ⟨_, rfl, ?_, rfl, rfl, rfl, rfl⟩
      exact ⟨rfl, h.files, h.paths, h.descending, by simp, (by decide : 0 < 10 ^ 16), hnew⟩
  | cons t rest =>
      have hlt := (h.numbered t List.mem_cons_self).trans_lt h.narrow
      rw [List.map_cons]
      simp only
      rw [Table.path, parseSequence_fileName hlt]
      refine ⟨_, rfl, ?_, rfl, rfl, rfl, rfl⟩
      refine ⟨rfl, h.files, h.paths, h.descending, fun t' ht' => ?_, hlt, hnew⟩
      rcases List.mem_cons.mp ht' with rfl | ht'
      · exact le_rfl
      · exact ((List.pairwise_cons.mp h.descending).1 t' ht').le

/-- After a crash the engine contains what was on disk. -/
theorem Backed.openDir_contents (h : e.Backed tables) :
    ∃ e', Engine.openDir e.files = .ok e' ∧ e'.Sound ∧ e'.contents = e.onDisk ∧
      e'.onDisk = e.onDisk := by
  obtain ⟨e', hopen, hb, hfiles, hactive, himm, hclosed⟩ := h.openDir
  have hdisk : e'.diskLayers = e.diskLayers := by rw [hb.diskLayers, h.diskLayers]
  refine ⟨e', hopen, ⟨⟨tables, hb⟩, by simp [Idle, himm], hclosed⟩, ?_, ?_⟩
  · rw [contents, memLayers, hactive, himm, hdisk]
    exact visible_nil_cons
  · rw [onDisk, hdisk]
    rfl

/-- Closing writes out what is in memory. -/
theorem Sound.close (h : e.Sound) (hw : e.close.Writable) :
    (∃ tables, e.close.Backed tables) ∧ e.close.onDisk = e.contents := by
  obtain ⟨tables, hb⟩ := h.backed
  have hb' : { e with closed := true }.Backed tables := hb.congr rfl rfl rfl hb.fits
  unfold Engine.close at hw ⊢
  rw [if_neg (by simp [h.isOpen])] at hw ⊢
  by_cases hsize : e.active.size > 0
  · rw [if_pos hsize] at hw ⊢
    obtain ⟨hbacked, -, -, -, hdisk⟩ := hb'.doFlush_rotate h.idle hw
    exact ⟨hbacked, hdisk⟩
  · have hempty : e.active.entries = [] := e.active.size_eq_zero.mp (by omega)
    have hflush : { e with closed := true }.doFlush = { e with closed := true } :=
      doFlush_of_empty h.idle
    rw [if_neg hsize, hflush]
    refine ⟨⟨tables, hb'⟩, ?_⟩
    change visible e.diskLayers = visible (e.memLayers ++ e.diskLayers)
    rw [memLayers, hempty, List.cons_append, visible_nil_cons]
    cases himm : e.immutable with
    | none => rfl
    | some imm =>
        have hnil : imm.entries = [] := h.idle imm himm
        change _ = visible (imm.entries :: e.diskLayers)
        rw [hnil, visible_nil_cons]

/-- `Close`, then `Open`. -/
def reopen (e : Engine) : Except EngineError Engine :=
  openDir e.close.files

theorem Sound.reopen (h : e.Sound) (hw : e.close.Writable) :
    ∃ e', e.reopen = .ok e' ∧ e'.Sound ∧ e'.contents = e.contents := by
  obtain ⟨⟨tables, hb⟩, hdisk⟩ := h.close hw
  obtain ⟨e', hopen, hsound, hcontents, -⟩ := hb.openDir_contents
  exact ⟨e', hopen, hsound, hcontents.trans hdisk⟩

/-! ## Snapshots -/

/-- The layers, oldest first, as a snapshot merges them. -/
theorem reverse_layers (e : Engine) :
    (e.memLayers ++ e.diskLayers).reverse =
      e.diskLayers.reverse ++ (e.immutable.map Memtable.entries).toList ++ [e.active.entries] := by
  unfold memLayers
  cases e.immutable with
  | none => simp
  | some imm => simp

/-- A snapshot is the sorted list of the live records. -/
theorem snapshot_of_layers
    (hread : readTables e.files e.sstables.reverse = .ok e.diskLayers.reverse)
    (hlayers : ∀ layer ∈ e.memLayers ++ e.diskLayers,
      SortedEntries layer ∧ ∀ entry ∈ layer, entry.Fits) :
    ∃ entries, e.snapshot = .ok (encodeSnapshot entries) ∧ SnapshotEntries entries ∧
      visible [entries] = e.contents := by
  have hsorted : ∀ input ∈ (e.memLayers ++ e.diskLayers).reverse, SortedEntries input :=
    fun input hinput => (hlayers input (List.mem_reverse.mp hinput)).1
  refine ⟨mergeEntries (e.memLayers ++ e.diskLayers).reverse, ?_, ?_, ?_⟩
  · rw [Engine.snapshot, hread, reverse_layers]
    rfl
  · refine ⟨sortedEntries_mergeEntries hsorted, fun entry hentry => ?_, fun entry hentry => ?_⟩
    · obtain ⟨input, hinput, hentry⟩ := mem_mergeEntries hsorted hentry
      exact (hlayers input (List.mem_reverse.mp hinput)).2 entry hentry
    · have hlookup := lookup_eq_some_of_mem (sortedEntries_mergeEntries hsorted) hentry
      rw [lookup_mergeEntries hsorted] at hlookup
      exact (Option.filter_eq_some_iff.mp hlookup).2
  · exact visible_mergeEntries (fun layer hlayer => (hlayers layer hlayer).1) []

theorem Sound.snapshot (h : e.Sound) :
    ∃ entries, e.snapshot = .ok (encodeSnapshot entries) ∧ SnapshotEntries entries ∧
      visible [entries] = e.contents := by
  obtain ⟨tables, hb⟩ := h.backed
  refine snapshot_of_layers hb.readTables fun layer hlayer => ?_
  rcases List.mem_append.mp hlayer with hmem | hdisk
  · exact ⟨Backed.sorted_memLayers e layer hmem, hb.fits layer hmem⟩
  · exact ⟨hb.sorted_diskLayers layer hdisk, hb.fits_diskLayers layer hdisk⟩

/-- The memtable of sorted records holds them as puts. -/
theorem lookup_memtableOf {entries : List MemEntry} (h : SortedEntries entries) (key : Key) :
    lookup MemEntry.key key (memtableOf entries).entries =
      (lookup MemEntry.key key entries).map MemEntry.asPut := by
  induction entries using List.reverseRecOn with
  | nil => rfl
  | append_singleton front last ih =>
      obtain ⟨hfront, -, hlast⟩ := List.pairwise_append.mp h
      have hstep : memtableOf (front ++ [last]) = (memtableOf front).put last.key last.value := by
        rw [memtableOf, List.foldl_append, List.foldl_cons, List.foldl_nil]
        rfl
      rw [hstep, Memtable.put, Memtable.lookup_insert, ih hfront, lookup_append, lookup_cons]
      by_cases heq : last.key = key
      · have hnone : lookup MemEntry.key key front = none := lookup_eq_none.mpr fun e he =>
          heq ▸ (hlast e he last (List.mem_singleton_self last)).ne
        simp [heq, hnone, MemEntry.asPut]
      · simp [heq]

theorem visible_memtableOf {entries : List MemEntry} (h : SnapshotEntries entries) :
    visible [(memtableOf entries).entries] = visible [entries] := by
  funext key
  simp only [visible, newest_cons, newest_nil, Option.or_none, lookup_memtableOf h.sorted]
  cases hlookup : lookup MemEntry.key key entries with
  | none => rfl
  | some e =>
      have hlive := h.live e (mem_of_lookup hlookup)
      have hput : e.asPut.live = true := rfl
      rw [Option.map_some, Option.filter_some, Option.filter_some, if_pos hlive, if_pos hput]
      rfl

/-- The contents of a memtable that a snapshot has been loaded into. -/
theorem visible_memtableOf_entries (entries : List MemEntry) :
    visible [(memtableOf entries).entries] = Store.ofEntries entries := by
  have hput : ∀ (m : Memtable) (entry : MemEntry),
      (visible [m.entries]).put entry.key entry.value =
        visible [(m.put entry.key entry.value).entries] := fun m entry =>
    (visible_put m entry.key entry.value []).symm
  exact (List.foldl_hom (fun m : Memtable => visible [m.entries]) (H := hput)).symm

theorem mem_memtableOf {entries : List MemEntry} {e : MemEntry}
    (h : e ∈ (memtableOf entries).entries) : ∃ e' ∈ entries, e = e'.asPut := by
  induction entries using List.reverseRecOn with
  | nil => simp [memtableOf, Memtable.new] at h
  | append_singleton front last ih =>
      rw [memtableOf, List.foldl_append, List.foldl_cons, List.foldl_nil] at h
      rcases Memtable.mem_insert h with rfl | hold
      · exact ⟨last, by simp, rfl⟩
      · obtain ⟨e', he', heq⟩ := ih hold
        exact ⟨e', List.mem_append_left _ he', heq⟩

theorem memtableOf_asPut (entries : List MemEntry) :
    memtableOf (entries.map MemEntry.asPut) = memtableOf entries := by
  rw [memtableOf, List.foldl_map]
  rfl

/-- The engine in the middle of loading a snapshot. -/
theorem Backed.replaced (h : e.Backed tables) {m : Memtable}
    (hfits : ∀ entry ∈ m.entries, entry.Fits) :
    { e with
      sstables := []
      active := m
      immutable := none
      files := removeFiles (e.sstables.map SSTableReader.path) e.files }.Backed [] where
  readers := rfl
  files := by simp
  paths := fun path hpath => by
    obtain ⟨hmem, hnot⟩ := mem_removeFiles hpath
    exact absurd (h.paths path hmem) (h.paths_eq ▸ hnot)
  descending := List.Pairwise.nil
  numbered := by simp
  narrow := h.narrow
  fits := fun layer hlayer => by
    rw [List.mem_singleton.mp hlayer]
    exact hfits

/-- Loading a snapshot replaces the contents, and they are on disk at once. -/
theorem Sound.loadSnapshot_decoded (h : e.Sound) {data : Bytes} {entries : List MemEntry}
    (hdecode : decodeSnapshot data = .ok entries) :
    ∃ e', e.loadSnapshot data = (.ok (), e') ∧
      (e'.Writable → e'.Sound ∧ e'.contents = Store.ofEntries entries ∧
        e'.onDisk = Store.ofEntries entries) := by
  obtain ⟨tables, hb⟩ := h.backed
  have hfits : ∀ entry ∈ (memtableOf entries).entries, entry.Fits := by
    intro entry hentry
    obtain ⟨entry', hentry', rfl⟩ := mem_memtableOf hentry
    exact fits_of_decodeSnapshot hdecode entry' hentry'
  have hb' := hb.replaced hfits
  unfold Engine.loadSnapshot
  rw [hdecode]
  refine ⟨_, rfl, fun hw => ?_⟩
  set e₀ : Engine :=
    { e with
      sstables := []
      active := memtableOf entries
      immutable := none
      files := removeFiles (e.sstables.map SSTableReader.path) e.files }
  have hidle : e₀.Idle := by simp [Idle, e₀]
  have hcontents : e₀.contents = Store.ofEntries entries := visible_memtableOf_entries entries
  by_cases hsize : e₀.active.size > 0
  · rw [if_pos hsize] at hw ⊢
    obtain ⟨hbacked, hidle', hclosed, hsame, hdisk⟩ := hb'.doFlush_rotate hidle hw
    exact ⟨⟨hbacked, hidle', hclosed.trans h.isOpen⟩, hsame.trans hcontents, hdisk.trans hcontents⟩
  · rw [if_neg hsize, doFlush_of_empty hidle]
    have hempty : e₀.active.entries = [] := e₀.active.size_eq_zero.mp (by omega)
    refine ⟨⟨⟨[], hb'⟩, hidle, h.isOpen⟩, hcontents, ?_⟩
    rw [← hcontents]
    change visible e₀.diskLayers = visible (e₀.active.entries :: e₀.diskLayers)
    rw [hempty, visible_nil_cons]

/-- The map that a snapshot decodes to. -/
theorem ofEntries_asPut {entries : List MemEntry} (h : SnapshotEntries entries) :
    Store.ofEntries (entries.map MemEntry.asPut) = visible [entries] := by
  rw [← visible_memtableOf_entries, memtableOf_asPut, visible_memtableOf h]

/-- The same of a snapshot that an engine has written. -/
theorem Sound.loadSnapshot (h : e.Sound) {entries : List MemEntry}
    (hentries : SnapshotEntries entries) :
    ∃ e', e.loadSnapshot (encodeSnapshot entries) = (.ok (), e') ∧
      (e'.Writable → e'.Sound ∧ e'.contents = visible [entries] ∧
        e'.onDisk = visible [entries]) := by
  rw [← ofEntries_asPut hentries]
  exact h.loadSnapshot_decoded (decodeSnapshot_encodeSnapshot hentries.fits)

end Engine

end RaftKV.Storage
