import RaftKV.Storage.Engine

/-!
# What the engine contains

The abstract view of an engine is a map from keys to values (`Store`).  Its contents
are read off its layers, the active memtable first: the newest record of a key
decides, and a tombstone means that the key is gone.

`Backed` ties the readers and the file names to the tables on disk.  Every completed
operation keeps it, and on the contents a put or a delete does what it does to a map,
while a flush, a compaction and reopening do nothing.
-/

namespace RaftKV.Storage

/-- A map from keys to values. -/
abbrev Store := Key → Option Bytes

namespace Store

def empty : Store := fun _ => none

def put (s : Store) (key : Key) (value : Bytes) : Store :=
  Function.update s key (some value)

def delete (s : Store) (key : Key) : Store :=
  Function.update s key none

/-- The map of a list of records, later ones over earlier ones. -/
def ofEntries (entries : List MemEntry) : Store :=
  entries.foldl (fun s entry => s.put entry.key entry.value) Store.empty

end Store

/-- The map that layers stand for, newest first. -/
def visible (layers : List (List MemEntry)) : Store := fun key =>
  ((newest MemEntry.key key layers).filter MemEntry.live).map MemEntry.value

/-- The records of a table as a full scan reads them. -/
def SSTableReader.records (r : SSTableReader) (files : Directory) : List MemEntry :=
  match r.iterateAll files with
  | .ok entries => entries
  | .error _ => []

namespace Engine

/-- The layers in memory. -/
def memLayers (e : Engine) : List (List MemEntry) :=
  e.active.entries :: (e.immutable.map Memtable.entries).toList

/-- The layers on disk. -/
def diskLayers (e : Engine) : List (List MemEntry) :=
  e.sstables.map fun r => r.records e.files

def contents (e : Engine) : Store :=
  visible (e.memLayers ++ e.diskLayers)

/-- What is left when the memory is lost. -/
def onDisk (e : Engine) : Store :=
  visible e.diskLayers

/-- What the disk can take: no file grows beyond the largest offset, and the numbers
of the tables keep to 16 digits. -/
def Writable (e : Engine) : Prop :=
  (∀ file ∈ e.files.entries, file.2.length < maxInt64) ∧ e.sstableSeq < 10 ^ 16

instance (e : Engine) : Decidable e.Writable :=
  inferInstanceAs (Decidable (_ ∧ _))

/-- No flush is half done: a memtable that waits to be flushed is empty. -/
def Idle (e : Engine) : Prop :=
  ∀ imm ∈ e.immutable, imm.entries = []

end Engine

/-! ## Layers -/

section Visible

variable {layers layers' : List (List MemEntry)} {l : List MemEntry}

theorem visible_nil_cons : visible ([] :: layers) = visible layers := by
  funext key
  simp [visible, newest_cons]

/-- Layers whose live records agree can be exchanged below others. -/
theorem visible_append_congr (upper : List (List MemEntry))
    (h : ∀ key, (newest MemEntry.key key layers).filter MemEntry.live =
      (newest MemEntry.key key layers').filter MemEntry.live) :
    visible (upper ++ layers) = visible (upper ++ layers') := by
  funext key
  unfold visible
  rw [newest_append, newest_append]
  cases newest MemEntry.key key upper with
  | some e => rfl
  | none => rw [Option.none_or, Option.none_or, h]

/-- A merge of layers shows what they show. -/
theorem newest_mergeEntries (hsorted : ∀ layer ∈ layers, SortedEntries layer) (key : Key) :
    newest MemEntry.key key [mergeEntries layers.reverse] =
      (newest MemEntry.key key layers).filter MemEntry.live := by
  have hsorted' : ∀ input ∈ layers.reverse, SortedEntries input := fun input hinput =>
    hsorted input (List.mem_reverse.mp hinput)
  rw [newest_cons, newest_nil, Option.or_none, lookup_mergeEntries hsorted', List.reverse_reverse]

theorem visible_mergeEntries (hsorted : ∀ layer ∈ layers, SortedEntries layer)
    (upper : List (List MemEntry)) :
    visible (upper ++ [mergeEntries layers.reverse]) = visible (upper ++ layers) := by
  refine visible_append_congr upper fun key => ?_
  rw [newest_mergeEntries hsorted, Option.filter_filter]
  simp

/-- Inserting into the top layer changes one key. -/
theorem visible_insert (m : Memtable) (entry : MemEntry) (bytes : ℕ)
    (layers : List (List MemEntry)) :
    visible ((m.insert entry bytes).entries :: layers) =
      Function.update (visible (m.entries :: layers)) entry.key
        ((some entry).filter MemEntry.live |>.map MemEntry.value) := by
  funext key
  unfold visible
  rw [newest_cons, Memtable.lookup_insert]
  by_cases heq : entry.key = key
  · subst heq
    simp
  · rw [if_neg heq, Function.update_of_ne (Ne.symm heq), newest_cons]

theorem visible_put (m : Memtable) (key : Key) (value : Bytes) (layers : List (List MemEntry)) :
    visible ((m.put key value).entries :: layers) =
      (visible (m.entries :: layers)).put key value :=
  visible_insert m ⟨key, value, kindPut⟩ _ layers

theorem visible_delete (m : Memtable) (key : Key) (layers : List (List MemEntry)) :
    visible ((m.delete key).entries :: layers) = (visible (m.entries :: layers)).delete key :=
  visible_insert m ⟨key, [], kindDelete⟩ _ layers

end Visible

/-! ## Names of files -/

theorem fileName_lt {m n : ℕ} (hn : n < 10 ^ 16) (h : m < n) : fileName m < fileName n := by
  unfold fileName
  rw [padded_of_lt hn, padded_of_lt (h.trans hn)]
  exact append_lt_append (by simp) (decimal_lt_decimal hn h) _ _

theorem fileName_ne {m n : ℕ} (hn : n < 10 ^ 16) (h : m < n) : fileName m ≠ fileName n :=
  (fileName_lt hn h).ne

theorem parseSequence_fileName {n : ℕ} (h : n < 10 ^ 16) :
    parseSequence (fileName n) = some n := by
  have hdigits : (fileName n).takeWhile Char.isDigit = decimal 16 n := by
    rw [fileName, padded_of_lt h,
      List.takeWhile_append_of_pos fun c hc => isDigit_of_mem_decimal hc]
    simp [sstExtension]
  have hne : decimal 16 n ≠ [] := by
    intro hnil
    have := congrArg List.length hnil
    simp at this
  have hrest : (fileName n).drop 16 = sstExtension := by
    rw [fileName, padded_of_lt h, List.drop_left' (length_decimal 16 n)]
  unfold parseSequence
  simp only [hdigits, length_decimal, hrest, decimalValue_decimal h]
  rw [if_pos]
  exact ⟨hne, by decide, by omega⟩

/-! ## The tables behind an engine -/

/-- A table on disk. -/
structure Table where
  seq : ℕ
  entries : List MemEntry
  written : TableEntries entries

namespace Table

def path (t : Table) : FileName :=
  fileName t.seq

def reader (t : Table) : SSTableReader :=
  readerOf t.path t.entries

end Table

/-- The readers of tables find their records. -/
theorem records_map {files : Directory} {tables : List Table}
    (h : ∀ t ∈ tables, files.lookup t.path = some (tableBytes t.entries)) :
    (tables.map Table.reader).map (fun r => r.records files) = tables.map Table.entries := by
  rw [List.map_map]
  refine List.map_congr_left fun t ht => ?_
  have hread : t.reader.iterateAll files = .ok t.entries :=
    iterateAll_tableBytes t.written (h t ht)
  simp only [Function.comp, SSTableReader.records, hread]

/-- The tables of an engine, newest first, with the files and the memtables as
needed to keep them. -/
structure Engine.Backed (e : Engine) (tables : List Table) : Prop where
  readers : e.sstables = tables.map Table.reader
  files : ∀ t ∈ tables, e.files.lookup t.path = some (tableBytes t.entries)
  /-- There is no other file. -/
  paths : ∀ path ∈ e.files.keys, path ∈ tables.map Table.path
  descending : tables.Pairwise fun newer older => older.seq < newer.seq
  numbered : ∀ t ∈ tables, t.seq ≤ e.sstableSeq
  /-- As long as the numbers have 16 digits, names are ordered as they are. -/
  narrow : e.sstableSeq < 10 ^ 16
  fits : ∀ layer ∈ e.memLayers, ∀ entry ∈ layer, entry.Fits

namespace Engine.Backed

variable {e : Engine} {tables : List Table}

theorem iterateAll (h : e.Backed tables) {t : Table} (ht : t ∈ tables) :
    t.reader.iterateAll e.files = .ok t.entries :=
  iterateAll_tableBytes t.written (h.files t ht)

theorem diskLayers (h : e.Backed tables) : e.diskLayers = tables.map Table.entries := by
  unfold Engine.diskLayers
  rw [h.readers]
  exact records_map h.files

theorem sorted_diskLayers (h : e.Backed tables) : ∀ layer ∈ e.diskLayers, SortedEntries layer := by
  intro layer hlayer
  rw [h.diskLayers] at hlayer
  obtain ⟨t, -, rfl⟩ := List.mem_map.mp hlayer
  exact t.written.sorted

theorem sorted_memLayers (e : Engine) : ∀ layer ∈ e.memLayers, SortedEntries layer := by
  intro layer hlayer
  rcases List.mem_cons.mp hlayer with rfl | hlayer
  · exact e.active.sorted
  · obtain ⟨m, -, rfl⟩ := Option.map_eq_some_iff.mp (Option.mem_toList.mp hlayer)
    exact m.sorted

theorem fits_diskLayers (h : e.Backed tables) :
    ∀ layer ∈ e.diskLayers, ∀ entry ∈ layer, entry.Fits := by
  intro layer hlayer
  rw [h.diskLayers] at hlayer
  obtain ⟨t, -, rfl⟩ := List.mem_map.mp hlayer
  exact t.written.fits

/-- A scan of tables that all can be read. -/
theorem readTables_map {files : Directory} {ts : List Table}
    (h : ∀ t ∈ ts, t.reader.iterateAll files = .ok t.entries) :
    readTables files (ts.map Table.reader) = .ok (ts.map Table.entries) := by
  induction ts with
  | nil => rfl
  | cons t rest ih =>
      unfold readTables at ih ⊢
      rw [List.map_cons, List.mapM_cons, h t List.mem_cons_self,
        ih fun t' ht' => h t' (List.mem_cons_of_mem _ ht')]
      rfl

theorem readTables (h : e.Backed tables) :
    readTables e.files e.sstables.reverse = .ok e.diskLayers.reverse := by
  rw [h.readers, ← List.map_reverse,
    readTables_map fun t ht => h.iterateAll (List.mem_reverse.mp ht), h.diskLayers,
    List.map_reverse]

/-- What stays when only the memtables change. -/
theorem congr (h : e.Backed tables) {e' : Engine} (hfiles : e'.files = e.files)
    (hreaders : e'.sstables = e.sstables) (hseq : e'.sstableSeq = e.sstableSeq)
    (hfits : ∀ layer ∈ e'.memLayers, ∀ entry ∈ layer, entry.Fits) : e'.Backed tables where
  readers := hreaders.trans h.readers
  files := hfiles ▸ h.files
  paths := hfiles ▸ h.paths
  descending := h.descending
  numbered := hseq ▸ h.numbered
  narrow := hseq ▸ h.narrow
  fits := hfits

end Engine.Backed

end RaftKV.Storage
