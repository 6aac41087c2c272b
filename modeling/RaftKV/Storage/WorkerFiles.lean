import RaftKV.Storage.Operations
import RaftKV.Storage.Workers

/-!
# The files behind the workers

What holds of the files in every state of the engine and its workers, whatever the order of
their steps.  Each file is written once, under a number that nobody else has, and removed by
the thread that took its table out of the list, so that

* the tables of the list are in place (`Stored`),
* a table that a flush or a compaction is about to publish is in place as well, and
* a table that a compaction has captured is as it was written, or gone.

`Paths` keeps account of the names.
-/

namespace RaftKV.Storage

/-! ## Tables in place -/

namespace SSTableReader

/-- The reader of a table with these records, whose file is in place. -/
def Reads (r : SSTableReader) (files : Directory) (records : List MemEntry) : Prop :=
  ∃ t : Table, r = t.reader ∧ t.entries = records ∧
    files.lookup t.path = some (tableBytes t.entries)

/-- The reader of a table with these records, whose file is as it was written, or gone. -/
def Intact (r : SSTableReader) (files : Directory) (records : List MemEntry) : Prop :=
  ∃ t : Table, r = t.reader ∧ t.entries = records ∧
    (files.lookup t.path = some (tableBytes t.entries) ∨ files.lookup t.path = none)

variable {r : SSTableReader} {files files' : Directory} {records : List MemEntry}

theorem Reads.congr (h : r.Reads files records)
    (hfile : files'.lookup r.path = files.lookup r.path) : r.Reads files' records := by
  obtain ⟨t, rfl, hrecords, hlookup⟩ := h
  exact ⟨t, rfl, hrecords, hfile.trans hlookup⟩

theorem Intact.congr (h : r.Intact files records)
    (hfile : files'.lookup r.path = files.lookup r.path ∨ files'.lookup r.path = none) :
    r.Intact files' records := by
  obtain ⟨t, rfl, hrecords, hlookup⟩ := h
  refine ⟨t, rfl, hrecords, ?_⟩
  rcases hfile with hfile | hfile
  · exact hlookup.imp hfile.trans hfile.trans
  · exact .inr hfile

theorem Reads.iterateAll (h : r.Reads files records) : r.iterateAll files = .ok records := by
  obtain ⟨t, rfl, rfl, hlookup⟩ := h
  exact iterateAll_tableBytes t.written hlookup

theorem Reads.records_eq (h : r.Reads files records) : r.records files = records := by
  unfold SSTableReader.records
  rw [h.iterateAll]

theorem Reads.intact (h : r.Reads files records) : r.Intact files records := by
  obtain ⟨t, hreader, hrecords, hlookup⟩ := h
  exact ⟨t, hreader, hrecords, .inl hlookup⟩

theorem Intact.table (h : r.Intact files records) : TableEntries records := by
  obtain ⟨t, -, rfl, -⟩ := h
  exact t.written

/-- If a captured table can be read, then its records are read. -/
theorem Intact.eq_of_iterateAll (h : r.Intact files records) {entries : List MemEntry}
    (hread : r.iterateAll files = .ok entries) : entries = records := by
  obtain ⟨t, rfl, rfl, hlookup | hlookup⟩ := h
  · have hentries : t.reader.iterateAll files = .ok t.entries :=
      iterateAll_tableBytes t.written hlookup
    exact Except.ok.inj (hread.symm.trans hentries)
  · unfold SSTableReader.iterateAll at hread
    have hnone : files.lookup t.reader.path = none := hlookup
    rw [hnone] at hread
    simp at hread

end SSTableReader

/-- The files of all tables of a list are in place. -/
def Stored (files : Directory) (readers : List SSTableReader) : Prop :=
  ∀ r ∈ readers, ∃ records, r.Reads files records

theorem Stored.congr {files files' : Directory} {readers : List SSTableReader}
    (h : Stored files readers)
    (hfiles : ∀ r ∈ readers, files'.lookup r.path = files.lookup r.path) :
    Stored files' readers := by
  intro r hr
  obtain ⟨records, hreads⟩ := h r hr
  exact ⟨records, hreads.congr (hfiles r hr)⟩

theorem Stored.sorted {files : Directory} {readers : List SSTableReader}
    (h : Stored files readers) :
    ∀ layer ∈ readers.map (fun r => r.records files), SortedEntries layer := by
  intro layer hlayer
  obtain ⟨r, hr, rfl⟩ := List.mem_map.mp hlayer
  obtain ⟨records, hreads⟩ := h r hr
  rw [hreads.records_eq]
  exact hreads.intact.table.sorted

/-- The file of a table that has just been written. -/
theorem reads_insert (files : Directory) (seq : ℕ) {records : List MemEntry}
    (hwritten : TableEntries records) :
    openSSTable (files.insert (fileName seq) (tableBytes records)) (fileName seq) =
        .ok (readerOf (fileName seq) records) ∧
      (readerOf (fileName seq) records).Reads
        (files.insert (fileName seq) (tableBytes records)) records := by
  have hlookup : (files.insert (fileName seq) (tableBytes records)).lookup (fileName seq) =
      some (tableBytes records) := AList.lookup_insert _
  exact ⟨openSSTable_tableBytes hwritten hlookup, ⟨seq, records, hwritten⟩, rfl, rfl, hlookup⟩

/-! ## What a thread holds -/

/-- A memtable that has something to flush. -/
structure Memtable.Filled (m : Memtable) : Prop where
  nonempty : m.entries ≠ []
  fits : ∀ entry ∈ m.entries, entry.Fits

namespace FlushPc

/-- The memtable that is being flushed. -/
def holds : FlushPc → Option Memtable
  | .idle => none
  | .rotated => none
  | .captured imm => some imm
  | .numbered imm _ => some imm
  | .written imm _ => some imm

/-- The file that is being written. -/
def pending : FlushPc → Option FileName
  | .numbered _ seq => some (fileName seq)
  | .written _ reader => some reader.path
  | _ => none

/-- What a flush holds can be published. -/
structure Ready (files : Directory) (pc : FlushPc) : Prop where
  filled : ∀ imm ∈ pc.holds, imm.Filled
  reads : ∀ imm reader, pc = .written imm reader → reader.Reads files imm.entries

theorem Ready.congr {files files' : Directory} {pc : FlushPc} (h : pc.Ready files)
    (hfiles : ∀ path ∈ pc.pending, files'.lookup path = files.lookup path) : pc.Ready files' := by
  refine ⟨h.filled, fun imm reader hpc => (h.reads imm reader hpc).congr (hfiles _ ?_)⟩
  rw [hpc]
  rfl

theorem ready_of_holds_none {files : Directory} {pc : FlushPc} (h : pc.holds = none) :
    pc.Ready files := by
  refine ⟨by simp [h], fun imm reader hpc => ?_⟩
  rw [hpc] at h
  simp [holds] at h

end FlushPc

namespace CompactPc

/-- The tables that are being merged. -/
def captured : CompactPc → List SSTableReader
  | .reading toCompact _ _ => toCompact
  | .merged toCompact _ => toCompact
  | .numbered toCompact _ _ => toCompact
  | .written toCompact _ => toCompact
  | _ => []

def pending : CompactPc → Option FileName
  | .numbered _ _ seq => some (fileName seq)
  | .written _ reader => some reader.path
  | _ => none

/-- The files that are to be removed. -/
def doomed : CompactPc → List FileName
  | .removing paths => paths
  | _ => []

/-- The part of the work that is done, for tables with these records. -/
def Progress (files : Directory) (records : SSTableReader → List MemEntry) : CompactPc → Prop
  | .reading toCompact left inputs =>
      ∃ n, left = toCompact.reverse.drop n ∧ inputs = (toCompact.reverse.take n).map records
  | .merged toCompact output => output = mergeEntries (toCompact.reverse.map records)
  | .numbered toCompact output _ => output = mergeEntries (toCompact.reverse.map records)
  | .written toCompact reader =>
      reader.Reads files (mergeEntries (toCompact.reverse.map records))
  | _ => True

/-- The captured tables are intact, and what was computed from them is right. -/
def Ready (files : Directory) (pc : CompactPc) : Prop :=
  ∃ records, (∀ r ∈ pc.captured, r.Intact files (records r)) ∧ pc.Progress files records

theorem Ready.congr {files files' : Directory} {pc : CompactPc} (h : pc.Ready files)
    (hcaptured : ∀ r ∈ pc.captured,
      files'.lookup r.path = files.lookup r.path ∨ files'.lookup r.path = none)
    (hpending : ∀ path ∈ pc.pending, files'.lookup path = files.lookup path) :
    pc.Ready files' := by
  obtain ⟨records, hintact, hprogress⟩ := h
  refine ⟨records, fun r hr => (hintact r hr).congr (hcaptured r hr), ?_⟩
  cases pc with
  | written toCompact reader =>
      have hreads : reader.Reads files (mergeEntries (toCompact.reverse.map records)) := hprogress
      exact hreads.congr (hpending _ rfl)
  | idle => exact hprogress
  | reading toCompact left inputs => exact hprogress
  | merged toCompact output => exact hprogress
  | numbered toCompact output seq => exact hprogress
  | removing paths => exact hprogress

/-- What is written has the form of a table. -/
theorem table_of_merged {files : Directory} {readers : List SSTableReader}
    {records : SSTableReader → List MemEntry}
    (h : ∀ r ∈ readers, r.Intact files (records r))
    (hlength : (tableBytes (mergeEntries (readers.reverse.map records))).length < maxInt64) :
    TableEntries (mergeEntries (readers.reverse.map records)) := by
  have htable : ∀ input ∈ readers.reverse.map records, TableEntries input := by
    intro input hinput
    obtain ⟨r, hr, rfl⟩ := List.mem_map.mp hinput
    exact (h r (List.mem_reverse.mp hr)).table
  have hsorted : ∀ input ∈ readers.reverse.map records, SortedEntries input := fun input hinput =>
    (htable input hinput).sorted
  refine ⟨sortedEntries_mergeEntries hsorted, fun entry hentry => ?_, hlength⟩
  obtain ⟨input, hinput, hentry⟩ := mem_mergeEntries hsorted hentry
  exact (htable input hinput).fits entry hentry

end CompactPc

namespace LoadPc

def flush : LoadPc → FlushPc
  | .flushing pc => pc
  | _ => .idle

def doomed : LoadPc → List FileName
  | .removing paths => paths
  | _ => []

end LoadPc

/-! ## Names -/

/-- Who flushes: the flush worker, or the loading of a snapshot. -/
inductive Flusher
  | worker
  | loader
  deriving DecidableEq

inductive Worker
  | flush (who : Flusher)
  | compactor
  deriving DecidableEq

namespace Workers

def flushOf (s : Workers) : Flusher → FlushPc
  | .worker => s.flusher
  | .loader => s.loader.flush

/-- The file that a thread is writing. -/
def pending (s : Workers) : Worker → Option FileName
  | .flush who => (s.flushOf who).pending
  | .compactor => s.compactor.pending

/-- The files of the list. -/
def live (s : Workers) : List FileName :=
  s.engine.sstables.map SSTableReader.path

def captured (s : Workers) : List FileName :=
  s.compactor.captured.map SSTableReader.path

def doomed (s : Workers) : List FileName :=
  s.compactor.doomed ++ s.loader.doomed

/-- A file that was published at some time and that a thread still knows. -/
def Kept (s : Workers) (path : FileName) : Prop :=
  path ∈ s.live ∨ path ∈ s.captured ∨ path ∈ s.doomed

/-- The names in use. -/
structure Paths (s : Workers) : Prop where
  narrow : s.engine.sstableSeq < 10 ^ 16
  /-- Every name in use has a number that was taken. -/
  old : ∀ path, s.Kept path ∨ (∃ who, s.pending who = some path) →
    ∃ n ≤ s.engine.sstableSeq, path = fileName n
  /-- No two threads write one file. -/
  distinct : ∀ who who' path, s.pending who = some path → s.pending who' = some path → who = who'
  /-- A file that is being written was never published. -/
  apart : ∀ who path, s.pending who = some path → ¬ s.Kept path
  /-- No table of the list is about to be removed. -/
  kept : ∀ path ∈ s.doomed, path ∉ s.live

variable {s s' : Workers}

/-- A step that takes no number: files are published or given up. -/
theorem Paths.move (h : s.Paths) (hseq : s'.engine.sstableSeq = s.engine.sstableSeq)
    (hpending : ∀ who path, s'.pending who = some path → s.pending who = some path)
    (hkept : ∀ path, s'.Kept path →
      s.Kept path ∨ ∃ who, s.pending who = some path ∧ s'.pending who = none)
    (hdoomed : ∀ path ∈ s'.doomed, path ∉ s'.live) : s'.Paths where
  narrow := hseq ▸ h.narrow
  old path hpath := by
    rw [hseq]
    refine h.old path ?_
    rcases hpath with hpath | ⟨who, hwho⟩
    · rcases hkept path hpath with hpath | ⟨who, hwho, -⟩
      · exact .inl hpath
      · exact .inr ⟨who, hwho⟩
    · exact .inr ⟨who, hpending who path hwho⟩
  distinct who who' path hwho hwho' :=
    h.distinct who who' path (hpending who path hwho) (hpending who' path hwho')
  apart who path hwho hpath := by
    rcases hkept path hpath with hpath | ⟨who', hwho', hnone⟩
    · exact h.apart who path (hpending who path hwho) hpath
    · obtain rfl := h.distinct who who' path (hpending who path hwho) hwho'
      rw [hwho] at hnone
      simp at hnone
  kept := hdoomed

/-- A name with the next number is not in use. -/
theorem Paths.fresh (h : s.Paths) (hnext : s.engine.nextSeq < 10 ^ 16) :
    ¬ s.Kept (fileName s.engine.nextSeq) ∧
      ∀ who, s.pending who ≠ some (fileName s.engine.nextSeq) := by
  have hnew : ∀ n ≤ s.engine.sstableSeq, fileName s.engine.nextSeq ≠ fileName n := by
    intro n hn
    refine (fileName_ne hnext ?_).symm
    rw [Engine.nextSeq_of_lt h.narrow]
    omega
  constructor
  · intro hkept
    obtain ⟨n, hn, heq⟩ := h.old _ (.inl hkept)
    exact hnew n hn heq
  · intro who hwho
    obtain ⟨n, hn, heq⟩ := h.old _ (.inr ⟨who, hwho⟩)
    exact hnew n hn heq

/-- A thread takes a number. -/
theorem Paths.number (h : s.Paths) (who : Worker) (hnext : s.engine.nextSeq < 10 ^ 16)
    (hseq : s'.engine.sstableSeq = s.engine.nextSeq)
    (hwho : s'.pending who = some (fileName s.engine.nextSeq))
    (hothers : ∀ who' ≠ who, s'.pending who' = s.pending who')
    (hkept : ∀ path, s'.Kept path → s.Kept path)
    (hdoomed : ∀ path ∈ s'.doomed, path ∉ s'.live) : s'.Paths := by
  obtain ⟨hnotKept, hnotPending⟩ := h.fresh hnext
  have hle : s.engine.sstableSeq ≤ s.engine.nextSeq := by
    rw [Engine.nextSeq_of_lt h.narrow]
    omega
  have hpending : ∀ who' path, s'.pending who' = some path →
      (who' = who ∧ path = fileName s.engine.nextSeq) ∨ s.pending who' = some path := by
    intro who' path hwho'
    by_cases heq : who' = who
    · subst heq
      rw [hwho, Option.some.injEq] at hwho'
      exact .inl ⟨rfl, hwho'.symm⟩
    · exact .inr (hothers who' heq ▸ hwho')
  refine ⟨hseq ▸ hnext, ?_, ?_, ?_, hdoomed⟩
  · intro path hpath
    rw [hseq]
    rcases hpath with hpath | ⟨who', hwho'⟩
    · obtain ⟨n, hn, heq⟩ := h.old path (.inl (hkept path hpath))
      exact ⟨n, hn.trans hle, heq⟩
    · rcases hpending who' path hwho' with ⟨-, rfl⟩ | hold
      · exact ⟨_, le_rfl, rfl⟩
      · obtain ⟨n, hn, heq⟩ := h.old path (.inr ⟨who', hold⟩)
        exact ⟨n, hn.trans hle, heq⟩
  · intro who₁ who₂ path h₁ h₂
    rcases hpending who₁ path h₁ with ⟨rfl, rfl⟩ | hold₁
    · rcases hpending who₂ _ h₂ with ⟨rfl, -⟩ | hold₂
      · rfl
      · exact absurd hold₂ (hnotPending who₂)
    · rcases hpending who₂ path h₂ with ⟨rfl, rfl⟩ | hold₂
      · exact absurd hold₁ (hnotPending who₁)
      · exact h.distinct who₁ who₂ path hold₁ hold₂
  · intro who' path hwho' hpath
    rcases hpending who' path hwho' with ⟨-, rfl⟩ | hold
    · exact hnotKept (hkept _ hpath)
    · exact h.apart who' path hold (hkept path hpath)

/-! ## The invariant -/

structure Sound (s : Workers) : Prop where
  paths : s.Paths
  tables : Stored s.engine.files s.engine.sstables
  flush : ∀ who, (s.flushOf who).Ready s.engine.files
  compactor : s.compactor.Ready s.engine.files
  fits : ∀ layer ∈ s.engine.memLayers, ∀ entry ∈ layer, entry.Fits

/-- The names after a step that only moves on. -/
theorem Paths.same (h : s.Paths) (hseq : s'.engine.sstableSeq = s.engine.sstableSeq)
    (hpending : ∀ who path, s'.pending who = some path → s.pending who = some path)
    (hlive : s'.live = s.live) (hcaptured : ∀ path ∈ s'.captured, s.Kept path)
    (hdoomed : ∀ path ∈ s'.doomed, path ∈ s.doomed) : s'.Paths := by
  refine h.move hseq hpending (fun path hpath => .inl ?_) fun path hpath => ?_
  · rcases hpath with hpath | hpath | hpath
    · exact .inl (hlive ▸ hpath)
    · exact hcaptured path hpath
    · exact .inr (.inr (hdoomed path hpath))
  · rw [hlive]
    exact h.kept path (hdoomed path hpath)

/-- A file is written by the thread that has its name. -/
theorem Sound.lookup_insert (h : s.Sound) {who : Worker} {path : FileName}
    (hwho : s.pending who = some path) (bs : Bytes) :
    (∀ r ∈ s.engine.sstables,
        (s.engine.files.insert path bs).lookup r.path = s.engine.files.lookup r.path) ∧
      (∀ r ∈ s.compactor.captured,
        (s.engine.files.insert path bs).lookup r.path = s.engine.files.lookup r.path) ∧
      ∀ who' ≠ who, ∀ path' ∈ s.pending who',
        (s.engine.files.insert path bs).lookup path' = s.engine.files.lookup path' := by
  have hapart := h.paths.apart who path hwho
  refine ⟨fun r hr => ?_, fun r hr => ?_, fun who' hne path' hpath' => ?_⟩
  · refine AList.lookup_insert_ne fun heq => hapart (.inl ?_)
    exact heq ▸ List.mem_map_of_mem hr
  · refine AList.lookup_insert_ne fun heq => hapart (.inr (.inl ?_))
    exact heq ▸ List.mem_map_of_mem hr
  · refine AList.lookup_insert_ne fun heq => hne ?_
    exact h.paths.distinct who' who path' hpath' (heq ▸ hwho)

/-- A file is removed that is not in the list. -/
theorem Sound.lookup_erase (h : s.Sound) {path : FileName} (hdoomed : path ∈ s.doomed) :
    (∀ r ∈ s.engine.sstables,
        (s.engine.files.erase path).lookup r.path = s.engine.files.lookup r.path) ∧
      (∀ r ∈ s.compactor.captured,
        (s.engine.files.erase path).lookup r.path = s.engine.files.lookup r.path ∨
          (s.engine.files.erase path).lookup r.path = none) ∧
      ∀ who, ∀ path' ∈ s.pending who,
        (s.engine.files.erase path).lookup path' = s.engine.files.lookup path' := by
  refine ⟨fun r hr => ?_, fun r _ => ?_, fun who path' hpath' => ?_⟩
  · refine AList.lookup_erase_ne fun heq => h.paths.kept path hdoomed ?_
    exact heq ▸ List.mem_map_of_mem hr
  · by_cases heq : r.path = path
    · rw [heq]
      exact .inr (AList.lookup_erase _ _)
    · exact .inl (AList.lookup_erase_ne heq)
  · refine AList.lookup_erase_ne fun heq => h.paths.apart who path' hpath' ?_
    exact .inr (.inr (heq ▸ hdoomed))

/-- A step that leaves the disk and the list as they are. -/
theorem Sound.of_memory (h : s.Sound) (hfiles : s'.engine.files = s.engine.files)
    (hsstables : s'.engine.sstables = s.engine.sstables)
    (hseq : s'.engine.sstableSeq = s.engine.sstableSeq) (hcompactor : s'.compactor = s.compactor)
    (hdoomed : ∀ path ∈ s'.loader.doomed, path ∈ s.loader.doomed)
    (hflush : ∀ who, s'.flushOf who = s.flushOf who ∨
      (s'.flushOf who).pending = none ∧ (s'.flushOf who).Ready s.engine.files)
    (hfits : ∀ layer ∈ s'.engine.memLayers, ∀ entry ∈ layer, entry.Fits) : s'.Sound := by
  have hpending : ∀ who path, s'.pending who = some path → s.pending who = some path := by
    intro who path hpath
    cases who with
    | compactor => exact (congrArg CompactPc.pending hcompactor).symm.trans hpath
    | flush who =>
        rcases hflush who with heq | ⟨hnone, -⟩
        · exact (congrArg FlushPc.pending heq).symm.trans hpath
        · exact absurd (hnone.symm.trans hpath) (by simp)
  have hpaths : s'.Paths := by
    refine h.paths.same hseq hpending (by rw [live, live, hsstables]) ?_ ?_
    · intro path hpath
      rw [captured, hcompactor] at hpath
      exact .inr (.inl hpath)
    · intro path hpath
      rw [doomed, hcompactor] at hpath
      exact List.mem_append.mpr ((List.mem_append.mp hpath).imp_right (hdoomed path))
  refine ⟨hpaths, ?_, fun who => ?_, ?_, hfits⟩
  · rw [hfiles, hsstables]
    exact h.tables
  · rw [hfiles]
    rcases hflush who with heq | ⟨-, hready⟩
    · exact heq ▸ h.flush who
    · exact hready
  · rw [hfiles, hcompactor]
    exact h.compactor

/-! ## Flushing -/

/-- One thread takes a step of `doFlush`. -/
structure FlushMove (s s' : Workers) (who : Flusher) : Prop where
  engine : s'.engine = (s.engine.flushStep (s.flushOf who)).1
  moved : s'.flushOf who = (s.engine.flushStep (s.flushOf who)).2
  other : ∀ who' ≠ who, s'.flushOf who' = s.flushOf who'
  compactor : s'.compactor = s.compactor
  doomed : s'.loader.doomed = s.loader.doomed

namespace FlushMove

variable {who : Flusher}

theorem captured_eq (h : FlushMove s s' who) : s'.captured = s.captured := by
  rw [captured, captured, h.compactor]

theorem doomed_eq (h : FlushMove s s' who) : s'.doomed = s.doomed := by
  rw [Workers.doomed, Workers.doomed, h.compactor, h.doomed]

theorem pending_other (h : FlushMove s s' who) :
    ∀ who' ≠ Worker.flush who, s'.pending who' = s.pending who' := by
  intro who' hne
  cases who' with
  | compactor => rw [pending, pending, h.compactor]
  | flush other =>
      have hother : other ≠ who := fun heq => hne (heq ▸ rfl)
      rw [pending, pending, h.other other hother]

theorem pending_of_subset (h : FlushMove s s' who)
    (hpending : ∀ path, s'.pending (.flush who) = some path →
      s.pending (.flush who) = some path) :
    ∀ who' path, s'.pending who' = some path → s.pending who' = some path := by
  intro who' path hpath
  by_cases hwho : who' = .flush who
  · subst hwho
    exact hpending path hpath
  · rw [← h.pending_other who' hwho]
    exact hpath

/-- Every other flush is as it was, on files that agree on what it writes. -/
theorem flush_ready (h : FlushMove s s' who) (hs : s.Sound) {files : Directory}
    (hfiles : ∀ who' ≠ Worker.flush who, ∀ path ∈ s.pending who',
      files.lookup path = s.engine.files.lookup path)
    (hready : (s'.flushOf who).Ready files) : ∀ who', (s'.flushOf who').Ready files := by
  intro who'
  by_cases hwho : who' = who
  · subst hwho
    exact hready
  · rw [h.other who' hwho]
    refine (hs.flush who').congr (hfiles (.flush who') ?_)
    intro heq
    exact hwho (Worker.flush.inj heq)

/-- Nothing changes but the place of the thread. -/
theorem sound_of_same (h : FlushMove s s' who) (hs : s.Sound) (hengine : s'.engine = s.engine)
    (hpending : s'.pending (.flush who) = none)
    (hready : (s'.flushOf who).Ready s.engine.files) : s'.Sound := by
  refine hs.of_memory (by rw [hengine]) (by rw [hengine]) (by rw [hengine]) h.compactor
    (fun path hpath => h.doomed ▸ hpath) (fun who' => ?_) (by rw [hengine]; exact hs.fits)
  by_cases hwho : who' = who
  · subst hwho
    exact .inr ⟨hpending, hready⟩
  · exact .inl (h.other who' hwho)

/-- A flush reads the immutable memtable. -/
theorem sound_rotated (h : FlushMove s s' who) (hs : s.Sound)
    (hpc : s.flushOf who = .rotated) : s'.Sound := by
  have hengine := h.engine
  have hmoved := h.moved
  rw [hpc] at hengine hmoved
  unfold Engine.flushStep at hengine hmoved
  simp only at hengine hmoved
  split at hmoved
  · next hnone =>
      simp only [hnone] at hengine
      refine h.sound_of_same hs hengine (by rw [pending, hmoved]; rfl) ?_
      rw [hmoved]
      exact FlushPc.ready_of_holds_none rfl
  · next imm himm =>
      simp only [himm] at hengine
      split at hmoved
      · next hzero =>
          rw [if_pos hzero] at hengine
          refine h.sound_of_same hs hengine (by rw [pending, hmoved]; rfl) ?_
          rw [hmoved]
          exact FlushPc.ready_of_holds_none rfl
      · next hsize =>
          rw [if_neg hsize] at hengine
          refine h.sound_of_same hs hengine (by rw [pending, hmoved]; rfl) ?_
          rw [hmoved]
          refine ⟨fun imm' himm' => ?_, by simp⟩
          obtain rfl : imm = imm' := by simpa [FlushPc.holds] using himm'
          refine ⟨mt imm.size_eq_zero.mpr hsize, hs.fits imm.entries ?_⟩
          simp [Engine.memLayers, himm]

/-- A flush takes a number. -/
theorem sound_captured (h : FlushMove s s' who) (hs : s.Sound) {imm : Memtable}
    (hpc : s.flushOf who = .captured imm) (hw : s'.engine.Writable) : s'.Sound := by
  have hengine := h.engine
  have hmoved := h.moved
  rw [hpc] at hengine hmoved
  simp only [Engine.flushStep] at hengine hmoved
  have hfilled := (hs.flush who).filled imm (by rw [hpc]; rfl)
  have hseq : s'.engine.sstableSeq = s.engine.nextSeq := by rw [hengine]
  have hlive : s'.live = s.live := by rw [live, hengine, live]
  have hpaths : s'.Paths := by
    refine hs.paths.number (.flush who) (hseq ▸ hw.2) hseq (by rw [pending, hmoved]; rfl)
      h.pending_other ?_ ?_
    · intro path hpath
      rwa [Kept, hlive, h.captured_eq, h.doomed_eq] at hpath
    · rw [h.doomed_eq, hlive]
      exact hs.paths.kept
  refine ⟨hpaths, ?_, ?_, ?_, ?_⟩
  · rw [hengine]
    exact hs.tables
  · rw [hengine]
    refine h.flush_ready hs (fun _ _ _ _ => rfl) ?_
    rw [hmoved]
    exact ⟨by simpa [FlushPc.holds] using hfilled, by simp⟩
  · rw [hengine, h.compactor]
    exact hs.compactor
  · rw [hengine]
    exact hs.fits

/-- A flush writes its file. -/
theorem sound_numbered (h : FlushMove s s' who) (hs : s.Sound) {imm : Memtable} {seq : ℕ}
    (hpc : s.flushOf who = .numbered imm seq) (hw : s'.engine.Writable) : s'.Sound := by
  have hengine := h.engine
  have hmoved := h.moved
  rw [hpc] at hengine hmoved
  simp only [Engine.flushStep] at hengine hmoved
  have hfilled := (hs.flush who).filled imm (by rw [hpc]; rfl)
  have hpending : s.pending (.flush who) = some (fileName seq) := by rw [pending, hpc]; rfl
  have hfiles : s'.engine.files =
      s.engine.files.insert (fileName seq) (tableBytes imm.entries) := by
    rw [hengine]
    split <;> rfl
  have hwritten : TableEntries imm.entries :=
    ⟨imm.sorted, hfilled.fits, hw.length_lt (hfiles ▸ AList.lookup_insert _)⟩
  obtain ⟨hopen, hreads⟩ := reads_insert s.engine.files seq hwritten
  have hsnapshot : imm.snapshot = imm.entries := rfl
  rw [hsnapshot, hopen] at hengine hmoved
  simp only at hengine hmoved
  obtain ⟨hlive, hcaptured, hothers⟩ := hs.lookup_insert hpending (tableBytes imm.entries)
  have hpaths : s'.Paths := by
    refine hs.paths.same (by rw [hengine]) (h.pending_of_subset ?_) (by rw [live, hengine, live])
      ?_ ?_
    · intro path hpath
      rw [pending, hmoved] at hpath
      rw [hpending]
      exact hpath
    · intro path hpath
      exact .inr (.inl (h.captured_eq ▸ hpath))
    · intro path hpath
      exact h.doomed_eq ▸ hpath
  refine ⟨hpaths, ?_, ?_, ?_, ?_⟩
  · rw [hengine]
    exact hs.tables.congr hlive
  · rw [hengine]
    refine h.flush_ready hs hothers ?_
    rw [hmoved]
    refine ⟨by simpa [FlushPc.holds] using hfilled, fun imm' reader heq => ?_⟩
    obtain ⟨rfl, rfl⟩ := FlushPc.written.inj heq
    exact hreads
  · rw [hengine, h.compactor]
    exact hs.compactor.congr (fun r hr => .inl (hcaptured r hr)) (hothers .compactor (by simp))
  · rw [hengine]
    exact hs.fits

/-- A flush publishes its table. -/
theorem sound_written (h : FlushMove s s' who) (hs : s.Sound) {imm : Memtable}
    {reader : SSTableReader} (hpc : s.flushOf who = .written imm reader) : s'.Sound := by
  have hengine := h.engine
  have hmoved := h.moved
  rw [hpc] at hengine hmoved
  simp only [Engine.flushStep] at hengine hmoved
  have hpending : s.pending (.flush who) = some reader.path := by rw [pending, hpc]; rfl
  have hnone : s'.pending (.flush who) = none := by rw [pending, hmoved]; rfl
  have hlive : s'.live = reader.path :: s.live := by rw [live, hengine, live]; rfl
  have hpaths : s'.Paths := by
    refine hs.paths.move (by rw [hengine]) (h.pending_of_subset (by simp [hnone])) ?_ ?_
    · intro path hpath
      rw [Kept, hlive, h.captured_eq, h.doomed_eq] at hpath
      rcases hpath with hpath | hpath | hpath
      · rcases List.mem_cons.mp hpath with rfl | hpath
        · exact .inr ⟨.flush who, hpending, hnone⟩
        · exact .inl (.inl hpath)
      · exact .inl (.inr (.inl hpath))
      · exact .inl (.inr (.inr hpath))
    · intro path hpath hmem
      rw [h.doomed_eq] at hpath
      rw [hlive] at hmem
      rcases List.mem_cons.mp hmem with rfl | hmem
      · exact hs.paths.apart _ _ hpending (.inr (.inr hpath))
      · exact hs.paths.kept path hpath hmem
  refine ⟨hpaths, ?_, ?_, ?_, ?_⟩
  · rw [hengine]
    intro r hr
    rcases List.mem_cons.mp hr with rfl | hr
    · exact ⟨imm.entries, (hs.flush who).reads imm r hpc⟩
    · exact hs.tables r hr
  · rw [hengine]
    refine h.flush_ready hs (fun _ _ _ _ => rfl) ?_
    rw [hmoved]
    exact FlushPc.ready_of_holds_none rfl
  · rw [hengine, h.compactor]
    exact hs.compactor
  · rw [hengine]
    intro layer hlayer
    refine hs.fits layer ?_
    simp only [Engine.memLayers] at hlayer ⊢
    simp_all

theorem sound (h : FlushMove s s' who) (hs : s.Sound) (hw : s'.engine.Writable) : s'.Sound := by
  cases hpc : s.flushOf who with
  | idle =>
      have hengine := h.engine
      have hmoved := h.moved
      rw [hpc] at hengine hmoved
      refine h.sound_of_same hs hengine (by rw [pending, hmoved]; rfl) ?_
      rw [hmoved]
      exact FlushPc.ready_of_holds_none rfl
  | rotated => exact h.sound_rotated hs hpc
  | captured imm => exact h.sound_captured hs hpc hw
  | numbered imm seq => exact h.sound_numbered hs hpc hw
  | written imm reader => exact h.sound_written hs hpc

end FlushMove

/-! ## Compacting -/

section Compacting

variable {e : Engine} {pc : CompactPc}

theorem flushOf_compact (s : Workers) (who : Flusher) :
    flushOf { s with engine := e, compactor := pc } who = s.flushOf who := by
  cases who <;> rfl

theorem pending_compact (s : Workers) (who : Flusher) :
    pending { s with engine := e, compactor := pc } (.flush who) = s.pending (.flush who) :=
  congrArg FlushPc.pending (flushOf_compact s who)

/-- A step of the compaction worker that leaves the memtables alone. -/
theorem Sound.compact (h : s.Sound) (hpaths : { s with engine := e, compactor := pc }.Paths)
    (htables : Stored e.files e.sstables)
    (hfiles : ∀ who, ∀ path ∈ s.pending (.flush who),
      e.files.lookup path = s.engine.files.lookup path)
    (hready : pc.Ready e.files) (hmem : e.memLayers = s.engine.memLayers) :
    { s with engine := e, compactor := pc }.Sound := by
  refine ⟨hpaths, htables, fun who => ?_, hready, hmem ▸ h.fits⟩
  rw [flushOf_compact]
  exact (h.flush who).congr (hfiles who)

/-- A step of the compaction worker that only reads. -/
theorem Sound.compact_read (h : s.Sound) (hpending : pc.pending = none)
    (hcaptured : ∀ path ∈ pc.captured.map SSTableReader.path, s.Kept path)
    (hdoomed : pc.doomed = []) (hready : pc.Ready s.engine.files) :
    { s with compactor := pc }.Sound := by
  refine h.compact (e := s.engine) ?_ h.tables (fun _ _ _ => rfl) hready rfl
  refine h.paths.same rfl ?_ rfl hcaptured ?_
  · intro who path hpath
    cases who with
    | compactor => exact absurd (hpending.symm.trans hpath) (by simp)
    | flush who => exact pending_compact s who ▸ hpath
  · intro path hpath
    rw [doomed, hdoomed] at hpath
    exact List.mem_append_right _ hpath

/-- The compaction worker gives up, or is done. -/
theorem Sound.compact_idle (h : s.Sound) : { s with compactor := .idle }.Sound :=
  h.compact_read rfl (by simp [CompactPc.captured]) rfl ⟨fun _ => [], by simp [CompactPc.captured],
    trivial⟩

/-- The list is captured. -/
theorem Sound.compact_capture (h : s.Sound) :
    { s with compactor := .reading s.engine.sstables s.engine.sstables.reverse [] }.Sound := by
  refine h.compact_read rfl (fun path hpath => .inl hpath) rfl
    ⟨fun r => r.records s.engine.files, fun r hr => ?_, 0, rfl, rfl⟩
  obtain ⟨records, hreads⟩ := h.tables r hr
  change r.Intact _ (r.records _)
  rw [hreads.records_eq]
  exact hreads.intact

/-- One captured table is read. -/
theorem Sound.compact_iterate (h : s.Sound) {all left : List SSTableReader} {r : SSTableReader}
    {inputs : List (List MemEntry)} {entries : List MemEntry}
    (hpc : s.compactor = .reading all (r :: left) inputs)
    (hread : r.iterateAll s.engine.files = .ok entries) :
    { s with compactor := .reading all left (inputs ++ [entries]) }.Sound := by
  obtain ⟨records, hintact, hprogress⟩ := h.compactor
  rw [hpc] at hintact hprogress
  obtain ⟨n, hleft, rfl⟩ := hprogress
  have hr : r ∈ all.reverse := List.mem_of_mem_drop (hleft ▸ List.mem_cons_self)
  have hentries := (hintact r (List.mem_reverse.mp hr)).eq_of_iterateAll hread
  refine h.compact_read rfl (fun path hpath => .inr (.inl ?_)) rfl
    ⟨records, hintact, n + 1, ?_, ?_⟩
  · rw [captured, hpc]
    exact hpath
  · rw [List.drop_add_one_eq_tail_drop, ← hleft]
    rfl
  · have hget : all.reverse[n]? = some r := by
      rw [← List.head?_drop, ← hleft]
      rfl
    rw [List.take_add_one, hget, List.map_append, hentries]
    rfl

/-- All captured tables are read, and merged. -/
theorem Sound.compact_merge (h : s.Sound) {all : List SSTableReader}
    {inputs : List (List MemEntry)} (hpc : s.compactor = .reading all [] inputs) :
    { s with compactor := .merged all (mergeEntries inputs) }.Sound := by
  obtain ⟨records, hintact, hprogress⟩ := h.compactor
  rw [hpc] at hintact hprogress
  obtain ⟨n, hleft, rfl⟩ := hprogress
  refine h.compact_read rfl (fun path hpath => .inr (.inl ?_)) rfl ⟨records, hintact, ?_⟩
  · rw [captured, hpc]
    exact hpath
  · have hall : all.reverse.take n = all.reverse :=
      List.take_of_length_le (List.drop_eq_nil_iff.mp hleft.symm)
    rw [hall]
    rfl

/-- The compaction takes a number. -/
theorem Sound.compact_number (h : s.Sound) {all : List SSTableReader} {records : List MemEntry}
    (hpc : s.compactor = .merged all records) (hnext : s.engine.nextSeq < 10 ^ 16) :
    { s with
      engine := { s.engine with sstableSeq := s.engine.nextSeq }
      compactor := .numbered all records s.engine.nextSeq }.Sound := by
  have hready := h.compactor
  rw [hpc] at hready
  refine h.compact ?_ h.tables (fun _ _ _ => rfl) hready rfl
  refine h.paths.number .compactor hnext rfl rfl ?_ ?_ ?_
  · intro who hne
    cases who with
    | compactor => exact absurd rfl hne
    | flush who => exact pending_compact s who
  · intro path hpath
    rw [Kept, captured, doomed, hpc]
    exact hpath
  · intro path hpath
    refine h.paths.kept path ?_
    rw [doomed, hpc]
    exact hpath

/-- The merged table is written. -/
theorem Sound.compact_write (h : s.Sound) {all : List SSTableReader} {records : List MemEntry}
    {seq : ℕ} (hpc : s.compactor = .numbered all records seq)
    (hlength : (tableBytes records).length < maxInt64) :
    openSSTable (s.engine.files.insert (fileName seq) (tableBytes records)) (fileName seq) =
        .ok (readerOf (fileName seq) records) ∧
      { s with
        engine := { s.engine with
          files := s.engine.files.insert (fileName seq) (tableBytes records) }
        compactor := .written all (readerOf (fileName seq) records) }.Sound := by
  obtain ⟨ρ, hintact, hprogress⟩ := h.compactor
  rw [hpc] at hintact hprogress
  have hrecords : records = mergeEntries (all.reverse.map ρ) := hprogress
  have hwritten : TableEntries records := by
    rw [hrecords] at hlength ⊢
    exact CompactPc.table_of_merged hintact hlength
  obtain ⟨hopen, hreads⟩ := reads_insert s.engine.files seq hwritten
  have hpending : s.pending .compactor = some (fileName seq) := by
    rw [pending, hpc]
    rfl
  obtain ⟨hlive, hcaptured, hothers⟩ := h.lookup_insert hpending (tableBytes records)
  rw [hpc] at hcaptured
  refine ⟨hopen, h.compact ?_ (h.tables.congr hlive) (fun who => hothers _ (by simp)) ?_ rfl⟩
  · refine h.paths.same rfl ?_ rfl ?_ ?_
    · intro who path hpath
      cases who with
      | compactor => exact hpending.trans hpath
      | flush who => exact pending_compact s who ▸ hpath
    · intro path hpath
      rw [Kept, captured, hpc]
      exact .inr (.inl hpath)
    · intro path hpath
      rw [doomed, hpc]
      exact hpath
  · refine ⟨ρ, fun r hr => (hintact r hr).congr (.inl (hcaptured r hr)), ?_⟩
    rw [hrecords] at hreads ⊢
    exact hreads

/-- The merged table is published: it is the only one of the list. -/
theorem Sound.compact_publish (h : s.Sound) {all : List SSTableReader} {reader : SSTableReader}
    (hpc : s.compactor = .written all reader) :
    { s with
      engine := { s.engine with sstables := [reader] }
      compactor := .removing (all.map SSTableReader.path) }.Sound := by
  obtain ⟨ρ, -, hprogress⟩ := h.compactor
  rw [hpc] at hprogress
  have hpending : s.pending .compactor = some reader.path := by
    rw [pending, hpc]
    rfl
  have hapart := h.paths.apart _ _ hpending
  have hdoomed : ∀ path ∈ all.map SSTableReader.path ++ s.loader.doomed, s.Kept path := by
    intro path hpath
    rw [Kept, captured, doomed, hpc]
    rcases List.mem_append.mp hpath with hpath | hpath
    · exact .inr (.inl hpath)
    · exact .inr (.inr hpath)
  refine h.compact ?_ ?_ (fun _ _ _ => rfl) ⟨ρ, by simp [CompactPc.captured], trivial⟩ rfl
  · refine h.paths.move rfl ?_ ?_ ?_
    · intro who path hpath
      cases who with
      | compactor => exact absurd hpath (by simp [pending, CompactPc.pending])
      | flush who => exact pending_compact s who ▸ hpath
    · intro path hpath
      rcases hpath with hpath | hpath | hpath
      · rw [live, List.map_singleton, List.mem_singleton] at hpath
        exact .inr ⟨.compactor, hpath ▸ hpending, rfl⟩
      · simp [captured, CompactPc.captured] at hpath
      · exact .inl (hdoomed path hpath)
    · intro path hpath hlive
      rw [live, List.map_singleton, List.mem_singleton] at hlive
      exact hapart (hlive ▸ hdoomed path hpath)
  · intro r hr
    rw [List.mem_singleton.mp hr]
    exact ⟨_, hprogress⟩

/-- An old file is removed. -/
theorem Sound.compact_remove (h : s.Sound) {path : FileName} {paths : List FileName}
    (hpc : s.compactor = .removing (path :: paths)) :
    { s with
      engine := { s.engine with files := s.engine.files.erase path }
      compactor := .removing paths }.Sound := by
  have hdoomed : path ∈ s.doomed := by
    rw [doomed, hpc]
    exact List.mem_append_left _ List.mem_cons_self
  obtain ⟨hlive, -, hpending⟩ := h.lookup_erase hdoomed
  refine h.compact ?_ (h.tables.congr hlive) (fun who => hpending _)
    ⟨fun _ => [], by simp [CompactPc.captured], trivial⟩ rfl
  refine h.paths.same rfl ?_ rfl (by simp [captured, CompactPc.captured]) ?_
  · intro who path' hpath
    cases who with
    | compactor => exact absurd hpath (by simp [pending, CompactPc.pending])
    | flush who => exact pending_compact s who ▸ hpath
  · intro path' hpath
    rw [doomed, hpc]
    exact List.mem_append.mpr ((List.mem_append.mp hpath).imp_left (List.mem_cons_of_mem _))

/-- Every step of the compaction worker. -/
theorem Sound.step_compactor (h : s.Sound) (hw : (s.step .compactor).engine.Writable) :
    (s.step .compactor).Sound := by
  unfold step at hw ⊢
  cases hpc : s.compactor with
  | idle =>
      simp only [Engine.compactStep]
      split
      · exact h.compact_idle
      · exact h.compact_capture
  | reading all left inputs =>
      cases left with
      | nil => exact h.compact_merge hpc
      | cons r left =>
          simp only [Engine.compactStep]
          split
          · exact h.compact_idle
          · next entries hread => exact h.compact_iterate hpc hread
  | merged all records =>
      simp only [hpc, Engine.compactStep] at hw
      exact h.compact_number hpc hw.2
  | numbered all records seq =>
      have hfile : ((s.engine.compactStep s.compactor).1.files).lookup (fileName seq) =
          some (tableBytes records) := by
        simp only [hpc, Engine.compactStep]
        split <;> exact AList.lookup_insert _
      obtain ⟨hopen, hsound⟩ := h.compact_write hpc (hw.length_lt hfile)
      simp only [Engine.compactStep, hopen]
      exact hsound
  | written all reader => exact h.compact_publish hpc
  | removing paths =>
      cases paths with
      | nil => exact h.compact_idle
      | cons path paths => exact h.compact_remove hpc

end Compacting

/-! ## Every step -/

theorem fits_rotate (h : s.Sound) :
    ∀ layer ∈ s.engine.rotate.memLayers, ∀ entry ∈ layer, entry.Fits := by
  intro layer hlayer entry hentry
  simp only [Engine.memLayers, Engine.rotate, Option.map_some, Option.toList_some,
    List.mem_cons, List.not_mem_nil, or_false] at hlayer
  rcases hlayer with rfl | rfl
  · simp [Memtable.new] at hentry
  · exact h.fits _ List.mem_cons_self entry hentry

theorem flushStep_rotated (e : Engine) : (e.flushStep .rotated).1 = e := by
  unfold Engine.flushStep
  simp only
  split
  · rfl
  · split <;> rfl

/-- The flush worker goes on with its flush. -/
theorem flushMove_worker (hpc : s.flusher ≠ .idle) : FlushMove s (s.step .flusher) .worker := by
  have hmove : (s.step .flusher).engine = (s.engine.flushStep s.flusher).1 ∧
      (s.step .flusher).flusher = (s.engine.flushStep s.flusher).2 ∧
      (s.step .flusher).compactor = s.compactor ∧ (s.step .flusher).loader = s.loader := by
    cases hflusher : s.flusher with
    | idle => exact absurd hflusher hpc
    | rotated => simp only [step, hflusher, flushStep_rotated, and_self]
    | captured imm => simp only [step, hflusher, and_self]
    | numbered imm seq => simp only [step, hflusher, and_self]
    | written imm reader => simp only [step, hflusher, and_self]
  obtain ⟨hengine, hflusher, hcompactor, hloader⟩ := hmove
  refine ⟨hengine, hflusher, fun who hwho => ?_, hcompactor, by rw [hloader]⟩
  cases who with
  | worker => exact absurd rfl hwho
  | loader => exact congrArg LoadPc.flush hloader

/-- The loading of a snapshot goes on with its flush. -/
theorem flushMove_loader {pc : FlushPc} (hpc : s.loader = .flushing pc) :
    FlushMove s (s.step .loader) .loader := by
  have hmove : (s.step .loader).engine = (s.engine.flushStep pc).1 ∧
      (s.step .loader).loader.flush = (s.engine.flushStep pc).2 ∧
      (s.step .loader).loader.doomed = [] := by
    simp only [step, hpc, Engine.loadStep]
    split
    · next heq => simp [heq, LoadPc.flush, LoadPc.doomed]
    · next heq => simp [heq, LoadPc.flush, LoadPc.doomed]
  obtain ⟨hengine, hflush, hdoomed⟩ := hmove
  have hflushOf : s.flushOf .loader = pc := by rw [flushOf, hpc]; rfl
  refine ⟨hflushOf ▸ hengine, hflushOf ▸ hflush, fun who hwho => ?_, rfl, ?_⟩
  · cases who with
    | worker => rfl
    | loader => exact absurd rfl hwho
  · rw [hdoomed, hpc]
    rfl

/-- Every step of the flush worker. -/
theorem Sound.step_flusher (h : s.Sound) (hw : (s.step .flusher).engine.Writable) :
    (s.step .flusher).Sound := by
  by_cases hpc : s.flusher = .idle
  · simp only [step, hpc]
    split
    · exact h
    · refine h.of_memory rfl rfl rfl rfl (fun path hpath => hpath) (fun who => ?_) (fits_rotate h)
      cases who with
      | worker => exact .inr ⟨rfl, FlushPc.ready_of_holds_none rfl⟩
      | loader => exact .inl rfl
  · exact (flushMove_worker hpc).sound h hw

/-- The old files are removed one by one. -/
theorem Sound.load_remove (h : s.Sound) {path : FileName} {paths : List FileName}
    (hpc : s.loader = .removing (path :: paths)) :
    { s with
      engine := { s.engine with files := s.engine.files.erase path }
      loader := .removing paths }.Sound := by
  have hdoomed : path ∈ s.doomed := by
    rw [doomed, hpc]
    exact List.mem_append_right _ List.mem_cons_self
  obtain ⟨hlive, hcaptured, hpending⟩ := h.lookup_erase hdoomed
  have hflush : ∀ who, flushOf { s with
      engine := { s.engine with files := s.engine.files.erase path }
      loader := .removing paths } who = s.flushOf who := by
    intro who
    cases who with
    | worker => rfl
    | loader => rw [flushOf, flushOf, hpc]; rfl
  refine ⟨?_, h.tables.congr hlive, fun who => ?_,
    h.compactor.congr hcaptured (hpending .compactor), h.fits⟩
  · refine h.paths.same rfl ?_ rfl (fun path' hpath => .inr (.inl hpath)) ?_
    · intro who path' hpath
      cases who with
      | compactor => exact hpath
      | flush who =>
          rw [pending, hflush] at hpath
          exact hpath
    · intro path' hpath
      rw [doomed, hpc]
      exact List.mem_append.mpr ((List.mem_append.mp hpath).imp_right (List.mem_cons_of_mem _))
  · rw [hflush]
    exact (h.flush who).congr (hpending (.flush who))

/-- Every step of `LoadSnapshot` once the state is replaced. -/
theorem Sound.step_loader (h : s.Sound) (hw : (s.step .loader).engine.Writable) :
    (s.step .loader).Sound := by
  cases hpc : s.loader with
  | idle =>
      have hsame : s.step .loader = s := by
        rw [step, hpc, Engine.loadStep, ← hpc]
      rwa [hsame]
  | removing paths =>
      cases paths with
      | cons path paths =>
          simp only [step, hpc, Engine.loadStep]
          exact h.load_remove hpc
      | nil =>
          simp only [step, hpc, Engine.loadStep]
          refine h.of_memory ?_ ?_ ?_ rfl (by simp [LoadPc.doomed]) (fun who => ?_) ?_
          · split <;> rfl
          · split <;> rfl
          · split <;> rfl
          · cases who with
            | worker => exact .inl rfl
            | loader => exact .inr ⟨rfl, FlushPc.ready_of_holds_none rfl⟩
          · simp only
            split
            · exact fits_rotate h
            · exact h.fits
  | flushing pc => exact (flushMove_loader hpc).sound h hw

/-- A write changes the active memtable only. -/
theorem Sound.write (h : s.Sound) {m : Memtable} {flushCh : Bool} {expected : Store}
    (hfits : ∀ entry ∈ m.entries, entry.Fits) :
    { s with
      engine := { s.engine with active := m, flushCh := flushCh }
      expected := expected }.Sound := by
  refine h.of_memory rfl rfl rfl rfl (fun path hpath => hpath) (fun who => .inl ?_) ?_
  · cases who <;> rfl
  · intro layer hlayer
    rcases List.mem_cons.mp hlayer with rfl | hlayer
    · exact hfits
    · exact h.fits layer (List.mem_cons_of_mem _ hlayer)

/-- The state is replaced: nothing is in the list, and its files are to be removed. -/
theorem Sound.replace (h : s.Sound) (hloader : s.loader = .idle) {entries : List MemEntry}
    (hfits : ∀ entry ∈ entries, entry.Fits) {expected : Store} :
    { s with
      engine := s.engine.replaceState entries
      loader := .removing (s.engine.sstables.map SSTableReader.path)
      expected := expected
      stale := true }.Sound := by
  have hflush : ∀ who, flushOf { s with
      engine := s.engine.replaceState entries
      loader := .removing (s.engine.sstables.map SSTableReader.path)
      expected := expected
      stale := true } who = s.flushOf who := by
    intro who
    cases who with
    | worker => rfl
    | loader => rw [flushOf, flushOf, hloader]; rfl
  refine ⟨?_, by simp [Stored, Engine.replaceState], fun who => ?_, h.compactor, ?_⟩
  · refine h.paths.move rfl ?_ (fun path hpath => .inl ?_) (by simp [live, Engine.replaceState])
    · intro who path hpath
      cases who with
      | compactor => exact hpath
      | flush who =>
          rw [pending, hflush] at hpath
          exact hpath
    · rcases hpath with hpath | hpath | hpath
      · simp [live, Engine.replaceState] at hpath
      · exact .inr (.inl hpath)
      · rcases List.mem_append.mp hpath with hpath | hpath
        · exact .inr (.inr (List.mem_append_left _ hpath))
        · exact .inl hpath
  · rw [hflush]
    exact h.flush who
  · intro layer hlayer entry hentry
    rw [List.mem_singleton.mp hlayer] at hentry
    obtain ⟨entry', hentry', rfl⟩ := Engine.mem_memtableOf hentry
    exact hfits entry' hentry'

/-- What a put does, if anything. -/
theorem step_put (s : Workers) (key : Key) (value : Bytes) :
    s.step (.put key value) = s ∨ ∃ flushCh, s.loader = .idle ∧ s.step (.put key value) =
      { s with
        engine := { s.engine with active := s.engine.active.put key value, flushCh := flushCh }
        expected := s.expected.put key value } := by
  simp only [Workers.step]
  split
  · next e hloader hput =>
      unfold Engine.put at hput
      split at hput
      · simp at hput
      · rw [← Except.ok.inj hput]
        exact .inr ⟨_, hloader, rfl⟩
  · exact .inl rfl

/-- What a delete does, if anything. -/
theorem step_delete (s : Workers) (key : Key) :
    s.step (.delete key) = s ∨ ∃ flushCh, s.loader = .idle ∧ s.step (.delete key) =
      { s with
        engine := { s.engine with active := s.engine.active.delete key, flushCh := flushCh }
        expected := s.expected.delete key } := by
  simp only [Workers.step]
  split
  · next e hloader hdelete =>
      unfold Engine.delete at hdelete
      split at hdelete
      · simp at hdelete
      · rw [← Except.ok.inj hdelete]
        exact .inr ⟨s.engine.flushCh, hloader, rfl⟩
  · exact .inl rfl

/-- What the start of `LoadSnapshot` does, if anything. -/
theorem step_load (s : Workers) (data : Bytes) :
    s.step (.load data) = s ∨ ∃ entries, s.loader = .idle ∧ decodeSnapshot data = .ok entries ∧
      s.step (.load data) =
        { s with
          engine := s.engine.replaceState entries
          loader := .removing (s.engine.sstables.map SSTableReader.path)
          expected := .ofEntries entries
          stale := true } := by
  simp only [Workers.step]
  split
  · next entries hloader hdecode => exact .inr ⟨entries, hloader, hdecode, rfl⟩
  · exact .inl rfl

/-- The files are sound in every state, whatever the order of the steps. -/
theorem Sound.step (h : s.Sound) {event : WorkerEvent} (hproper : s.Proper event) :
    (s.step event).Sound := by
  obtain ⟨hfits, hw⟩ := hproper
  have hactive : ∀ entry ∈ s.engine.active.entries, entry.Fits := h.fits _ List.mem_cons_self
  cases event with
  | put key value =>
      rcases step_put s key value with heq | ⟨flushCh, -, heq⟩
      · rwa [heq]
      · rw [heq]
        refine h.write fun entry hentry => ?_
        rcases Memtable.mem_insert hentry with rfl | hold
        · exact hfits
        · exact hactive entry hold
  | delete key =>
      rcases step_delete s key with heq | ⟨flushCh, -, heq⟩
      · rwa [heq]
      · rw [heq]
        refine h.write fun entry hentry => ?_
        rcases Memtable.mem_insert hentry with rfl | hold
        · exact ⟨hfits, Nat.two_pow_pos 32⟩
        · exact hactive entry hold
  | load data =>
      rcases step_load s data with heq | ⟨entries, hloader, hdecode, heq⟩
      · rwa [heq]
      · rw [heq]
        exact h.replace hloader (fits_of_decodeSnapshot hdecode)
  | loader => exact h.step_loader hw
  | flusher => exact h.step_flusher hw
  | compactor => exact h.step_compactor hw

/-- An engine whose threads have nothing to do. -/
theorem sound_of_backed {e : Engine} {tables : List Table} (hb : e.Backed tables) :
    (resting e).Sound := by
  have hpending : ∀ who, (resting e).pending who = none := by
    intro who
    cases who with
    | compactor => rfl
    | flush who => cases who <;> rfl
  have hlive : ∀ path, (resting e).Kept path → ∃ t ∈ tables, path = t.path := by
    intro path hpath
    have hmem : path ∈ e.sstables.map SSTableReader.path := by
      rcases hpath with hpath | hpath | hpath
      · exact hpath
      · simp [captured, resting, CompactPc.captured] at hpath
      · simp [doomed, resting, CompactPc.doomed, LoadPc.doomed] at hpath
    rw [hb.readers, List.map_map] at hmem
    obtain ⟨t, ht, rfl⟩ := List.mem_map.mp hmem
    exact ⟨t, ht, rfl⟩
  refine ⟨⟨hb.narrow, ?_, ?_, ?_, ?_⟩, ?_, fun who => ?_, ?_, hb.fits⟩
  · rintro path (hpath | ⟨who, hwho⟩)
    · obtain ⟨t, ht, rfl⟩ := hlive path hpath
      exact ⟨t.seq, hb.numbered t ht, rfl⟩
    · simp [hpending] at hwho
  · intro who who' path hwho
    simp [hpending] at hwho
  · intro who path hwho
    simp [hpending] at hwho
  · simp [doomed, resting, CompactPc.doomed, LoadPc.doomed]
  · intro r hr
    rw [resting, hb.readers] at hr
    obtain ⟨t, ht, rfl⟩ := List.mem_map.mp hr
    exact ⟨t.entries, t, rfl, rfl, hb.files t ht⟩
  · refine FlushPc.ready_of_holds_none ?_
    cases who <;> rfl
  · exact ⟨fun _ => [], by simp [resting, CompactPc.captured], trivial⟩

/-- An engine at rest. -/
theorem sound_resting {e : Engine} (h : e.Sound) : (resting e).Sound := by
  obtain ⟨tables, hb⟩ := h.backed
  exact sound_of_backed hb

end Workers

end RaftKV.Storage
