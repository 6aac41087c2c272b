import RaftKV.Storage.ReadBack
import RaftKV.Storage.WorkerContents

/-!
# Reading while a compaction runs

`Get` of `storage/engine.go` step by step, next to `doCompaction`.  `Get` copies the list of
tables under the lock and then opens them one by one, by name.  A compaction that publishes
its table in between goes on to remove the files of the list that `Get` still works on, and
a table that cannot be opened is taken for one that has not the key.

The tables that lie in front of the one with the key do not matter, nor do those behind it:
the read is right as long as the file in which it will find the key is not removed before it
gets there.
-/

namespace RaftKV.Storage

/-! ## The system -/

/-- Where a call of `Get` stands. -/
inductive ReadPc
  /-- About to copy the pointers to the layers. -/
  | copying
  /-- About to open the first table that is left. -/
  | scanning (left : List SSTableReader)
  | done (result : Option Bytes)

namespace ReadPc

def isCopying : ReadPc → Bool
  | .copying => true
  | _ => false

def result : ReadPc → Option (Option Bytes)
  | .done result => some result
  | _ => none

theorem eq_done {pc : ReadPc} {result : Option Bytes} (h : pc.result = some result) :
    pc = .done result := by
  cases pc with
  | done result' => exact congrArg ReadPc.done (Option.some.inj h)
  | copying => cases h
  | scanning left => cases h

/-- The tables that are still to be opened. -/
def left : ReadPc → List SSTableReader
  | .scanning left => left
  | _ => []

end ReadPc

/-- One step of `Get`.  A file that is open can be read to its end, so that opening and
scanning a table are one step. -/
def Engine.readStep (e : Engine) (key : Key) : ReadPc → ReadPc
  | .copying =>
      match e.active.get key with
      | some value => .done (some value)
      | none =>
          match e.immutable.bind fun imm => imm.get key with
          | some value => .done (some value)
          | none => .scanning e.sstables
  | .scanning [] => .done none
  | .scanning (r :: left) =>
      -- a table whose file is gone counts as one without the key
      match r.get e.files key with
      | some entry => .done (if entry.kind = kindDelete then none else some entry.value)
      | none => .scanning left
  | .done result => .done result

/-- A full scan of the table finds a record of the key. -/
def SSTableReader.holds (r : SSTableReader) (files : Directory) (key : Key) : Bool :=
  (lookup MemEntry.key key (r.records files)).isSome

/-- The engine with its compaction worker, and a call of `Get`. -/
structure Reading where
  workers : Workers
  reader : ReadPc

inductive ReadEvent
  | compactor
  | reader
  deriving DecidableEq

namespace Reading

/-- An engine whose threads have nothing to do, and a read that has not begun. -/
def beginning (e : Engine) : Reading :=
  ⟨.resting e, .copying⟩

variable (key : Key)

def step (s : Reading) : ReadEvent → Reading
  | .compactor => { s with workers := s.workers.step .compactor }
  | .reader => { s with reader := s.workers.engine.readStep key s.reader }

/-- The disk can take what the compaction writes. -/
def Proper (s : Reading) : ReadEvent → Prop
  | .compactor => (s.workers.step .compactor).engine.Writable
  | .reader => True

/-- No table that the read is going to scan answers for the key from the bytes behind its
records. -/
def Silent (s : Reading) : ReadEvent → Prop
  | .compactor => True
  | .reader => s.reader.isCopying → s.workers.engine.SilentTables key

instance (s : Reading) : (event : ReadEvent) → Decidable (s.Proper event)
  | .compactor => inferInstanceAs (Decidable (Engine.Writable _))
  | .reader => isTrue trivial

instance (s : Reading) : (event : ReadEvent) → Decidable (s.Silent key event)
  | .compactor => isTrue trivial
  | .reader => inferInstanceAs (Decidable (_ → Engine.SilentTables _ _))

/-- The compaction removes the file in which the read is going to find the key. -/
def removesFound (s : Reading) : ReadEvent → Bool
  | .compactor =>
      match s.workers.compactor with
      | .removing (path :: _) =>
          (s.reader.left.find? fun r => r.holds s.workers.engine.files key).any
            fun r => r.path = path
      | _ => false
  | .reader => false

/-! ## A read alone -/

variable {key}

/-- What a read that is left alone goes on to return. -/
def answer (key : Key) (s : Reading) : Option Bytes :=
  match s.reader with
  | .copying => s.workers.engine.get key
  | .scanning left => Engine.getTables s.workers.engine.files key left
  | .done result => result

/-- A read that has returned stays so. -/
theorem foldl_of_done {s : Reading} {result : Option Bytes} (h : s.reader = .done result)
    (events : List ReadEvent) : (events.foldl (step key) s).reader = .done result := by
  induction events generalizing s with
  | nil => exact h
  | cons event events ih =>
      cases event with
      | compactor => exact ih (s := s.step key .compactor) h
      | reader => exact ih (s := s.step key .reader) (by simp only [step, h, Engine.readStep])

theorem foldl_scanning (w : Workers) (left : List SSTableReader) :
    ((List.replicate (left.length + 1) ReadEvent.reader).foldl (step key)
      ⟨w, .scanning left⟩).reader = .done (Engine.getTables w.engine.files key left) := by
  induction left with
  | nil => rfl
  | cons r left ih =>
      rw [List.length_cons, List.replicate_succ, List.foldl_cons]
      simp only [step, Engine.readStep, Engine.getTables]
      cases r.get w.engine.files key with
      | none => exact ih
      | some entry => exact foldl_of_done rfl _

/-- Left alone, a read returns what `Get` returns in one step. -/
theorem alone (s : Reading) :
    ∃ n, ((List.replicate n ReadEvent.reader).foldl (step key) s).reader =
      .done (s.answer key) := by
  obtain ⟨w, reader⟩ := s
  cases reader with
  | copying =>
      refine ⟨w.engine.sstables.length + 2, ?_⟩
      rw [List.replicate_succ, List.foldl_cons]
      simp only [step, Engine.readStep, answer, Engine.get]
      cases w.engine.active.get key with
      | some value => exact foldl_of_done rfl _
      | none =>
          cases w.engine.immutable.bind fun imm => imm.get key with
          | some value => exact foldl_of_done rfl _
          | none => exact foldl_scanning w _
  | scanning left => exact ⟨left.length + 1, foldl_scanning w left⟩
  | done result => exact ⟨0, rfl⟩

end Reading

/-! ## A compaction alone -/

/-- The compaction works on this list of tables. -/
def CompactPc.Over (sstables : List SSTableReader) : CompactPc → Prop
  | .reading toCompact _ _ => toCompact = sstables
  | .merged toCompact _ => toCompact = sstables
  | .numbered toCompact _ _ => toCompact = sstables
  | .written toCompact _ => toCompact = sstables
  | _ => True

theorem Engine.Quiet.trans {e e' e'' : Engine} (h : e.Quiet e') (h' : e'.Quiet e'') :
    e.Quiet e'' :=
  ⟨h'.active.trans h.active, h'.immutable.trans h.immutable, h'.disk.trans h.disk⟩

namespace Workers

variable {s : Workers} {path : FileName}

/-- As long as nothing is flushed, the list stays the one that was captured. -/
theorem over_step_compactor (h : s.compactor.Over s.engine.sstables) :
    (s.step .compactor).compactor.Over (s.step .compactor).engine.sstables := by
  unfold step
  cases hpc : s.compactor with
  | idle =>
      simp only [Engine.compactStep]
      split
      · trivial
      · exact rfl
  | reading all left inputs =>
      rw [hpc] at h
      cases left with
      | nil => exact h
      | cons r left =>
          simp only [Engine.compactStep]
          split
          · trivial
          · exact h
  | merged all records =>
      rw [hpc] at h
      exact h
  | numbered all records seq =>
      rw [hpc] at h
      simp only [Engine.compactStep]
      split
      · trivial
      · exact h
  | written all reader => trivial
  | removing paths => cases paths <;> trivial

/-- A name that was given to a table once and is not about to be given again. -/
def Old (s : Workers) (path : FileName) : Prop :=
  (∃ n ≤ s.engine.sstableSeq, path = fileName n) ∧ s.pending .compactor ≠ some path

/-- A step of the compaction leaves the file of an old name alone, or removes it. -/
theorem Old.step_compactor (h : s.Old path) (hs : s.Sound)
    (hw : (s.step .compactor).engine.Writable) :
    (s.step .compactor).Old path ∧
      ((s.step .compactor).engine.files.lookup path = s.engine.files.lookup path ∨
        (s.step .compactor).engine.files.lookup path = none ∧
          ∃ paths, s.compactor = .removing (path :: paths)) := by
  obtain ⟨⟨n, hn, rfl⟩, hpending⟩ := h
  have hnone : (none : Option FileName) ≠ some (fileName n) := by simp
  unfold step at hw ⊢
  cases hpc : s.compactor with
  | idle =>
      simp only [Engine.compactStep]
      split <;> exact ⟨⟨⟨n, hn, rfl⟩, hnone⟩, .inl rfl⟩
  | reading all left inputs =>
      cases left with
      | nil => exact ⟨⟨⟨n, hn, rfl⟩, hnone⟩, .inl rfl⟩
      | cons r left =>
          simp only [Engine.compactStep]
          split <;> exact ⟨⟨⟨n, hn, rfl⟩, hnone⟩, .inl rfl⟩
  | merged all records =>
      -- the number that the compaction takes is a new one
      simp only [hpc, Engine.compactStep] at hw
      have hlt : n < s.engine.nextSeq := by
        rw [Engine.nextSeq_of_lt hs.paths.narrow]
        omega
      refine ⟨⟨⟨n, hlt.le, rfl⟩, fun heq => ?_⟩, .inl rfl⟩
      exact fileName_ne hw.2 hlt (Option.some.inj heq).symm
  | numbered all records seq =>
      -- the file that is written is the pending one
      have hne : fileName n ≠ fileName seq := fun heq => hpending (by rw [pending, hpc, heq]; rfl)
      have hsame : (s.engine.files.insert (fileName seq) (tableBytes records)).lookup
          (fileName n) = s.engine.files.lookup (fileName n) := AList.lookup_insert_ne hne
      have hfile : ((s.engine.compactStep s.compactor).1.files).lookup (fileName seq) =
          some (tableBytes records) := by
        simp only [hpc, Engine.compactStep]
        split <;> exact AList.lookup_insert _
      obtain ⟨hopen, -⟩ := hs.compact_write hpc (hw.length_lt hfile)
      simp only [Engine.compactStep, hopen]
      exact ⟨⟨⟨n, hn, rfl⟩, fun heq => hne (Option.some.inj heq).symm⟩, .inl hsame⟩
  | written all reader => exact ⟨⟨⟨n, hn, rfl⟩, hnone⟩, .inl rfl⟩
  | removing paths =>
      cases paths with
      | nil => exact ⟨⟨⟨n, hn, rfl⟩, hnone⟩, .inl rfl⟩
      | cons path paths =>
          refine ⟨⟨⟨n, hn, rfl⟩, hnone⟩, ?_⟩
          by_cases heq : fileName n = path
          · subst heq
            exact .inr ⟨AList.lookup_erase _ _, paths, rfl⟩
          · exact .inl (AList.lookup_erase_ne heq)

end Workers

/-! ## The tables of a read -/

theorem Stored.exists_tables {files : Directory} {readers : List SSTableReader}
    (h : Stored files readers) :
    ∃ tables : List Table, readers = tables.map Table.reader ∧
      ∀ t ∈ tables, files.lookup t.path = some (tableBytes t.entries) := by
  induction readers with
  | nil => exact ⟨[], rfl, by simp⟩
  | cons r readers ih =>
      obtain ⟨tables, htables, hfiles⟩ := ih fun r' hr' => h r' (List.mem_cons_of_mem _ hr')
      obtain ⟨records, t, rfl, -, hfile⟩ := h r List.mem_cons_self
      refine ⟨t :: tables, by rw [htables, List.map_cons], fun t' ht' => ?_⟩
      rcases List.mem_cons.mp ht' with rfl | ht'
      · exact hfile
      · exact hfiles t' ht'

/-- A table that a read has captured: its file is as it was written, or gone. -/
structure Workers.Known (s : Workers) (key : Key) (t : Table) : Prop where
  silent : SilentTail t.entries key
  old : s.Old t.path
  file : s.engine.files.lookup t.path = some (tableBytes t.entries) ∨
    s.engine.files.lookup t.path = none

/-- The first of the tables that has a record of the key has this value for it, and its file
is there. -/
def Workers.Finds (s : Workers) (key : Key) (value : Bytes) : List Table → Prop
  | [] => False
  | t :: rest =>
      match lookup MemEntry.key key t.entries with
      | none => s.Finds key value rest
      | some entry =>
          s.engine.files.lookup t.path = some (tableBytes t.entries) ∧ entry.live ∧
            entry.value = value

namespace Workers.Known

variable {s : Workers} {key : Key} {t : Table}

theorem get_of_file (h : s.Known key t)
    (hfile : s.engine.files.lookup t.path = some (tableBytes t.entries)) :
    t.reader.get s.engine.files key = lookup MemEntry.key key t.entries :=
  get_tableBytes t.written h.silent hfile

theorem get_of_gone (hfile : s.engine.files.lookup t.path = none) :
    t.reader.get s.engine.files key = none := by
  have hpath : s.engine.files.lookup t.reader.path = none := hfile
  unfold SSTableReader.get
  rw [hpath]
  split <;> rfl

theorem records_of_file (hfile : s.engine.files.lookup t.path = some (tableBytes t.entries)) :
    t.reader.records s.engine.files = t.entries := by
  have hread : t.reader.iterateAll s.engine.files = .ok t.entries :=
    iterateAll_tableBytes t.written hfile
  simp only [SSTableReader.records, hread]

/-- A table without a record of the key is passed over, be its file there or not. -/
theorem of_lookup_none (h : s.Known key t) (hnone : lookup MemEntry.key key t.entries = none) :
    t.reader.get s.engine.files key = none ∧ t.reader.holds s.engine.files key = false := by
  rcases h.file with hfile | hfile
  · refine ⟨(h.get_of_file hfile).trans hnone, ?_⟩
    rw [SSTableReader.holds, records_of_file hfile, hnone]
    rfl
  · have hpath : s.engine.files.lookup t.reader.path = none := hfile
    refine ⟨get_of_gone hfile, ?_⟩
    simp [SSTableReader.holds, SSTableReader.records, SSTableReader.iterateAll, hpath]

/-- What is found is a record of the table. -/
theorem of_get (h : s.Known key t) {entry : MemEntry}
    (hget : t.reader.get s.engine.files key = some entry) :
    lookup MemEntry.key key t.entries = some entry ∧
      s.engine.files.lookup t.path = some (tableBytes t.entries) := by
  rcases h.file with hfile | hgone
  · exact ⟨(h.get_of_file hfile).symm.trans hget, hfile⟩
  · rw [get_of_gone hgone] at hget
    simp at hget

/-- Opening the next table, on the way to the one with the value. -/
theorem get_of_finds (h : s.Known key t) {value : Bytes} {rest : List Table}
    (hfinds : s.Finds key value (t :: rest)) :
    t.reader.get s.engine.files key = none ∧ s.Finds key value rest ∨
      ∃ entry, t.reader.get s.engine.files key = some entry ∧ entry.kind ≠ kindDelete ∧
        entry.value = value := by
  unfold Workers.Finds at hfinds
  cases hlookup : lookup MemEntry.key key t.entries with
  | none =>
      rw [hlookup] at hfinds
      exact .inl ⟨(h.of_lookup_none hlookup).1, hfinds⟩
  | some entry =>
      rw [hlookup] at hfinds
      obtain ⟨hfile, hlive, hvalue⟩ := hfinds
      refine .inr ⟨entry, (h.get_of_file hfile).trans hlookup, ?_, hvalue⟩
      simpa [MemEntry.live] using hlive

theorem step_compactor (h : s.Known key t) (hs : s.Sound)
    (hw : (s.step .compactor).engine.Writable) : (s.step .compactor).Known key t := by
  obtain ⟨hold, hfile⟩ := h.old.step_compactor hs hw
  refine ⟨h.silent, hold, ?_⟩
  rcases hfile with hsame | ⟨hgone, -⟩
  · rw [hsame]
    exact h.file
  · exact .inr hgone

end Workers.Known

namespace Reading

variable {s : Reading} {key : Key} {value : Bytes} {tables : List Table}

/-- The table with the key stays, if it is not the one that is removed. -/
theorem finds_step_compactor (h : s.workers.Finds key value tables)
    (hknown : ∀ t ∈ tables, s.workers.Known key t) (hs : s.workers.Sound)
    (hw : (s.workers.step .compactor).engine.Writable)
    (hkept : ∀ path paths, s.workers.compactor = .removing (path :: paths) →
      ((tables.map Table.reader).find? fun r => r.holds s.workers.engine.files key).any
        (fun r => r.path = path) = false) :
    (s.workers.step .compactor).Finds key value tables := by
  induction tables with
  | nil => exact h
  | cons t rest ih =>
      have ht := hknown t List.mem_cons_self
      unfold Workers.Finds at h ⊢
      cases hlookup : lookup MemEntry.key key t.entries with
      | none =>
          rw [hlookup] at h
          have hpass := (ht.of_lookup_none hlookup).2
          have hrest : ∀ t' ∈ rest, s.workers.Known key t' := fun t' ht' =>
            hknown t' (List.mem_cons_of_mem _ ht')
          refine ih h hrest fun path paths hpc => ?_
          have hnot := hkept path paths hpc
          rwa [List.map_cons, List.find?_cons, hpass] at hnot
      | some entry =>
          rw [hlookup] at h
          obtain ⟨hfile, hlive, hvalue⟩ := h
          refine ⟨?_, hlive, hvalue⟩
          rcases (ht.old.step_compactor hs hw).2 with hsame | ⟨-, paths, hpc⟩
          · exact hsame.trans hfile
          · have hholds : t.reader.holds s.workers.engine.files key = true := by
              rw [SSTableReader.holds, Workers.Known.records_of_file hfile, hlookup]
              rfl
            have hnot := hkept t.path paths hpc
            rw [List.map_cons, List.find?_cons, hholds] at hnot
            simp [Table.reader, readerOf] at hnot

/-- The engine of a read that began on `e`, with the tables that it has still to open. -/
structure Follows (e : Engine) (key : Key) (s : Reading) (tables : List Table) : Prop where
  sound : s.workers.Sound
  sameList : s.workers.compactor.Over s.workers.engine.sstables
  quiet : e.Quiet s.workers.engine
  left : s.reader.left = tables.map Table.reader
  known : ∀ t ∈ tables, s.workers.Known key t

/-- The read has the value, or is going to find it. -/
def Sees (s : Reading) (key : Key) (value : Bytes) (tables : List Table) : Prop :=
  match s.reader with
  | .copying => True
  | .scanning _ => s.workers.Finds key value tables
  | .done result => result = some value

/-- The read has begun, and no table that is left gives the value: its file is gone, or it has
something else. -/
structure Misses (s : Reading) (key : Key) (value : Bytes) (tables : List Table) : Prop where
  tables : ∀ t ∈ tables, s.workers.engine.files.lookup t.path = none ∨
    ∀ entry ∈ lookup MemEntry.key key t.entries, entry.live → entry.value ≠ value
  begun : s.reader ≠ .copying
  result : s.reader ≠ .done (some value)

theorem finds_of_visible {w : Workers}
    (hfiles : ∀ t ∈ tables, w.engine.files.lookup t.path = some (tableBytes t.entries))
    (h : visible (tables.map Table.entries) key = some value) : w.Finds key value tables := by
  induction tables with
  | nil => simp [visible] at h
  | cons t rest ih =>
      unfold Workers.Finds
      rw [List.map_cons, visible, newest_cons] at h
      cases hlookup : lookup MemEntry.key key t.entries with
      | none =>
          rw [hlookup, Option.none_or] at h
          exact ih (fun t' ht' => hfiles t' (List.mem_cons_of_mem _ ht')) h
      | some entry =>
          rw [hlookup, Option.some_or] at h
          obtain ⟨entry', hfilter, hvalue⟩ := Option.map_eq_some_iff.mp h
          obtain ⟨heq, hlive⟩ := Option.filter_eq_some_iff.mp hfilter
          obtain rfl := Option.some.inj heq
          exact ⟨hfiles t List.mem_cons_self, hlive, hvalue⟩

/-- The tables of the list when it is copied. -/
theorem Follows.captured {e : Engine} (h : Follows e key s tables)
    (hsilent : s.workers.engine.SilentTables key) :
    ∃ tables' : List Table, s.workers.engine.sstables = tables'.map Table.reader ∧
      (∀ t ∈ tables', s.workers.Known key t) ∧
      ∀ t ∈ tables', s.workers.engine.files.lookup t.path = some (tableBytes t.entries) := by
  obtain ⟨tables', htables, hfiles⟩ := h.sound.tables.exists_tables
  refine ⟨tables', htables, fun t ht => ?_, hfiles⟩
  have hmem : t.reader ∈ s.workers.engine.sstables := htables ▸ List.mem_map_of_mem ht
  have hlive : s.workers.Kept t.path := .inl (List.mem_map_of_mem hmem)
  have hrecords := hsilent t.reader hmem
  rw [Workers.Known.records_of_file (hfiles t ht)] at hrecords
  refine ⟨hrecords, ⟨h.sound.paths.old _ (.inl hlive), fun hpending => ?_⟩, .inl (hfiles t ht)⟩
  exact h.sound.paths.apart _ _ hpending hlive

theorem Follows.step_compactor {e : Engine} (h : Follows e key s tables)
    (hw : s.Proper .compactor) : Follows e key (s.step key .compactor) tables := by
  have hkept : s.workers.ListKept .compactor := by
    unfold Workers.ListKept
    have hover := h.sameList
    cases hpc : s.workers.compactor <;> simp_all [CompactPc.PublishesOver, CompactPc.Over]
  exact ⟨h.sound.step_compactor hw, Workers.over_step_compactor h.sameList,
    h.quiet.trans (h.sound.quiet_compactor hkept), h.left,
    fun t ht => (h.known t ht).step_compactor h.sound hw⟩

/-- A key that no memtable has a record of is read from the tables. -/
theorem readStep_copying {e e' : Engine} (hquiet : e.Quiet e')
    (hmem : ∀ layer ∈ e.memLayers, lookup MemEntry.key key layer = none) :
    e'.readStep key .copying = .scanning e'.sstables ∧
      visible e'.diskLayers key = e.contents key := by
  have hactive : e.active.get key = none := by
    rw [Memtable.get_eq, hmem _ List.mem_cons_self]
    rfl
  have himmutable : (e.immutable.bind fun imm => imm.get key) = none := by
    cases himm : e.immutable with
    | none => rfl
    | some imm =>
        have hnone := hmem imm.entries (by simp [Engine.memLayers, himm])
        rw [Option.bind_some, Memtable.get_eq, hnone]
        rfl
  have hnewest : newest MemEntry.key key e.memLayers = none :=
    List.findSome?_eq_none_iff.mpr hmem
  refine ⟨?_, ?_⟩
  · simp only [Engine.readStep, hquiet.active, hquiet.immutable, hactive, himmutable]
  · rw [hquiet.disk, Engine.contents, visible, visible, newest_append, hnewest, Option.none_or]

theorem Follows.done {e : Engine} {w : Workers} {pc : ReadPc} (h : Follows e key ⟨w, pc⟩ tables)
    (result : Option Bytes) : Follows e key ⟨w, .done result⟩ [] :=
  ⟨h.sound, h.sameList, h.quiet, rfl, by simp⟩

/-- The read opens a table. -/
theorem Follows.open_table {e : Engine} {w : Workers} {t : Table} {rest : List Table}
    (h : Follows e key ⟨w, .scanning ((t :: rest).map Table.reader)⟩ (t :: rest)) :
    ∃ tables', Follows e key ⟨w, w.engine.readStep key
        (.scanning ((t :: rest).map Table.reader))⟩ tables' ∧
      (w.Finds key value (t :: rest) →
        Sees ⟨w, w.engine.readStep key (.scanning ((t :: rest).map Table.reader))⟩ key value
          tables') ∧
      (Misses ⟨w, .scanning ((t :: rest).map Table.reader)⟩ key value (t :: rest) →
        Misses ⟨w, w.engine.readStep key (.scanning ((t :: rest).map Table.reader))⟩ key value
          tables') := by
  have ht : w.Known key t := h.known t List.mem_cons_self
  have hknown : ∀ t' ∈ rest, w.Known key t' := fun t' ht' => h.known t' (List.mem_cons_of_mem _ ht')
  simp only [List.map_cons, Engine.readStep]
  cases hget : t.reader.get w.engine.files key with
  | none =>
      refine ⟨rest, ⟨h.sound, h.sameList, h.quiet, rfl, hknown⟩, fun hfinds => ?_,
        fun hmisses => ?_⟩
      · rcases ht.get_of_finds hfinds with ⟨-, hrest⟩ | ⟨entry, hsome, -⟩
        · exact hrest
        · rw [hget] at hsome
          simp at hsome
      · exact ⟨fun t' ht' => hmisses.tables t' (List.mem_cons_of_mem _ ht'), by simp, by simp⟩
  | some entry =>
      refine ⟨[], h.done _, fun hfinds => ?_, fun hmisses => ⟨by simp, by simp, ?_⟩⟩
      · rcases ht.get_of_finds hfinds with ⟨hnone, -⟩ | ⟨entry', hsome, hkind, hvalue⟩
        · rw [hget] at hnone
          simp at hnone
        · obtain rfl := Option.some.inj (hget.symm.trans hsome)
          simp only [Sees, if_neg hkind, hvalue]
      · -- what is found is in a table that is there, and those have another value or none
        obtain ⟨hlookup, hfile⟩ := ht.of_get hget
        rcases hmisses.tables t List.mem_cons_self with hgone | hother
        · rw [hgone] at hfile
          simp at hfile
        · have hne := hother entry hlookup
          by_cases hkind : entry.kind = kindDelete
          · simp [hkind]
          · simpa [hkind, MemEntry.live] using hne

theorem Follows.step_reader {e : Engine} (h : Follows e key s tables)
    (hmem : ∀ layer ∈ e.memLayers, lookup MemEntry.key key layer = none)
    (hlive : e.contents key = some value) (hsilent : s.Silent key .reader) :
    ∃ tables', Follows e key (s.step key .reader) tables' ∧
      (s.Sees key value tables → (s.step key .reader).Sees key value tables') ∧
      (s.Misses key value tables → (s.step key .reader).Misses key value tables') := by
  obtain ⟨w, reader⟩ := s
  cases reader with
  | copying =>
      obtain ⟨tables', htables, hknown, hfiles⟩ := h.captured (hsilent rfl)
      obtain ⟨hstep, hdisk⟩ := readStep_copying h.quiet hmem
      have hshown : visible (tables'.map Table.entries) key = some value := by
        rw [← hlive, ← hdisk, Engine.diskLayers, htables, records_map hfiles]
      simp only [step, hstep]
      exact ⟨tables', ⟨h.sound, h.sameList, h.quiet, htables, hknown⟩,
        fun _ => finds_of_visible hfiles hshown, fun hmisses => absurd rfl hmisses.begun⟩
  | scanning left =>
      cases tables with
      | nil =>
          obtain rfl : left = [] := h.left
          refine ⟨[], h.done none, fun hsees => absurd hsees id, fun _ => ⟨by simp, ?_, ?_⟩⟩
          · simp [step, Engine.readStep]
          · simp [step, Engine.readStep]
      | cons t rest =>
          obtain rfl : left = (t :: rest).map Table.reader := h.left
          exact h.open_table
  | done result =>
      exact ⟨[], h.done result, fun hsees => hsees, fun h => ⟨by simp, h.begun, h.result⟩⟩

theorem Misses.step_compactor {e : Engine} (h : s.Misses key value tables)
    (hfollows : Follows e key s tables) (hw : s.Proper .compactor) :
    (s.step key .compactor).Misses key value tables := by
  refine ⟨fun t ht => (h.tables t ht).imp_left fun hgone => ?_, h.begun, h.result⟩
  rcases ((hfollows.known t ht).old.step_compactor hfollows.sound hw).2 with hsame | ⟨hnone, -⟩
  · exact hsame.trans hgone
  · exact hnone

/-- Every read ends: it opens one table after the other. -/
theorem returns_of_count {left : List SSTableReader} {events : List ReadEvent}
    (hreader : s.reader = .scanning left) (hcount : left.length < events.count .reader) :
    ∃ result, (events.foldl (step key) s).reader = .done result := by
  induction events generalizing s left with
  | nil => simp at hcount
  | cons event events ih =>
      cases event with
      | compactor => exact ih (s := s.step key .compactor) hreader (by simpa using hcount)
      | reader =>
          rw [List.count_cons_self] at hcount
          rw [List.foldl_cons]
          cases left with
          | nil =>
              have hnext : (s.step key .reader).reader = .done none := by
                simp only [step, hreader, Engine.readStep]
              exact ⟨none, foldl_of_done hnext events⟩
          | cons r left =>
              cases hget : r.get s.workers.engine.files key with
              | none =>
                  have hnext : (s.step key .reader).reader = .scanning left := by
                    simp only [step, hreader, Engine.readStep, hget]
                  exact ih hnext (by simpa using hcount)
              | some entry =>
                  have hnext : (s.step key .reader).reader =
                      .done (if entry.kind = kindDelete then none else some entry.value) := by
                    simp only [step, hreader, Engine.readStep, hget]
                  exact ⟨_, foldl_of_done hnext events⟩

theorem follows_beginning {e : Engine} (h : e.Backed tables) : Follows e key (beginning e) [] :=
  ⟨Workers.sound_of_backed h, trivial, ⟨rfl, rfl, rfl⟩, rfl, by simp⟩

theorem Sees.step_compactor {e : Engine} (h : s.Sees key value tables)
    (hfollows : Follows e key s tables) (hw : s.Proper .compactor)
    (hkept : s.removesFound key .compactor = false) :
    (s.step key .compactor).Sees key value tables := by
  have hfound : ∀ path paths, s.workers.compactor = .removing (path :: paths) →
      ((tables.map Table.reader).find? fun r => r.holds s.workers.engine.files key).any
        (fun r => r.path = path) = false := by
    intro path paths hpc
    rw [← hfollows.left]
    simpa [removesFound, hpc] using hkept
  cases hreader : s.reader with
  | copying => simp only [Sees, step, hreader]
  | scanning left =>
      simp only [Sees, step, hreader] at h ⊢
      exact finds_step_compactor h hfollows.known hfollows.sound hw hfound
  | done result =>
      simp only [Sees, step, hreader] at h ⊢
      exact h

/-- Every step. -/
theorem Follows.step {e : Engine} (h : Follows e key s tables)
    (hmem : ∀ layer ∈ e.memLayers, lookup MemEntry.key key layer = none)
    (hlive : e.contents key = some value) {event : ReadEvent} (hproper : s.Proper event)
    (hsilent : s.Silent key event) :
    ∃ tables', Follows e key (s.step key event) tables' ∧
      (s.removesFound key event = false → s.Sees key value tables →
        (s.step key event).Sees key value tables') ∧
      (s.Misses key value tables → (s.step key event).Misses key value tables') := by
  cases event with
  | compactor =>
      exact ⟨tables, h.step_compactor hproper, fun hkept hsees =>
        hsees.step_compactor h hproper hkept, fun hmisses => hmisses.step_compactor h hproper⟩
  | reader =>
      obtain ⟨tables', hfollows, hsees, hmisses⟩ := h.step_reader hmem hlive hsilent
      exact ⟨tables', hfollows, fun _ => hsees, hmisses⟩

/-- The file with the key is removed. -/
theorem misses_of_removal {e : Engine} (h : Follows e key s tables) {path : FileName}
    {paths : List FileName} (hpc : s.workers.compactor = .removing (path :: paths))
    (hw : s.Proper .compactor) (hremoves : s.removesFound key .compactor = true)
    (hother : ∀ r ∈ s.reader.left, r.path ≠ path →
      ∀ entry ∈ lookup MemEntry.key key (r.records s.workers.engine.files),
        entry.live → entry.value ≠ value) :
    (s.step key .compactor).Misses key value tables := by
  have hleft : s.reader.left ≠ [] := by
    intro hnil
    simp [removesFound, hpc, hnil] at hremoves
  refine ⟨fun t ht => ?_, ?_, ?_⟩
  · by_cases hpath : t.path = path
    · have hfiles :
          (s.workers.step .compactor).engine.files = s.workers.engine.files.erase path := by
        simp only [Workers.step, hpc, Engine.compactStep]
      refine .inl ?_
      change (s.workers.step .compactor).engine.files.lookup t.path = none
      rw [hfiles, hpath]
      exact AList.lookup_erase _ _
    · have hmem : t.reader ∈ s.reader.left := h.left ▸ List.mem_map_of_mem ht
      rcases (h.known t ht).file with hfile | hgone
      · have hrecords := hother t.reader hmem hpath
        rw [Workers.Known.records_of_file hfile] at hrecords
        exact .inr hrecords
      · rcases ((h.known t ht).old.step_compactor h.sound hw).2 with hsame | ⟨hnone, -⟩
        · exact .inl (hsame.trans hgone)
        · exact .inl hnone
  · intro hcopying
    have hreader : s.reader = .copying := hcopying
    exact hleft (by rw [hreader]; rfl)
  · intro hdone
    have hreader : s.reader = .done (some value) := hdone
    exact hleft (by rw [hreader]; rfl)

/-- Reading a key during a compaction.  The key is alive and only tables have records of it.

* In every run of the read and of the compaction worker in which no file is removed that the
  read is going to find the key in, and in which no table that it scans answers for the key
  from the bytes behind its records, the read returns the value of the key.
* Every read returns, once it has taken a step for every table of its list.
* If the file in which the read is going to find the key is removed, and no other table of
  the list of the read has the same value for it, then the read returns something else,
  however the run goes on. -/
theorem get_during_compaction (e : Engine) (tables : List Table) (hbacked : e.Backed tables)
    (key : Key) (value : Bytes)
    (hmem : ∀ layer ∈ e.memLayers, lookup MemEntry.key key layer = none)
    (hlive : e.contents key = some value) :
    (∀ s, Reaches (step key) (fun s event => (s.Proper event ∧ s.Silent key event) ∧
        s.removesFound key event = false) (beginning e) s →
      ∀ result, s.reader = .done result → result = some value) ∧
    (∀ (s : Reading) left (events : List ReadEvent), s.reader = .scanning left →
      left.length < events.count .reader →
        ∃ result, (events.foldl (step key) s).reader = .done result) ∧
    ∀ s path paths, Reaches (step key) (fun s event => s.Proper event ∧ s.Silent key event)
        (beginning e) s →
      s.workers.compactor = .removing (path :: paths) → s.Proper .compactor →
      s.removesFound key .compactor = true →
      (∀ r ∈ s.reader.left, r.path ≠ path →
        ∀ entry ∈ lookup MemEntry.key key (r.records s.workers.engine.files),
          entry.live → entry.value ≠ value) →
      ∀ s', Reaches (step key) Proper (s.step key .compactor) s' →
        s'.reader ≠ .done (some value) := by
  refine ⟨fun s hrun result hresult => ?_, fun s left events => returns_of_count, ?_⟩
  · have hinv : ∃ tables, Follows e key s tables ∧ s.Sees key value tables := by
      refine hrun.invariant (P := fun s => ∃ tables, Follows e key s tables ∧
        s.Sees key value tables) ⟨[], follows_beginning hbacked, trivial⟩ ?_
      rintro s event ⟨tables, hfollows, hsees⟩ ⟨⟨hproper, hsilent⟩, hkept⟩
      obtain ⟨tables', hfollows', hsees', -⟩ := hfollows.step hmem hlive hproper hsilent
      exact ⟨tables', hfollows', hsees' hkept hsees⟩
    obtain ⟨tables, -, hsees⟩ := hinv
    simpa [Sees, hresult] using hsees
  · intro s path paths hrun hpc hproper hremoves hother s' hrun'
    have hinv : ∃ tables, Follows e key s tables := by
      refine hrun.invariant (P := fun s => ∃ tables, Follows e key s tables)
        ⟨[], follows_beginning hbacked⟩ ?_
      rintro s event ⟨tables, hfollows⟩ ⟨hproper, hsilent⟩
      obtain ⟨tables', hfollows', -, -⟩ := hfollows.step hmem hlive hproper hsilent
      exact ⟨tables', hfollows'⟩
    obtain ⟨tables, hfollows⟩ := hinv
    have hinv' : ∃ tables, Follows e key s' tables ∧ s'.Misses key value tables := by
      refine hrun'.invariant (P := fun s => ∃ tables, Follows e key s tables ∧
        s.Misses key value tables) ⟨tables, hfollows.step_compactor hproper,
          misses_of_removal hfollows hpc hproper hremoves hother⟩ ?_
      rintro s event ⟨tables, hfollows, hmisses⟩ hproper
      -- a read that has begun copies no list
      have hsilent : s.Silent key event := by
        cases event with
        | compactor => trivial
        | reader =>
            intro hcopying
            have hbegun := hmisses.begun
            cases hreader : s.reader <;> simp_all [ReadPc.isCopying]
      obtain ⟨tables', hfollows', -, hmisses'⟩ := hfollows.step hmem hlive hproper hsilent
      exact ⟨tables', hfollows', hmisses' hmisses⟩
    obtain ⟨tables, -, hmisses⟩ := hinv'
    exact hmisses.result

/-- An engine with two keys, in a table each. -/
def twoTables : Engine :=
  { { Engine.fresh with active := Memtable.new.put [107] [1] }.rotateAndFlush with
    active := Memtable.new.put [108] [2] }.rotateAndFlush

theorem sound_twoTables : twoTables.Sound := by
  have hput : ∀ entry ∈ (Memtable.new.put [107] [1]).entries, entry.Fits := by decide +kernel
  have hput' : ∀ entry ∈ (Memtable.new.put [108] [2]).entries, entry.Fits := by decide +kernel
  have hfirst := ((Engine.sound_fresh.setActive _ Engine.fresh.flushCh hput).rotateAndFlush
    (by decide +kernel)).1
  exact ((hfirst.setActive _ _ hput').rotateAndFlush (by decide +kernel)).1

/-- The compaction publishes its table while the read is at the second table of its list, and
removes the files behind it. -/
def readInTime : List ReadEvent :=
  .reader :: .reader :: (List.replicate 7 .compactor ++ .reader :: List.replicate 3 .compactor)

theorem get_during_compaction_readInTime :
    (readInTime.foldl (step [107]) (beginning twoTables)).reader = .done (some [1]) := by
  have hstart : (∀ layer ∈ twoTables.memLayers, lookup MemEntry.key [107] layer = none) ∧
      twoTables.contents [107] = some [1] := by
    decide +kernel
  have hevents : Allowed (step [107]) (fun s event => (s.Proper event ∧ s.Silent [107] event) ∧
        s.removesFound [107] event = false) (beginning twoTables) readInTime ∧
      (readInTime.foldl (step [107]) (beginning twoTables)).reader.result.isSome = true := by
    decide +kernel
  obtain ⟨result, hresult⟩ := Option.isSome_iff_exists.mp hevents.2
  have hdone := ReadPc.eq_done hresult
  obtain ⟨tables, hbacked⟩ := sound_twoTables.backed
  obtain ⟨hreturns, -, -⟩ := get_during_compaction twoTables tables hbacked [107] [1] hstart.1
    hstart.2
  rw [hdone, hreturns _ (Reaches.foldl .refl _ hevents.1) result hdone]

/-- The compaction runs to its end when the read has copied the list. -/
def readTooLate : List ReadEvent :=
  .reader :: (List.replicate 9 .compactor ++ List.replicate 3 .reader)

/-- The read finds none of its files. -/
theorem get_misses_live_key :
    twoTables.contents [107] = some [1] ∧
      Allowed (step [107]) (fun s event => s.Proper event ∧ s.Silent [107] event)
        (beginning twoTables) readTooLate ∧
      (readTooLate.foldl (step [107]) (beginning twoTables)).reader = .done none := by
  refine ⟨?_, ?_, ReadPc.eq_done ?_⟩ <;> decide +kernel

end Reading

end RaftKV.Storage
