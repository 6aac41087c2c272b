import RaftKV.Storage.Contents
import RaftKV.Transition

/-!
# The engine and its workers

`storage/engine.go` and `storage/snapshot.go` step by step.  A flush, a compaction and the
loading of a snapshot are sequences of critical sections under the lock of the engine, with
file operations between them, and other threads run in between.  One step of this system is
one critical section, or one file operation, of one thread.

The client writes and loads snapshots one after the other, as the apply loop of the server
does.  The flush worker and the compaction worker may start at any time: the signals that
wake them are left out.  A worker that runs alone does what `Engine.rotateAndFlush` and
`Engine.doCompaction` do in one step.
-/

namespace RaftKV.Storage

/-! ## Where a thread stands -/

/-- `doFlush`. -/
inductive FlushPc
  /-- Not flushing. -/
  | idle
  /-- About to read the immutable memtable. -/
  | rotated
  /-- About to take a number. -/
  | captured (imm : Memtable)
  /-- About to write the file. -/
  | numbered (imm : Memtable) (seq : ℕ)
  /-- About to publish the table. -/
  | written (imm : Memtable) (reader : SSTableReader)

/-- `doCompaction`. -/
inductive CompactPc
  | idle
  /-- About to read the tables that are left, the oldest first. -/
  | reading (toCompact left : List SSTableReader) (inputs : List (List MemEntry))
  /-- About to take a number. -/
  | merged (toCompact : List SSTableReader) (records : List MemEntry)
  /-- About to write the file. -/
  | numbered (toCompact : List SSTableReader) (records : List MemEntry) (seq : ℕ)
  /-- About to publish the table. -/
  | written (toCompact : List SSTableReader) (reader : SSTableReader)
  /-- About to remove old files. -/
  | removing (paths : List FileName)

/-- `LoadSnapshot`. -/
inductive LoadPc
  | idle
  /-- The state is replaced, and old files are removed. -/
  | removing (paths : List FileName)
  /-- In the flush that makes the snapshot durable. -/
  | flushing (pc : FlushPc)

namespace Engine

/-- One step of `doFlush`. -/
def flushStep (e : Engine) : FlushPc → Engine × FlushPc
  | .idle => (e, .idle)
  | .rotated =>
      match e.immutable with
      | none => (e, .idle)
      | some imm => if imm.size = 0 then (e, .idle) else (e, .captured imm)
  | .captured imm => ({ e with sstableSeq := e.nextSeq }, .numbered imm e.nextSeq)
  | .numbered imm seq =>
      let files := e.files.insert (fileName seq) (tableBytes imm.snapshot)
      match openSSTable files (fileName seq) with
      | .error _ => ({ e with files }, .idle)
      | .ok reader => ({ e with files }, .written imm reader)
  | .written _ reader =>
      ({ e with sstables := reader :: e.sstables, immutable := none }, .idle)

/-- One step of `doCompaction`. -/
def compactStep (e : Engine) : CompactPc → Engine × CompactPc
  | .idle =>
      if e.sstables.length < 2 then (e, .idle)
      else (e, .reading e.sstables e.sstables.reverse [])
  | .reading toCompact (r :: left) inputs =>
      match r.iterateAll e.files with
      | .error _ => (e, .idle)
      | .ok entries => (e, .reading toCompact left (inputs ++ [entries]))
  | .reading toCompact [] inputs => (e, .merged toCompact (mergeEntries inputs))
  | .merged toCompact records =>
      ({ e with sstableSeq := e.nextSeq }, .numbered toCompact records e.nextSeq)
  | .numbered toCompact records seq =>
      let files := e.files.insert (fileName seq) (tableBytes records)
      match openSSTable files (fileName seq) with
      | .error _ => ({ e with files }, .idle)
      | .ok reader => ({ e with files }, .written toCompact reader)
  | .written toCompact reader =>
      ({ e with sstables := [reader] }, .removing (toCompact.map SSTableReader.path))
  | .removing (path :: paths) => ({ e with files := e.files.erase path }, .removing paths)
  | .removing [] => (e, .idle)

/-- One step of `LoadSnapshot`, once the state is replaced. -/
def loadStep (e : Engine) : LoadPc → Engine × LoadPc
  | .idle => (e, .idle)
  | .removing (path :: paths) => ({ e with files := e.files.erase path }, .removing paths)
  | .removing [] =>
      (if e.active.size > 0 then e.rotate else e, .flushing .rotated)
  | .flushing pc =>
      match e.flushStep pc with
      | (e, .idle) => (e, .idle)
      | (e, pc) => (e, .flushing pc)

/-- The critical section of `LoadSnapshot` that replaces the state. -/
def replaceState (e : Engine) (entries : List MemEntry) : Engine :=
  { e with sstables := [], active := memtableOf entries, immutable := none }

end Engine

theorem Engine.compactCh_doFlush (e : Engine) : e.doFlush.compactCh = e.compactCh := by
  unfold Engine.doFlush
  split
  · rfl
  · split
    · rfl
    · split
      · rfl
      · rfl

theorem Engine.readTables_cons (files : Directory) (r : SSTableReader) (left : List SSTableReader) :
    readTables files (r :: left) = (r.iterateAll files).bind fun entries =>
      (readTables files left).map (entries :: ·) := by
  unfold readTables
  rw [List.mapM_cons]
  cases r.iterateAll files with
  | error err => rfl
  | ok entries =>
      cases left.mapM fun r => r.iterateAll files with
      | error err => rfl
      | ok inputs => rfl

/-! ## The system -/

/-- The engine and its threads.  The last two fields are history: what the engine should
contain, and whether the flush worker holds a memtable that it read before the state was
last replaced. -/
structure Workers where
  engine : Engine
  flusher : FlushPc
  compactor : CompactPc
  loader : LoadPc
  expected : Store
  stale : Bool

inductive WorkerEvent
  | put (key : Key) (value : Bytes)
  | delete (key : Key)
  | load (data : Bytes)
  | loader
  | flusher
  | compactor
  deriving DecidableEq

namespace Workers

/-- An engine whose threads have nothing to do. -/
def resting (e : Engine) : Workers :=
  ⟨e, .idle, .idle, .idle, e.contents, false⟩

def step (s : Workers) : WorkerEvent → Workers
  | .put key value =>
      match s.loader, s.engine.put key value with
      | .idle, .ok e => { s with engine := e, expected := s.expected.put key value }
      | _, _ => s
  | .delete key =>
      match s.loader, s.engine.delete key with
      | .idle, .ok e => { s with engine := e, expected := s.expected.delete key }
      | _, _ => s
  | .load data =>
      match s.loader, decodeSnapshot data with
      | .idle, .ok entries =>
          { s with
            engine := s.engine.replaceState entries
            loader := .removing (s.engine.sstables.map SSTableReader.path)
            expected := .ofEntries entries
            stale := true }
      | _, _ => s
  | .loader =>
      { s with engine := (s.engine.loadStep s.loader).1, loader := (s.engine.loadStep s.loader).2 }
  | .flusher =>
      match s.flusher with
      | .idle =>
          if s.engine.immutable.isSome then s
          else { s with engine := s.engine.rotate, flusher := .rotated }
      | .rotated => { s with flusher := (s.engine.flushStep .rotated).2, stale := false }
      | pc =>
          { s with engine := (s.engine.flushStep pc).1, flusher := (s.engine.flushStep pc).2 }
  | .compactor =>
      { s with
        engine := (s.engine.compactStep s.compactor).1
        compactor := (s.engine.compactStep s.compactor).2 }

/-- The lengths that the format of a table can hold. -/
def Fits : WorkerEvent → Prop
  | .put key value => key.length < 2 ^ 32 ∧ value.length < 2 ^ 32
  | .delete key => key.length < 2 ^ 32
  | _ => True

instance : (event : WorkerEvent) → Decidable (Fits event)
  | .put _ _ => inferInstanceAs (Decidable (_ ∧ _))
  | .delete _ => inferInstanceAs (Decidable (_ < _))
  | .load _ => inferInstanceAs (Decidable True)
  | .loader => inferInstanceAs (Decidable True)
  | .flusher => inferInstanceAs (Decidable True)
  | .compactor => inferInstanceAs (Decidable True)

/-- Keys and values fit the format, and the disk can take what is written. -/
def Proper (s : Workers) (event : WorkerEvent) : Prop :=
  Fits event ∧ (s.step event).engine.Writable

instance (s : Workers) (event : WorkerEvent) : Decidable (s.Proper event) :=
  inferInstanceAs (Decidable (_ ∧ _))

/-! ## A worker that runs alone

The server takes a flush and a compaction of its engine as one step each.  That is what they
come to when no other thread runs between their critical sections. -/

/-- Only one thread runs. -/
abbrev Alone (event : WorkerEvent) : Workers → Workers → Prop :=
  Reaches step fun _ event' => event' = event

theorem alone_step {event : WorkerEvent} {s t : Workers} (hrun : Alone event (s.step event) t) :
    Alone event s t := by
  have hfirst : Alone event s (s.step event) := .next .refl rfl
  exact hfirst.trans hrun

theorem doFlush_alone {s : Workers} (h : s.flusher = .rotated) :
    Alone .flusher s { s with engine := s.engine.doFlush, flusher := .idle, stale := false } := by
  refine alone_step ?_
  cases himm : s.engine.immutable with
  | none =>
      simp only [step, h, Engine.flushStep, Engine.doFlush, himm]
      exact .refl
  | some imm =>
      by_cases hsize : imm.size = 0
      · simp only [step, h, Engine.flushStep, Engine.doFlush, himm, if_pos hsize]
        exact .refl
      · simp only [step, h, Engine.flushStep, Engine.doFlush, himm, if_neg hsize]
        refine alone_step (alone_step ?_)
        cases hopen : openSSTable (s.engine.files.insert (fileName s.engine.nextSeq)
            (tableBytes imm.snapshot)) (fileName s.engine.nextSeq) with
        | error err =>
            simp only [step, Engine.flushStep, Engine.writeTable, hopen, himm]
            exact .refl
        | ok reader =>
            refine alone_step ?_
            simp only [step, Engine.flushStep, Engine.writeTable, hopen]
            exact .refl

/-- The flush worker, but for the signal that it sends to the compaction worker. -/
theorem rotateAndFlush_alone {s : Workers} (h : s.flusher = .idle) :
    ∃ t, Alone .flusher s t ∧
      t.engine = { s.engine.rotateAndFlush with compactCh := s.engine.compactCh } ∧
      t.flusher = .idle ∧ t.compactor = s.compactor ∧ t.loader = s.loader := by
  unfold Engine.rotateAndFlush
  split
  · exact ⟨s, .refl, rfl, h, rfl, rfl⟩
  next hslot =>
  have hrotate : s.step .flusher = { s with engine := s.engine.rotate, flusher := .rotated } := by
    simp only [step, h]
    exact if_neg hslot
  have hflush := doFlush_alone (s := s.step .flusher) (by rw [hrotate])
  refine ⟨_, alone_step hflush, ?_, rfl, by rw [hrotate], by rw [hrotate]⟩
  have hsignal : s.engine.rotate.doFlush.compactCh = s.engine.compactCh :=
    s.engine.rotate.compactCh_doFlush
  rw [hrotate]
  simp only [← hsignal]

/-- The tables are read one by one, and the first error ends the compaction. -/
theorem reading_alone {s : Workers} {toCompact left : List SSTableReader}
    {read : List (List MemEntry)} (h : s.compactor = .reading toCompact left read) :
    Alone .compactor s { s with
      compactor := match Engine.readTables s.engine.files left with
        | .error _ => .idle
        | .ok inputs => .reading toCompact [] (read ++ inputs) } := by
  induction left generalizing s read with
  | nil =>
      change Alone .compactor s { s with compactor := .reading toCompact [] (read ++ []) }
      rw [List.append_nil, ← h]
      exact .refl
  | cons r left ih =>
      refine alone_step ?_
      rw [Engine.readTables_cons]
      cases hfirst : r.iterateAll s.engine.files with
      | error err =>
          simp only [step, h, Engine.compactStep, hfirst, Except.bind]
          exact .refl
      | ok entries =>
          simp only [step, h, Engine.compactStep, hfirst, Except.bind]
          have hrest := ih (s := { s with
            compactor := .reading toCompact left (read ++ [entries]) }) rfl
          cases hleft : Engine.readTables s.engine.files left with
          | error err =>
              rw [hleft] at hrest
              exact hrest
          | ok inputs =>
              simp only [hleft, List.append_assoc] at hrest
              exact hrest

theorem removing_alone {s : Workers} {paths : List FileName}
    (h : s.compactor = .removing paths) :
    Alone .compactor s { s with
      engine := { s.engine with files := removeFiles paths s.engine.files }
      compactor := .idle } := by
  induction paths generalizing s with
  | nil =>
      refine alone_step ?_
      simp only [step, h, Engine.compactStep]
      exact .refl
  | cons path paths ih =>
      refine alone_step ?_
      simp only [step, h, Engine.compactStep]
      exact ih rfl

theorem doCompaction_alone {s : Workers} (h : s.compactor = .idle) :
    Alone .compactor s { s with engine := s.engine.doCompaction } := by
  obtain ⟨e, flusher, compactor, loader, expected, stale⟩ := s
  obtain rfl : compactor = .idle := h
  unfold Engine.doCompaction
  split
  · exact .refl
  next hmany =>
  refine alone_step ?_
  simp only [step, Engine.compactStep, if_neg hmany]
  have hreading := reading_alone (s := ⟨e, flusher, .reading e.sstables e.sstables.reverse [],
    loader, expected, stale⟩) rfl
  cases hread : Engine.readTables e.files e.sstables.reverse with
  | error err =>
      rw [hread] at hreading
      exact hreading
  | ok inputs =>
      rw [hread] at hreading
      refine hreading.trans (alone_step (alone_step (alone_step ?_)))
      cases hopen : openSSTable (e.files.insert (fileName e.nextSeq)
          (tableBytes (mergeEntries inputs))) (fileName e.nextSeq) with
      | error err =>
          simp only [step, Engine.compactStep, Engine.writeTable, List.nil_append, hopen]
          exact .refl
      | ok reader =>
          refine alone_step ?_
          simp only [step, Engine.compactStep, Engine.writeTable, List.nil_append, hopen]
          exact removing_alone rfl

end Workers

end RaftKV.Storage
