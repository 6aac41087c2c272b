import Mathlib.Data.Char
import RaftKV.Decimal
import RaftKV.Storage.Merge
import RaftKV.Storage.SnapshotFormat

/-!
# The storage engine

`storage/engine.go` and the engine part of `storage/snapshot.go`: writes go to the
active memtable, a flush turns it into a new table on disk, a compaction merges all
tables into one, and reopening finds the tables again by their file names.

Each function is a step that runs to completion; the locks and the worker threads of
the source do not appear.  The directory holds the files as they were last written,
and writing or removing a file never fails.
-/

namespace RaftKV.Storage

/-- Tables from which on a flush asks for a compaction. -/
def compactionThreshold : ℕ := 8

structure Engine where
  /-- The files of the engine's directory. -/
  files : Directory
  /-- The current write target. -/
  active : Memtable
  /-- The memtable that is being flushed. -/
  immutable : Option Memtable
  /-- Newest first. -/
  sstables : List SSTableReader
  sstableSeq : ℕ
  /-- A flush signal is pending. -/
  flushCh : Bool
  /-- A compaction signal is pending. -/
  compactCh : Bool
  closed : Bool

inductive EngineError
  | closed
  | parseSequence (path : FileName)
  | snapshotRead (err : SSTableError)
  | decodeSnapshot (err : DecodeError)
  deriving DecidableEq, Repr

/-! ## File names -/

def sstExtension : List Char := ['.', 's', 's', 't']

/-- The format `%016d.sst`. -/
def fileName (seq : ℕ) : FileName :=
  padded 16 seq ++ sstExtension

/-- Scanning a name by `%d.sst` into 64 bits. -/
def parseSequence (path : FileName) : Option ℕ :=
  let digits := path.takeWhile Char.isDigit
  if digits ≠ [] ∧ sstExtension.isPrefixOf (path.drop digits.length) ∧
      decimalValue digits < 2 ^ 64 then
    some (decimalValue digits)
  else none

/-- The names that match `*.sst`, in reverse order. -/
def tablePaths (files : Directory) : List FileName :=
  (files.keys.filter fun path => sstExtension.isSuffixOf path).insertionSort (· ≥ ·)

namespace Engine

/-! ## Opening and closing -/

/-- `loadSSTables`: skips what does not open and takes the counter from the first
name. -/
def loadSSTables (e : Engine) : Except EngineError Engine :=
  let readers := (tablePaths e.files).filterMap fun path => (openSSTable e.files path).toOption
  match tablePaths e.files with
  | [] => .ok { e with sstables := readers }
  | newest :: _ =>
      match parseSequence newest with
      | none => .error (.parseSequence newest)
      | some seq => .ok { e with sstables := readers, sstableSeq := seq }

/-- `Open`. -/
def openDir (files : Directory) : Except EngineError Engine :=
  loadSSTables
    { files, active := .new, immutable := none, sstables := [], sstableSeq := 0,
      flushCh := false, compactCh := false, closed := false }

/-- An engine opened in an empty directory. -/
def fresh : Engine :=
  { files := ∅, active := .new, immutable := none, sstables := [], sstableSeq := 0,
    flushCh := false, compactCh := false, closed := false }

/-- The next number of `sstableSeq`. -/
def nextSeq (e : Engine) : ℕ :=
  (e.sstableSeq + 1) % 2 ^ 64

/-- Writes a table under the next name. -/
def writeTable (e : Engine) (entries : List MemEntry) : Engine :=
  { e with
    sstableSeq := e.nextSeq
    files := e.files.insert (fileName e.nextSeq) (tableBytes entries) }

/-- `doFlush`. -/
def doFlush (e : Engine) : Engine :=
  match e.immutable with
  | none => e
  | some imm =>
      if imm.size = 0 then e
      else
        match openSSTable (e.writeTable imm.snapshot).files (fileName e.nextSeq) with
        | .error _ => e.writeTable imm.snapshot
        | .ok reader =>
            { e.writeTable imm.snapshot with
              sstables := reader :: e.sstables
              immutable := none }

/-- Makes the active memtable the one to be flushed. -/
def rotate (e : Engine) : Engine :=
  { e with immutable := some e.active, active := .new }

/-- `Close`. -/
def close (e : Engine) : Engine :=
  if e.closed then e
  else (if e.active.size > 0 then { e with closed := true }.rotate
    else { e with closed := true }).doFlush

/-! ## Writing and reading -/

/-- `Put`. -/
def put (e : Engine) (key : Key) (value : Bytes) : Except EngineError Engine :=
  if e.closed then .error .closed
  else
    .ok { e with
      active := e.active.put key value
      flushCh := e.flushCh || (e.active.put key value).shouldFlush }

/-- `Delete`. -/
def delete (e : Engine) (key : Key) : Except EngineError Engine :=
  if e.closed then .error .closed
  else .ok { e with active := e.active.delete key }

/-- The tables in turn, the first that has the key answers. -/
def getTables (files : Directory) (key : Key) : List SSTableReader → Option Bytes
  | [] => none
  | r :: rest =>
      match r.get files key with
      | some e => if e.kind = kindDelete then none else some e.value
      | none => getTables files key rest

/-- `Get`: the memtables, then the tables. -/
def get (e : Engine) (key : Key) : Option Bytes :=
  match e.active.get key with
  | some value => some value
  | none =>
      match e.immutable.bind fun imm => imm.get key with
      | some value => some value
      | none => getTables e.files key e.sstables

/-! ## Background work -/

/-- `rotateAndFlush`: skipped while a memtable waits to be flushed. -/
def rotateAndFlush (e : Engine) : Engine :=
  if e.immutable.isSome then e
  else
    { e.rotate.doFlush with
      compactCh := e.compactCh || compactionThreshold ≤ e.rotate.doFlush.sstables.length }

/-- `IterateAll` of several tables. -/
def readTables (files : Directory) (readers : List SSTableReader) :
    Except SSTableError (List (List MemEntry)) :=
  readers.mapM fun r => r.iterateAll files

/-- `doCompaction`. -/
def doCompaction (e : Engine) : Engine :=
  if e.sstables.length < 2 then e
  else
    match readTables e.files e.sstables.reverse with
    | .error _ => e
    | .ok inputs =>
        match openSSTable (e.writeTable (mergeEntries inputs)).files (fileName e.nextSeq) with
        | .error _ => e.writeTable (mergeEntries inputs)
        | .ok reader =>
            { e.writeTable (mergeEntries inputs) with
              sstables := [reader]
              files := removeFiles (e.sstables.map SSTableReader.path)
                (e.writeTable (mergeEntries inputs)).files }

/-! ## Snapshots -/

/-- `Snapshot`: the layers are merged from the oldest to the newest. -/
def snapshot (e : Engine) : Except EngineError Bytes :=
  match readTables e.files e.sstables.reverse with
  | .error err => .error (.snapshotRead err)
  | .ok inputs =>
      .ok (encodeSnapshot (mergeEntries
        (inputs ++ (e.immutable.map Memtable.snapshot).toList ++ [e.active.snapshot])))

/-- The memtable of a snapshot's records. -/
def memtableOf (entries : List MemEntry) : Memtable :=
  entries.foldl (fun m entry => m.put entry.key entry.value) .new

/-- `LoadSnapshot`: the decoded records take the place of everything and are flushed
at once.  Nothing is assigned before the string is decoded. -/
def loadSnapshot (e : Engine) (data : Bytes) : Except EngineError Unit × Engine :=
  match Storage.decodeSnapshot data with
  | .error err => (.error (.decodeSnapshot err), e)
  | .ok entries =>
      let replaced : Engine :=
        { e with
          sstables := []
          active := memtableOf entries
          immutable := none
          files := removeFiles (e.sstables.map SSTableReader.path) e.files }
      (.ok (), (if replaced.active.size > 0 then replaced.rotate else replaced).doFlush)

end Engine

end RaftKV.Storage
