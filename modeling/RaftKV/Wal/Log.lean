import RaftKV.Decimal
import RaftKV.Files
import RaftKV.Framing
import RaftKV.Raft.Types

/-!
# The write-ahead log

`wal/wal.go`: log entries on disk, in segment files that are named after an index and
read back in the order of their names.  An entry is marshalled and written as a framed
record.  A segment that would grow beyond 8 MB is followed by a new one, named after
the entry that did not fit.  Truncating at either end reads everything, removes all
segments and writes what is kept into a single new segment, however large.

The writer is buffered, and what it holds is not yet in the file.  File operations
succeed, but for the creation of a segment whose name is taken; an operation that fails
says which WAL it leaves behind.  Marshalling is a parameter.
-/

namespace RaftKV.Wal

open RaftKV.Raft (LogEntry)

/-! ## Records -/

/-- `proto.Marshal` and `proto.Unmarshal` of a log entry. -/
structure EntryCodec where
  marshal : LogEntry → Bytes
  unmarshal : Bytes → Option LogEntry
  unmarshal_marshal : ∀ entry, unmarshal (marshal entry) = some entry

/-- A numeric field of a message; a zero is left out. -/
def numberField (tag : UInt8) (n : ℕ) : Bytes :=
  if n = 0 then [] else tag :: varint n

/-- A numeric field from the front of a message, zero if another field stands there. -/
def readNumberField (tag : UInt8) : Bytes → Option (ℕ × Bytes)
  | [] => some (0, [])
  | b :: bs => if b = tag then readVarint bs else some (0, b :: bs)

/-- The fields `index`, `term` and `data` of a message, by their tags and in this order. -/
def wireMarshal (entry : LogEntry) : Bytes :=
  numberField 0x08 entry.index ++ (numberField 0x10 entry.term ++
    if entry.data = [] then [] else 0x1A :: (varint entry.data.length ++ entry.data))

def wireUnmarshal (bs : Bytes) : Option LogEntry := do
  let (index, bs) ← readNumberField 0x08 bs
  let (term, bs) ← readNumberField 0x10 bs
  let (length, data) ← readNumberField 0x1A bs
  if length = data.length then some ⟨index, term, data⟩ else none

theorem readNumberField_numberField {tag : UInt8} (n : ℕ) {rest : Bytes}
    (h : rest.head? ≠ some tag) :
    readNumberField tag (numberField tag n ++ rest) = some (n, rest) := by
  unfold numberField
  split
  · next hzero =>
      subst hzero
      cases rest with
      | nil => rfl
      | cons b bs =>
          have hne : b ≠ tag := by simpa using h
          rw [List.nil_append, readNumberField, if_neg hne]
  · rw [List.cons_append, readNumberField, if_pos rfl, readVarint_varint]

/-- The wire form of log entries, as the protocol buffer library writes it. -/
def wireCodec : EntryCodec where
  marshal := wireMarshal
  unmarshal := wireUnmarshal
  unmarshal_marshal := by
    rintro ⟨index, term, data⟩
    unfold wireUnmarshal wireMarshal
    have hdata : readNumberField 0x1A
        (if data = [] then [] else 0x1A :: (varint data.length ++ data)) =
          some (data.length, data) := by
      split
      · next hnil =>
          subst hnil
          rfl
      · rw [readNumberField, if_pos rfl, readVarint_varint]
    have hterm : (if data = [] then [] else
        (0x1A : UInt8) :: (varint data.length ++ data)).head? ≠ some 0x10 := by
      split <;> simp
    have hindex : (numberField 0x10 term ++ if data = [] then [] else
        (0x1A : UInt8) :: (varint data.length ++ data)).head? ≠ some 0x08 := by
      unfold numberField
      split <;> split <;> simp
    simp only [readNumberField_numberField index hindex, Option.bind_eq_bind, Option.bind_some,
      readNumberField_numberField term hterm, hdata, if_pos]

/-- One bit of the reflected division by the polynomial of CRC-32. -/
def crcStep (crc : UInt32) : UInt32 :=
  if crc &&& 1 = 1 then (crc >>> 1) ^^^ 0xEDB88320 else crc >>> 1

/-- `crc32.ChecksumIEEE`. -/
def checksumIEEE (data : Bytes) : UInt32 :=
  (data.foldl (fun crc b => crcStep^[8] (crc ^^^ b.toUInt32)) 0xFFFFFFFF) ^^^ 0xFFFFFFFF

-- the check value of the catalogue of CRC algorithms, for the digits 1 to 9
example : checksumIEEE [49, 50, 51, 52, 53, 54, 55, 56, 57] = 0xCBF43926 := by decide +kernel

def headerSize : ℕ := 8

def maxSegmentSize : ℕ := 8 * 1024 * 1024

/-- The default size of a `bufio.Writer`. -/
def writerSize : ℕ := 4096

/-! ## Segment files -/

def walExtension : List Char := ['.', 'w', 'a', 'l']

/-- The format `%016d.wal`. -/
def segmentName (firstIndex : ℕ) : FileName :=
  padded 16 firstIndex ++ walExtension

/-- The names that match `*.wal`, in order. -/
def segmentPaths (dir : Directory) : List FileName :=
  (dir.keys.filter fun path => walExtension.isSuffixOf path).insertionSort (· ≤ ·)

inductive WalError
  | createSegment (name : FileName)
  | openSegment (name : FileName)
  | unmarshalEntry (name : FileName)
  deriving DecidableEq, Repr

/-- `readSegment`: the entries up to the first record that is short or corrupted. -/
def readSegment (codec : EntryCodec) (dir : Directory) (path : FileName) :
    Except WalError (List LogEntry) :=
  match dir.lookup path with
  | none => .error (.openSegment path)
  | some file =>
      match (payloads checksumIEEE file).mapM codec.unmarshal with
      | none => .error (.unmarshalEntry path)
      | some entries => .ok entries

/-- The entries of all segments. -/
def readSegments (codec : EntryCodec) (dir : Directory) : Except WalError (List LogEntry) :=
  ((segmentPaths dir).mapM (readSegment codec dir)).map List.flatten

/-! ## The log -/

structure WAL where
  dir : Directory
  /-- The active segment. -/
  current : Option FileName
  /-- What the writer of the active segment holds back. -/
  buffered : Bytes
  /-- Bytes written to the active segment. -/
  size : ℕ
  lastIndex : ℕ

/-- An error, and the WAL it leaves behind. -/
abbrev Failure := WalError × WAL

namespace WAL

/-- Appends to the active segment. -/
def appendFile (w : WAL) (bs : Bytes) : WAL :=
  match w.current with
  | none => w
  | some name => { w with dir := w.dir.insert name ((w.dir.lookup name).getD [] ++ bs) }

/-- `Flush` of the writer. -/
def flush (w : WAL) : WAL :=
  { w.appendFile w.buffered with buffered := [] }

/-- `Write` of the writer. -/
def write (w : WAL) (bs : Bytes) : WAL :=
  { w.appendFile (bufferedWrite writerSize w.buffered bs).1 with
    buffered := (bufferedWrite writerSize w.buffered bs).2 }

def writeRecord (w : WAL) (data : Bytes) : WAL :=
  let header := leBytes 4 data.length ++ leBytes 4 (checksumIEEE data).toNat
  { (w.write header).write data with size := w.size + (headerSize + data.length) }

/-- `createSegment`: the name must not be taken. -/
def createSegment (w : WAL) (firstIndex : ℕ) : Except Failure WAL :=
  if segmentName firstIndex ∈ w.dir.keys then
    .error (.createSegment (segmentName firstIndex), w)
  else
    .ok { w.flush with
      dir := w.flush.dir.insert (segmentName firstIndex) []
      current := some (segmentName firstIndex)
      buffered := []
      size := 0 }

def rollSegment (w : WAL) (nextIndex : ℕ) : Except Failure WAL :=
  w.flush.createSegment nextIndex

variable (codec : EntryCodec)

/-- Rolls over if the entry's record would exceed the size limit. -/
def makeRoom (w : WAL) (entry : LogEntry) : Except Failure WAL :=
  if w.size + (headerSize + (codec.marshal entry).length) > maxSegmentSize then
    w.rollSegment entry.index
  else .ok w

/-- The part of `Append` and of the loop of `AppendBatch` that is about one entry. -/
def appendEntry (w : WAL) (entry : LogEntry) : Except Failure WAL := do
  let w ← w.makeRoom codec entry
  return { w.writeRecord (codec.marshal entry) with lastIndex := entry.index }

/-- `Append`. -/
def append (w : WAL) (entry : LogEntry) : Except Failure WAL := do
  let w ← w.appendEntry codec entry
  return w.flush

/-- `AppendBatch`. -/
def appendBatch (w : WAL) (entries : List LogEntry) : Except Failure WAL :=
  if entries = [] then .ok w
  else do
    let w ← entries.foldlM (appendEntry codec) w
    return w.flush

/-- `ReadAll`. -/
def readAll (w : WAL) : Except WalError (List LogEntry) :=
  readSegments codec w.dir

/-- Flushes and closes the active segment. -/
def closeCurrent (w : WAL) : WAL :=
  { w.flush with current := none }

/-- Writes one kept entry into the new segment. -/
def rewriteEntry (w : WAL) (entry : LogEntry) : WAL :=
  { w.writeRecord (codec.marshal entry) with lastIndex := entry.index }

/-- Closes the active segment and removes all segments. -/
def emptied (w : WAL) (lastIndex : ℕ) : WAL :=
  { w.closeCurrent with
    dir := removeFiles (segmentPaths w.closeCurrent.dir) w.closeCurrent.dir
    size := 0
    lastIndex }

/-- The common body of the two truncations: the entries to keep are all that is left, in
a segment named after `firstIndex`. -/
def truncate (keep : LogEntry → Bool) (lastIndex firstIndex : ℕ) (w : WAL) :
    Except Failure WAL :=
  match readSegments codec w.closeCurrent.dir with
  | .error err => .error (err, w.closeCurrent)
  | .ok entries => do
      let created ← (w.emptied lastIndex).createSegment firstIndex
      return ((entries.filter keep).foldl (rewriteEntry codec) created).flush

/-- `TruncateSuffix`. -/
def truncateSuffix (w : WAL) (keepIndex : ℕ) : Except Failure WAL :=
  w.truncate codec (fun entry => entry.index ≤ keepIndex) 0 1

/-- `TruncatePrefix`. -/
def truncatePrefix (w : WAL) (discardIndex : ℕ) : Except Failure WAL :=
  w.truncate codec (fun entry => discardIndex < entry.index) discardIndex
    ((discardIndex + 1) % 2 ^ 64)

/-- `Open`: resumes the last segment, as it is. -/
def openDir (dir : Directory) : Except WalError WAL :=
  match (segmentPaths dir).getLast? with
  | none =>
      match createSegment ⟨dir, none, [], 0, 0⟩ 1 with
      | .error failure => .error failure.1
      | .ok w => .ok w
  | some last =>
      match readSegment codec dir last with
      | .error err => .error err
      | .ok entries =>
          .ok
            { dir
              current := some last
              buffered := []
              size := ((dir.lookup last).getD []).length
              lastIndex := (entries.getLast?.map LogEntry.index).getD 0 }

/-- `Close` followed by `Open`. -/
def reopen (w : WAL) : Except WalError WAL :=
  openDir codec w.flush.dir

end WAL

end RaftKV.Wal
