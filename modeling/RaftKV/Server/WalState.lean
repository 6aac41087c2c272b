import Mathlib.Algebra.Group.Nat.Defs
import RaftKV.Raft.Storage
import RaftKV.Wal.OtherFiles

/-!
# Raft's storage on disk

`server/walstate.go`: the hard state and the snapshot are one file each, written under a
temporary name and renamed, and the entries go to the write-ahead log in the same
directory.  A snapshot's index and term stand in front of its data, eight bytes each.

As for the log, file operations succeed.  Marshalling the hard state, `encoding/json` in
the source, is a parameter.  Texts name a file by its base name.
-/

namespace RaftKV.Server

open RaftKV.Raft RaftKV.Wal

/-- `json.Marshal` and `json.Unmarshal` of `hardState`. -/
structure HardStateCodec where
  marshal : ℕ → NodeId → Bytes
  unmarshal : Bytes → Except String (ℕ × NodeId)
  unmarshal_marshal : ∀ term votedFor, unmarshal (marshal term votedFor) = .ok (term, votedFor)

/-- Characters of four bytes each. -/
def readRunes : Bytes → Option (List Char)
  | [] => some []
  | a :: b :: c :: d :: rest => (readRunes rest).map (Char.ofNat (leNat [a, b, c, d]) :: ·)
  | _ => none

theorem readRunes_flatMap (chars : List Char) :
    readRunes (chars.flatMap fun char => leBytes 4 char.toNat) = some chars := by
  induction chars with
  | nil => rfl
  | cons char chars ih =>
      have hcode : leNat (leBytes 4 char.toNat) = char.toNat :=
        leNat_leBytes_of_lt char.val.toNat_lt
      change (readRunes (chars.flatMap fun char => leBytes 4 char.toNat)).map
        (Char.ofNat (leNat (leBytes 4 char.toNat)) :: ·) = _
      rw [ih, hcode, Char.ofNat_toNat]
      rfl

/-- A short form of the hard state: the term, then the characters of the vote. -/
def runeCodec : HardStateCodec where
  marshal term votedFor := varint term ++ votedFor.toList.flatMap fun char => leBytes 4 char.toNat
  unmarshal bs :=
    match readVarint bs with
    | none => .error "unexpected end of input"
    | some (term, rest) =>
        match readRunes rest with
        | none => .error "unexpected end of input"
        | some chars => .ok (term, String.ofList chars)
  unmarshal_marshal term votedFor := by
    simp only [readVarint_varint, readRunes_flatMap, String.ofList_toList]

/-! ## Files -/

def hardStateTmp : FileName := "hardstate.tmp".toList
def hardStateFile : FileName := "hardstate.json".toList
def snapshotTmp : FileName := "snapshot.tmp".toList
def snapshotFile : FileName := "snapshot.bin".toList

/-- The buffer that `SaveSnapshot` writes. -/
def snapshotBytes (data : Bytes) (lastIncludedIndex lastIncludedTerm : ℕ) : Bytes :=
  leBytes 8 lastIncludedIndex ++ (leBytes 8 lastIncludedTerm ++ data)

/-- The error of `io.ReadFull` behind so many bytes. -/
def readFullError (got : ℕ) : String :=
  if got = 0 then "EOF" else "unexpected EOF"

/-- The text of an error of the log. -/
def walErrorText : WalError → String
  | .createSegment name =>
      "wal: create segment: open " ++ String.ofList name ++ ": file exists"
  | .openSegment name =>
      "wal: read segment " ++ String.ofList name ++ ": no such file or directory"
  | .unmarshalEntry name => "wal: read segment " ++ String.ofList name ++ ": unmarshal entry"

namespace WalState

/-- `LoadHardState`, from the directory. -/
def loadHardState (json : HardStateCodec) (dir : Directory) : Except String (ℕ × NodeId) :=
  match dir.lookup hardStateFile with
  | none => .ok (0, "")
  | some data => (json.unmarshal data).mapError (s!"walstate: unmarshal hardstate: {·}")

/-- `LoadSnapshot`. -/
def loadSnapshot (dir : Directory) : Except String (Bytes × ℕ × ℕ) :=
  match dir.lookup snapshotFile with
  | none => .ok ([], 0, 0)
  | some buf =>
      if buf.length < 16 then
        .error s!"walstate: snapshot file truncated ({buf.length} bytes)"
      else .ok (buf.drop 16, leNat (buf.take 8), leNat ((buf.take 16).drop 8))

/-- `LoadSnapshotMeta`: no more than the header is read. -/
def loadSnapshotMeta (dir : Directory) : Except String (ℕ × ℕ) :=
  match dir.lookup snapshotFile with
  | none => .ok (0, 0)
  | some buf =>
      match readFull 16 buf with
      | none => .error ("walstate: read snapshot header: " ++ readFullError buf.length)
      | some (header, _) => .ok (leNat (header.take 8), leNat (header.drop 8))

end WalState

/-! ## The storage -/

/-- `walState`; what its log writes to is a segment file. -/
structure WalState (codec : EntryCodec) (json : HardStateCodec) where
  w : WAL
  owns : w.Owns

namespace WalState

variable {codec : EntryCodec} {json : HardStateCodec}

/-- The directory, which the log and the two files share. -/
def dir (s : WalState codec json) : Directory :=
  s.w.dir

/-- A file of the directory is replaced. -/
def replace (tmp name : FileName) (content : Bytes) (s : WalState codec json) :
    WalState codec json where
  w := { s.w with dir := replaceFile tmp name content s.w.dir }
  owns := s.owns

/-- `SaveHardState`. -/
def saveHardState (term : ℕ) (votedFor : NodeId) (s : WalState codec json) :
    WalState codec json :=
  s.replace hardStateTmp hardStateFile (json.marshal term votedFor)

/-- `SaveSnapshot`. -/
def saveSnapshot (data : Bytes) (lastIncludedIndex lastIncludedTerm : ℕ)
    (s : WalState codec json) : WalState codec json :=
  s.replace snapshotTmp snapshotFile (snapshotBytes data lastIncludedIndex lastIncludedTerm)

/-- A call that is passed on to the log. -/
def logCall (call : WAL → Except Failure WAL)
    (hcall : ∀ w : WAL, w.Owns → w.Spares (WAL.left (call w))) (s : WalState codec json) :
    Except String Unit × WalState codec json :=
  (match call s.w with
    | .ok _ => .ok ()
    | .error failure => .error (walErrorText failure.1),
    ⟨WAL.left (call s.w), (hcall s.w s.owns).owns⟩)

/-- `newWALState`. -/
def newWALState (codec : EntryCodec) (json : HardStateCodec) (dir : Directory) :
    Except String (WalState codec json) :=
  match hopen : WAL.openDir codec dir with
  | .ok w => .ok ⟨w, (WAL.owns_openDir hopen).1⟩
  | .error err => .error ("walstate: open wal: " ++ walErrorText err)

/-- What `newWALState` makes of an empty directory. -/
def fresh : WalState codec json where
  w := ⟨(∅ : Directory).insert (segmentName 1) [], some (segmentName 1), [], 0, 0⟩
  owns name hname := by
    obtain rfl : segmentName 1 = name := Option.some.inj hname
    exact isSegment_segmentName 1

instance : PersistentState (WalState codec json) where
  fresh := fresh
  saveHardState term votedFor s := (.ok (), s.saveHardState term votedFor)
  loadHardState s := loadHardState json s.dir
  appendEntries entries :=
    logCall (·.appendBatch codec entries) fun _ h => WAL.spares_appendBatch h entries
  loadEntries s := (s.w.readAll codec).mapError walErrorText
  truncateSuffix keepIndex :=
    logCall (·.truncateSuffix codec keepIndex) fun _ h => WAL.spares_truncate h _ _ _
  saveSnapshot data index term s := (.ok (), s.saveSnapshot data index term)
  loadSnapshot s := loadSnapshot s.dir
  loadSnapshotMeta s := loadSnapshotMeta s.dir
  truncatePrefix discardIndex :=
    logCall (WAL.truncatePrefix codec · discardIndex) fun _ h => WAL.spares_truncate h _ _ _

theorem newWALState_empty :
    newWALState codec json ∅ = .ok fresh := by
  have hempty : WAL.openDir codec ∅ =
      .ok ⟨(∅ : Directory).insert (segmentName 1) [], some (segmentName 1), [], 0, 0⟩ := rfl
  unfold newWALState
  split
  · next w hopen =>
      obtain rfl := Except.ok.inj (hempty.symm.trans hopen)
      rfl
  · next err hopen => cases hempty.symm.trans hopen

/-! ## What a call leaves alone -/

theorem hardStateFile_ne : hardStateFile ≠ snapshotTmp ∧ hardStateFile ≠ snapshotFile ∧
    snapshotFile ≠ hardStateTmp ∧ snapshotFile ≠ hardStateFile := by
  decide

theorem others_not_segment : isSegment hardStateFile = false ∧ isSegment hardStateTmp = false ∧
    isSegment snapshotFile = false ∧ isSegment snapshotTmp = false := by
  decide

/-- Reading depends on the two files only. -/
theorem load_congr (json : HardStateCodec) {dir dir' : Directory}
    (hhard : dir'.lookup hardStateFile = dir.lookup hardStateFile)
    (hsnapshot : dir'.lookup snapshotFile = dir.lookup snapshotFile) :
    loadHardState json dir' = loadHardState json dir ∧ loadSnapshot dir' = loadSnapshot dir := by
  unfold loadHardState loadSnapshot
  rw [hhard, hsnapshot]
  exact ⟨rfl, rfl⟩

theorem load_sameOthers (json : HardStateCodec) {dir dir' : Directory}
    (h : SameOthers dir dir') :
    loadHardState json dir' = loadHardState json dir ∧ loadSnapshot dir' = loadSnapshot dir :=
  load_congr json (h _ others_not_segment.1) (h _ others_not_segment.2.2.1)

theorem sameOthers_logCall {call : WAL → Except Failure WAL}
    (hcall : ∀ w : WAL, w.Owns → w.Spares (WAL.left (call w))) (s : WalState codec json) :
    SameOthers s.dir (s.logCall call hcall).2.dir :=
  (hcall s.w s.owns).others

theorem lookup_saveHardState (term : ℕ) (votedFor : NodeId) (s : WalState codec json) :
    (s.saveHardState term votedFor).dir.lookup hardStateFile =
      some (json.marshal term votedFor) :=
  lookup_replaceFile_self hardStateTmp hardStateFile (json.marshal term votedFor) s.dir

theorem lookup_saveSnapshot (data : Bytes) (index term : ℕ) (s : WalState codec json) :
    (s.saveSnapshot data index term).dir.lookup snapshotFile =
      some (snapshotBytes data index term) :=
  lookup_replaceFile_self snapshotTmp snapshotFile (snapshotBytes data index term) s.dir

theorem loadHardState_saveHardState (term : ℕ) (votedFor : NodeId) (s : WalState codec json) :
    loadHardState json (s.saveHardState term votedFor).dir = .ok (term, votedFor) := by
  unfold loadHardState
  rw [lookup_saveHardState]
  simp only [json.unmarshal_marshal]
  rfl

theorem loadHardState_saveSnapshot (data : Bytes) (index term : ℕ) (s : WalState codec json) :
    loadHardState json (s.saveSnapshot data index term).dir = loadHardState json s.dir := by
  unfold loadHardState
  have hlookup : (s.saveSnapshot data index term).dir.lookup hardStateFile =
      s.dir.lookup hardStateFile :=
    lookup_replaceFile_of_ne hardStateFile_ne.1 hardStateFile_ne.2.1 _ _
  rw [hlookup]

theorem loadSnapshot_saveHardState (term : ℕ) (votedFor : NodeId) (s : WalState codec json) :
    loadSnapshot (s.saveHardState term votedFor).dir = loadSnapshot s.dir := by
  unfold loadSnapshot
  have hlookup : (s.saveHardState term votedFor).dir.lookup snapshotFile =
      s.dir.lookup snapshotFile :=
    lookup_replaceFile_of_ne hardStateFile_ne.2.2.1 hardStateFile_ne.2.2.2 _ _
  rw [hlookup]

instance : LawfulHardState (WalState codec json) where
  load_fresh := rfl
  save_ok _ _ _ := rfl
  load_save term votedFor s := loadHardState_saveHardState term votedFor s
  load_appendEntries _ s := (load_sameOthers json (sameOthers_logCall _ s)).1
  load_truncateSuffix _ s := (load_sameOthers json (sameOthers_logCall _ s)).1
  load_saveSnapshot data index term s := loadHardState_saveSnapshot data index term s
  load_truncatePrefix _ s := (load_sameOthers json (sameOthers_logCall _ s)).1

/-! ## The snapshot file -/

/-- A file with a header is read back, with an index and a term of 64 bits. -/
theorem loadSnapshot_eq {dir : Directory} {data : Bytes} {index term : ℕ}
    (h : dir.lookup snapshotFile = some (snapshotBytes data index term)) :
    loadSnapshot dir = .ok (data, index % 2 ^ 64, term % 2 ^ 64) := by
  have hpow : (256 : ℕ) ^ 8 = 2 ^ 64 := by decide
  have hlong : ¬ (snapshotBytes data index term).length < 16 := by
    simp [snapshotBytes]
    omega
  have hindex : (snapshotBytes data index term).take 8 = leBytes 8 index :=
    List.take_left' (length_leBytes 8 index)
  have hrest : (snapshotBytes data index term).drop 8 = leBytes 8 term ++ data :=
    List.drop_left' (length_leBytes 8 index)
  have hterm : ((snapshotBytes data index term).take 16).drop 8 = leBytes 8 term := by
    rw [List.drop_take, hrest]
    exact List.take_left' (length_leBytes 8 term)
  have hdata : (snapshotBytes data index term).drop 16 = data := by
    have hsplit : (snapshotBytes data index term).drop (8 + 8) =
        ((snapshotBytes data index term).drop 8).drop 8 := List.drop_drop.symm
    rw [show 16 = 8 + 8 from rfl, hsplit, hrest]
    exact List.drop_left' (length_leBytes 8 term)
  unfold loadSnapshot
  rw [h]
  simp only [if_neg hlong, hindex, hterm, hdata, leNat_leBytes, hpow]

/-- The header alone says the same as the whole file, and is refused for the same files. -/
theorem loadSnapshotMeta_eq (dir : Directory) :
    (loadSnapshotMeta dir).toOption = (loadSnapshot dir).toOption.map Prod.snd := by
  unfold loadSnapshotMeta loadSnapshot
  cases hlookup : dir.lookup snapshotFile with
  | none => rfl
  | some buf =>
      by_cases hshort : buf.length < 16
      · simp only [readFull_eq_none hshort, if_pos hshort]
        rfl
      · have hread : readFull 16 buf = some (buf.take 16, buf.drop 16) :=
          if_pos (not_lt.mp hshort)
        have htake : (buf.take 16).take 8 = buf.take 8 := by
          rw [List.take_take]
          rfl
        simp only [hread, if_neg hshort, htake]
        rfl

theorem loadSnapshotMeta_ok {dir : Directory} {snapshot : Bytes × ℕ × ℕ}
    (h : loadSnapshot dir = .ok snapshot) : loadSnapshotMeta dir = .ok snapshot.2 := by
  have hmeta := loadSnapshotMeta_eq dir
  rw [h] at hmeta
  cases hload : loadSnapshotMeta dir with
  | error err =>
      rw [hload] at hmeta
      cases hmeta
  | ok header =>
      rw [hload] at hmeta
      exact congrArg Except.ok (Option.some.inj hmeta)

end WalState

end RaftKV.Server
