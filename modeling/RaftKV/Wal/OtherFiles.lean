import RaftKV.Wal.Crash
import RaftKV.Wal.FailedBatch

/-!
# The log and the other files of its directory

The directory of the log is shared with files of other owners.  Two facts make that
safe.  No operation of the log, whether it succeeds, fails or is interrupted, touches a
file whose name does not end in `.wal` (`WAL.Spares`, `SameOthers`).  And nothing that
the log reads depends on such a file (`SameSegments`).
-/

namespace RaftKV.Wal

open RaftKV.Raft (LogEntry)

/-- The name of a segment file. -/
def isSegment (path : FileName) : Bool :=
  walExtension.isSuffixOf path

/-- The directories differ in segment files only. -/
def SameOthers (dir dir' : Directory) : Prop :=
  ∀ path, isSegment path = false → dir'.lookup path = dir.lookup path

/-- The directories hold the same segment files. -/
def SameSegments (dir dir' : Directory) : Prop :=
  ∀ path, isSegment path = true → dir'.lookup path = dir.lookup path

theorem isSegment_segmentName (n : ℕ) : isSegment (segmentName n) = true :=
  Stores.isSuffixOf_segmentName n

theorem isSegment_of_mem_paths {dir : Directory} {path : FileName}
    (h : path ∈ segmentPaths dir) : isSegment path = true :=
  (Stores.mem_segmentPaths.mp h).2

/-! ## What the log leaves alone -/

namespace SameOthers

variable {dir dir' dir'' : Directory}

theorem refl (dir : Directory) : SameOthers dir dir :=
  fun _ _ => rfl

theorem trans (h : SameOthers dir dir') (h' : SameOthers dir' dir'') : SameOthers dir dir'' :=
  fun path hpath => (h' path hpath).trans (h path hpath)

theorem insert {name : FileName} (hname : isSegment name = true) (file : Bytes) :
    SameOthers dir (dir.insert name file) := by
  intro path hpath
  refine AList.lookup_insert_ne ?_
  rintro rfl
  rw [hname] at hpath
  cases hpath

theorem removeFiles {paths : List FileName} (h : ∀ path ∈ paths, isSegment path = true) :
    SameOthers dir (RaftKV.removeFiles paths dir) := by
  intro path hpath
  refine lookup_removeFiles (fun hmem => ?_) dir
  rw [h path hmem] at hpath
  cases hpath

end SameOthers

namespace WAL

variable {w w' w'' : WAL} {codec : EntryCodec}

/-- What the log writes to is a segment file. -/
def Owns (w : WAL) : Prop :=
  ∀ name ∈ w.current, isSegment name = true

/-- The log has written to segment files only, and will go on to. -/
structure Spares (w w' : WAL) : Prop where
  owns : w'.Owns
  others : SameOthers w.dir w'.dir

namespace Spares

theorem refl (h : w.Owns) : w.Spares w :=
  ⟨h, .refl _⟩

theorem trans (h : w.Spares w') (h' : w'.Spares w'') : w.Spares w'' :=
  ⟨h'.owns, h.others.trans h'.others⟩

theorem congr (h : w.Spares w') (hdir : w''.dir = w'.dir) (hcurrent : w''.current = w'.current) :
    w.Spares w'' := by
  refine ⟨?_, hdir ▸ h.others⟩
  unfold Owns
  rw [hcurrent]
  exact h.owns

/-- A call that goes on with what another call left. -/
theorem bind {x : Except Failure WAL} {f : WAL → Except Failure WAL} (h : w.Spares (left x))
    (hf : ∀ next, w.Spares next → w.Spares (left (f next))) : w.Spares (left (x >>= f)) := by
  cases x with
  | ok next => exact hf next h
  | error failure => exact h

end Spares

theorem spares_appendFile (h : w.Owns) (bs : Bytes) : w.Spares (w.appendFile bs) := by
  unfold appendFile
  split
  · exact .refl h
  · next name hcurrent => exact ⟨h, .insert (h name hcurrent) _⟩

theorem spares_flush (h : w.Owns) : w.Spares w.flush :=
  (spares_appendFile h w.buffered).congr rfl rfl

theorem spares_write (h : w.Owns) (bs : Bytes) : w.Spares (w.write bs) :=
  (spares_appendFile h (bufferedWrite writerSize w.buffered bs).1).congr rfl rfl

theorem spares_writeRecord (h : w.Owns) (data : Bytes) : w.Spares (w.writeRecord data) := by
  have hheader := spares_write h (leBytes 4 data.length ++ leBytes 4 (checksumIEEE data).toNat)
  exact (hheader.trans (spares_write hheader.owns data)).congr rfl rfl

theorem spares_createSegment (h : w.Owns) (firstIndex : ℕ) :
    w.Spares (left (w.createSegment firstIndex)) := by
  unfold createSegment
  split
  · exact .refl h
  · refine ⟨?_, (spares_flush h).others.trans (.insert (isSegment_segmentName firstIndex) [])⟩
    intro name hname
    obtain rfl : segmentName firstIndex = name := Option.some.inj hname
    exact isSegment_segmentName firstIndex

theorem spares_appendEntry (h : w.Owns) (entry : LogEntry) :
    w.Spares (left (w.appendEntry codec entry)) := by
  have hroom : w.Spares (left (w.makeRoom codec entry)) := by
    unfold makeRoom
    split
    · exact (spares_flush h).trans (spares_createSegment (spares_flush h).owns entry.index)
    · exact .refl h
  refine hroom.bind fun next hnext => ?_
  exact (hnext.trans (spares_writeRecord hnext.owns (codec.marshal entry))).congr rfl rfl

theorem spares_foldlM_appendEntry (h : w.Owns) (entries : List LogEntry) :
    w.Spares (left (entries.foldlM (appendEntry codec) w)) := by
  induction entries generalizing w with
  | nil => exact .refl h
  | cons entry rest ih =>
      rw [List.foldlM_cons]
      exact (spares_appendEntry h entry).bind fun next hnext => hnext.trans (ih hnext.owns)

theorem spares_appendBatch (h : w.Owns) (entries : List LogEntry) :
    w.Spares (left (w.appendBatch codec entries)) := by
  unfold appendBatch
  split
  · exact .refl h
  · exact (spares_foldlM_appendEntry h entries).bind fun next hnext =>
      hnext.trans (spares_flush hnext.owns)

theorem spares_closeCurrent (h : w.Owns) : w.Spares w.closeCurrent :=
  ⟨fun name hname => by simp [closeCurrent] at hname, (spares_flush h).others⟩

theorem spares_emptied (h : w.Owns) (lastIndex : ℕ) : w.Spares (w.emptied lastIndex) := by
  refine ⟨fun name hname => by simp [emptied, closeCurrent] at hname, ?_⟩
  exact (spares_closeCurrent h).others.trans
    (.removeFiles fun path hpath => isSegment_of_mem_paths hpath)

theorem spares_foldl_rewriteEntry (codec : EntryCodec) (h : w.Owns) (kept : List LogEntry) :
    w.Spares (kept.foldl (rewriteEntry codec) w) := by
  induction kept generalizing w with
  | nil => exact .refl h
  | cons entry rest ih =>
      have hentry : w.Spares (w.rewriteEntry codec entry) :=
        (spares_writeRecord h (codec.marshal entry)).congr rfl rfl
      exact hentry.trans (ih hentry.owns)

theorem spares_truncate (h : w.Owns) (keep : LogEntry → Bool) (lastIndex firstIndex : ℕ) :
    w.Spares (left (w.truncate codec keep lastIndex firstIndex)) := by
  unfold truncate
  split
  · exact spares_closeCurrent h
  · next entries _ =>
      have hcreate := (spares_emptied h lastIndex).trans
        (spares_createSegment (spares_emptied h lastIndex).owns firstIndex)
      refine hcreate.bind fun next hnext => ?_
      have hkept := hnext.trans (spares_foldl_rewriteEntry codec hnext.owns (entries.filter keep))
      exact hkept.trans (spares_flush hkept.owns)

/-! ## Interrupted calls -/

/-- The directory after a crash that left `cut` bytes of the segment that is written to. -/
def tearCurrent (w : WAL) (cut : ℕ) : Directory :=
  match w.current with
  | none => w.dir
  | some name => w.dir.insert name (((w.dir.lookup name).getD []).take cut)

theorem sameOthers_tearCurrent (h : w.Owns) (cut : ℕ) : SameOthers w.dir (w.tearCurrent cut) := by
  unfold tearCurrent
  split
  · exact .refl _
  · next name hname => exact .insert (h name hname) _

/-- The directory that an interrupted `AppendBatch` leaves: behind some of the entries the
process dies, and so many bytes of the segment that is written to are on disk. -/
def appendInterrupted (codec : EntryCodec) (w : WAL) (entries : List LogEntry)
    (written cut : ℕ) : Directory :=
  (left ((entries.take written).foldlM (appendEntry codec) w)).flush.tearCurrent cut

theorem sameOthers_appendInterrupted (h : w.Owns) (entries : List LogEntry) (written cut : ℕ) :
    SameOthers w.dir (w.appendInterrupted codec entries written cut) := by
  have hwritten : w.Spares (left ((entries.take written).foldlM (appendEntry codec) w)) :=
    spares_foldlM_appendEntry h _
  have hflushed := spares_flush hwritten.owns
  exact (hwritten.others.trans hflushed.others).trans (sameOthers_tearCurrent hflushed.owns cut)

theorem sameOthers_interrupted (h : w.Owns) (t : Truncation) (point : Point) :
    SameOthers w.dir (w.interrupted codec t point) := by
  have hclosed := (spares_closeCurrent h).others
  cases point with
  | removing count =>
      exact hclosed.trans (.removeFiles fun path hpath =>
        isSegment_of_mem_paths (List.mem_of_mem_take hpath))
  | rewriting bytes =>
      simp only [interrupted]
      split
      · exact hclosed
      · exact (hclosed.trans (.removeFiles fun path hpath => isSegment_of_mem_paths hpath)).trans
          (.insert (isSegment_segmentName _) _)

theorem owns_openDir {dir : Directory} (hopen : openDir codec dir = .ok w) :
    w.Owns ∧ SameOthers dir w.dir := by
  unfold openDir at hopen
  split at hopen
  · have hfresh : WAL.Owns ⟨dir, none, [], 0, 0⟩ := fun name hname => by simp at hname
    have hcreate := spares_createSegment hfresh 1
    cases hcase : createSegment ⟨dir, none, [], 0, 0⟩ 1 with
    | error failure =>
        rw [hcase] at hopen
        cases hopen
    | ok created =>
        rw [hcase] at hopen hcreate
        obtain rfl : created = w := Except.ok.inj hopen
        exact ⟨hcreate.owns, hcreate.others⟩
  · next last hlast =>
      split at hopen
      · cases hopen
      · cases hopen
        refine ⟨fun name hname => ?_, .refl _⟩
        obtain rfl : last = name := Option.some.inj hname
        exact isSegment_of_mem_paths (List.mem_of_getLast? hlast)

end WAL

/-! ## What the log does not depend on -/

theorem Stores.congr {dir dir' : Directory} {segs : List Segment} (h : Stores dir segs)
    (hsame : SameSegments dir dir') : Stores dir' segs where
  stored s hs := (hsame s.name (isSegment_segmentName s.1)).trans (h.stored s hs)
  only path hpath hsegment := by
    refine h.only path ?_ hsegment
    rw [← AList.mem_keys, ← AList.lookup_isSome] at hpath ⊢
    rwa [← hsame path hsegment]
  distinct := h.distinct

/-- The log on a directory in which only other files have changed. -/
theorem WAL.Tracks.congr {w : WAL} {segs : Segments} {s : LogList} {codec : EntryCodec}
    (h : w.Tracks codec segs s) {dir : Directory} (hsame : SameSegments w.dir dir) :
    { w with dir := dir }.Tracks codec segs s := by
  obtain ⟨file, hstores, hcontent⟩ := h.ordered.holds.files
  have hholds : { w with dir := dir }.Holds segs :=
    ⟨h.ordered.holds.current, file, hstores.congr hsame, hcontent⟩
  exact { h with ordered := { h.ordered with holds := hholds } }

end RaftKV.Wal
