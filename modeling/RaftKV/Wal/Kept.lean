import RaftKV.Wal.OtherFiles

/-!
# The log in ordinary use

`WAL.Kept` is the log as its owner relies on it: it refines a list, and its segments are
numbered so that the next entry finds a free name.  Then no operation fails, as long as
an appended record fits into a segment of its own: the entries are appended, the
truncations go through, and the directory can be opened again at any time.
-/

namespace RaftKV.Wal

open RaftKV.Raft (LogEntry)

variable {codec : EntryCodec} {segs : Segments} {s : LogList} {w w' : WAL}

/-- The index has at most 16 digits, and the record fits into an empty segment. -/
def Small (codec : EntryCodec) (entry : LogEntry) : Prop :=
  entry.index < 10 ^ 16 ∧ headerSize + (codec.marshal entry).length ≤ maxSegmentSize

instance (entry : LogEntry) : Decidable (Small codec entry) :=
  inferInstanceAs (Decidable (_ ∧ _))

theorem Small.fits {entry : LogEntry} (h : Small codec entry) : Fits codec entry := by
  have hlength := h.2
  unfold headerSize maxSegmentSize at hlength
  unfold Fits
  omega

/-- Small entries above the last index find a name. -/
theorem Segments.Numbered.free (h : segs.Numbered s.last) {entries : List LogEntry}
    (hadmits : Allowed LogList.append (LogList.Admits codec) s entries)
    (hsmall : ∀ entry ∈ entries, Small codec entry) : segs.Free codec entries := by
  induction entries generalizing segs s with
  | nil => trivial
  | cons entry rest ih =>
      obtain ⟨hentry, hrest⟩ := List.forall_mem_cons.mp hsmall
      refine ⟨fun hcollides => ?_, ih (h.place hadmits.1.1) hadmits.2 hrest⟩
      have hlarge := ((h.collides_iff hadmits.1.1).mp hcollides).2.2
      exact absurd hlarge (not_lt.mpr hentry.2)

namespace WAL

/-- The log holds the list and is ready for what comes next. -/
structure Kept (codec : EntryCodec) (w : WAL) (s : LogList) : Prop where
  refines : w.Refines codec s
  segments : ∃ segs, w.Matches codec segs s

namespace Kept

theorem appendBatch (h : w.Kept codec s) {entries : List LogEntry}
    (hadmits : Allowed LogList.append (LogList.Admits codec) s entries)
    (hsmall : ∀ entry ∈ entries, Small codec entry) :
    ∃ w', w.appendBatch codec entries = .ok w' ∧ w'.Kept codec (entries.foldl .append s) := by
  obtain ⟨segs, hmatches⟩ := h.segments
  obtain ⟨w', hok, -⟩ :=
    hmatches.intact.flushed.appendBatch_ok (hmatches.numbered.free hadmits hsmall)
  have hcontinues : Allowed LogList.append (LogList.Continues codec) s entries :=
    hadmits.mono fun _ _ hentry => ⟨hentry.1, hentry.2.2⟩
  exact ⟨w', hok, h.refines.appendBatch hadmits hok, _, hmatches.appendBatch hcontinues hok⟩

/-- The truncations, as operations. -/
theorem truncate (h : w.Kept codec s) {op : Op} {keep : LogEntry → Bool} {index firstIndex : ℕ}
    (hop : w.step codec op = (w.truncate codec keep index firstIndex).mapError Prod.fst)
    (hallows : s.Allows codec op) (hcontinued : s.Continued codec op) :
    ∃ w', w.truncate codec keep index firstIndex = .ok w' ∧ w'.Kept codec (s.step op) := by
  obtain ⟨segs, hmatches⟩ := h.segments
  obtain ⟨w', -, hok, -⟩ := hmatches.intact.truncate keep index firstIndex
  have hstep : w.step codec op = .ok w' := by
    rw [hop, hok]
    rfl
  exact ⟨w', hok, h.refines.step hallows hstep, hmatches.step hcontinued hstep⟩

theorem truncateSuffix (h : w.Kept codec s) (keepIndex : ℕ) :
    ∃ w', w.truncateSuffix codec keepIndex = .ok w' ∧
      w'.Kept codec (s.step (.truncateSuffix keepIndex)) :=
  h.truncate rfl trivial trivial

theorem truncatePrefix (h : w.Kept codec s) (discardIndex : ℕ) :
    ∃ w', WAL.truncatePrefix codec w discardIndex = .ok w' ∧
      w'.Kept codec (s.step (.truncatePrefix discardIndex)) :=
  h.truncate rfl trivial trivial

/-- A new process finds the same list. -/
theorem openDir (h : w.Kept codec s) :
    ∃ w', WAL.openDir codec w.dir = .ok w' ∧ w'.Kept codec s := by
  obtain ⟨segs, htracks⟩ := h.refines
  obtain ⟨opened, hopen, hflushed, -⟩ :=
    openDir_ok htracks.toFlushed.stores htracks.ordered.sorted htracks.readable.active.decode
  have hordered : opened.Ordered segs s.last :=
    { htracks.ordered with holds := hflushed.toHolds, size := hflushed.size }
  refine ⟨opened, hopen, ⟨segs, { htracks with
    ordered := hordered
    flushed := hflushed.flushed }⟩, ?_⟩
  obtain ⟨segs', hmatches⟩ := h.segments
  obtain ⟨opened', segs'', hopen', hflushed', hperm⟩ :=
    openDir_any hmatches.intact.flushed.stores fun seg hseg =>
      (hmatches.intact.whole seg hseg).decode
  obtain rfl : opened' = opened := Except.ok.inj (hopen'.symm.trans hopen)
  refine ⟨segs'', ⟨hflushed', fun seg hseg => ?_⟩, ?_, hmatches.numbered.perm hperm,
    hmatches.positive⟩
  · exact hmatches.intact.whole seg (hperm.mem_iff.mp hseg)
  · exact (hperm.flatMap_right _).trans hmatches.entries

/-- The log on a directory in which only other files have changed. -/
theorem congr (h : w.Kept codec s) {dir : Directory} (hsame : SameSegments w.dir dir) :
    { w with dir := dir }.Kept codec s := by
  obtain ⟨segs, htracks⟩ := h.refines
  refine ⟨⟨segs, htracks.congr hsame⟩, ?_⟩
  obtain ⟨segs', hmatches⟩ := h.segments
  obtain ⟨file, hstores, hcontent⟩ := hmatches.intact.flushed.files
  have hholds : { w with dir := dir }.Holds segs' :=
    ⟨hmatches.intact.flushed.current, file, hstores.congr hsame, hcontent⟩
  exact ⟨segs', { hmatches with
    intact := ⟨⟨hholds, hmatches.intact.flushed.size, hmatches.intact.flushed.flushed⟩,
      hmatches.intact.whole⟩ }⟩

theorem readAll (h : w.Kept codec s) : w.readAll codec = .ok s.entries :=
  h.refines.readAll

end Kept

theorem kept_openDir {dir : Directory} (hdir : segmentPaths dir = [])
    (hopen : openDir codec dir = .ok w) : w.Kept codec .empty :=
  ⟨refines_openDir hdir hopen, _, matches_openDir hdir hopen⟩

end WAL

end RaftKV.Wal
