import RaftKV.Transition
import RaftKV.Wal.Layout

/-!
# The write-ahead log refines a list

`LogList` says what the log is for: a list of entries, appended to at increasing indices
and truncated at either end.  `WAL.Tracks` relates a log to such a list.  The segments
are in the order of their names, the active one is numbered at most one above the last
index (`WAL.Ordered`), and their entries are those of the list (`Segments.Readable`).

A new segment gets the index of the entry that did not fit.  That index is above the last
one, so it is at least the number of the active segment, and it is not equal to it because
the name would be taken.  Both truncations start over with a single segment.
-/

namespace RaftKV.Wal

open RaftKV.Raft (LogEntry)

/-! ## The list -/

/-- Entries, and the index behind which the list goes on. -/
structure LogList where
  entries : List LogEntry
  last : ℕ

/-- The operations on a log. -/
inductive Op
  | append (entry : LogEntry)
  | appendBatch (entries : List LogEntry)
  | truncateSuffix (keepIndex : ℕ)
  | truncatePrefix (discardIndex : ℕ)
  | reopen

namespace LogList

def empty : LogList := ⟨[], 0⟩

def append (s : LogList) (entry : LogEntry) : LogList :=
  ⟨s.entries ++ [entry], entry.index⟩

/-- The list behind a truncation; with nothing left it goes on behind `index`. -/
def truncate (s : LogList) (keep : LogEntry → Bool) (index : ℕ) : LogList :=
  ⟨s.entries.filter keep, ((s.entries.filter keep).getLast?.map LogEntry.index).getD index⟩

def step (s : LogList) : Op → LogList
  | .append entry => s.append entry
  | .appendBatch entries => entries.foldl append s
  | .truncateSuffix keepIndex => s.truncate (fun entry => entry.index ≤ keepIndex) 0
  | .truncatePrefix discardIndex =>
      s.truncate (fun entry => discardIndex < entry.index) discardIndex
  | .reopen => s

/-- The entry's index is above the last one, for example the next; it has at most 16
digits, and the payload's length fits its header. -/
def Admits (codec : EntryCodec) (s : LogList) (entry : LogEntry) : Prop :=
  s.last < entry.index ∧ entry.index < 10 ^ 16 ∧ Fits codec entry

instance (codec : EntryCodec) (s : LogList) (entry : LogEntry) :
    Decidable (s.Admits codec entry) :=
  inferInstanceAs (Decidable (_ ∧ _))

/-- Every entry that is appended is admitted. -/
def Allows (codec : EntryCodec) (s : LogList) : Op → Prop
  | .append entry => s.Admits codec entry
  | .appendBatch entries => Allowed append (Admits codec) s entries
  | _ => True

instance (codec : EntryCodec) (s : LogList) : (op : Op) → Decidable (s.Allows codec op)
  | .append entry => inferInstanceAs (Decidable (s.Admits codec entry))
  | .appendBatch entries => inferInstanceAs (Decidable (Allowed append (Admits codec) s entries))
  | .truncateSuffix _ => inferInstanceAs (Decidable True)
  | .truncatePrefix _ => inferInstanceAs (Decidable True)
  | .reopen => inferInstanceAs (Decidable True)

theorem foldl_append_entries (entries : List LogEntry) (s : LogList) :
    (entries.foldl append s).entries = s.entries ++ entries := by
  induction entries generalizing s with
  | nil => simp
  | cons entry rest ih =>
      rw [List.foldl_cons, ih, append, List.append_assoc, List.singleton_append]

end LogList

/-- An operation of the log. -/
def WAL.step (codec : EntryCodec) (w : WAL) : Op → Except WalError WAL
  | .append entry => (w.append codec entry).mapError Prod.fst
  | .appendBatch entries => (w.appendBatch codec entries).mapError Prod.fst
  | .truncateSuffix keepIndex => (w.truncateSuffix codec keepIndex).mapError Prod.fst
  | .truncatePrefix discardIndex => ( w.truncatePrefix codec discardIndex).mapError Prod.fst
  | .reopen => w.reopen codec

/-! ## Names -/

theorem segmentName_lt {m n : ℕ} (hn : n < 10 ^ 16) (h : m < n) :
    segmentName m < segmentName n := by
  unfold segmentName
  rw [padded_of_lt (h.trans hn), padded_of_lt hn]
  exact append_lt_append (by simp) (decimal_lt_decimal hn h) _ _

/-! ## Reading segments -/

section Readable

variable (codec : EntryCodec)

/-- The entries that reading a segment gives. -/
def Segment.entries (s : Segment) : List LogEntry :=
  (decode codec s.2).getD []

/-- The segment consists of the records of its entries. -/
structure Segment.Whole (s : Segment) : Prop where
  bytes : s.2 = records codec (s.entries codec)
  fits : ∀ entry ∈ s.entries codec, Fits codec entry

def Segments.entries (segs : Segments) : List LogEntry :=
  segs.all.flatMap (Segment.entries codec)

/-- Every segment can be read, and the active one ends with a whole record. -/
structure Segments.Readable (segs : Segments) : Prop where
  front : ∀ s ∈ segs.front, decode codec s.2 = some (s.entries codec)
  active : Segment.Whole codec (segs.number, segs.content)

variable {codec}

theorem decode_records_self {entries : List LogEntry}
    (h : ∀ entry ∈ entries, Fits codec entry) :
    decode codec (records codec entries) = some entries := by
  have hnil : readFrame checksumIEEE [] = none := rfl
  have := decode_records_torn h hnil
  rwa [List.append_nil] at this

theorem Segment.entries_of_decode {s : Segment} {entries : List LogEntry}
    (h : decode codec s.2 = some entries) : s.entries codec = entries := by
  unfold Segment.entries
  rw [h]
  rfl

theorem Segment.whole_records {n : ℕ} {entries : List LogEntry}
    (h : ∀ entry ∈ entries, Fits codec entry) :
    Segment.Whole codec (n, records codec entries) := by
  have heq : Segment.entries codec (n, records codec entries) = entries :=
    Segment.entries_of_decode (decode_records_self h)
  exact ⟨by rw [heq], by rwa [heq]⟩

theorem Segment.Whole.decode {s : Segment} (h : Segment.Whole codec s) :
    Wal.decode codec s.2 = some (s.entries codec) := by
  have := decode_records_self h.fits
  rwa [← h.bytes] at this

namespace Segments

variable {segs : Segments}

theorem Readable.decode (h : segs.Readable codec) :
    ∀ s ∈ segs.all, Wal.decode codec s.2 = some (s.entries codec) := by
  intro s hs
  rcases List.mem_append.mp hs with hs | hs
  · exact h.front s hs
  · rw [List.mem_singleton.mp hs]
    exact h.active.decode

/-- An active segment that consists of whole records, behind segments that can be read. -/
theorem readable_records {n : ℕ} {entries : List LogEntry} {front : List Segment}
    (hfront : ∀ s ∈ front, decode codec s.2 = some (s.entries codec))
    (h : ∀ entry ∈ entries, Fits codec entry) :
    (Segments.mk front n (records codec entries)).Readable codec ∧
      (Segments.mk front n (records codec entries)).entries codec =
        front.flatMap (Segment.entries codec) ++ entries := by
  refine ⟨⟨hfront, Segment.whole_records h⟩, ?_⟩
  unfold Segments.entries all
  rw [List.flatMap_append, List.flatMap_singleton,
    Segment.entries_of_decode (decode_records_self h)]

/-- Writing an entry behind whole records. -/
theorem Readable.place (h : segs.Readable codec) {entry : LogEntry} (hfits : Fits codec entry) :
    (segs.place codec entry).Readable codec ∧
      (segs.place codec entry).entries codec = segs.entries codec ++ [entry] := by
  unfold Segments.place
  split
  · rw [← records_singleton]
    exact readable_records h.decode (by simpa using hfits)
  · have hbytes : segs.content ++ record codec entry =
        records codec (Segment.entries codec (segs.number, segs.content) ++ [entry]) := by
      rw [records_append, records_singleton, ← h.active.bytes]
    have hall : ∀ e ∈ Segment.entries codec (segs.number, segs.content) ++ [entry],
        Fits codec e := by
      intro e he
      rcases List.mem_append.mp he with he | he
      · exact h.active.fits e he
      · exact List.mem_singleton.mp he ▸ hfits
    rw [hbytes]
    obtain ⟨hreadable, hentries⟩ := readable_records (n := segs.number) h.front hall
    refine ⟨hreadable, hentries.trans ?_⟩
    unfold Segments.entries all
    rw [List.flatMap_append, List.flatMap_singleton, List.append_assoc]

theorem Readable.foldl_place (h : segs.Readable codec) {entries : List LogEntry}
    (hfits : ∀ entry ∈ entries, Fits codec entry) :
    (entries.foldl (Segments.place codec) segs).Readable codec ∧
      (entries.foldl (Segments.place codec) segs).entries codec =
        segs.entries codec ++ entries := by
  induction entries generalizing segs with
  | nil => exact ⟨h, (List.append_nil _).symm⟩
  | cons entry rest ih =>
      obtain ⟨hreadable, hentries⟩ := h.place (hfits entry List.mem_cons_self)
      obtain ⟨hall, hrest⟩ := ih hreadable fun e he => hfits e (List.mem_cons_of_mem _ he)
      refine ⟨hall, ?_⟩
      rw [List.foldl_cons, hrest, hentries, List.append_assoc, List.singleton_append]

/-- The names stay in order when an entry is written whose index is at least the number of
the active segment. -/
theorem place_sorted (hsorted : segs.names.Pairwise (· < ·)) {entry : LogEntry}
    (hle : segs.number ≤ entry.index) (hbound : entry.index < 10 ^ 16)
    (hdistinct : (segs.place codec entry).names.Nodup) :
    (segs.place codec entry).names.Pairwise (· < ·) := by
  unfold Segments.place at hdistinct ⊢
  split at hdistinct
  · next hbig =>
      rw [if_pos hbig]
      have hnames : (Segments.mk segs.all entry.index (record codec entry)).names =
          segs.names ++ [segmentName entry.index] := by
        unfold names
        rw [all, List.map_append]
        rfl
      rw [hnames] at hdistinct ⊢
      have hne : segs.number ≠ entry.index := by
        intro heq
        have hmem : segmentName entry.index ∈ segs.names := by
          rw [← heq]
          simp [names, all, Segment.name]
        exact (List.nodup_append.mp hdistinct).2.2 _ hmem _ (List.mem_singleton_self _) rfl
      have hlast : segmentName segs.number < segmentName entry.index :=
        segmentName_lt hbound (lt_of_le_of_ne hle hne)
      refine List.pairwise_append.mpr ⟨hsorted, List.pairwise_singleton _ _, ?_⟩
      intro x hx y hy
      rw [List.mem_singleton.mp hy]
      unfold names all at hx hsorted
      rw [List.map_append, List.pairwise_append] at hsorted
      rw [List.map_append, List.mem_append] at hx
      rcases hx with hx | hx
      · exact (hsorted.2.2 x hx _ (List.mem_singleton_self _)).trans hlast
      · exact List.mem_singleton.mp hx ▸ hlast
  · next hsmall =>
      rw [if_neg hsmall]
      simpa [names, all, Segment.name] using hsorted

theorem number_place_le {entry : LogEntry} (h : segs.number ≤ entry.index) :
    (segs.place codec entry).number ≤ entry.index := by
  unfold Segments.place
  split
  · exact le_rfl
  · exact h

end Segments

end Readable

/-! ## The order of the segments -/

namespace WAL

variable {w w' : WAL} {segs : Segments} {s : LogList} {codec : EntryCodec}

/-- The log writes to these segments, they are in the order of their names, and the active
one is numbered at most one above the last index. -/
structure Ordered (w : WAL) (segs : Segments) (last : ℕ) : Prop where
  holds : w.Holds segs
  size : w.size = segs.content.length
  sorted : segs.names.Pairwise (· < ·)
  number_le : segs.number ≤ last + 1

theorem Holds.distinct (h : w.Holds segs) : segs.names.Nodup := by
  obtain ⟨file, hstores, -⟩ := h.files
  simpa [Segments.names, Segments.all, Segment.name] using hstores.distinct

theorem Ordered.appendEntry (h : w.Ordered segs s.last) {entry : LogEntry}
    (hadmits : s.Admits codec entry) (hok : w.appendEntry codec entry = .ok w') :
    w'.Ordered (segs.place codec entry) (s.append entry).last := by
  obtain ⟨hlast, hbound, -⟩ := hadmits
  obtain ⟨hholds, hsize⟩ := h.holds.appendEntry h.size hok
  have hle : segs.number ≤ entry.index := h.number_le.trans hlast
  refine ⟨hholds, hsize, Segments.place_sorted h.sorted hle hbound hholds.distinct, ?_⟩
  exact (Segments.number_place_le hle).trans (Nat.le_succ _)

theorem Ordered.foldlM_appendEntry (h : w.Ordered segs s.last) {entries : List LogEntry}
    (hadmits : Allowed LogList.append (LogList.Admits codec) s entries)
    (hok : entries.foldlM (WAL.appendEntry codec) w = .ok w') :
    w'.Ordered (entries.foldl (Segments.place codec) segs) (entries.foldl .append s).last := by
  induction entries generalizing w segs s with
  | nil =>
      obtain rfl : w = w' := Except.ok.inj hok
      exact h
  | cons entry rest ih =>
      rw [List.foldlM_cons] at hok
      obtain ⟨next, hnext, hrest⟩ := exists_ok_of_bind hok
      exact ih (h.appendEntry hadmits.1 hnext) hadmits.2 hrest

theorem Ordered.appendBatch (h : w.Ordered segs s.last) (hflushed : w.Flushed segs)
    {entries : List LogEntry} (hadmits : Allowed LogList.append (LogList.Admits codec) s entries)
    (hok : w.appendBatch codec entries = .ok w') :
    w'.Ordered (entries.foldl (Segments.place codec) segs) (entries.foldl .append s).last := by
  have hafter := hflushed.appendBatch hok
  unfold WAL.appendBatch at hok
  split at hok
  · next hnil =>
      obtain rfl : w = w' := Except.ok.inj hok
      rw [hnil]
      exact h
  · obtain ⟨written, hwritten, -⟩ := exists_ok_of_bind hok
    have hall := h.foldlM_appendEntry hadmits hwritten
    exact { hall with holds := hafter.toHolds, size := hafter.size }

/-- Reading the files of segments in order. -/
theorem readSegments_of_sorted {dir : Directory} {segs : List Segment} (hstores : Stores dir segs)
    (hsorted : (segs.map Segment.name).Pairwise (· < ·))
    (hdecode : ∀ s ∈ segs, decode codec s.2 = some (s.entries codec)) :
    readSegments codec dir = .ok (segs.flatMap (Segment.entries codec)) :=
  hstores.readSegments_eq hsorted hdecode

theorem fits_of_admits {entries : List LogEntry}
    (h : Allowed LogList.append (LogList.Admits codec) s entries) :
    ∀ entry ∈ entries, Fits codec entry := by
  induction entries generalizing s with
  | nil => simp
  | cons first rest ih =>
      intro entry hentry
      rcases List.mem_cons.mp hentry with rfl | hentry
      · exact h.1.2.2
      · exact ih h.2 entry hentry

/-! ## The refinement -/

/-- Between operations: the segments can be read and hold the list, and nothing is held
back. -/
structure Tracks (codec : EntryCodec) (w : WAL) (segs : Segments) (s : LogList) : Prop where
  ordered : w.Ordered segs s.last
  flushed : w.buffered = []
  readable : segs.Readable codec
  entries : segs.entries codec = s.entries
  fits : ∀ entry ∈ s.entries, Fits codec entry

def Refines (codec : EntryCodec) (w : WAL) (s : LogList) : Prop :=
  ∃ segs, w.Tracks codec segs s

theorem Tracks.toFlushed (h : w.Tracks codec segs s) : w.Flushed segs :=
  ⟨h.ordered.holds, h.ordered.size, h.flushed⟩

theorem Refines.appendBatch (h : w.Refines codec s) {entries : List LogEntry}
    (hadmits : Allowed LogList.append (LogList.Admits codec) s entries)
    (hok : w.appendBatch codec entries = .ok w') :
    w'.Refines codec (entries.foldl .append s) := by
  obtain ⟨segs, htracks⟩ := h
  have hfits := fits_of_admits hadmits
  obtain ⟨hreadable, hentries⟩ := htracks.readable.foldl_place hfits
  refine ⟨_, htracks.ordered.appendBatch htracks.toFlushed hadmits hok,
    (htracks.toFlushed.appendBatch hok).flushed, hreadable, ?_, ?_⟩
  · rw [hentries, htracks.entries, LogList.foldl_append_entries]
  · intro entry hentry
    rw [LogList.foldl_append_entries, List.mem_append] at hentry
    exact hentry.elim (htracks.fits entry) (hfits entry)

theorem Tracks.readSegments {dir : Directory} (h : w.Tracks codec segs s)
    (hstores : Stores dir segs.all) : readSegments codec dir = .ok s.entries := by
  rw [← h.entries]
  exact readSegments_of_sorted hstores h.ordered.sorted h.readable.decode

theorem Refines.readAll (h : w.Refines codec s) : w.readAll codec = .ok s.entries := by
  obtain ⟨segs, htracks⟩ := h
  exact htracks.readSegments htracks.toFlushed.stores

/-- A truncation, whose new segment is numbered low enough for what comes next. -/
theorem Refines.truncate (h : w.Refines codec s) {keep : LogEntry → Bool}
    {index firstIndex : ℕ} (hindex : firstIndex ≤ index + 1)
    (hkeep : ∀ entry, keep entry → firstIndex ≤ entry.index + 1)
    (hok : w.truncate codec keep index firstIndex = .ok w') :
    w'.Refines codec (s.truncate keep index) := by
  obtain ⟨segs, htracks⟩ := h
  have hflushed := htracks.toFlushed
  have hread := htracks.readSegments hflushed.closeCurrent.1
  have hnew := flushed_truncate hread hok
  have hfits : ∀ entry ∈ s.entries.filter keep, Fits codec entry := fun entry hentry =>
    htracks.fits entry (List.mem_of_mem_filter hentry)
  have hfront : ∀ seg ∈ ([] : List Segment), decode codec seg.2 = some (seg.entries codec) := by
    simp
  obtain ⟨hreadable, hentries⟩ := Segments.readable_records (n := firstIndex) hfront hfits
  refine ⟨_, ⟨hnew.toHolds, hnew.size, ?_, ?_⟩, hnew.flushed, hreadable, hentries, hfits⟩
  · simp [Segments.names, Segments.all]
  · unfold LogList.truncate
    cases hlast : (s.entries.filter keep).getLast? with
    | none => exact hindex
    | some entry =>
        have hmem := List.mem_of_getLast? hlast
        exact hkeep entry (List.mem_filter.mp hmem).2

theorem Refines.truncateSuffix (h : w.Refines codec s) {keepIndex : ℕ}
    (hok : w.truncateSuffix codec keepIndex = .ok w') :
    w'.Refines codec (s.step (.truncateSuffix keepIndex)) :=
  h.truncate (by omega) (fun _ _ => by omega) hok

theorem Refines.truncatePrefix (h : w.Refines codec s) {discardIndex : ℕ}
    (hok : w.truncatePrefix codec discardIndex = .ok w') :
    w'.Refines codec (s.step (.truncatePrefix discardIndex)) := by
  have hmod : (discardIndex + 1) % 2 ^ 64 ≤ discardIndex + 1 := Nat.mod_le _ _
  refine h.truncate hmod (fun entry hentry => ?_) hok
  have : discardIndex < entry.index := by simpa using hentry
  omega

theorem Refines.reopen (h : w.Refines codec s) (hok : w.reopen codec = .ok w') :
    w'.Refines codec s := by
  obtain ⟨segs, htracks⟩ := h
  have hstores := htracks.toFlushed.closeCurrent.1
  obtain ⟨opened, hopen, hflushed, -⟩ :=
    openDir_ok hstores htracks.ordered.sorted htracks.readable.active.decode
  obtain rfl : opened = w' := Except.ok.inj (hopen.symm.trans hok)
  have hordered : opened.Ordered segs s.last :=
    { htracks.ordered with holds := hflushed.toHolds, size := hflushed.size }
  exact ⟨segs, { htracks with ordered := hordered, flushed := hflushed.flushed }⟩

theorem ok_of_mapError {α ε ε' : Type} {f : ε → ε'} {x : Except ε α} {y : α}
    (h : x.mapError f = .ok y) : x = .ok y := by
  cases x with
  | error err => simp [Except.mapError] at h
  | ok a =>
      obtain rfl : a = y := Except.ok.inj h
      rfl

/-- Every operation that succeeds does to the log what it does to the list. -/
theorem Refines.step (h : w.Refines codec s) {op : Op} (hallows : s.Allows codec op)
    (hok : w.step codec op = .ok w') : w'.Refines codec (s.step op) := by
  cases op with
  | append entry =>
      have happend := ok_of_mapError hok
      have hadmits : Allowed LogList.append (LogList.Admits codec) s [entry] :=
        ⟨hallows, trivial⟩
      rw [append_eq_appendBatch] at happend
      exact h.appendBatch hadmits happend
  | appendBatch entries => exact h.appendBatch hallows (ok_of_mapError hok)
  | truncateSuffix keepIndex => exact h.truncateSuffix (ok_of_mapError hok)
  | truncatePrefix discardIndex => exact h.truncatePrefix (ok_of_mapError hok)
  | reopen => exact h.reopen hok

theorem Refines.run (h : w.Refines codec s) {ops : List Op}
    (hallowed : Allowed LogList.step (LogList.Allows codec) s ops)
    (hrun : ops.foldlM (WAL.step codec) w = .ok w') :
    w'.Refines codec (ops.foldl LogList.step s) := by
  induction ops generalizing w s with
  | nil =>
      obtain rfl : w = w' := Except.ok.inj hrun
      exact h
  | cons op rest ih =>
      rw [List.foldlM_cons] at hrun
      obtain ⟨next, hnext, hrest⟩ := exists_ok_of_bind hrun
      exact ih (h.step hallowed.1 hnext) hallowed.2 hrest

theorem refines_openDir {dir : Directory} (hdir : segmentPaths dir = [])
    (hopen : openDir codec dir = .ok w) : w.Refines codec .empty := by
  obtain ⟨opened, hok, hflushed⟩ := openDir_empty codec (Stores.of_paths_eq_nil hdir)
  obtain rfl : opened = w := Except.ok.inj (hok.symm.trans hopen)
  have hnil : ∀ entry ∈ ([] : List LogEntry), Fits codec entry := by simp
  have hfront : ∀ seg ∈ ([] : List Segment), decode codec seg.2 = some (seg.entries codec) := by
    simp
  obtain ⟨hreadable, hentries⟩ := Segments.readable_records (n := 1) hfront hnil
  refine ⟨_, ⟨hflushed.toHolds, hflushed.size, ?_, le_rfl⟩, hflushed.flushed, hreadable,
    hentries, hnil⟩
  simp [Segments.names, Segments.all]

/-- The log refines a list.  From a directory without segments on, after any operations
that succeed, with entries appended at increasing indices of at most 16 digits, reading
gives exactly the list that the same operations leave, in order. -/
theorem readAll_run (codec : EntryCodec) {dir : Directory} (hdir : segmentPaths dir = [])
    {w₀ w : WAL} (hopen : openDir codec dir = .ok w₀) {ops : List Op}
    (hallowed : Allowed LogList.step (LogList.Allows codec) .empty ops)
    (hrun : ops.foldlM (WAL.step codec) w₀ = .ok w) :
    w.readAll codec = .ok (ops.foldl LogList.step .empty).entries :=
  ((refines_openDir hdir hopen).run hallowed hrun).readAll

/-- Appending, truncating at both ends and reopening. -/
def mixedOps : List Op :=
  [.append ⟨1, 1, [7]⟩, .appendBatch [⟨2, 1, [8]⟩, ⟨3, 1, []⟩, ⟨4, 1, [9]⟩], .truncateSuffix 3,
    .reopen, .append ⟨4, 2, [10]⟩, .truncatePrefix 2, .reopen, .append ⟨5, 2, [11]⟩]

theorem exists_ok_of_toBool {α ε : Type} {x : Except ε α} (h : x.toBool = true) :
    ∃ a, x = .ok a := by
  cases x with
  | error err => simp [Except.toBool] at h
  | ok a => exact ⟨a, rfl⟩

theorem readAll_mixedOps :
    ∃ w₀ w, openDir wireCodec ∅ = .ok w₀ ∧ mixedOps.foldlM (WAL.step wireCodec) w₀ = .ok w ∧
      w.readAll wireCodec = .ok [⟨3, 1, []⟩, ⟨4, 2, [10]⟩, ⟨5, 2, [11]⟩] := by
  have hruns : (openDir wireCodec ∅ >>= mixedOps.foldlM (WAL.step wireCodec)).toBool = true := by
    decide +kernel
  obtain ⟨w, hw⟩ := exists_ok_of_toBool hruns
  obtain ⟨w₀, hopen, hrun⟩ := exists_ok_of_bind hw
  have hallowed : Allowed LogList.step (LogList.Allows wireCodec) .empty mixedOps := by
    decide +kernel
  exact ⟨w₀, w, hopen, hrun, readAll_run wireCodec (by decide) hopen hallowed hrun⟩

end WAL

end RaftKV.Wal
