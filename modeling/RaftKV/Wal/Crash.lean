import RaftKV.Wal.Refinement

/-!
# Crashes of the write-ahead log

A crash leaves the files.  Two things are looked at here.

*A torn tail.*  The last segment may be cut anywhere.  Reading stops at the cut, but
`Open` goes on writing behind the bytes of the record that was cut, and the reader never
gets past that record.  What is appended is found again if the cut is between two
records, if the first new record no longer fits the damaged segment, or if nothing is
appended at all.

*A truncation that is interrupted.*  All segments are removed, from the oldest on, before
what is kept is written again.  In between, reading gives the segments that are left, and
later the records that are complete.
-/

namespace RaftKV.Wal

open RaftKV.Raft (LogEntry)

section Codec

variable (codec : EntryCodec)

def recordSize (entry : LogEntry) : ℕ :=
  headerSize + (codec.marshal entry).length

variable {codec}

/-- The records of a cut segment, and what is left of the next one. -/
theorem take_records {entries : List LogEntry} (h : ∀ entry ∈ entries, Fits codec entry)
    (cut : ℕ) :
    ∃ torn, (records codec entries).take cut =
        records codec (within (recordSize codec) cut entries) ++ torn ∧
      readFrame checksumIEEE torn = none := by
  have hfits : ∀ p ∈ entries.map codec.marshal, p.length < 2 ^ 32 := by
    intro p hp
    obtain ⟨entry, hentry, rfl⟩ := List.mem_map.mp hp
    exact h entry hentry
  obtain ⟨torn, htake, hnone⟩ := @take_frames checksumIEEE _ hfits cut
  refine ⟨torn, ?_, hnone⟩
  rw [within_map] at htake
  exact htake

theorem length_records_cons (entry : LogEntry) (rest : List LogEntry) :
    (records codec (entry :: rest)).length =
      recordSize codec entry + (records codec rest).length := by
  rw [← List.singleton_append, records_append, records_singleton, List.length_append,
    WAL.length_record]
  rfl

/-- All records are complete exactly if all bytes are there. -/
theorem within_eq_self_iff (entries : List LogEntry) (n : ℕ) :
    within (recordSize codec) n entries = entries ↔ (records codec entries).length ≤ n := by
  induction entries generalizing n with
  | nil => simp [within]
  | cons entry rest ih =>
      rw [within, length_records_cons]
      split
      · next hle =>
          rw [List.cons_inj_right, ih]
          omega
      · next hlt =>
          constructor
          · intro heq
            simp at heq
          · intro hle
            omega

end Codec

namespace WAL

variable {w w' : WAL} {segs : Segments} {s : LogList} {codec : EntryCodec}

/-- Opening and reading segments of which each can be read; without any, the first is
created. -/
theorem readAll_openDir {dir : Directory} {left : List Segment} (hstores : Stores dir left)
    (hsorted : (left.map Segment.name).Pairwise (· < ·))
    (hdecode : ∀ s ∈ left, decode codec s.2 = some (s.entries codec)) :
    ∃ w', openDir codec dir = .ok w' ∧
      w'.readAll codec = .ok (left.flatMap (Segment.entries codec)) := by
  rcases List.eq_nil_or_concat left with rfl | ⟨front, last, rfl⟩
  · obtain ⟨w', hopen, hflushed⟩ := openDir_empty codec hstores
    have hfirst : ∀ seg ∈ (Segments.mk [] 1 []).all,
        decode codec seg.2 = some (seg.entries codec) := by
      intro seg hseg
      rw [List.mem_singleton.mp hseg]
      rfl
    have hread := readSegments_of_sorted hflushed.stores (List.pairwise_singleton _ _) hfirst
    exact ⟨w', hopen, hread⟩
  · rw [List.concat_eq_append] at hstores hsorted hdecode ⊢
    have hall : Stores dir (Segments.mk front last.1 last.2).all := hstores
    obtain ⟨w', hopen, -, hdir⟩ := openDir_ok hall hsorted (hdecode last (by simp))
    refine ⟨w', hopen, ?_⟩
    unfold WAL.readAll
    rw [hdir]
    exact readSegments_of_sorted hstores hsorted hdecode

end WAL

/-! ## A torn tail -/

/-- The directory after a crash that left `cut` bytes of the last segment. -/
def WAL.tear (w : WAL) (cut : ℕ) : Directory :=
  match (segmentPaths w.dir).getLast? with
  | none => w.dir
  | some last => w.dir.insert last (((w.dir.lookup last).getD []).take cut)

/-- Closing, opening again and reading gives these entries. -/
def WAL.ReadsBack (codec : EntryCodec) (w : WAL) (entries : List LogEntry) : Prop :=
  ∃ w', w.reopen codec = .ok w' ∧ w'.readAll codec = .ok entries

namespace Segments

variable {segs : Segments} {codec : EntryCodec}

def cut (segs : Segments) (c : ℕ) : Segments :=
  ⟨segs.front, segs.number, segs.content.take c⟩

section Codec

variable (codec) (segs)

def activeEntries : List LogEntry :=
  Segment.entries codec (segs.number, segs.content)

/-- The entries whose records are complete when the last segment is cut. -/
def survivors (c : ℕ) : List LogEntry :=
  segs.front.flatMap (Segment.entries codec) ++
    within (recordSize codec) c (segs.activeEntries codec)

/-- What the cut leaves of the record that it goes through. -/
def torn (c : ℕ) : Bytes :=
  (segs.content.take c).drop
    (records codec (within (recordSize codec) c (segs.activeEntries codec))).length

/-- The cut is between two records, or no record is written behind the torn one. -/
def Recovers (c : ℕ) (appended : List LogEntry) : Prop :=
  segs.torn codec c = [] ∨
    ∀ first ∈ appended.head?,
      maxSegmentSize < (segs.content.take c).length + recordSize codec first

end Codec

theorem Readable.cut_content (h : segs.Readable codec) (c : ℕ) :
    (segs.cut c).content =
        records codec (within (recordSize codec) c (segs.activeEntries codec)) ++
          segs.torn codec c ∧
      readFrame checksumIEEE (segs.torn codec c) = none := by
  obtain ⟨rest, htake, hnone⟩ := take_records h.active.fits c
  rw [← h.active.bytes] at htake
  have htorn : segs.torn codec c = rest := by
    unfold torn
    rw [htake]
    exact List.drop_left
  rw [htorn]
  exact ⟨htake, hnone⟩

theorem Readable.fits_within (h : segs.Readable codec) (c : ℕ) :
    ∀ entry ∈ within (recordSize codec) c (segs.activeEntries codec), Fits codec entry :=
  fun entry hentry => h.active.fits entry ((within_isPrefix _ _ _).subset hentry)

theorem Readable.decode_cut (h : segs.Readable codec) (c : ℕ) :
    Wal.decode codec (segs.cut c).content =
      some (within (recordSize codec) c (segs.activeEntries codec)) := by
  obtain ⟨hcontent, hnone⟩ := h.cut_content c
  rw [hcontent]
  exact decode_records_torn (h.fits_within c) hnone

/-- Whole records with something unreadable behind them. -/
theorem decode_all_torn {front : List Segment} {n : ℕ} {whole : List LogEntry} {rest : Bytes}
    (hfront : ∀ s ∈ front, decode codec s.2 = some (s.entries codec))
    (hwhole : ∀ entry ∈ whole, Fits codec entry) (hnone : readFrame checksumIEEE rest = none) :
    (∀ s ∈ (Segments.mk front n (records codec whole ++ rest)).all,
        decode codec s.2 = some (s.entries codec)) ∧
      (Segments.mk front n (records codec whole ++ rest)).entries codec =
        front.flatMap (Segment.entries codec) ++ whole := by
  have hactive : decode codec (records codec whole ++ rest) = some whole :=
    decode_records_torn hwhole hnone
  have hentries : Segment.entries codec (n, records codec whole ++ rest) = whole :=
    Segment.entries_of_decode hactive
  refine ⟨?_, ?_⟩
  · intro s hs
    rcases List.mem_append.mp hs with hs | hs
    · exact hfront s hs
    · rw [List.mem_singleton.mp hs, hentries]
      exact hactive
  · rw [entries, all, List.flatMap_append, List.flatMap_singleton, hentries]

/-- A cut segment can be read. -/
theorem Readable.decode_all_cut (h : segs.Readable codec) (c : ℕ) :
    (∀ s ∈ (segs.cut c).all, Wal.decode codec s.2 = some (s.entries codec)) ∧
      (segs.cut c).entries codec = segs.survivors codec c := by
  obtain ⟨hcontent, hnone⟩ := h.cut_content c
  have hcut : segs.cut c = ⟨segs.front, segs.number, (segs.cut c).content⟩ := rfl
  rw [hcut, hcontent]
  exact decode_all_torn h.front (h.fits_within c) hnone

/-- Where nothing is written behind a torn record, everything is found again. -/
theorem Readable.foldl_place_cut (h : segs.Readable codec) {c : ℕ} {appended : List LogEntry}
    (hfits : ∀ entry ∈ appended, Fits codec entry) (hrecovers : segs.Recovers codec c appended) :
    (∀ s ∈ (appended.foldl (Segments.place codec) (segs.cut c)).all,
        Wal.decode codec s.2 = some (s.entries codec)) ∧
      (appended.foldl (Segments.place codec) (segs.cut c)).entries codec =
        segs.survivors codec c ++ appended := by
  obtain ⟨hdecode, hentries⟩ := h.decode_all_cut c
  rcases hrecovers with hclean | hroll
  · have hwhole : (segs.cut c).Readable codec := by
      have hcontent := (h.cut_content c).1
      rw [hclean, List.append_nil] at hcontent
      have hrecords := Segment.whole_records (n := segs.number) (h.fits_within c)
      refine ⟨h.front, ?_⟩
      rw [hcontent]
      exact hrecords
    obtain ⟨hreadable, hall⟩ := hwhole.foldl_place hfits
    exact ⟨hreadable.decode, by rw [hall, hentries]⟩
  · cases appended with
    | nil => exact ⟨hdecode, by rw [List.foldl_nil, hentries, List.append_nil]⟩
    | cons first rest =>
        have hbig := hroll first rfl
        have hplace : (segs.cut c).place codec first =
            ⟨(segs.cut c).all, first.index, records codec [first]⟩ := by
          rw [records_singleton]
          exact if_pos hbig
        have hone : ∀ entry ∈ [first], Fits codec entry := by
          simpa using hfits first List.mem_cons_self
        obtain ⟨hreadable, hfirst⟩ := readable_records (n := first.index) hdecode hone
        obtain ⟨hall, hrest⟩ := hreadable.foldl_place
          fun entry hentry => hfits entry (List.mem_cons_of_mem _ hentry)
        rw [List.foldl_cons, hplace]
        refine ⟨hall.decode, ?_⟩
        have hsurvivors : (segs.cut c).all.flatMap (Segment.entries codec) =
            segs.survivors codec c := hentries
        rw [hrest, hfirst, hsurvivors, List.append_assoc, List.singleton_append]

/-- Behind a record that is rejected, entries are written in vain as long as they fit. -/
theorem length_foldl_place_torn {front : List Segment} {n : ℕ} {whole appended : List LogEntry}
    {rest : Bytes} (placed : List LogEntry)
    (hfront : ∀ s ∈ front, decode codec s.2 = some (s.entries codec))
    (hwhole : ∀ entry ∈ whole, Fits codec entry)
    (hfits : ∀ entry ∈ appended, Fits codec entry)
    (hreject : ∀ k, readFrame checksumIEEE
      (rest ++ records codec (placed ++ appended.take k)) = none) :
    (∀ s ∈ (appended.foldl (Segments.place codec)
        ⟨front, n, records codec whole ++ (rest ++ records codec placed)⟩).all,
        decode codec s.2 = some (s.entries codec)) ∧
      ((appended.foldl (Segments.place codec)
        ⟨front, n, records codec whole ++ (rest ++ records codec placed)⟩).entries codec).length ≤
        (front.flatMap (Segment.entries codec)).length + whole.length + appended.length := by
  induction appended generalizing placed with
  | nil =>
      have hnone := hreject 0
      rw [List.take_nil, List.append_nil] at hnone
      obtain ⟨hdecode, hentries⟩ := decode_all_torn (n := n) hfront hwhole hnone
      refine ⟨hdecode, ?_⟩
      rw [List.foldl_nil, hentries, List.length_append, List.length_nil, Nat.add_zero]
  | cons entry later ih =>
      have hlater : ∀ e ∈ later, Fits codec e := fun e he => hfits e (List.mem_cons_of_mem _ he)
      rw [List.foldl_cons]
      by_cases hbig : (records codec whole ++ (rest ++ records codec placed)).length +
          (headerSize + (codec.marshal entry).length) > maxSegmentSize
      · -- the entry goes into a segment of its own, and so the rest is found again
        have hnone := hreject 0
        rw [List.take_zero, List.append_nil] at hnone
        obtain ⟨hall, hentries⟩ := decode_all_torn (n := n) hfront hwhole hnone
        have hone : ∀ e ∈ [entry], Fits codec e := by
          simpa using hfits entry List.mem_cons_self
        obtain ⟨hreadable, hfirst⟩ := readable_records (n := entry.index) hall hone
        obtain ⟨hdecode, hrest⟩ := hreadable.foldl_place hlater
        rw [place, if_pos hbig, ← records_singleton]
        refine ⟨hdecode.decode, ?_⟩
        unfold entries at hentries
        rw [hrest, hfirst, hentries]
        simp only [List.length_append, List.length_cons, List.length_nil]
        omega
      · have hplaced : records codec whole ++ (rest ++ records codec placed) ++
            record codec entry =
              records codec whole ++ (rest ++ records codec (placed ++ [entry])) := by
          rw [records_append, records_singleton, List.append_assoc, List.append_assoc]
        rw [place, if_neg hbig, hplaced]
        obtain ⟨hdecode, hlength⟩ := ih (placed ++ [entry]) hlater fun k => by
          have := hreject (k + 1)
          rwa [List.take_succ_cons, ← List.singleton_append, ← List.append_assoc] at this
        refine ⟨hdecode, hlength.trans ?_⟩
        rw [List.length_cons]
        omega

/-- Where an entry is written behind a torn record that the reader rejects, fewer entries
are found than there should be. -/
theorem Readable.length_foldl_place_cut (h : segs.Readable codec) {c : ℕ}
    {appended : List LogEntry} (hfits : ∀ entry ∈ appended, Fits codec entry)
    (hreject : ∀ k, readFrame checksumIEEE
      (segs.torn codec c ++ records codec (appended.take k)) = none)
    (hrecovers : ¬ segs.Recovers codec c appended) :
    (∀ s ∈ (appended.foldl (Segments.place codec) (segs.cut c)).all,
        Wal.decode codec s.2 = some (s.entries codec)) ∧
      ((appended.foldl (Segments.place codec) (segs.cut c)).entries codec).length <
        (segs.survivors codec c ++ appended).length := by
  unfold Recovers at hrecovers
  push Not at hrecovers
  obtain ⟨-, first, hfirst, hsmall⟩ := hrecovers
  cases appended with
  | nil => simp at hfirst
  | cons entry rest =>
      obtain rfl : entry = first := by simpa using hfirst
      have hplace : (segs.cut c).place codec entry =
          ⟨segs.front, segs.number,
            records codec (within (recordSize codec) c (segs.activeEntries codec)) ++
              (segs.torn codec c ++ records codec [entry])⟩ := by
        rw [records_singleton, ← List.append_assoc, ← (h.cut_content c).1]
        exact if_neg (not_lt.mpr hsmall)
      have hreject' : ∀ k, readFrame checksumIEEE
          (segs.torn codec c ++ records codec ([entry] ++ rest.take k)) = none := fun k => by
        have := hreject (k + 1)
        rwa [List.take_succ_cons] at this
      obtain ⟨hdecode, hlength⟩ := length_foldl_place_torn (n := segs.number) [entry] h.front
        (h.fits_within c) (fun e he => hfits e (List.mem_cons_of_mem _ he)) hreject'
      rw [List.foldl_cons, hplace]
      refine ⟨hdecode, hlength.trans_lt ?_⟩
      simp only [survivors, List.length_append, List.length_cons]
      omega

end Segments

namespace WAL

variable {w w₁ w₂ : WAL} {segs : Segments} {s : LogList} {codec : EntryCodec}

theorem names_cut (segs : Segments) (c : ℕ) : (segs.cut c).names = segs.names := by
  simp [Segments.names, Segments.all, Segments.cut, Segment.name]

theorem tear_eq {name : FileName} {file : Bytes}
    (hlast : (segmentPaths w.dir).getLast? = some name) (hfile : w.dir.lookup name = some file)
    (c : ℕ) : w.tear c = w.dir.insert name (file.take c) := by
  unfold WAL.tear
  simp only [hlast, hfile, Option.getD_some]

theorem Flushed.tear (h : w.Flushed segs) (hsorted : segs.names.Pairwise (· < ·)) (c : ℕ) :
    Stores (w.tear c) (segs.cut c).all := by
  have hlast : (segmentPaths w.dir).getLast? = some (segmentName segs.number) := by
    rw [h.stores.paths_eq hsorted, Segments.all, List.map_append, List.map_singleton,
      List.getLast?_concat]
    rfl
  have hfile : w.dir.lookup (segmentName segs.number) = some segs.content :=
    h.stores.stored (segs.number, segs.content) (by simp [Segments.all])
  rw [tear_eq hlast hfile]
  exact h.stores.insert_last _

/-- Batches are written one after the other. -/
theorem Flushed.foldlM_appendBatch (h : w₁.Flushed segs) {batches : List (List LogEntry)}
    (hrun : (batches.map Op.appendBatch).foldlM (WAL.step codec) w₁ = .ok w₂) :
    w₂.Flushed (batches.flatten.foldl (Segments.place codec) segs) := by
  induction batches generalizing w₁ segs with
  | nil =>
      obtain rfl : w₁ = w₂ := Except.ok.inj hrun
      exact h
  | cons batch rest ih =>
      rw [List.map_cons, List.foldlM_cons] at hrun
      obtain ⟨next, hnext, hrest⟩ := exists_ok_of_bind hrun
      rw [List.flatten_cons, List.foldl_append]
      exact ih (h.appendBatch (ok_of_mapError hnext)) hrest

theorem Ordered.foldlM_appendBatch (h : w₁.Ordered segs s.last) (hflushed : w₁.Flushed segs)
    {batches : List (List LogEntry)}
    (hallowed : Allowed LogList.step (LogList.Allows codec) s (batches.map Op.appendBatch))
    (hrun : (batches.map Op.appendBatch).foldlM (WAL.step codec) w₁ = .ok w₂) :
    (batches.flatten.foldl (Segments.place codec) segs).names.Pairwise (· < ·) ∧
      ∀ entry ∈ batches.flatten, Fits codec entry := by
  induction batches generalizing w₁ segs s with
  | nil => exact ⟨h.sorted, by simp⟩
  | cons batch rest ih =>
      rw [List.map_cons, List.foldlM_cons] at hrun
      obtain ⟨next, hnext, hrest⟩ := exists_ok_of_bind hrun
      have hok := ok_of_mapError hnext
      obtain ⟨hsorted, hfits⟩ := ih (h.appendBatch hflushed hallowed.1 hok)
        (hflushed.appendBatch hok) hallowed.2 hrest
      rw [List.flatten_cons, List.foldl_append]
      refine ⟨hsorted, fun entry hentry => ?_⟩
      rcases List.mem_append.mp hentry with hentry | hentry
      · exact fits_of_admits hallowed.1 entry hentry
      · exact hfits entry hentry

/-- Opening a directory with segments does not change it. -/
theorem dir_of_openDir {dir : Directory} (hpaths : segmentPaths dir ≠ [])
    (hopen : openDir codec dir = .ok w) : w.dir = dir := by
  unfold openDir at hopen
  split at hopen
  · next hnone => exact absurd (List.getLast?_eq_none_iff.mp hnone) hpaths
  · split at hopen
    · simp at hopen
    · obtain rfl : _ = w := Except.ok.inj hopen
      rfl

/-- Writes after a crash.  Let the last segment be cut anywhere and batches be appended
after the log was opened again.  If their indices go on from the number of that segment,
and nothing is written behind a torn record, then reading gives the complete records of
before the crash, followed by all that was appended.  And this is needed, but for torn
records that happen to pass the checksum together with the bytes written behind them. -/
theorem readsBack_after_tear (codec : EntryCodec) {dir : Directory}
    (hdir : segmentPaths dir = []) {w₀ w : WAL} (hopen : openDir codec dir = .ok w₀)
    {ops : List Op} (hallowed : Allowed LogList.step (LogList.Allows codec) .empty ops)
    (hrun : ops.foldlM (WAL.step codec) w₀ = .ok w) :
    ∃ segs, w.Flushed segs ∧
      segs.entries codec = (ops.foldl LogList.step .empty).entries ∧
      ∀ c, ∃ w₁, openDir codec (w.tear c) = .ok w₁ ∧ ∀ (batches : List (List LogEntry)) w₂,
        (batches.map Op.appendBatch).foldlM (WAL.step codec) w₁ = .ok w₂ →
        (Allowed LogList.step (LogList.Allows codec)
            ⟨segs.survivors codec c, segs.number - 1⟩ (batches.map Op.appendBatch) →
          segs.Recovers codec c batches.flatten →
          w₂.ReadsBack codec (segs.survivors codec c ++ batches.flatten)) ∧
        ((∀ entry ∈ batches.flatten, Fits codec entry) →
          (∀ k, readFrame checksumIEEE
            (segs.torn codec c ++ records codec (batches.flatten.take k)) = none) →
          w₂.ReadsBack codec (segs.survivors codec c ++ batches.flatten) →
          segs.Recovers codec c batches.flatten) := by
  obtain ⟨segs, htracks⟩ := (refines_openDir hdir hopen).run hallowed hrun
  refine ⟨segs, htracks.toFlushed, htracks.entries, fun c => ?_⟩
  have hsorted : (segs.cut c).names.Pairwise (· < ·) := by
    rw [names_cut]
    exact htracks.ordered.sorted
  obtain ⟨w₁, hopen₁, hflushed₁, -⟩ := openDir_ok
    (htracks.toFlushed.tear htracks.ordered.sorted c) hsorted (htracks.readable.decode_cut c)
  refine ⟨w₁, hopen₁, fun batches w₂ hbatches => ?_⟩
  have hflushed₂ := hflushed₁.foldlM_appendBatch hbatches
  have hstores := hflushed₂.closeCurrent.1
  constructor
  · intro hadmits hrecovers
    have hordered₁ : w₁.Ordered (segs.cut c) (segs.number - 1) :=
      ⟨hflushed₁.toHolds, hflushed₁.size, hsorted, by simp only [Segments.cut]; omega⟩
    obtain ⟨hsorted₂, hfits⟩ := Ordered.foldlM_appendBatch
      (s := ⟨segs.survivors codec c, segs.number - 1⟩) hordered₁ hflushed₁ hadmits hbatches
    obtain ⟨hdecode, hentries⟩ := htracks.readable.foldl_place_cut hfits hrecovers
    rw [← hentries]
    exact readAll_openDir hstores hsorted₂ hdecode
  · rintro hfits hreject ⟨w₃, hreopen, hread⟩
    by_contra hrecovers
    obtain ⟨hdecode, hlength⟩ :=
      htracks.readable.length_foldl_place_cut hfits hreject hrecovers
    have hpaths : segmentPaths w₂.closeCurrent.dir ≠ [] := by
      intro hnil
      have := hstores.paths_perm.length_eq
      rw [hnil] at this
      simp [Segments.all] at this
    have hdir₃ : w₃.dir = w₂.closeCurrent.dir := dir_of_openDir hpaths hreopen
    unfold WAL.readAll at hread
    rw [hdir₃] at hread
    have := hstores.length_readSegments hdecode hread
    unfold Segments.entries at hlength
    omega

/-- Two entries in one segment. -/
def twoEntries : Segments :=
  [⟨1, 1, [7]⟩, ⟨2, 1, [8]⟩].foldl (Segments.place wireCodec) ⟨[], 1, []⟩

def twoBatches : List Op :=
  [[⟨1, 1, [7]⟩], [⟨2, 1, [8]⟩]].map Op.appendBatch

theorem flushed_twoBatches {w₀ w : WAL} (hopen : openDir wireCodec ∅ = .ok w₀)
    (hw : twoBatches.foldlM (WAL.step wireCodec) w₀ = .ok w) : w.Flushed twoEntries := by
  have hempty : Stores ∅ [] := ⟨by simp, by simp, by simp⟩
  obtain ⟨opened, hok, hflushed⟩ := openDir_empty wireCodec hempty
  obtain rfl : opened = w₀ := Except.ok.inj (hok.symm.trans hopen)
  exact hflushed.foldlM_appendBatch hw

/-- The second of two records is cut off whole, and another entry appended in its place. -/
theorem readsBack_after_tear_twoBatches :
    ∃ w₀ w w₁ w₂, openDir wireCodec ∅ = .ok w₀ ∧
      twoBatches.foldlM (WAL.step wireCodec) w₀ = .ok w ∧
      openDir wireCodec (w.tear 15) = .ok w₁ ∧
      w₁.appendBatch wireCodec [⟨2, 2, [9]⟩] = .ok w₂ ∧
      w₂.ReadsBack wireCodec [⟨1, 1, [7]⟩, ⟨2, 2, [9]⟩] := by
  have hruns : (do
      let w₀ ← openDir wireCodec ∅
      let w ← twoBatches.foldlM (WAL.step wireCodec) w₀
      let w₁ ← openDir wireCodec (w.tear 15)
      (w₁.appendBatch wireCodec [⟨2, 2, [9]⟩]).mapError Prod.fst).toBool = true := by
    decide +kernel
  obtain ⟨w₂, hrun⟩ := exists_ok_of_toBool hruns
  obtain ⟨w₀, hopen, hrun⟩ := exists_ok_of_bind hrun
  obtain ⟨w, hw, hrun⟩ := exists_ok_of_bind hrun
  obtain ⟨w₁, hopen₁, hw₂⟩ := exists_ok_of_bind hrun
  obtain ⟨segs, hsegs, -, htear⟩ :=
    readsBack_after_tear wireCodec (by decide) hopen (by decide +kernel) hw
  obtain rfl : segs = twoEntries := hsegs.eq_single (flushed_twoBatches hopen hw)
  obtain ⟨w₁', hopen₁', hbatches⟩ := htear 15
  obtain rfl : w₁' = w₁ := Except.ok.inj (hopen₁'.symm.trans hopen₁)
  have hbatch : ([[⟨2, 2, [9]⟩]].map Op.appendBatch).foldlM (WAL.step wireCodec) w₁' = .ok w₂ := by
    simp [WAL.step, hw₂]
  refine ⟨w₀, w, w₁', w₂, hopen, hw, hopen₁, ok_of_mapError hw₂, ?_⟩
  have hreads := (hbatches [[⟨2, 2, [9]⟩]] w₂ hbatch).1
  rw [show twoEntries.survivors wireCodec 15 = [⟨1, 1, [7]⟩] by decide +kernel] at hreads
  exact hreads (by decide +kernel) (.inl (by decide +kernel))

/-- The second of two records loses its last byte.  The entry that is appended after the
crash is lost with it, at the next start. -/
theorem not_readsBack_after_tear :
    ∃ w₀ w w₁ w₂, openDir wireCodec ∅ = .ok w₀ ∧
      twoBatches.foldlM (WAL.step wireCodec) w₀ = .ok w ∧ w.Flushed twoEntries ∧
      openDir wireCodec (w.tear 29) = .ok w₁ ∧
      w₁.appendBatch wireCodec [⟨2, 2, [9]⟩] = .ok w₂ ∧
      twoEntries.survivors wireCodec 29 = [⟨1, 1, [7]⟩] ∧
      w₂.ReadsBack wireCodec [⟨1, 1, [7]⟩] ∧
      ¬ w₂.ReadsBack wireCodec [⟨1, 1, [7]⟩, ⟨2, 2, [9]⟩] := by
  have hrun : (do
      let w₀ ← openDir wireCodec ∅
      let w ← twoBatches.foldlM (WAL.step wireCodec) w₀
      let w₁ ← openDir wireCodec (w.tear 29)
      let w₂ ← (w₁.appendBatch wireCodec [⟨2, 2, [9]⟩]).mapError Prod.fst
      let w₃ ← w₂.reopen wireCodec
      w₃.readAll wireCodec) = .ok [⟨1, 1, [7]⟩] := by
    decide +kernel
  obtain ⟨w₀, hopen, hrun⟩ := exists_ok_of_bind hrun
  obtain ⟨w, hw, hrun⟩ := exists_ok_of_bind hrun
  obtain ⟨w₁, hopen₁, hrun⟩ := exists_ok_of_bind hrun
  obtain ⟨w₂, hw₂, hrun⟩ := exists_ok_of_bind hrun
  obtain ⟨w₃, hreopen, hread⟩ := exists_ok_of_bind hrun
  refine ⟨w₀, w, w₁, w₂, hopen, hw, flushed_twoBatches hopen hw, hopen₁,
    ok_of_mapError hw₂, by decide +kernel, ⟨w₃, hreopen, hread⟩, ?_⟩
  rintro ⟨w', hreopen', hread'⟩
  obtain rfl : w₃ = w' := Except.ok.inj (hreopen.symm.trans hreopen')
  have := Except.ok.inj (hread.symm.trans hread')
  simp at this

end WAL

/-! ## An interrupted truncation -/

/-- The two ways to truncate a log. -/
inductive Truncation
  | suffix (keepIndex : ℕ)
  | front (discardIndex : ℕ)

namespace Truncation

def keep : Truncation → LogEntry → Bool
  | .suffix keepIndex, entry => entry.index ≤ keepIndex
  | .front discardIndex, entry => discardIndex < entry.index

/-- The number of the segment that is written. -/
def firstIndex : Truncation → ℕ
  | .suffix _ => 1
  | .front discardIndex => (discardIndex + 1) % 2 ^ 64

end Truncation

/-- Where a truncation is interrupted: after the removal of so many segments, or when the
new segment exists and this many bytes of it are on disk. -/
inductive Point
  | removing (count : ℕ)
  | rewriting (bytes : ℕ)

/-- The directory that an interrupted truncation leaves. -/
def WAL.interrupted (codec : EntryCodec) (t : Truncation) (w : WAL) : Point → Directory
  | .removing count =>
      removeFiles ((segmentPaths w.closeCurrent.dir).take count) w.closeCurrent.dir
  | .rewriting bytes =>
      match readSegments codec w.closeCurrent.dir with
      | .error _ => w.closeCurrent.dir
      | .ok entries =>
          (removeFiles (segmentPaths w.closeCurrent.dir) w.closeCurrent.dir).insert
            (segmentName t.firstIndex) ((records codec (entries.filter t.keep)).take bytes)

/-- Nothing that was to be kept is missing: no entry is removed yet, or exactly those to be
dropped are; and once the new segment exists, all its records are on disk. -/
def Segments.Atomic (codec : EntryCodec) (t : Truncation) (segs : Segments) : Point → Prop
  | .removing count =>
      (segs.all.take count).flatMap (Segment.entries codec) = [] ∨
        (∀ entry ∈ (segs.all.take count).flatMap (Segment.entries codec), ¬ t.keep entry) ∧
          ∀ entry ∈ (segs.all.drop count).flatMap (Segment.entries codec), t.keep entry
  | .rewriting bytes => (records codec ((segs.entries codec).filter t.keep)).length ≤ bytes

theorem filter_append_eq_right_iff {α : Type*} (p : α → Bool) (gone left : List α) :
    (gone ++ left).filter p = left ↔ (∀ x ∈ gone, ¬ p x) ∧ ∀ x ∈ left, p x := by
  rw [List.filter_append]
  constructor
  · intro heq
    have hleft : ∀ x ∈ left, p x := by
      intro x hx
      rw [← heq, List.mem_append, List.mem_filter, List.mem_filter] at hx
      exact hx.elim And.right And.right
    rw [List.filter_eq_self.mpr hleft] at heq
    refine ⟨?_, hleft⟩
    exact List.filter_eq_nil_iff.mp (List.append_left_eq_self.mp heq)
  · rintro ⟨hgone, hleft⟩
    rw [List.filter_eq_nil_iff.mpr hgone, List.filter_eq_self.mpr hleft, List.nil_append]

namespace WAL

variable {w w' : WAL} {segs : Segments} {s : LogList} {codec : EntryCodec}

/-! ### The points of the loop -/

/-- The active segment is the only thing that writing changes. -/
theorem rewriteEntry_dir (codec : EntryCodec) {D : Directory} {name : FileName} {file : Bytes}
    (hcurrent : w.current = some name) (hdir : w.dir = D.insert name file) (entry : LogEntry) :
    (w.rewriteEntry codec entry).current = some name ∧
      ∃ file', (w.rewriteEntry codec entry).dir = D.insert name file' := by
  simp only [WAL.rewriteEntry, WAL.writeRecord, WAL.write, WAL.appendFile, hcurrent, hdir,
    AList.insert_insert, AList.lookup_insert, true_and]
  exact ⟨_, rfl⟩

theorem foldl_rewriteEntry_dir (codec : EntryCodec) {D : Directory} {name : FileName}
    {file : Bytes} (hcurrent : w.current = some name) (hdir : w.dir = D.insert name file)
    (kept : List LogEntry) :
    ∃ file', (kept.foldl (WAL.rewriteEntry codec) w).dir = D.insert name file' := by
  induction kept generalizing w file with
  | nil => exact ⟨file, hdir⟩
  | cons entry rest ih =>
      obtain ⟨hnext, file', hdir'⟩ := rewriteEntry_dir codec hcurrent hdir entry
      exact ih hnext hdir'

/-- Every state of the loop that rewrites what is kept, with the new segment cut anywhere,
is a point of interruption. -/
theorem Tracks.exists_interrupted (h : w.Tracks codec segs s) (t : Truncation)
    {lastIndex : ℕ} {created : WAL}
    (hcreated : (w.emptied lastIndex).createSegment t.firstIndex = .ok created) (r c : ℕ) :
    ∃ n, (((s.entries.filter t.keep).take r).foldl (WAL.rewriteEntry codec) created).tear c =
      w.interrupted codec t (.rewriting n) := by
  have hnew := create_emptied hcreated
  have hread := h.readSegments h.toFlushed.closeCurrent.1
  have hdir : created.dir = (w.emptied lastIndex).dir.insert (segmentName t.firstIndex) [] := by
    unfold WAL.createSegment at hcreated
    split at hcreated
    · simp at hcreated
    · obtain rfl : _ = created := Except.ok.inj hcreated
      rfl
  obtain ⟨hholds, -⟩ := hnew.toHolds.foldl_rewriteEntry codec hnew.size
    ((s.entries.filter t.keep).take r)
  obtain ⟨file, hstores, hbytes⟩ := hholds.files
  obtain ⟨file', hfold⟩ := foldl_rewriteEntry_dir codec hnew.current hdir
    ((s.entries.filter t.keep).take r)
  have hlookup : AList.lookup (segmentName t.firstIndex) (((s.entries.filter t.keep).take r).foldl
      (WAL.rewriteEntry codec) created).dir = some file :=
    hstores.stored (t.firstIndex, file) (by simp)
  obtain rfl : file' = file := by
    rw [hfold] at hlookup
    simpa using hlookup
  have hlast : (segmentPaths (((s.entries.filter t.keep).take r).foldl
      (WAL.rewriteEntry codec) created).dir).getLast? = some (segmentName t.firstIndex) := by
    rw [hstores.paths_eq (List.pairwise_singleton _ _)]
    rfl
  have hkept : file' <+: records codec (s.entries.filter t.keep) := by
    have hsplit := records_append codec ((s.entries.filter t.keep).take r)
      ((s.entries.filter t.keep).drop r)
    rw [List.take_append_drop] at hsplit
    have hfile : _ = records codec ((s.entries.filter t.keep).take r) := hbytes
    rw [hsplit, ← hfile, List.append_assoc]
    exact List.prefix_append _ _
  refine ⟨min c file'.length, ?_⟩
  have htake : (records codec (s.entries.filter t.keep)).take (min c file'.length) =
      file'.take c := by
    obtain ⟨later, hlater⟩ := hkept
    rw [← hlater, List.take_append_of_le_length (Nat.min_le_right _ _), ← List.take_eq_take_min]
  rw [tear_eq hlast hlookup, hfold, AList.insert_insert]
  simp only [WAL.interrupted, hread, htake]
  rfl

/-! ### Atomicity -/

/-- What opening and reading gives after an interruption. -/
def recovered (codec : EntryCodec) (t : Truncation) (segs : Segments) : Point → List LogEntry
  | .removing count => (segs.all.drop count).flatMap (Segment.entries codec)
  | .rewriting bytes =>
      within (recordSize codec) bytes ((segs.entries codec).filter t.keep)

theorem Tracks.readAll_interrupted (h : w.Tracks codec segs s) (t : Truncation)
    (point : Point) :
    ∃ w', openDir codec (w.interrupted codec t point) = .ok w' ∧
      w'.readAll codec = .ok (recovered codec t segs point) := by
  obtain ⟨hstores, -⟩ := h.toFlushed.closeCurrent
  have hpaths := hstores.paths_eq h.ordered.sorted
  cases point with
  | removing count =>
      have hgone : Stores (w.interrupted codec t (.removing count)) (segs.all.drop count) := by
        simp only [WAL.interrupted, hpaths, ← List.map_take]
        rw [← List.take_append_drop count segs.all] at hstores
        exact hstores.remove
      refine readAll_openDir hgone ?_ fun seg hseg =>
        h.readable.decode seg (List.mem_of_mem_drop hseg)
      rw [List.map_drop]
      exact h.ordered.sorted.sublist (List.drop_sublist _ _)
  | rewriting bytes =>
      have hread := h.readSegments hstores
      have hfits : ∀ entry ∈ s.entries.filter t.keep, Fits codec entry := fun entry hentry =>
        h.fits entry (List.mem_of_mem_filter hentry)
      obtain ⟨torn, htake, hnone⟩ := take_records hfits bytes
      have hnew : Stores (w.interrupted codec t (.rewriting bytes))
          [(t.firstIndex, records codec (within (recordSize codec) bytes
            (s.entries.filter t.keep)) ++ torn)] := by
        simp only [WAL.interrupted, hread, htake, hpaths]
        exact hstores.remove_all.create (hstores.remove_all.segmentName_notMem _) _
      have hfront : ∀ seg ∈ ([] : List Segment),
          decode codec seg.2 = some (seg.entries codec) := by
        simp
      obtain ⟨hdecode, hentries⟩ := Segments.decode_all_torn (n := t.firstIndex) hfront
        (fun entry hentry => hfits entry ((within_isPrefix _ _ _).subset hentry)) hnone
      obtain ⟨w', hopen, hall⟩ := readAll_openDir hnew (List.pairwise_singleton _ _) hdecode
      refine ⟨w', hopen, hall.trans (congrArg _ ?_)⟩
      simp only [recovered, h.entries]
      exact hentries

/-- Truncation is atomic exactly at these points. -/
theorem recovered_iff (codec : EntryCodec) (t : Truncation) (segs : Segments) (point : Point) :
    (recovered codec t segs point = segs.entries codec ∨
        recovered codec t segs point = (segs.entries codec).filter t.keep) ↔
      segs.Atomic codec t point := by
  cases point with
  | removing count =>
      have hsplit : segs.entries codec =
          (segs.all.take count).flatMap (Segment.entries codec) ++
            (segs.all.drop count).flatMap (Segment.entries codec) := by
        rw [← List.flatMap_append, List.take_append_drop]
        rfl
      simp only [recovered, Segments.Atomic]
      rw [hsplit, eq_comm (b := List.filter _ _), filter_append_eq_right_iff,
        List.self_eq_append_left]
  | rewriting bytes =>
      simp only [recovered, Segments.Atomic]
      rw [← within_eq_self_iff]
      refine ⟨?_, Or.inr⟩
      rintro (heq | heq)
      · refine within_of_length _ (le_antisymm ?_ ?_)
        · exact (within_isPrefix _ _ _).length_le
        · rw [heq]
          exact List.length_filter_le _ _
      · exact heq

/-- Truncation and crashes.  After any run, let a truncation at either end be interrupted at
any point.  Opening and reading gives the list before or the list after the truncation
exactly if no segment with entries is removed yet, or exactly the entries to be dropped
are, or if all records of the new segment are on disk. -/
theorem interrupted_atomic_iff (codec : EntryCodec) {dir : Directory}
    (hdir : segmentPaths dir = []) {w₀ w : WAL} (hopen : openDir codec dir = .ok w₀)
    {ops : List Op} (hallowed : Allowed LogList.step (LogList.Allows codec) .empty ops)
    (hrun : ops.foldlM (WAL.step codec) w₀ = .ok w) :
    ∃ segs, w.Flushed segs ∧ w.readAll codec = .ok (segs.entries codec) ∧
      ∀ t point,
        (∃ w', openDir codec (w.interrupted codec t point) = .ok w' ∧
          (w'.readAll codec = .ok (segs.entries codec) ∨
            w'.readAll codec = .ok ((segs.entries codec).filter t.keep))) ↔
          segs.Atomic codec t point := by
  obtain ⟨segs, htracks⟩ := (refines_openDir hdir hopen).run hallowed hrun
  refine ⟨segs, htracks.toFlushed, ?_, fun t point => ?_⟩
  · rw [htracks.entries]
    exact htracks.readSegments htracks.toFlushed.stores
  · obtain ⟨opened, hok, hread⟩ := htracks.readAll_interrupted t point
    rw [← recovered_iff]
    constructor
    · rintro ⟨w', hopen', hcases⟩
      obtain rfl : opened = w' := Except.ok.inj (hok.symm.trans hopen')
      rw [hread] at hcases
      exact hcases.imp Except.ok.inj Except.ok.inj
    · intro hcases
      exact ⟨opened, hok, hcases.imp (fun heq => hread.trans (congrArg _ heq))
        fun heq => hread.trans (congrArg _ heq)⟩

/-- The only segment is removed when both its entries were to be dropped, and rewritten to the
end of the one record that was to be kept. -/
theorem interrupted_atomic_twoBatches :
    ∃ w₀ w, openDir wireCodec ∅ = .ok w₀ ∧ twoBatches.foldlM (WAL.step wireCodec) w₀ = .ok w ∧
      w.readAll wireCodec = .ok [⟨1, 1, [7]⟩, ⟨2, 1, [8]⟩] ∧
      (∃ w', openDir wireCodec (w.interrupted wireCodec (.front 2) (.removing 1)) = .ok w' ∧
        (w'.readAll wireCodec = .ok [⟨1, 1, [7]⟩, ⟨2, 1, [8]⟩] ∨ w'.readAll wireCodec = .ok [])) ∧
      ∃ w', openDir wireCodec (w.interrupted wireCodec (.suffix 1) (.rewriting 15)) = .ok w' ∧
        (w'.readAll wireCodec = .ok [⟨1, 1, [7]⟩, ⟨2, 1, [8]⟩] ∨
          w'.readAll wireCodec = .ok [⟨1, 1, [7]⟩]) := by
  have hruns : (openDir wireCodec ∅ >>= twoBatches.foldlM (WAL.step wireCodec)).toBool = true := by
    decide +kernel
  obtain ⟨w, hrun⟩ := exists_ok_of_toBool hruns
  obtain ⟨w₀, hopen, hw⟩ := exists_ok_of_bind hrun
  obtain ⟨segs, hsegs, hread, hatomic⟩ :=
    interrupted_atomic_iff wireCodec (by decide) hopen (by decide +kernel) hw
  obtain rfl : segs = twoEntries := hsegs.eq_single (flushed_twoBatches hopen hw)
  have hentries : twoEntries.entries wireCodec = [⟨1, 1, [7]⟩, ⟨2, 1, [8]⟩] := by decide +kernel
  have hkept : (records wireCodec
      ((twoEntries.entries wireCodec).filter (Truncation.suffix 1).keep)).length ≤ 15 := by
    decide +kernel
  rw [hentries] at hread hatomic
  exact ⟨w₀, w, hopen, hw, hread,
    (hatomic (.front 2) (.removing 1)).mpr (.inr (by decide +kernel)),
    (hatomic (.suffix 1) (.rewriting 15)).mpr hkept⟩

/-- A crash after the only segment is removed: the first entry was to be kept, and it is
gone. -/
theorem interrupted_not_atomic :
    ∃ w₀ w w', openDir wireCodec ∅ = .ok w₀ ∧
      twoBatches.foldlM (WAL.step wireCodec) w₀ = .ok w ∧
      openDir wireCodec (w.interrupted wireCodec (.suffix 1) (.removing 1)) = .ok w' ∧
      w.readAll wireCodec = .ok [⟨1, 1, [7]⟩, ⟨2, 1, [8]⟩] ∧
      [(⟨1, 1, [7]⟩ : LogEntry), ⟨2, 1, [8]⟩].filter (Truncation.suffix 1).keep =
        [⟨1, 1, [7]⟩] ∧
      w'.readAll wireCodec = .ok [] := by
  have hrun : (do
      let w₀ ← openDir wireCodec ∅
      let w ← twoBatches.foldlM (WAL.step wireCodec) w₀
      let w' ← openDir wireCodec (w.interrupted wireCodec (.suffix 1) (.removing 1))
      return (← w.readAll wireCodec, ← w'.readAll wireCodec)) =
        .ok ([⟨1, 1, [7]⟩, ⟨2, 1, [8]⟩], []) := by
    decide +kernel
  obtain ⟨w₀, hopen, hrun⟩ := exists_ok_of_bind hrun
  obtain ⟨w, hw, hrun⟩ := exists_ok_of_bind hrun
  obtain ⟨w', hopen', hrun⟩ := exists_ok_of_bind hrun
  obtain ⟨before, hbefore, hrun⟩ := exists_ok_of_bind hrun
  obtain ⟨after, hafter, hrun⟩ := exists_ok_of_bind hrun
  obtain ⟨rfl, rfl⟩ := Prod.mk.inj (Except.ok.inj hrun)
  exact ⟨w₀, w, w', hopen, hw, hopen', hbefore, by decide, hafter⟩

end WAL

end RaftKV.Wal
