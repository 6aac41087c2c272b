import RaftKV.Wal.Log

/-!
# The segments behind a log

What the operations of the write-ahead log do to the files.  `Segments` lists the
segments in the order in which they were created, the active one last, with what was
written to each; `place` is the effect of writing one more entry.  `Stores` ties a
directory and `WAL.Holds` ties a log to such a list: the file of the active segment
together with the bytes that the writer holds back is its content.

Reading goes by the order of the names.  As long as the list is in that order, reading
gives the entries of the segments one after the other; in any case it gives them segment
by segment.
-/

namespace RaftKV.Wal

open RaftKV.Raft (LogEntry)

/-- A segment: the index in its name, and its bytes. -/
abbrev Segment := ℕ × Bytes

def Segment.name (s : Segment) : FileName :=
  segmentName s.1

/-- Segments in the order of creation. -/
structure Segments where
  /-- The segments that are no longer written to. -/
  front : List Segment
  /-- The index in the name of the active segment. -/
  number : ℕ
  content : Bytes

section Codec

variable (codec : EntryCodec)

/-- The entry's payload has a length that its header can hold. -/
def Fits (entry : LogEntry) : Prop :=
  (codec.marshal entry).length < 2 ^ 32

instance (entry : LogEntry) : Decidable (Fits codec entry) :=
  inferInstanceAs (Decidable (_ < _))

def record (entry : LogEntry) : Bytes :=
  frame checksumIEEE (codec.marshal entry)

def records (entries : List LogEntry) : Bytes :=
  frames checksumIEEE (entries.map codec.marshal)

/-- What reading a segment of these bytes gives. -/
def decode (bs : Bytes) : Option (List LogEntry) :=
  (payloads checksumIEEE bs).mapM codec.unmarshal

@[simp] theorem records_nil : records codec [] = [] := rfl

@[simp] theorem records_append (es es' : List LogEntry) :
    records codec (es ++ es') = records codec es ++ records codec es' := by
  simp [records]

@[simp] theorem records_singleton (entry : LogEntry) :
    records codec [entry] = record codec entry := by
  simp [records, record]

variable {codec}

theorem mapM_unmarshal_marshal (entries : List LogEntry) :
    (entries.map codec.marshal).mapM codec.unmarshal = some entries := by
  induction entries with
  | nil => rfl
  | cons entry rest ih =>
      rw [List.map_cons, List.mapM_cons, codec.unmarshal_marshal, ih]
      rfl

/-- Whole records are read, and then what follows them. -/
theorem decode_records {entries : List LogEntry} (h : ∀ entry ∈ entries, Fits codec entry)
    (rest : Bytes) :
    decode codec (records codec entries ++ rest) = (decode codec rest).map (entries ++ ·) := by
  have hfits : ∀ p ∈ entries.map codec.marshal, p.length < 2 ^ 32 := by
    intro p hp
    obtain ⟨entry, hentry, rfl⟩ := List.mem_map.mp hp
    exact h entry hentry
  unfold decode records
  rw [payloads_frames hfits, List.mapM_append, mapM_unmarshal_marshal]
  cases (payloads checksumIEEE rest).mapM codec.unmarshal with
  | none => rfl
  | some entries' => rfl

theorem decode_records_torn {entries : List LogEntry}
    (h : ∀ entry ∈ entries, Fits codec entry) {torn : Bytes}
    (htorn : readFrame checksumIEEE torn = none) :
    decode codec (records codec entries ++ torn) = some entries := by
  rw [decode_records h]
  unfold decode
  rw [payloads_of_none htorn]
  simp

end Codec

/-! ## Directories -/

theorem mapM_eq_ok {α β ε : Type} {f : α → Except ε β} {g : α → β} {xs : List α}
    (h : ∀ x ∈ xs, f x = .ok (g x)) : xs.mapM f = .ok (xs.map g) := by
  induction xs with
  | nil => rfl
  | cons x xs ih =>
      rw [List.mapM_cons, h x List.mem_cons_self, ih fun y hy => h y (List.mem_cons_of_mem _ hy)]
      rfl

theorem segmentName_injective : Function.Injective segmentName := by
  intro m n h
  exact padded_injective 16 (List.append_cancel_right h)

/-- The segment files of a directory are exactly these. -/
structure Stores (dir : Directory) (segs : List Segment) : Prop where
  stored : ∀ s ∈ segs, dir.lookup s.name = some s.2
  only : ∀ path ∈ dir.keys, walExtension.isSuffixOf path → path ∈ segs.map Segment.name
  distinct : (segs.map Segment.name).Nodup

namespace Stores

variable {dir : Directory} {segs : List Segment} {codec : EntryCodec}

theorem isSuffixOf_segmentName (n : ℕ) : walExtension.isSuffixOf (segmentName n) = true :=
  List.isSuffixOf_iff_suffix.mpr (List.suffix_append _ _)

theorem mem_names_iff (h : Stores dir segs) (path : FileName) :
    path ∈ segs.map Segment.name ↔
      path ∈ dir.keys ∧ walExtension.isSuffixOf path = true := by
  refine ⟨fun hpath => ?_, fun hpath => h.only path hpath.1 hpath.2⟩
  obtain ⟨s, hs, rfl⟩ := List.mem_map.mp hpath
  refine ⟨AList.lookup_isSome.mp ?_, isSuffixOf_segmentName s.1⟩
  rw [h.stored s hs]
  rfl

theorem paths_perm (h : Stores dir segs) : (segmentPaths dir).Perm (segs.map Segment.name) :=
  (List.perm_insertionSort _ _).trans (filter_keys_perm h.distinct h.mem_names_iff)

/-- The listing is in the order of creation, if the names are. -/
theorem paths_eq (h : Stores dir segs) (hsorted : (segs.map Segment.name).Pairwise (· < ·)) :
    segmentPaths dir = segs.map Segment.name :=
  insertionSort_filter_keys (hsorted.imp fun hlt => hlt.le) h.distinct h.mem_names_iff

theorem readSegment_eq (h : Stores dir segs) {s : Segment} (hs : s ∈ segs)
    {entries : List LogEntry} (hread : decode codec s.2 = some entries) :
    readSegment codec dir s.name = .ok entries := by
  unfold decode at hread
  unfold readSegment
  simp only [h.stored s hs, hread]

/-- Reading a directory whose names are in the order of creation. -/
theorem readSegments_eq (h : Stores dir segs)
    (hsorted : (segs.map Segment.name).Pairwise (· < ·)) {read : Segment → List LogEntry}
    (hread : ∀ s ∈ segs, decode codec s.2 = some (read s)) :
    readSegments codec dir = .ok (segs.flatMap read) := by
  have hall : (segs.map Segment.name).mapM (readSegment codec dir) = .ok (segs.map read) := by
    rw [List.mapM_map]
    refine mapM_eq_ok fun s hs => ?_
    exact h.readSegment_eq hs (hread s hs)
  unfold readSegments
  rw [h.paths_eq hsorted, hall]
  rfl

/-- In whatever order the names are, reading gives the entries of the segments. -/
theorem readSegments_perm (h : Stores dir segs) {read : Segment → List LogEntry}
    (hread : ∀ s ∈ segs, decode codec s.2 = some (read s)) :
    ∃ entries, readSegments codec dir = .ok entries ∧ entries.Perm (segs.flatMap read) := by
  let byName (path : FileName) : List LogEntry := (readSegment codec dir path).toOption.getD []
  have hbyName : ∀ s ∈ segs, readSegment codec dir s.name = .ok (read s) := fun s hs =>
    h.readSegment_eq hs (hread s hs)
  have hall : (segmentPaths dir).mapM (readSegment codec dir) =
      .ok ((segmentPaths dir).map byName) := by
    refine mapM_eq_ok fun path hpath => ?_
    obtain ⟨s, hs, rfl⟩ := List.mem_map.mp (h.paths_perm.mem_iff.mp hpath)
    simp [byName, hbyName s hs, Except.toOption]
  have hsegs : (segs.map Segment.name).flatMap byName = segs.flatMap read := by
    rw [List.flatMap_map]
    refine List.flatMap_congr fun s hs => ?_
    simp [byName, hbyName s hs, Except.toOption]
  refine ⟨(segmentPaths dir).flatMap byName, ?_, ?_⟩
  · unfold readSegments
    rw [hall]
    rfl
  · rw [← hsegs]
    exact h.paths_perm.flatMap_right byName

theorem length_readSegments (h : Stores dir segs) {read : Segment → List LogEntry}
    (hread : ∀ s ∈ segs, decode codec s.2 = some (read s)) {entries : List LogEntry}
    (hok : readSegments codec dir = .ok entries) :
    entries.length = (segs.flatMap read).length := by
  obtain ⟨entries', hok', hperm⟩ := h.readSegments_perm hread
  obtain rfl : entries' = entries := Except.ok.inj (hok'.symm.trans hok)
  exact hperm.length_eq

/-! ### Changes of a directory -/

/-- The order in which the segments are listed does not matter. -/
theorem perm (h : Stores dir segs) {segs' : List Segment} (hperm : segs'.Perm segs) :
    Stores dir segs' :=
  ⟨fun s hs => h.stored s (hperm.mem_iff.mp hs),
    fun path hpath hsuffix => (hperm.map Segment.name).mem_iff.mpr (h.only path hpath hsuffix),
    (hperm.map Segment.name).nodup_iff.mpr h.distinct⟩

/-- Rewriting the last segment. -/
theorem insert_last {front : List Segment} {n : ℕ} {old : Bytes}
    (h : Stores dir (front ++ [(n, old)])) (new : Bytes) :
    Stores (dir.insert (segmentName n) new) (front ++ [(n, new)]) := by
  have hnames : (front ++ [(n, new)]).map Segment.name =
      (front ++ [(n, old)]).map Segment.name := by
    simp [Segment.name]
  have hnot : ∀ s ∈ front, s.name ≠ segmentName n := by
    have hdistinct := h.distinct
    rw [List.map_append, List.nodup_append] at hdistinct
    intro s hs hname
    exact hdistinct.2.2 s.name (List.mem_map_of_mem hs) (segmentName n)
      (by simp [Segment.name]) hname
  refine ⟨?_, ?_, hnames ▸ h.distinct⟩
  · intro s hs
    rcases List.mem_append.mp hs with hs | hs
    · rw [AList.lookup_insert_ne (hnot s hs), h.stored s (List.mem_append_left _ hs)]
    · obtain rfl := List.mem_singleton.mp hs
      exact AList.lookup_insert dir
  · intro path hpath hsuffix
    rw [hnames]
    rcases (AList.mem_insert dir).mp hpath with rfl | hpath
    · simp [Segment.name]
    · exact h.only path hpath hsuffix

/-- A new segment. -/
theorem create (h : Stores dir segs) {n : ℕ} (hnew : segmentName n ∉ dir.keys) (bs : Bytes) :
    Stores (dir.insert (segmentName n) bs) (segs ++ [(n, bs)]) := by
  have hfresh : segmentName n ∉ segs.map Segment.name := fun hmem =>
    hnew ((h.mem_names_iff _).mp hmem).1
  refine ⟨?_, ?_, ?_⟩
  · intro s hs
    rcases List.mem_append.mp hs with hs | hs
    · have hne : s.name ≠ segmentName n := fun heq => hfresh (heq ▸ List.mem_map_of_mem hs)
      rw [AList.lookup_insert_ne hne, h.stored s hs]
    · obtain rfl := List.mem_singleton.mp hs
      exact AList.lookup_insert dir
  · intro path hpath hsuffix
    rw [List.map_append, List.mem_append]
    rcases (AList.mem_insert dir).mp hpath with rfl | hpath
    · exact .inr (by simp [Segment.name])
    · exact .inl (h.only path hpath hsuffix)
  · rw [List.map_append, List.nodup_append]
    refine ⟨h.distinct, by simp, ?_⟩
    intro a ha b hb hab
    have hb : b = segmentName n := by simpa [Segment.name] using hb
    exact hfresh (hb ▸ hab ▸ ha)

/-- Removing the first segments. -/
theorem remove {gone left : List Segment} (h : Stores dir (gone ++ left)) :
    Stores (removeFiles (gone.map Segment.name) dir) left := by
  have hdistinct := h.distinct
  rw [List.map_append, List.nodup_append] at hdistinct
  refine ⟨?_, ?_, hdistinct.2.1⟩
  · intro s hs
    have hnot : s.name ∉ gone.map Segment.name := fun hmem =>
      hdistinct.2.2 _ hmem _ (List.mem_map_of_mem hs) rfl
    rw [lookup_removeFiles hnot, h.stored s (List.mem_append_right _ hs)]
  · intro path hpath hsuffix
    obtain ⟨hmem, hnot⟩ := mem_removeFiles hpath
    have := h.only path hmem hsuffix
    rw [List.map_append, List.mem_append] at this
    exact this.resolve_left hnot

theorem remove_all (h : Stores dir segs) :
    Stores (removeFiles (segs.map Segment.name) dir) [] := by
  rw [← List.append_nil segs] at h
  exact h.remove

theorem mem_segmentPaths {path : FileName} :
    path ∈ segmentPaths dir ↔ path ∈ dir.keys ∧ walExtension.isSuffixOf path = true := by
  unfold segmentPaths
  rw [List.mem_insertionSort, List.mem_filter]

/-- Removing what the listing shows. -/
theorem remove_paths (dir : Directory) : Stores (removeFiles (segmentPaths dir) dir) [] := by
  refine ⟨by simp, fun path hpath hsuffix => ?_, by simp⟩
  obtain ⟨hmem, hnot⟩ := mem_removeFiles hpath
  exact absurd (mem_segmentPaths.mpr ⟨hmem, hsuffix⟩) hnot

theorem of_paths_eq_nil (h : segmentPaths dir = []) : Stores dir [] := by
  refine ⟨by simp, fun path hpath hsuffix => ?_, by simp⟩
  have hmem : path ∈ segmentPaths dir := mem_segmentPaths.mpr ⟨hpath, hsuffix⟩
  rw [h] at hmem
  exact hmem

theorem segmentName_notMem (h : Stores dir []) (n : ℕ) : segmentName n ∉ dir.keys := by
  intro hmem
  simpa using (h.mem_names_iff _).mpr ⟨hmem, isSuffixOf_segmentName n⟩

end Stores

/-! ## Writing -/

theorem exists_ok_of_bind {α β ε : Type} {x : Except ε α} {f : α → Except ε β} {y : β}
    (h : (x >>= f) = .ok y) : ∃ a, x = .ok a ∧ f a = .ok y := by
  cases x with
  | error err => simp [bind, Except.bind] at h
  | ok a => exact ⟨a, rfl, h⟩

namespace Segments

def all (segs : Segments) : List Segment :=
  segs.front ++ [(segs.number, segs.content)]

def names (segs : Segments) : List FileName :=
  segs.all.map Segment.name

/-- The effect of writing one entry: it goes into the active segment, or into a new one
if it does not fit. -/
def place (codec : EntryCodec) (segs : Segments) (entry : LogEntry) : Segments :=
  if segs.content.length + (headerSize + (codec.marshal entry).length) > maxSegmentSize then
    ⟨segs.all, entry.index, record codec entry⟩
  else ⟨segs.front, segs.number, segs.content ++ record codec entry⟩

end Segments

namespace WAL

variable {w w' : WAL} {segs : Segments} {codec : EntryCodec}

/-- The log writes to the last of these segments. -/
structure Holds (w : WAL) (segs : Segments) : Prop where
  current : w.current = some (segmentName segs.number)
  files : ∃ file, Stores w.dir (segs.front ++ [(segs.number, file)]) ∧
    file ++ w.buffered = segs.content

/-- Nothing is held back, and the size is known. -/
structure Flushed (w : WAL) (segs : Segments) : Prop extends w.Holds segs where
  size : w.size = segs.content.length
  flushed : w.buffered = []

theorem Flushed.stores (h : w.Flushed segs) : Stores w.dir segs.all := by
  obtain ⟨file, hstores, heq⟩ := h.files
  rw [h.flushed, List.append_nil] at heq
  subst heq
  exact hstores

/-- A log of one segment is no other log. -/
theorem Flushed.eq_single (h : w.Flushed segs) {n : ℕ} {content : Bytes}
    (h' : w.Flushed ⟨[], n, content⟩) : segs = ⟨[], n, content⟩ := by
  obtain ⟨front, number, content'⟩ := segs
  obtain rfl : number = n :=
    segmentName_injective (Option.some.inj (h.current.symm.trans h'.current))
  obtain rfl : front = [] := by
    cases front with
    | nil => rfl
    | cons s rest =>
        have hkey : s.name ∈ w.dir.keys := AList.lookup_isSome.mp (by
          rw [h.stores.stored s (by simp [Segments.all])]
          rfl)
        have hname := h'.stores.only s.name hkey (Stores.isSuffixOf_segmentName _)
        have hdistinct := h.stores.distinct
        simp only [Segments.all, List.nil_append, List.map_cons, List.map_nil,
          List.mem_singleton] at hname
        rw [Segments.all, List.cons_append, List.map_cons, List.nodup_cons] at hdistinct
        exact absurd (List.mem_map.mpr ⟨(number, content'), by simp, hname.symm⟩) hdistinct.1
  have hfile := h.stores.stored (number, content') (by simp [Segments.all])
  have hfile' := h'.stores.stored (number, content) (by simp [Segments.all])
  obtain rfl : content' = content := Option.some.inj (hfile.symm.trans hfile')
  rfl

/-- Bytes that move from a list in front of the writer to the file and the buffer. -/
theorem Holds.appendFile (h : w.Holds segs) {out held extra : Bytes}
    (heq : out ++ held = w.buffered ++ extra) :
    ({ w.appendFile out with buffered := held } : WAL).Holds
      ⟨segs.front, segs.number, segs.content ++ extra⟩ := by
  obtain ⟨file, hstores, hcontent⟩ := h.files
  have hfile : w.dir.lookup (segmentName segs.number) = some file :=
    hstores.stored (segs.number, file) (by simp)
  refine ⟨?_, file ++ out, ?_, ?_⟩
  · simp only [WAL.appendFile, h.current]
  · simp only [WAL.appendFile, h.current, hfile, Option.getD_some]
    exact hstores.insert_last _
  · simp only
    rw [List.append_assoc, heq, ← hcontent, List.append_assoc]

theorem Holds.flush (h : w.Holds segs) : w.flush.Holds segs := by
  have hmoved : w.buffered ++ [] = w.buffered ++ [] := rfl
  have := h.appendFile hmoved
  rw [List.append_nil] at this
  exact this

theorem Holds.write (h : w.Holds segs) (bs : Bytes) :
    (w.write bs).Holds ⟨segs.front, segs.number, segs.content ++ bs⟩ :=
  h.appendFile (bufferedWrite_append writerSize w.buffered bs)

theorem Holds.writeRecord (h : w.Holds segs) (codec : EntryCodec) (entry : LogEntry) :
    (w.writeRecord (codec.marshal entry)).Holds
      ⟨segs.front, segs.number, segs.content ++ record codec entry⟩ := by
  have := (h.write (leBytes 4 (codec.marshal entry).length ++
    leBytes 4 (checksumIEEE (codec.marshal entry)).toNat)).write (codec.marshal entry)
  rw [List.append_assoc] at this
  exact ⟨this.current, this.files⟩

/-- The size, when it counts the bytes that are held back as well. -/
theorem length_record (entry : LogEntry) :
    (record codec entry).length = headerSize + (codec.marshal entry).length := by
  rw [record, length_frame]
  rfl

theorem flush_size (w : WAL) : w.flush.size = w.size := by
  unfold WAL.flush WAL.appendFile
  split <;> rfl

theorem Holds.createSegment (h : w.Holds segs) {n : ℕ} (hok : w.createSegment n = .ok w') :
    w'.Flushed ⟨segs.all, n, []⟩ := by
  unfold WAL.createSegment at hok
  split at hok
  · simp at hok
  · next hnew =>
      obtain ⟨file, hstores, hcontent⟩ := h.flush.files
      have hbuffered : w.flush.buffered = [] := rfl
      rw [hbuffered, List.append_nil] at hcontent
      subst hcontent
      have hkeys : segmentName n ∉ w.flush.dir.keys := by
        intro hmem
        refine hnew ?_
        obtain ⟨old, hold, -⟩ := h.files
        have hnames := (hstores.mem_names_iff _).mpr
          ⟨hmem, Stores.isSuffixOf_segmentName n⟩
        refine ((hold.mem_names_iff _).mp ?_).1
        simpa [Segment.name] using hnames
      obtain rfl : _ = w' := Except.ok.inj hok
      exact ⟨⟨rfl, [], hstores.create hkeys [], rfl⟩, rfl, rfl⟩

theorem Holds.rollSegment (h : w.Holds segs) {n : ℕ} (hok : w.rollSegment n = .ok w') :
    w'.Flushed ⟨segs.all, n, []⟩ :=
  h.flush.createSegment hok

/-- Writing one entry. -/
theorem Holds.appendEntry (h : w.Holds segs) (hsize : w.size = segs.content.length)
    {entry : LogEntry} (hok : w.appendEntry codec entry = .ok w') :
    w'.Holds (segs.place codec entry) ∧ w'.size = (segs.place codec entry).content.length := by
  obtain ⟨room, hroom, hwrite⟩ := exists_ok_of_bind hok
  obtain rfl : _ = w' := Except.ok.inj hwrite
  unfold WAL.makeRoom at hroom
  unfold Segments.place
  rw [hsize] at hroom
  split at hroom
  · next hbig =>
      have hflushed := h.rollSegment hroom
      have hwritten := hflushed.toHolds.writeRecord codec entry
      rw [if_pos hbig]
      refine ⟨⟨hwritten.current, hwritten.files⟩, ?_⟩
      simp only [WAL.writeRecord, hflushed.size, length_record, List.length_nil, Nat.zero_add]
  · next hsmall =>
      obtain rfl : w = room := Except.ok.inj hroom
      have hwritten := h.writeRecord codec entry
      rw [if_neg hsmall]
      refine ⟨⟨hwritten.current, hwritten.files⟩, ?_⟩
      simp only [WAL.writeRecord, hsize, List.length_append, length_record]

/-- A batch. -/
theorem Holds.foldlM_appendEntry (h : w.Holds segs) (hsize : w.size = segs.content.length)
    {entries : List LogEntry} (hok : entries.foldlM (WAL.appendEntry codec) w = .ok w') :
    w'.Holds (entries.foldl (Segments.place codec) segs) ∧
      w'.size = (entries.foldl (Segments.place codec) segs).content.length := by
  induction entries generalizing w segs with
  | nil =>
      obtain rfl : w = w' := Except.ok.inj hok
      exact ⟨h, hsize⟩
  | cons entry rest ih =>
      rw [List.foldlM_cons] at hok
      obtain ⟨next, hnext, hrest⟩ := exists_ok_of_bind hok
      obtain ⟨hholds, hlength⟩ := h.appendEntry hsize hnext
      exact ih hholds hlength hrest

theorem Flushed.appendBatch (h : w.Flushed segs) {entries : List LogEntry}
    (hok : w.appendBatch codec entries = .ok w') :
    w'.Flushed (entries.foldl (Segments.place codec) segs) := by
  unfold WAL.appendBatch at hok
  split at hok
  · next hnil =>
      obtain rfl : w = w' := Except.ok.inj hok
      rw [hnil]
      exact h
  · obtain ⟨written, hwritten, hflush⟩ := exists_ok_of_bind hok
    obtain rfl : written.flush = w' := Except.ok.inj hflush
    obtain ⟨hholds, hlength⟩ := h.toHolds.foldlM_appendEntry h.size hwritten
    exact ⟨hholds.flush, by rw [flush_size, hlength], rfl⟩

/-- `Append` is `AppendBatch` of one entry. -/
theorem append_eq_appendBatch (w : WAL) (entry : LogEntry) :
    w.append codec entry = w.appendBatch codec [entry] := by
  unfold WAL.append WAL.appendBatch
  rw [if_neg (by simp), List.foldlM_cons]
  cases w.appendEntry codec entry with
  | error failure => rfl
  | ok written => rfl

/-! ## Truncating and opening -/

/-- A first segment, in a directory whose segments nobody writes to. -/
theorem createSegment_of_closed {front : List Segment} {n : ℕ}
    (hok : w.createSegment n = .ok w') (hstores : Stores w.dir front)
    (hclosed : w.current = none) :
    w'.Flushed ⟨front, n, []⟩ := by
  unfold WAL.createSegment at hok
  split at hok
  · simp at hok
  · next hnew =>
      obtain rfl : _ = w' := Except.ok.inj hok
      have hdir : w.flush.dir = w.dir := by
        simp [WAL.flush, WAL.appendFile, hclosed]
      refine ⟨⟨rfl, [], ?_, rfl⟩, rfl, rfl⟩
      rw [hdir]
      exact hstores.create hnew []

theorem createSegment_ok {n : ℕ} (h : segmentName n ∉ w.dir.keys) :
    ∃ w', w.createSegment n = .ok w' := by
  unfold WAL.createSegment
  rw [if_neg h]
  exact ⟨_, rfl⟩

/-- Rewriting what is kept. -/
theorem Holds.foldl_rewriteEntry (h : w.Holds segs) (codec : EntryCodec)
    (hsize : w.size = segs.content.length) (kept : List LogEntry) :
    (kept.foldl (WAL.rewriteEntry codec) w).Holds
        ⟨segs.front, segs.number, segs.content ++ records codec kept⟩ ∧
      (kept.foldl (WAL.rewriteEntry codec) w).size =
        (segs.content ++ records codec kept).length := by
  induction kept generalizing w segs with
  | nil =>
      rw [records_nil, List.append_nil]
      exact ⟨h, hsize⟩
  | cons entry rest ih =>
      have hwritten := h.writeRecord codec entry
      have hnext : (w.rewriteEntry codec entry).Holds
          ⟨segs.front, segs.number, segs.content ++ record codec entry⟩ :=
        ⟨hwritten.current, hwritten.files⟩
      have hlength : (w.rewriteEntry codec entry).size =
          (segs.content ++ record codec entry).length := by
        rw [List.length_append, length_record, ← hsize]
        rfl
      have hrecords : records codec (entry :: rest) =
          record codec entry ++ records codec rest := by
        rw [← List.singleton_append, records_append, records_singleton]
      rw [List.foldl_cons, hrecords, ← List.append_assoc]
      exact ih hnext hlength

theorem Flushed.closeCurrent (h : w.Flushed segs) :
    Stores w.closeCurrent.dir segs.all ∧ w.closeCurrent.current = none := by
  have hflushed : w.flush.Flushed segs := ⟨h.toHolds.flush, by rw [flush_size, h.size], rfl⟩
  exact ⟨hflushed.stores, rfl⟩

/-- The first segment after all are removed. -/
theorem create_emptied {lastIndex firstIndex : ℕ} {created : WAL}
    (hok : (w.emptied lastIndex).createSegment firstIndex = .ok created) :
    created.Flushed ⟨[], firstIndex, []⟩ :=
  createSegment_of_closed hok (Stores.remove_paths _) rfl

/-- A truncation leaves the entries to keep, in one segment. -/
theorem flushed_truncate {entries : List LogEntry}
    (hread : readSegments codec w.closeCurrent.dir = .ok entries) {keep : LogEntry → Bool}
    {lastIndex firstIndex : ℕ}
    (hok : w.truncate codec keep lastIndex firstIndex = .ok w') :
    w'.Flushed ⟨[], firstIndex, records codec (entries.filter keep)⟩ := by
  unfold WAL.truncate at hok
  simp only [hread] at hok
  obtain ⟨created, hcreated, hrest⟩ := exists_ok_of_bind hok
  obtain rfl : _ = w' := Except.ok.inj hrest
  have hnew := create_emptied hcreated
  obtain ⟨hholds, hlength⟩ :=
    hnew.toHolds.foldl_rewriteEntry codec hnew.size (entries.filter keep)
  exact ⟨hholds.flush, by rw [flush_size, hlength, List.nil_append], rfl⟩

/-- Opening resumes the segment whose name is the last. -/
theorem openDir_last {dir : Directory} (hstores : Stores dir segs.all)
    (hlast : (segmentPaths dir).getLast? = some (segmentName segs.number))
    {entries : List LogEntry} (hread : decode codec segs.content = some entries) :
    ∃ w, openDir codec dir = .ok w ∧ w.Flushed segs ∧ w.dir = dir := by
  have hmem : (segs.number, segs.content) ∈ segs.all := by simp [Segments.all]
  have hfile : dir.lookup (segmentName segs.number) = some segs.content :=
    hstores.stored _ hmem
  have hsegment : readSegment codec dir (segmentName segs.number) = .ok entries :=
    hstores.readSegment_eq hmem hread
  unfold openDir
  simp only [hlast, hsegment, hfile, Option.getD_some]
  exact ⟨_, rfl, ⟨⟨rfl, segs.content, hstores, List.append_nil _⟩, rfl, rfl⟩, rfl⟩

/-- That is the active one, if the names are in the order of creation. -/
theorem openDir_ok {dir : Directory} (hstores : Stores dir segs.all)
    (hsorted : segs.names.Pairwise (· < ·)) {entries : List LogEntry}
    (hread : decode codec segs.content = some entries) :
    ∃ w, openDir codec dir = .ok w ∧ w.Flushed segs ∧ w.dir = dir := by
  refine openDir_last hstores ?_ hread
  rw [hstores.paths_eq hsorted, Segments.all, List.map_append, List.map_singleton,
    List.getLast?_concat]
  rfl

/-- In any case it is one of them. -/
theorem openDir_any {dir : Directory} (hstores : Stores dir segs.all)
    {read : Segment → List LogEntry} (hread : ∀ s ∈ segs.all, decode codec s.2 = some (read s)) :
    ∃ w segs', openDir codec dir = .ok w ∧ w.Flushed segs' ∧ segs'.all.Perm segs.all := by
  have hne : segmentPaths dir ≠ [] := by
    intro hnil
    have hperm := hstores.paths_perm
    rw [hnil] at hperm
    simpa [Segments.all] using hperm.nil_eq
  have hlast := List.getLast?_eq_some_getLast hne
  obtain ⟨s, hs, hname⟩ := List.mem_map.mp
    (hstores.paths_perm.mem_iff.mp (List.getLast_mem hne))
  -- the segment that is resumed moves to the end of the list
  let segs' : Segments := ⟨segs.all.erase s, s.1, s.2⟩
  have hperm : segs'.all.Perm segs.all :=
    (List.perm_append_singleton s _).trans (List.perm_cons_erase hs).symm
  have hstores' : Stores dir segs'.all := hstores.perm hperm
  rw [← hname] at hlast
  obtain ⟨w, hopen, hflushed, -⟩ := openDir_last hstores' hlast (hread s hs)
  exact ⟨w, segs', hopen, hflushed, hperm⟩

/-- Opening a directory without segments creates the first. -/
theorem openDir_empty (codec : EntryCodec) {dir : Directory} (h : Stores dir []) :
    ∃ w, openDir codec dir = .ok w ∧ w.Flushed ⟨[], 1, []⟩ := by
  have hnone : segmentPaths dir = [] := h.paths_eq List.Pairwise.nil
  obtain ⟨w, hw⟩ := createSegment_ok (w := ⟨dir, none, [], 0, 0⟩) (h.segmentName_notMem 1)
  refine ⟨w, ?_, createSegment_of_closed hw h rfl⟩
  unfold openDir
  rw [hnone, List.getLast?_nil]
  simp only [hw]

end WAL

end RaftKV.Wal
