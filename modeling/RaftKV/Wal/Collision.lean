import RaftKV.Wal.Refinement

/-!
# Segment names that are taken

The one way in which a write fails here: an entry does not fit into the active segment,
and the segment named after it exists (`Segments.Collides`).

Whether it does is a question of the numbers in the names, and the numbers come from
three places: 1 after a suffix truncation, `d+1` after a prefix truncation, the entry's
index on a rollover.  The invariant `Segments.Numbered` says what they can be: none is
above the last index, unless there is one empty segment that waits for the next entry.
That entry then collides with the segment it is about to be the first of, if it is too
large for any segment (`append_collides_iff`).

Nothing here depends on the order of the names, which numbers of more than 16 digits do
not keep; what is read is known up to its order (`WAL.Intact.readAll`).
-/

namespace RaftKV.Wal

open RaftKV.Raft (LogEntry)

/-! ## Names -/

theorem Segments.mem_names_iff {segs : Segments} {n : ℕ} :
    segmentName n ∈ segs.names ↔ ∃ s ∈ segs.all, s.1 = n := by
  unfold Segments.names
  rw [List.mem_map]
  constructor
  · rintro ⟨s, hs, hname⟩
    exact ⟨s, hs, segmentName_injective hname⟩
  · rintro ⟨s, hs, rfl⟩
    exact ⟨s, hs, rfl⟩

/-! ## Writing an entry -/

/-- The size of an entry with data, in the wire form. -/
theorem length_wireMarshal (entry : LogEntry) (h : entry.data ≠ []) :
    (wireMarshal entry).length =
      (numberField 0x08 entry.index).length + ((numberField 0x10 entry.term).length +
        ((varint entry.data.length).length + entry.data.length + 1)) := by
  unfold wireMarshal
  rw [if_neg h, List.length_append, List.length_append, List.length_cons, List.length_append]

section Collides

variable (codec : EntryCodec)

/-- The entry's record would exceed the size limit of the active segment. -/
def Segments.Full (segs : Segments) (entry : LogEntry) : Prop :=
  segs.content.length + (headerSize + (codec.marshal entry).length) > maxSegmentSize

/-- The entry needs a new segment, and there is one of that name. -/
def Segments.Collides (segs : Segments) (entry : LogEntry) : Prop :=
  segs.Full codec entry ∧ segmentName entry.index ∈ segs.names

instance (segs : Segments) (entry : LogEntry) : Decidable (segs.Full codec entry) :=
  inferInstanceAs (Decidable (_ > _))

instance (segs : Segments) (entry : LogEntry) : Decidable (segs.Collides codec entry) :=
  inferInstanceAs (Decidable (_ ∧ _))

variable {codec} {segs : Segments} {entry : LogEntry}

theorem Segments.place_of_full (h : segs.Full codec entry) :
    segs.place codec entry = ⟨segs.all, entry.index, record codec entry⟩ :=
  if_pos h

theorem Segments.place_of_not_full (h : ¬ segs.Full codec entry) :
    segs.place codec entry = ⟨segs.front, segs.number, segs.content ++ record codec entry⟩ :=
  if_neg h

end Collides

namespace WAL

variable {w w' : WAL} {segs : Segments} {s : LogList} {codec : EntryCodec} {entry : LogEntry}

theorem Holds.mem_keys_iff (h : w.Holds segs) (n : ℕ) :
    segmentName n ∈ w.dir.keys ↔ segmentName n ∈ segs.names := by
  obtain ⟨file, hstores, -⟩ := h.files
  have hnames : segs.names = (segs.front ++ [(segs.number, file)]).map Segment.name := by
    simp [Segments.names, Segments.all, Segment.name]
  rw [hnames, hstores.mem_names_iff]
  exact ⟨fun hmem => ⟨hmem, Stores.isSuffixOf_segmentName n⟩, fun hmem => hmem.1⟩

/-- An entry that collides is not written, and what the writer held back is flushed. -/
theorem Holds.appendEntry_error (h : w.Holds segs) (hsize : w.size = segs.content.length)
    (hcollides : segs.Collides codec entry) :
    w.appendEntry codec entry = .error (.createSegment (segmentName entry.index), w.flush) := by
  obtain ⟨hfull, htaken⟩ := hcollides
  have hroll : w.rollSegment entry.index =
      .error (.createSegment (segmentName entry.index), w.flush) :=
    if_pos ((h.flush.mem_keys_iff entry.index).mpr htaken)
  unfold Segments.Full at hfull
  rw [← hsize] at hfull
  unfold WAL.appendEntry WAL.makeRoom
  rw [if_pos hfull, hroll]
  rfl

/-- Every other entry is. -/
theorem Holds.appendEntry_ok (h : w.Holds segs) (hsize : w.size = segs.content.length)
    (hfree : ¬ segs.Collides codec entry) :
    ∃ w', w.appendEntry codec entry = .ok w' ∧ w'.lastIndex = entry.index := by
  unfold WAL.appendEntry WAL.makeRoom
  by_cases hfull : w.size + (headerSize + (codec.marshal entry).length) > maxSegmentSize
  · have hnew : segmentName entry.index ∉ w.flush.dir.keys := by
      intro hmem
      refine hfree ⟨?_, (h.flush.mem_keys_iff entry.index).mp hmem⟩
      rwa [hsize] at hfull
    obtain ⟨room, hroom⟩ := createSegment_ok hnew
    rw [if_pos hfull, WAL.rollSegment, hroom]
    exact ⟨_, rfl, rfl⟩
  · rw [if_neg hfull]
    exact ⟨_, rfl, rfl⟩

/-- A collision, by the size of the active segment and the names in the directory. -/
theorem Flushed.collides_iff (h : w.Flushed segs) : segs.Collides codec entry ↔
    w.size + (headerSize + (codec.marshal entry).length) > maxSegmentSize ∧
      segmentName entry.index ∈ w.dir.keys := by
  unfold Segments.Collides Segments.Full
  rw [h.size]
  refine and_congr_right fun _ => (h.stores.mem_names_iff _).trans ?_
  exact and_iff_left (Stores.isSuffixOf_segmentName _)

theorem Flushed.append_error (h : w.Flushed segs) (hcollides : segs.Collides codec entry) :
    w.append codec entry = .error (.createSegment (segmentName entry.index), w.flush) := by
  unfold WAL.append
  rw [h.toHolds.appendEntry_error h.size hcollides]
  rfl

theorem Flushed.append_error_iff (h : w.Flushed segs) :
    (∃ failure, w.append codec entry = .error failure) ↔ segs.Collides codec entry := by
  constructor
  · rintro ⟨failure, hfail⟩
    by_contra hfree
    obtain ⟨written, hok, -⟩ := h.toHolds.appendEntry_ok h.size hfree
    unfold WAL.append at hfail
    rw [hok] at hfail
    cases hfail
  · exact fun hcollides => ⟨_, h.append_error hcollides⟩

/-! ## Whole segments -/

/-- Nothing is held back, and every segment consists of whole records. -/
structure Intact (codec : EntryCodec) (w : WAL) (segs : Segments) : Prop where
  flushed : w.Flushed segs
  whole : ∀ s ∈ segs.all, Segment.Whole codec s

end WAL

section Whole

variable {codec : EntryCodec} {segs : Segments}

theorem Segments.readable_of_whole (h : ∀ s ∈ segs.all, Segment.Whole codec s) :
    segs.Readable codec :=
  ⟨fun s hs => (h s (List.mem_append_left _ hs)).decode, h _ (by simp [Segments.all])⟩

theorem Segments.entries_empty (n : ℕ) : Segments.entries codec ⟨[], n, []⟩ = [] := by
  have hnone : ∀ s ∈ ([] : List Segment), decode codec s.2 = some (s.entries codec) := by simp
  have hnil : ∀ entry ∈ ([] : List LogEntry), Fits codec entry := by simp
  exact (readable_records (n := n) hnone hnil).2

theorem Segments.whole_place (h : ∀ s ∈ segs.all, Segment.Whole codec s) {entry : LogEntry}
    (hfits : Fits codec entry) : ∀ s ∈ (segs.place codec entry).all, Segment.Whole codec s := by
  have hactive := ((readable_of_whole h).place hfits).1.active
  have hfront : ∀ s ∈ (segs.place codec entry).front, Segment.Whole codec s := by
    by_cases hfull : segs.Full codec entry
    · rw [place_of_full hfull]
      exact h
    · rw [place_of_not_full hfull]
      exact fun s hs => h s (List.mem_append_left _ hs)
  intro s hs
  rcases List.mem_append.mp hs with hs | hs
  · exact hfront s hs
  · exact List.mem_singleton.mp hs ▸ hactive

theorem Segments.whole_foldl_place (h : ∀ s ∈ segs.all, Segment.Whole codec s)
    {entries : List LogEntry} (hfits : ∀ entry ∈ entries, Fits codec entry) :
    ∀ s ∈ (entries.foldl (Segments.place codec) segs).all, Segment.Whole codec s := by
  induction entries generalizing segs with
  | nil => exact h
  | cons entry rest ih =>
      obtain ⟨hfirst, hrest⟩ := List.forall_mem_cons.mp hfits
      exact ih (whole_place h hfirst) hrest

end Whole

namespace WAL

variable {w w' : WAL} {segs : Segments} {s : LogList} {codec : EntryCodec} {entry : LogEntry}

namespace Intact

/-- Reading gives the entries of the segments, in whatever order the names are. -/
theorem readSegments (h : w.Intact codec segs) {dir : Directory} (hstores : Stores dir segs.all) :
    ∃ entries, Wal.readSegments codec dir = .ok entries ∧ entries.Perm (segs.entries codec) :=
  hstores.readSegments_perm fun s hs => (h.whole s hs).decode

theorem readAll (h : w.Intact codec segs) :
    ∃ entries, w.readAll codec = .ok entries ∧ entries.Perm (segs.entries codec) :=
  h.readSegments h.flushed.stores

theorem appendBatch (h : w.Intact codec segs) {entries : List LogEntry}
    (hfits : ∀ entry ∈ entries, Fits codec entry) (hok : w.appendBatch codec entries = .ok w') :
    w'.Intact codec (entries.foldl (Segments.place codec) segs) :=
  ⟨h.flushed.appendBatch hok, Segments.whole_foldl_place h.whole hfits⟩

theorem fits (h : w.Intact codec segs) : ∀ entry ∈ segs.entries codec, Fits codec entry := by
  intro entry hentry
  obtain ⟨seg, hseg, hmem⟩ := List.mem_flatMap.mp hentry
  exact (h.whole seg hseg).fits entry hmem

/-- Entries that fit, rewritten into a segment of their own. -/
theorem of_records {n : ℕ} {entries : List LogEntry} (hfits : ∀ entry ∈ entries, Fits codec entry)
    (hflushed : w.Flushed ⟨[], n, records codec entries⟩) :
    w.Intact codec ⟨[], n, records codec entries⟩ ∧
      Segments.entries codec ⟨[], n, records codec entries⟩ = entries := by
  have hwhole : Segment.Whole codec (n, records codec entries) := Segment.whole_records hfits
  refine ⟨⟨hflushed, fun s hs => ?_⟩, ?_⟩
  · rw [List.mem_singleton.mp hs]
    exact hwhole
  · have hnone : ∀ s ∈ ([] : List Segment), decode codec s.2 = some (s.entries codec) := by simp
    exact (Segments.readable_records hnone hfits).2

/-- A truncation never fails. -/
theorem truncate (h : w.Intact codec segs) (keep : LogEntry → Bool) (lastIndex firstIndex : ℕ) :
    ∃ w' entries, w.truncate codec keep lastIndex firstIndex = .ok w' ∧
      entries.Perm ((segs.entries codec).filter keep) ∧
      w'.Intact codec ⟨[], firstIndex, records codec entries⟩ ∧
      Segments.entries codec ⟨[], firstIndex, records codec entries⟩ = entries := by
  obtain ⟨entries, hread, hperm⟩ := h.readSegments h.flushed.closeCurrent.1
  have hnew : segmentName firstIndex ∉ (w.emptied lastIndex).dir.keys :=
    (Stores.remove_paths _).segmentName_notMem firstIndex
  obtain ⟨created, hcreated⟩ := createSegment_ok hnew
  have hok : w.truncate codec keep lastIndex firstIndex =
      .ok ((entries.filter keep).foldl (rewriteEntry codec) created).flush := by
    unfold WAL.truncate
    simp only [hread, hcreated]
    rfl
  have hfits : ∀ entry ∈ entries.filter keep, Fits codec entry := fun entry hentry =>
    h.fits entry (hperm.mem_iff.mp (List.mem_of_mem_filter hentry))
  exact ⟨_, entries.filter keep, hok, hperm.filter keep,
    of_records hfits (flushed_truncate hread hok)⟩

/-- Neither does opening; the segments are the same. -/
theorem reopen (h : w.Intact codec segs) :
    ∃ w' segs', w.reopen codec = .ok w' ∧ w'.Intact codec segs' ∧ segs'.all.Perm segs.all := by
  obtain ⟨w', segs', hopen, hflushed, hperm⟩ :=
    openDir_any h.flushed.closeCurrent.1 fun s hs => (h.whole s hs).decode
  exact ⟨w', segs', hopen, ⟨hflushed, fun s hs => h.whole s (hperm.mem_iff.mp hs)⟩, hperm⟩

end Intact

theorem intact_openDir {dir : Directory} (hdir : segmentPaths dir = [])
    (hopen : openDir codec dir = .ok w) : w.Intact codec ⟨[], 1, []⟩ := by
  obtain ⟨opened, hok, hflushed⟩ := openDir_empty codec (Stores.of_paths_eq_nil hdir)
  obtain rfl : opened = w := Except.ok.inj (hok.symm.trans hopen)
  have hnil : ∀ entry ∈ ([] : List LogEntry), Fits codec entry := by simp
  exact (Intact.of_records (n := 1) hnil hflushed).1

end WAL

/-! ## The numbers in the names -/

/-- No segment is numbered above the last index, or the only one is empty and waits for
the next entry. -/
def Segments.Numbered (segs : Segments) (last : ℕ) : Prop :=
  (∀ s ∈ segs.all, s.1 ≤ last) ∨
    segs.front = [] ∧ segs.number = last + 1 ∧ segs.content = []

namespace Segments.Numbered

variable {segs segs' : Segments} {last : ℕ} {codec : EntryCodec} {entry : LogEntry}

theorem number_le (h : segs.Numbered last) {s : Segment} (hs : s ∈ segs.all) : s.1 ≤ last + 1 := by
  rcases h with hle | ⟨hfront, hnumber, hcontent⟩
  · exact (hle s hs).trans (Nat.le_succ last)
  · rw [Segments.all, hfront, List.nil_append, List.mem_singleton] at hs
    rw [hs, hnumber]

theorem place (h : segs.Numbered last) (hlast : last < entry.index) :
    (segs.place codec entry).Numbered entry.index := by
  refine .inl fun s hs => ?_
  by_cases hfull : segs.Full codec entry
  · rw [place_of_full hfull] at hs
    rcases List.mem_append.mp hs with hs | hs
    · exact (h.number_le hs).trans hlast
    · rw [List.mem_singleton.mp hs]
  · rw [place_of_not_full hfull] at hs
    rcases List.mem_append.mp hs with hs | hs
    · exact (h.number_le (List.mem_append_left _ hs)).trans hlast
    · rw [List.mem_singleton.mp hs]
      exact (h.number_le (s := (segs.number, segs.content)) (by simp [Segments.all])).trans hlast

theorem perm (h : segs.Numbered last) (hperm : segs'.all.Perm segs.all) :
    segs'.Numbered last := by
  rcases h with hle | ⟨hfront, hnumber, hcontent⟩
  · exact .inl fun s hs => hle s (hperm.mem_iff.mp hs)
  · have hall : segs.all = [(last + 1, [])] := by
      rw [Segments.all, hfront, hnumber, hcontent, List.nil_append]
    rw [hall, List.perm_singleton, Segments.all, List.append_eq_singleton_iff] at hperm
    rcases hperm with ⟨hfront', hactive⟩ | ⟨-, hnone⟩
    · obtain ⟨hnumber', hcontent'⟩ := Prod.mk.inj (List.singleton_inj.mp hactive)
      exact .inr ⟨hfront', hnumber', hcontent'⟩
    · simp at hnone

/-- An entry above the last index collides only with the empty segment that waits for it. -/
theorem collides_iff (h : segs.Numbered last) (hlast : last < entry.index) :
    segs.Collides codec entry ↔
      segs.number = entry.index ∧ segs.content = [] ∧
        headerSize + (codec.marshal entry).length > maxSegmentSize := by
  constructor
  · rintro ⟨hfull, htaken⟩
    obtain ⟨s, hs, hnumber⟩ := mem_names_iff.mp htaken
    rcases h with hle | ⟨hfront, hwaits, hcontent⟩
    · have := hle s hs
      omega
    · rw [Segments.all, hfront, List.nil_append, List.mem_singleton] at hs
      rw [hs] at hnumber
      unfold Segments.Full at hfull
      rw [hcontent, List.length_nil, Nat.zero_add] at hfull
      exact ⟨hnumber, hcontent, hfull⟩
  · rintro ⟨hnumber, hcontent, hlarge⟩
    refine ⟨?_, mem_names_iff.mpr ⟨(segs.number, segs.content), by simp [Segments.all], hnumber⟩⟩
    unfold Segments.Full
    rw [hcontent, List.length_nil, Nat.zero_add]
    exact hlarge

end Segments.Numbered

/-! ## Runs -/

namespace LogList

variable (codec : EntryCodec)

/-- The entry's index is above the last one, for example the next, and the payload's
length fits its header. -/
def Continues (s : LogList) (entry : LogEntry) : Prop :=
  s.last < entry.index ∧ Fits codec entry

instance (s : LogList) (entry : LogEntry) : Decidable (s.Continues codec entry) :=
  inferInstanceAs (Decidable (_ ∧ _))

/-- Every entry that is appended continues the list. -/
def Continued (s : LogList) : Op → Prop
  | .append entry => s.Continues codec entry
  | .appendBatch entries => Allowed append (Continues codec) s entries
  | _ => True

instance (s : LogList) : (op : Op) → Decidable (s.Continued codec op)
  | .append entry => inferInstanceAs (Decidable (s.Continues codec entry))
  | .appendBatch entries => inferInstanceAs (Decidable (Allowed append (Continues codec) s entries))
  | .truncateSuffix _ => inferInstanceAs (Decidable True)
  | .truncatePrefix _ => inferInstanceAs (Decidable True)
  | .reopen => inferInstanceAs (Decidable True)

end LogList

namespace WAL

variable {w w' : WAL} {segs : Segments} {s : LogList} {codec : EntryCodec} {entry : LogEntry}

/-- The segments hold the entries of the list, in some order, and their numbers lie where
the list says. -/
structure Matches (codec : EntryCodec) (w : WAL) (segs : Segments) (s : LogList) : Prop where
  intact : w.Intact codec segs
  entries : (segs.entries codec).Perm s.entries
  numbered : segs.Numbered s.last
  positive : ∀ entry ∈ s.entries, 0 < entry.index

theorem Matches.appendBatch (h : w.Matches codec segs s) {entries : List LogEntry}
    (hcontinues : Allowed LogList.append (LogList.Continues codec) s entries)
    (hok : w.appendBatch codec entries = .ok w') :
    w'.Matches codec (entries.foldl (Segments.place codec) segs) (entries.foldl .append s) := by
  have hboth : (entries.foldl (Segments.place codec) segs).Numbered (entries.foldl .append s).last ∧
      (∀ entry ∈ entries, Fits codec entry ∧ 0 < entry.index) := by
    have hnumbered := h.numbered
    clear hok h
    induction entries generalizing segs s with
    | nil => exact ⟨hnumbered, by simp⟩
    | cons entry rest ih =>
        obtain ⟨⟨hlast, hfits⟩, hrest⟩ := hcontinues
        obtain ⟨hnumbers, hall⟩ := ih hrest (hnumbered.place hlast)
        exact ⟨hnumbers, List.forall_mem_cons.mpr ⟨⟨hfits, by omega⟩, hall⟩⟩
  obtain ⟨hnumbered, hall⟩ := hboth
  have hfits : ∀ entry ∈ entries, Fits codec entry := fun entry hentry => (hall entry hentry).1
  refine ⟨h.intact.appendBatch hfits hok, ?_, hnumbered, ?_⟩
  · rw [((Segments.readable_of_whole h.intact.whole).foldl_place hfits).2,
      LogList.foldl_append_entries]
    exact h.entries.append_right entries
  · intro entry hentry
    rw [LogList.foldl_append_entries, List.mem_append] at hentry
    exact hentry.elim (h.positive entry) fun hmem => (hall entry hmem).2

/-- A truncation, whose new segment is numbered at most as the entries that it keeps. -/
theorem Matches.truncate (h : w.Matches codec segs s) {keep : LogEntry → Bool}
    {index firstIndex : ℕ} (hindex : firstIndex ≤ index + 1)
    (hkeep : ∀ entry ∈ s.entries, keep entry → firstIndex ≤ entry.index)
    (hok : w.truncate codec keep index firstIndex = .ok w') :
    ∃ segs', w'.Matches codec segs' (s.truncate keep index) := by
  obtain ⟨left, kept, hleft, hperm, hintact, hentries⟩ := h.intact.truncate keep index firstIndex
  obtain rfl : left = w' := Except.ok.inj (hleft.symm.trans hok)
  have hkept : kept.Perm (s.entries.filter keep) := hperm.trans (h.entries.filter keep)
  refine ⟨_, hintact, by rw [hentries]; exact hkept, ?_, fun entry hentry =>
    h.positive entry (List.mem_of_mem_filter hentry)⟩
  unfold LogList.truncate
  cases hlast : (s.entries.filter keep).getLast? with
  | none =>
      -- nothing is kept, and the new segment is empty
      have hnone : kept = [] := by
        rw [List.getLast?_eq_none_iff.mp hlast] at hkept
        exact hkept.eq_nil
      rcases Nat.lt_or_ge index firstIndex with hlt | hge
      · exact .inr ⟨rfl, Nat.le_antisymm hindex hlt, by rw [hnone]; rfl⟩
      · exact .inl fun seg hseg => by rw [List.mem_singleton.mp hseg]; exact hge
  | some entry =>
      obtain ⟨hmem, hkeeps⟩ := List.mem_filter.mp (List.mem_of_getLast? hlast)
      refine .inl fun seg hseg => ?_
      rw [List.mem_singleton.mp hseg]
      exact hkeep entry hmem hkeeps

theorem Matches.step (h : w.Matches codec segs s) {op : Op} (hcontinued : s.Continued codec op)
    (hok : w.step codec op = .ok w') : ∃ segs', w'.Matches codec segs' (s.step op) := by
  cases op with
  | append entry =>
      have happend := ok_of_mapError hok
      rw [append_eq_appendBatch] at happend
      have hcontinues : Allowed LogList.append (LogList.Continues codec) s [entry] :=
        ⟨hcontinued, trivial⟩
      exact ⟨_, h.appendBatch hcontinues happend⟩
  | appendBatch entries => exact ⟨_, h.appendBatch hcontinued (ok_of_mapError hok)⟩
  | truncateSuffix keepIndex =>
      exact h.truncate le_rfl (fun entry hentry _ => h.positive entry hentry) (ok_of_mapError hok)
  | truncatePrefix discardIndex =>
      have hmod : (discardIndex + 1) % 2 ^ 64 ≤ discardIndex + 1 := Nat.mod_le _ _
      refine h.truncate hmod (fun entry _ hkeep => hmod.trans ?_) (ok_of_mapError hok)
      exact of_decide_eq_true hkeep
  | reopen =>
      obtain ⟨left, segs', hleft, hintact, hperm⟩ := h.intact.reopen
      obtain rfl : left = w' := Except.ok.inj (hleft.symm.trans hok)
      refine ⟨segs', hintact, ?_, h.numbered.perm hperm, h.positive⟩
      exact (hperm.flatMap_right _).trans h.entries

theorem Matches.run (h : w.Matches codec segs s) {ops : List Op}
    (hcontinued : Allowed LogList.step (LogList.Continued codec) s ops)
    (hrun : ops.foldlM (WAL.step codec) w = .ok w') :
    ∃ segs', w'.Matches codec segs' (ops.foldl LogList.step s) := by
  induction ops generalizing w segs s with
  | nil =>
      obtain rfl : w = w' := Except.ok.inj hrun
      exact ⟨segs, h⟩
  | cons op rest ih =>
      rw [List.foldlM_cons] at hrun
      obtain ⟨next, hnext, hrest⟩ := exists_ok_of_bind hrun
      obtain ⟨segs', hmatches⟩ := h.step hcontinued.1 hnext
      exact ih hmatches hcontinued.2 hrest

theorem matches_openDir {dir : Directory} (hdir : segmentPaths dir = [])
    (hopen : openDir codec dir = .ok w) : w.Matches codec ⟨[], 1, []⟩ .empty := by
  refine ⟨intact_openDir hdir hopen, ?_, .inr ⟨rfl, rfl, rfl⟩, by simp [LogList.empty]⟩
  rw [Segments.entries_empty]
  exact List.Perm.refl []

theorem Flushed.content_eq_nil_iff (h : w.Flushed segs) : segs.content = [] ↔ w.size = 0 := by
  rw [h.size, List.length_eq_zero_iff]

/-- From a directory without segments on, after any operations that succeed, with entries
appended above the last index: `Append` of a further one fails exactly if the active
segment is empty, carries the entry's own index in its name, and the entry's record is
larger than a segment may be. -/
theorem append_collides_iff (codec : EntryCodec) {dir : Directory} (hdir : segmentPaths dir = [])
    {w₀ w : WAL} (hopen : openDir codec dir = .ok w₀) {ops : List Op}
    (hcontinued : Allowed LogList.step (LogList.Continued codec) .empty ops)
    (hrun : ops.foldlM (WAL.step codec) w₀ = .ok w) (entry : LogEntry)
    (hnext : (ops.foldl LogList.step .empty).Continues codec entry) :
    (∃ failure, w.append codec entry = .error failure) ↔
      w.current = some (segmentName entry.index) ∧ w.size = 0 ∧
        headerSize + (codec.marshal entry).length > maxSegmentSize := by
  obtain ⟨segs, hmatches⟩ := (matches_openDir hdir hopen).run hcontinued hrun
  have hflushed := hmatches.intact.flushed
  rw [hflushed.append_error_iff, hmatches.numbered.collides_iff hnext.1,
    hflushed.content_eq_nil_iff, hflushed.current, Option.some.injEq,
    segmentName_injective.eq_iff]

theorem append_collides_iff_mixedOps :
    ∃ w₀ w w', openDir wireCodec ∅ = .ok w₀ ∧ mixedOps.foldlM (WAL.step wireCodec) w₀ = .ok w ∧
      w.append wireCodec ⟨6, 2, [12]⟩ = .ok w' := by
  have hruns : (openDir wireCodec ∅ >>= mixedOps.foldlM (WAL.step wireCodec)).toBool = true := by
    decide +kernel
  obtain ⟨w, hw⟩ := exists_ok_of_toBool hruns
  obtain ⟨w₀, hopen, hrun⟩ := exists_ok_of_bind hw
  have hiff := append_collides_iff wireCodec (by decide) hopen (by decide +kernel) hrun
    ⟨6, 2, [12]⟩ (by decide +kernel)
  have hsmall : ¬ headerSize + (wireCodec.marshal ⟨6, 2, [12]⟩).length > maxSegmentSize := by
    decide +kernel
  cases happend : w.append wireCodec ⟨6, 2, [12]⟩ with
  | error failure => exact absurd (hiff.mp ⟨failure, happend⟩).2.2 hsmall
  | ok w' => exact ⟨w₀, w, w', hopen, hrun, happend⟩

/-- A first entry with data of 8 MB. -/
def oversized : LogEntry :=
  ⟨1, 1, List.replicate maxSegmentSize 0⟩

theorem length_marshal_oversized : (wireCodec.marshal oversized).length = 8388617 := by
  have hlength : oversized.data.length = 8388608 := List.length_replicate
  have hne : oversized.data ≠ [] := by
    intro hnil
    rw [hnil] at hlength
    cases hlength
  refine (length_wireMarshal oversized hne).trans ?_
  rw [hlength]
  decide +kernel

/-- A fresh log refuses its first entry, whose segment is there already. -/
theorem first_append_collides :
    LogList.empty.Continues wireCodec oversized ∧
      ∃ w, openDir wireCodec ∅ = .ok w ∧
        w.append wireCodec oversized = .error (.createSegment (segmentName 1), w.flush) := by
  have hfits : Fits wireCodec oversized := by
    unfold Fits
    rw [length_marshal_oversized]
    decide
  have hopens : (openDir wireCodec ∅).toBool = true := by decide +kernel
  obtain ⟨w, hopen⟩ := exists_ok_of_toBool hopens
  refine ⟨⟨Nat.one_pos, hfits⟩, w, hopen, ?_⟩
  have hcollides : Segments.Collides wireCodec ⟨[], 1, []⟩ oversized := by
    refine ⟨?_, List.mem_singleton_self _⟩
    unfold Segments.Full
    rw [length_marshal_oversized]
    decide
  exact (intact_openDir (by decide) hopen).flushed.append_error hcollides

end WAL

end RaftKV.Wal
