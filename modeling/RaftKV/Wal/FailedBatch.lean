import RaftKV.Wal.Collision

/-!
# Batches that fail half-way

`AppendBatch` writes its entries one after the other, and the name of a new segment may
be taken in the middle.  What was written before is then in the files: the roll that
fails has flushed the writer before it looks at the name, and `lastIndex` follows every
entry.  So a failed batch leaves exactly the entries in front of the one that collides
(`Intact.appendBatch_error`), and it leaves no trace only if that is the first
(`failed_batch_trace_iff`).

Such batches come up when entries that are in the log already are appended again.  The
runs here are by operations that are tried, whether they succeed or not, with batches of
any indices.
-/

namespace RaftKV.Wal

open RaftKV.Raft (LogEntry)

/-! ## The entries in front of the one that collides -/

/-- None of the entries collides, when they are written one after the other. -/
def Segments.Free (codec : EntryCodec) (segs : Segments) (entries : List LogEntry) : Prop :=
  Allowed (Segments.place codec) (fun segs entry => ¬ segs.Collides codec entry) segs entries

theorem Segments.free_or_collides (codec : EntryCodec) (segs : Segments)
    (entries : List LogEntry) :
    segs.Free codec entries ∨ ∃ written entry rest, entries = written ++ entry :: rest ∧
      segs.Free codec written ∧
      (written.foldl (Segments.place codec) segs).Collides codec entry := by
  induction entries generalizing segs with
  | nil => exact .inl trivial
  | cons entry rest ih =>
      by_cases hcollides : segs.Collides codec entry
      · exact .inr ⟨[], entry, rest, rfl, trivial, hcollides⟩
      · rcases ih (segs.place codec entry) with hfree | ⟨written, entry', rest', rfl, hfree, hlater⟩
        · exact .inl ⟨hcollides, hfree⟩
        · exact .inr ⟨entry :: written, entry', rest', rfl, ⟨hcollides, hfree⟩, hlater⟩

namespace WAL

variable {w w' : WAL} {segs : Segments} {codec : EntryCodec} {entries written : List LogEntry}

theorem lastIndex_flush (w : WAL) : w.flush.lastIndex = w.lastIndex := by
  unfold WAL.flush WAL.appendFile
  split <;> rfl

/-- The index of the last entry, or another if there is none. -/
def lastOf (entries : List LogEntry) (index : ℕ) : ℕ :=
  (entries.getLast?.map LogEntry.index).getD index

theorem lastOf_cons (entry : LogEntry) (rest : List LogEntry) (index : ℕ) :
    lastOf (entry :: rest) index = lastOf rest entry.index := by
  unfold lastOf
  cases rest with
  | nil => rfl
  | cons next rest => simp [List.getLast?_cons]

/-- Entries that do not collide are all written. -/
theorem Holds.appendEntries_ok (h : w.Holds segs) (hsize : w.size = segs.content.length)
    (hfree : segs.Free codec entries) :
    ∃ w', entries.foldlM (WAL.appendEntry codec) w = .ok w' ∧
      w'.lastIndex = lastOf entries w.lastIndex := by
  induction entries generalizing w segs with
  | nil => exact ⟨w, rfl, rfl⟩
  | cons entry rest ih =>
      obtain ⟨next, hnext, hlast⟩ := h.appendEntry_ok hsize hfree.1
      obtain ⟨hholds, hlength⟩ := h.appendEntry hsize hnext
      obtain ⟨w', hok, hlast'⟩ := ih hholds hlength hfree.2
      refine ⟨w', ?_, by rw [hlast', hlast, lastOf_cons]⟩
      rw [List.foldlM_cons, hnext]
      exact hok

theorem Flushed.appendBatch_ok (h : w.Flushed segs) (hfree : segs.Free codec entries) :
    ∃ w', w.appendBatch codec entries = .ok w' ∧ w'.lastIndex = lastOf entries w.lastIndex := by
  unfold WAL.appendBatch
  split
  · next hnil => exact ⟨w, rfl, by rw [hnil]; rfl⟩
  · obtain ⟨w', hok, hlast⟩ := h.toHolds.appendEntries_ok h.size hfree
    rw [hok]
    exact ⟨w'.flush, rfl, by rw [lastIndex_flush, hlast]⟩

/-- At the first that collides the batch fails, with those in front of it written. -/
theorem Flushed.appendBatch_error (h : w.Flushed segs) (hfree : segs.Free codec written)
    {entry : LogEntry}
    (hcollides : (written.foldl (Segments.place codec) segs).Collides codec entry)
    (rest : List LogEntry) :
    ∃ w', w.appendBatch codec (written ++ entry :: rest) =
        .error (.createSegment (segmentName entry.index), w') ∧
      w'.Flushed (written.foldl (Segments.place codec) segs) ∧
      w'.lastIndex = lastOf written w.lastIndex := by
  obtain ⟨mid, hok, hlast⟩ := h.toHolds.appendEntries_ok h.size hfree
  obtain ⟨hholds, hsize⟩ := h.toHolds.foldlM_appendEntry h.size hok
  refine ⟨mid.flush, ?_, ⟨hholds.flush, by rw [flush_size, hsize], rfl⟩,
    by rw [lastIndex_flush, hlast]⟩
  unfold WAL.appendBatch
  rw [if_neg (by simp), List.foldlM_append, hok]
  change (List.foldlM (WAL.appendEntry codec) mid (entry :: rest) >>= _) = _
  rw [List.foldlM_cons, hholds.appendEntry_error hsize hcollides]
  rfl

/-- That is the only way in which a batch fails. -/
theorem Intact.appendBatch_error (h : w.Intact codec segs)
    (hfits : ∀ entry ∈ entries, Fits codec entry) {err : WalError}
    (hfail : w.appendBatch codec entries = .error (err, w')) :
    ∃ written entry rest, entries = written ++ entry :: rest ∧ segs.Free codec written ∧
      (written.foldl (Segments.place codec) segs).Collides codec entry ∧
      err = .createSegment (segmentName entry.index) ∧
      w'.Intact codec (written.foldl (Segments.place codec) segs) ∧
      w'.lastIndex = lastOf written w.lastIndex := by
  rcases segs.free_or_collides codec entries with hfree | ⟨written, entry, rest, rfl, hfree,
    hcollides⟩
  · obtain ⟨left, hok, -⟩ := h.flushed.appendBatch_ok hfree
    rw [hok] at hfail
    cases hfail
  · obtain ⟨left, herror, hflushed, hlast⟩ := h.flushed.appendBatch_error hfree hcollides rest
    rw [herror] at hfail
    obtain ⟨rfl, rfl⟩ := Prod.mk.inj (Except.error.inj hfail)
    have hwritten : ∀ entry ∈ written, Fits codec entry := fun entry hentry =>
      hfits entry (List.mem_append_left _ hentry)
    exact ⟨written, entry, rest, rfl, hfree, hcollides, rfl,
      ⟨hflushed, Segments.whole_foldl_place h.whole hwritten⟩, hlast⟩

/-! ## Runs by operations that are tried -/

/-- The log that a fallible operation leaves behind. -/
def left : Except Failure WAL → WAL
  | .ok w => w
  | .error (_, w) => w

/-- An operation, whether it succeeds or not.  A log that cannot be opened again stays as
it is. -/
def attempt (codec : EntryCodec) (w : WAL) : Op → WAL
  | .append entry => left (w.append codec entry)
  | .appendBatch entries => left (w.appendBatch codec entries)
  | .truncateSuffix keepIndex => left (w.truncateSuffix codec keepIndex)
  | .truncatePrefix discardIndex => left ( w.truncatePrefix codec discardIndex)
  | .reopen =>
      match w.reopen codec with
      | .ok w' => w'
      | .error _ => w

end WAL

/-- The entries that an operation appends have lengths that the headers can hold. -/
def Op.Fits (codec : EntryCodec) : Op → Prop
  | .append entry => Wal.Fits codec entry
  | .appendBatch entries => ∀ entry ∈ entries, Wal.Fits codec entry
  | _ => True

namespace WAL

variable {w w' w₀ : WAL} {segs : Segments} {codec : EntryCodec}

theorem Intact.attempt_appendBatch (h : w.Intact codec segs) {entries : List LogEntry}
    (hfits : ∀ entry ∈ entries, Fits codec entry) :
    ∃ segs', (left (w.appendBatch codec entries)).Intact codec segs' := by
  cases hbatch : w.appendBatch codec entries with
  | ok w' => exact ⟨_, h.appendBatch hfits hbatch⟩
  | error failure =>
      obtain ⟨err, w'⟩ := failure
      obtain ⟨written, -, -, -, -, -, -, hintact, -⟩ := h.appendBatch_error hfits hbatch
      exact ⟨_, hintact⟩

theorem Intact.attempt (h : w.Intact codec segs) {op : Op} (hfits : op.Fits codec) :
    ∃ segs', (w.attempt codec op).Intact codec segs' := by
  cases op with
  | append entry =>
      change ∃ segs', (left (w.append codec entry)).Intact codec segs'
      rw [append_eq_appendBatch]
      exact h.attempt_appendBatch (List.forall_mem_singleton.mpr hfits)
  | appendBatch entries => exact h.attempt_appendBatch hfits
  | truncateSuffix keepIndex =>
      obtain ⟨w', entries, hok, -, hintact, -⟩ := h.truncate (fun e => e.index ≤ keepIndex) 0 1
      rw [WAL.attempt, WAL.truncateSuffix, hok]
      exact ⟨_, hintact⟩
  | truncatePrefix discardIndex =>
      obtain ⟨w', entries, hok, -, hintact, -⟩ :=
        h.truncate (fun e => discardIndex < e.index) discardIndex ((discardIndex + 1) % 2 ^ 64)
      rw [WAL.attempt, WAL.truncatePrefix, hok]
      exact ⟨_, hintact⟩
  | reopen =>
      obtain ⟨w', segs', hok, hintact, -⟩ := h.reopen
      rw [WAL.attempt, hok]
      exact ⟨segs', hintact⟩

theorem intact_of_reaches {dir : Directory} (hdir : segmentPaths dir = [])
    (hopen : openDir codec dir = .ok w₀)
    (hrun : Reaches (WAL.attempt codec) (fun _ op => op.Fits codec) w₀ w) :
    ∃ segs, w.Intact codec segs := by
  refine hrun.invariant (P := fun w => ∃ segs, w.Intact codec segs)
    ⟨_, intact_openDir hdir hopen⟩ fun w op hinv hfits => ?_
  obtain ⟨segs, hintact⟩ := hinv
  exact hintact.attempt hfits

/-! ## The trace of a failed batch -/

/-- Batches that succeed one after another. -/
theorem Intact.appendBatches (h : w.Intact codec segs) {batches : List (List LogEntry)}
    (hfits : ∀ batch ∈ batches, ∀ entry ∈ batch, Fits codec entry)
    (hok : batches.foldlM (WAL.appendBatch codec) w = .ok w') :
    ∃ segs', w'.Intact codec segs' ∧
      segs'.entries codec = segs.entries codec ++ batches.flatten := by
  induction batches generalizing w segs with
  | nil =>
      obtain rfl : w = w' := Except.ok.inj hok
      exact ⟨segs, h, by simp⟩
  | cons batch rest ih =>
      rw [List.foldlM_cons] at hok
      obtain ⟨next, hnext, hrest⟩ := exists_ok_of_bind hok
      obtain ⟨hbatch, hfits⟩ := List.forall_mem_cons.mp hfits
      obtain ⟨segs', hintact, hentries⟩ := ih (h.appendBatch hbatch hnext) hfits hrest
      refine ⟨segs', hintact, ?_⟩
      rw [hentries, ((Segments.readable_of_whole h.whole).foldl_place hbatch).2,
        List.append_assoc, List.flatten_cons]

/-- What is read after any later batches that succeed. -/
def ReadsLater (codec : EntryCodec) (w : WAL) (entries : List LogEntry) : Prop :=
  ∀ (batches : List (List LogEntry)) (w' : WAL),
    (∀ batch ∈ batches, ∀ entry ∈ batch, Fits codec entry) →
    batches.foldlM (WAL.appendBatch codec) w = .ok w' →
    ∃ read, w'.readAll codec = .ok read ∧ read.Perm (entries ++ batches.flatten)

theorem Intact.readsLater (h : w.Intact codec segs) :
    w.ReadsLater codec (segs.entries codec) := by
  intro batches w' hfits hok
  obtain ⟨segs', hintact, hentries⟩ := h.appendBatches hfits hok
  obtain ⟨read, hread, hperm⟩ := hintact.readAll
  exact ⟨read, hread, by rwa [hentries] at hperm⟩

/-- Without later batches that is what is read now. -/
theorem ReadsLater.readAll {entries : List LogEntry} (h : w.ReadsLater codec entries) :
    ∃ read, w.readAll codec = .ok read ∧ read.Perm entries := by
  obtain ⟨read, hread, hperm⟩ := h [] w (by simp) rfl
  exact ⟨read, hread, by simpa using hperm⟩

theorem ReadsLater.perm {entries entries' : List LogEntry} (h : w.ReadsLater codec entries)
    (hperm : entries.Perm entries') : w.ReadsLater codec entries' := by
  intro batches w' hfits hok
  obtain ⟨read, hread, hlater⟩ := h batches w' hfits hok
  exact ⟨read, hread, hlater.trans (hperm.append_right _)⟩

/-- What is read determines how much of it is new. -/
theorem ReadsLater.eq_nil {entries more : List LogEntry}
    (h : w.ReadsLater codec (entries ++ more)) (h' : w.ReadsLater codec entries) : more = [] := by
  obtain ⟨read, hread, hperm⟩ := h.readAll
  obtain ⟨read', hread', hperm'⟩ := h'.readAll
  obtain rfl : read = read' := Except.ok.inj (hread.symm.trans hread')
  have hlength := hperm.length_eq.symm.trans hperm'.length_eq
  rw [List.length_append] at hlength
  exact List.eq_nil_of_length_eq_zero (by omega)

/-- In every state that operations lead to, whether they succeed or not: a batch fails at
an entry whose segment exists, and what is read from then on, now and after any later
batches that succeed, has the entries in front of that one in it; `LastIndex` is that of
the last of them.  There is no trace of the batch exactly if already its first entry does not
fit into the active segment and the name of its own segment is taken. -/
theorem failed_batch_trace_iff (codec : EntryCodec) {dir : Directory}
    (hdir : segmentPaths dir = []) (hopen : openDir codec dir = .ok w₀)
    (hrun : Reaches (WAL.attempt codec) (fun _ op => op.Fits codec) w₀ w)
    (entries : List LogEntry) (hfits : ∀ entry ∈ entries, Fits codec entry) (err : WalError)
    (hfail : w.appendBatch codec entries = .error (err, w')) :
    ∃ before, w.readAll codec = .ok before ∧
      (∃ written entry rest, entries = written ++ entry :: rest ∧
        err = .createSegment (segmentName entry.index) ∧
        w'.ReadsLater codec (before ++ written) ∧ w'.lastIndex = lastOf written w.lastIndex) ∧
      ((w'.ReadsLater codec before ∧ w'.lastIndex = w.lastIndex) ↔
        ∃ first rest, entries = first :: rest ∧
          w.size + (headerSize + (codec.marshal first).length) > maxSegmentSize ∧
          segmentName first.index ∈ w.dir.keys) := by
  obtain ⟨segs, hintact⟩ := intact_of_reaches hdir hopen hrun
  obtain ⟨before, hread, hbefore⟩ := hintact.readAll
  obtain ⟨written, entry, rest, rfl, hfree, hcollides, rfl, hintact', hlast⟩ :=
    hintact.appendBatch_error hfits hfail
  have hwritten : ∀ entry ∈ written, Fits codec entry := fun entry hentry =>
    hfits entry (List.mem_append_left _ hentry)
  have hentries := ((Segments.readable_of_whole hintact.whole).foldl_place hwritten).2
  have hlater : w'.ReadsLater codec (before ++ written) := by
    have := hintact'.readsLater
    rw [hentries] at this
    exact this.perm (hbefore.symm.append_right written)
  refine ⟨before, hread, ⟨written, entry, rest, rfl, rfl, hlater, hlast⟩, ?_, ?_⟩
  · rintro ⟨hnone, -⟩
    obtain rfl : written = [] := hlater.eq_nil hnone
    exact ⟨entry, rest, rfl, hintact.flushed.collides_iff.mp hcollides⟩
  · rintro ⟨first, others, hfirst, htaken⟩
    -- the first entry collides, so nothing was written before it
    obtain rfl : written = [] := by
      cases written with
      | nil => rfl
      | cons first' written =>
          obtain ⟨rfl, -⟩ := List.cons.inj hfirst
          exact absurd (hintact.flushed.collides_iff.mpr htaken) hfree.1
    rw [List.append_nil] at hlater
    exact ⟨hlater, hlast⟩

/-! ## An overlapping batch -/

/-- An entry with data of 5 MB. -/
def large (index : ℕ) : LogEntry :=
  ⟨index, 1, List.replicate 5242880 0⟩

theorem length_marshal_large {index : ℕ} (hpos : 0 < index) (hlt : index < 128) :
    (wireCodec.marshal (large index)).length = 5242889 := by
  have hlength : (large index).data.length = 5242880 := List.length_replicate
  have hne : (large index).data ≠ [] := by
    intro hnil
    rw [hnil] at hlength
    cases hlength
  have hindex : (numberField 0x08 index).length = 2 := by
    obtain ⟨rounds, rfl⟩ : ∃ rounds, index = rounds + 1 := ⟨index - 1, by omega⟩
    rw [numberField, if_neg (by omega), varint, varintUpTo, if_pos hlt]
    rfl
  have hterm : (numberField 0x10 1).length = 2 := by decide
  have hvarint : (varint 5242880).length = 4 := by decide +kernel
  refine (length_wireMarshal (large index) hne).trans ?_
  rw [hlength]
  change (numberField 0x08 index).length + ((numberField 0x10 1).length + _) = _
  rw [hindex, hterm, hvarint]

theorem fits_large {index : ℕ} (hpos : 0 < index) (hlt : index < 128) :
    Fits wireCodec (large index) := by
  unfold Fits
  rw [length_marshal_large hpos hlt]
  decide

/-- Two of them do not fit into one segment. -/
theorem full_large_iff {segs : Segments} {index : ℕ} (hpos : 0 < index) (hlt : index < 128) :
    segs.Full wireCodec (large index) ↔ 3145711 < segs.content.length := by
  unfold Segments.Full headerSize maxSegmentSize
  rw [length_marshal_large hpos hlt]
  omega

theorem length_record_large {index : ℕ} (hpos : 0 < index) (hlt : index < 128) :
    (record wireCodec (large index)).length = 5242897 := by
  rw [length_record, length_marshal_large hpos hlt]
  rfl

def small : LogEntry := ⟨1, 1, [7]⟩

/-- The segments of a log with a small entry and two large ones. -/
def twoSegments : Segments :=
  ⟨[(1, record wireCodec small ++ record wireCodec (large 2))], 3, record wireCodec (large 3)⟩

theorem place_small : Segments.place wireCodec ⟨[], 1, []⟩ small =
    ⟨[], 1, record wireCodec small⟩ :=
  Segments.place_of_not_full (by decide +kernel)

theorem place_large_two : Segments.place wireCodec ⟨[], 1, record wireCodec small⟩ (large 2) =
    ⟨[], 1, record wireCodec small ++ record wireCodec (large 2)⟩ := by
  have hlength : (record wireCodec small).length = 15 := by decide +kernel
  refine Segments.place_of_not_full ?_
  rw [full_large_iff (by decide) (by decide), hlength]
  decide

theorem full_first : Segments.Full wireCodec
    ⟨[], 1, record wireCodec small ++ record wireCodec (large 2)⟩ (large 3) := by
  rw [full_large_iff (by decide) (by decide), List.length_append,
    length_record_large (by decide) (by decide)]
  omega

theorem full_twoSegments {index : ℕ} (hpos : 0 < index) (hlt : index < 128) :
    twoSegments.Full wireCodec (large index) := by
  have hlength : twoSegments.content.length = 5242897 :=
    length_record_large (by decide) (by decide)
  rw [full_large_iff hpos hlt, hlength]
  decide

/-- The first batch is written into two segments. -/
theorem foldl_place_first : [small, large 2, large 3].foldl (Segments.place wireCodec) ⟨[], 1, []⟩ =
    twoSegments := by
  rw [List.foldl_cons, place_small, List.foldl_cons, place_large_two, List.foldl_cons,
    Segments.place_of_full full_first]
  rfl

theorem free_first : Segments.Free wireCodec ⟨[], 1, []⟩ [small, large 2, large 3] := by
  refine ⟨by decide +kernel, ?_⟩
  rw [place_small]
  refine ⟨fun hcollides => ?_, ?_⟩
  · obtain ⟨s, hs, hnumber⟩ := Segments.mem_names_iff.mp hcollides.2
    rw [List.mem_singleton.mp hs] at hnumber
    cases hnumber
  rw [place_large_two]
  refine ⟨fun hcollides => ?_, trivial⟩
  obtain ⟨s, hs, hnumber⟩ := Segments.mem_names_iff.mp hcollides.2
  rw [List.mem_singleton.mp hs] at hnumber
  cases hnumber

/-- Of the second, the first entry gets a segment of its own, and the next one collides. -/
theorem collides_second : twoSegments.Free wireCodec [large 2] ∧
    ([large 2].foldl (Segments.place wireCodec) twoSegments).Collides wireCodec (large 3) := by
  have hfull : twoSegments.Full wireCodec (large 2) := full_twoSegments (by decide) (by decide)
  have hplace : [large 2].foldl (Segments.place wireCodec) twoSegments =
      ⟨twoSegments.all, 2, record wireCodec (large 2)⟩ := by
    rw [List.foldl_cons, List.foldl_nil, Segments.place_of_full hfull]
    rfl
  refine ⟨⟨fun hcollides => ?_, trivial⟩, ?_⟩
  · obtain ⟨s, hs, hnumber⟩ := Segments.mem_names_iff.mp hcollides.2
    rcases List.mem_cons.mp hs with rfl | hs
    · cases hnumber
    · rw [List.mem_singleton.mp hs] at hnumber
      cases hnumber
  · rw [hplace]
    have htaken : ∃ s ∈ Segments.all ⟨twoSegments.all, 2, record wireCodec (large 2)⟩, s.1 = 3 :=
      ⟨(3, record wireCodec (large 3)), by simp [Segments.all, twoSegments], rfl⟩
    refine ⟨?_, Segments.mem_names_iff.mpr htaken⟩
    rw [full_large_iff (by decide) (by decide), length_record_large (by decide) (by decide)]
    decide

theorem fits_first : ∀ entry ∈ [small, large 2, large 3], Fits wireCodec entry :=
  List.forall_mem_cons.mpr ⟨by decide +kernel, List.forall_mem_cons.mpr
    ⟨fits_large (by decide) (by decide), List.forall_mem_singleton.mpr
      (fits_large (by decide) (by decide))⟩⟩

theorem fits_second : ∀ entry ∈ [large 2, large 3, large 4], Fits wireCodec entry :=
  List.forall_mem_cons.mpr ⟨fits_large (by decide) (by decide), List.forall_mem_cons.mpr
    ⟨fits_large (by decide) (by decide), List.forall_mem_singleton.mpr
      (fits_large (by decide) (by decide))⟩⟩

/-- A log to which entries 1 to 3 are appended, and then 2 to 4. -/
theorem overlapping_batches :
    ∃ w₀ w w', openDir wireCodec ∅ = .ok w₀ ∧
      w₀.appendBatch wireCodec [small, large 2, large 3] = .ok w ∧
      w.Intact wireCodec twoSegments ∧ w.lastIndex = 3 ∧
      w.appendBatch wireCodec [large 2, large 3, large 4] =
        .error (.createSegment (segmentName 3), w') ∧
      w'.Intact wireCodec ([large 2].foldl (Segments.place wireCodec) twoSegments) ∧
      w'.lastIndex = 2 := by
  have hopens : (openDir wireCodec ∅).toBool = true := by decide +kernel
  obtain ⟨w₀, hopen⟩ := exists_ok_of_toBool hopens
  have hintact₀ := intact_openDir (by decide) hopen
  obtain ⟨w, hfirst, hlast⟩ := hintact₀.flushed.appendBatch_ok free_first
  have hintact := hintact₀.appendBatch fits_first hfirst
  rw [foldl_place_first] at hintact
  obtain ⟨hfree, hcollides⟩ := collides_second
  obtain ⟨w', hsecond, hflushed, hlast'⟩ :=
    hintact.flushed.appendBatch_error hfree hcollides [large 4]
  have hwritten : ∀ entry ∈ [large 2], Fits wireCodec entry :=
    List.forall_mem_singleton.mpr (fits_large (by decide) (by decide))
  exact ⟨w₀, w, w', hopen, hfirst, hintact, hlast, hsecond,
    ⟨hflushed, Segments.whole_foldl_place hintact.whole hwritten⟩, hlast'⟩

/-- The first entry of the second batch does not collide, so there is a trace. -/
theorem failed_batch_trace_iff_overlapping :
    ∃ (w w' : WAL) (before : List LogEntry), w.appendBatch wireCodec [large 2, large 3, large 4] =
        .error (.createSegment (segmentName 3), w') ∧
      w.readAll wireCodec = .ok before ∧
      ¬ (w'.ReadsLater wireCodec before ∧ w'.lastIndex = w.lastIndex) := by
  obtain ⟨w₀, w, w', hopen, hfirst, hintact, hlast, hsecond, -, hlast'⟩ := overlapping_batches
  have hstep : w₀.attempt wireCodec (.appendBatch [small, large 2, large 3]) = w := by
    rw [WAL.attempt, hfirst]
    rfl
  have hrun : Reaches (WAL.attempt wireCodec) (fun _ op => op.Fits wireCodec) w₀ w := by
    rw [← hstep]
    exact .next .refl fits_first
  obtain ⟨before, hread, -, hiff⟩ :=
    failed_batch_trace_iff wireCodec (by decide) hopen hrun _ fits_second _ hsecond
  refine ⟨w, w', before, hsecond, hread, fun hnone => ?_⟩
  obtain ⟨first, rest, hentries, htaken⟩ := hiff.mp hnone
  obtain ⟨rfl, -⟩ := List.cons.inj hentries
  exact collides_second.1.1 (hintact.flushed.collides_iff.mpr htaken)

/-- The batch of entries 2 to 4 fails at entry 3.  Entry 2 is read twice from then on, and
the last index goes back to it. -/
theorem failed_batch_leaves_entry :
    ∃ (w₀ w w' : WAL) (before after : List LogEntry), openDir wireCodec ∅ = .ok w₀ ∧
      w₀.appendBatch wireCodec [small, large 2, large 3] = .ok w ∧
      w.readAll wireCodec = .ok before ∧ before.Perm [small, large 2, large 3] ∧
      w.lastIndex = 3 ∧
      w.appendBatch wireCodec [large 2, large 3, large 4] =
        .error (.createSegment (segmentName 3), w') ∧
      w'.readAll wireCodec = .ok after ∧ after.Perm [small, large 2, large 3, large 2] ∧
      w'.lastIndex = 2 := by
  obtain ⟨w₀, w, w', hopen, hfirst, hintact, hlast, hsecond, hintact', hlast'⟩ :=
    overlapping_batches
  have hwhole₀ := (intact_openDir (by decide) hopen).whole
  have hentries : twoSegments.entries wireCodec = [small, large 2, large 3] := by
    rw [← foldl_place_first,
      ((Segments.readable_of_whole hwhole₀).foldl_place fits_first).2, Segments.entries_empty]
    rfl
  have hwritten : ∀ entry ∈ [large 2], Fits wireCodec entry :=
    List.forall_mem_singleton.mpr (fits_large (by decide) (by decide))
  have hentries' : ([large 2].foldl (Segments.place wireCodec) twoSegments).entries wireCodec =
      [small, large 2, large 3, large 2] := by
    rw [((Segments.readable_of_whole hintact.whole).foldl_place hwritten).2, hentries]
    rfl
  obtain ⟨before, hread, hbefore⟩ := hintact.readAll
  obtain ⟨after, hread', hafter⟩ := hintact'.readAll
  rw [hentries] at hbefore
  rw [hentries'] at hafter
  exact ⟨w₀, w, w', before, after, hopen, hfirst, hread, hbefore, hlast, hsecond, hread', hafter,
    hlast'⟩

end WAL

end RaftKV.Wal
