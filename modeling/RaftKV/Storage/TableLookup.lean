import RaftKV.Storage.SSTable

/-!
# What a table answers

`storage/sstable.go` from the outside: entries are written to a file, the file is opened,
and the reader is asked.

* **Every stored key is found.**  The data block is read back as it was written, the
  filter has no false negatives, and the point lookup stops early only above the key.
* **Some other keys are found as well.**  Unlike the scan for a compaction, the point
  lookup does not stop at the end of the data block.  A key above all stored keys that the
  filter lets through is looked for in the bytes of the filter and of the footer, and a
  cell that is marked is a byte 1: such bytes can be read as a record of that key.

`FindsRecord` says where a scan ends with a record.  It is about the bytes alone, and so
it says exactly for which tables and keys the lookup answers with a record that nobody
wrote.
-/

namespace RaftKV.Storage

/-! ## Writing a file -/

structure SSTableWriter where
  path : FileName

/-- `SSTableWriter.Write`: the directory behind a write that succeeds.  File offsets are
signed numbers of 64 bits, so a longer file cannot be written. -/
def SSTableWriter.write (w : SSTableWriter) (dir : Directory) (entries : List MemEntry) :
    Option Directory :=
  if (tableBytes entries).length < maxInt64 then some (dir.insert w.path (tableBytes entries))
  else none

theorem SSTableWriter.write_eq_some {w : SSTableWriter} {dir dir' : Directory}
    {entries : List MemEntry} (h : w.write dir entries = some dir') :
    (tableBytes entries).length < maxInt64 ∧
      dir'.lookup w.path = some (tableBytes entries) := by
  unfold SSTableWriter.write at h
  split at h
  · next hsize =>
      obtain rfl : _ = dir' := Option.some.inj h
      exact ⟨hsize, AList.lookup_insert dir⟩
  · simp at h

/-! ## Stored keys -/

/-- The search for a key of the table ends in the data block. -/
theorem silentTail_of_mem {entries : List MemEntry} {e : MemEntry} (he : e ∈ entries) :
    SilentTail entries e.key := fun _ hall => absurd (hall e he) (lt_irrefl e.key)

/-- What is written to a table is read back, as a whole and key by key. -/
theorem SSTableWriter.write_reads_back {w : SSTableWriter} {dir dir' : Directory}
    {entries : List MemEntry} (hsorted : SortedEntries entries) (hfits : ∀ e ∈ entries, e.Fits)
    (hwrite : w.write dir entries = some dir') :
    ∃ r, openSSTable dir' w.path = .ok r ∧ r.iterateAll dir' = .ok entries ∧
      ∀ e ∈ entries, r.get dir' e.key = some e := by
  obtain ⟨hsize, hfile⟩ := SSTableWriter.write_eq_some hwrite
  have htable : TableEntries entries := ⟨hsorted, hfits, hsize⟩
  refine ⟨readerOf w.path entries, openSSTable_tableBytes htable hfile,
    iterateAll_tableBytes htable hfile, fun e he => ?_⟩
  rw [get_tableBytes htable (silentTail_of_mem he) hfile]
  exact lookup_eq_some_of_mem hsorted he

/-- Two puts and a tombstone between them. -/
def threeEntries : List MemEntry :=
  [⟨[1], [10], kindPut⟩, ⟨[1, 0], [], kindDelete⟩, ⟨[2], [20, 21], kindPut⟩]

theorem SSTableWriter.write_reads_back_threeEntries :
    ∃ dir' r, (SSTableWriter.mk ['t']).write ∅ threeEntries = some dir' ∧
      openSSTable dir' ['t'] = .ok r ∧ r.iterateAll dir' = .ok threeEntries ∧
      ∀ e ∈ threeEntries, r.get dir' e.key = some e := by
  have hsize : (tableBytes threeEntries).length < maxInt64 := by decide +kernel
  have hwrite : (SSTableWriter.mk ['t']).write ∅ threeEntries =
      some ((∅ : Directory).insert ['t'] (tableBytes threeEntries)) := if_pos hsize
  obtain ⟨r, hopen, hall, hget⟩ :=
    SSTableWriter.write_reads_back (by decide) (by decide) hwrite
  exact ⟨_, r, hwrite, hopen, hall, hget⟩

/-! ## Other keys -/

/-- A stream begins with records below the key, followed by a record of the key. -/
def FindsRecord (key : Key) (bs : Bytes) : Prop :=
  ∃ skipped e rest, bs = dataBlock skipped ++ (encodeEntry e ++ rest) ∧
    (∀ s ∈ skipped, s.Fits ∧ s.key < key) ∧ e.Fits ∧ e.key = key

/-- Seen from the record in front: it is the one, or it is below the key and the search goes
on behind it. -/
theorem findsRecord_iff {key : Key} {bs rest : Bytes} {e : MemEntry}
    (hread : readEntry bs = some (e, rest)) :
    FindsRecord key bs ↔ e.key = key ∨ e.key < key ∧ FindsRecord key rest := by
  obtain ⟨rfl, hfits⟩ := readEntry_some hread
  constructor
  · rintro ⟨skipped, found, rest', hbs, hskipped, hfound, hkey⟩
    cases skipped with
    | nil =>
        rw [hbs, dataBlock, List.flatMap_nil, List.nil_append, readEntry_encodeEntry hfound,
          Option.some.injEq, Prod.mk.injEq] at hread
        exact .inl (hread.1 ▸ hkey)
    | cons first skipped =>
        obtain ⟨hfirst, hlt⟩ := hskipped first List.mem_cons_self
        rw [hbs, dataBlock, List.flatMap_cons, List.append_assoc, readEntry_encodeEntry hfirst,
          Option.some.injEq, Prod.mk.injEq] at hread
        refine .inr ⟨hread.1 ▸ hlt, skipped, found, rest', hread.2.symm, ?_, hfound, hkey⟩
        exact fun s hs => hskipped s (List.mem_cons_of_mem _ hs)
  · rintro (hkey | ⟨hlt, skipped, found, rest', rfl, hskipped, hfound, hkey⟩)
    · exact ⟨[], e, rest, rfl, by simp, hfits, hkey⟩
    · refine ⟨e :: skipped, found, rest', ?_, ?_, hfound, hkey⟩
      · rw [dataBlock, dataBlock, List.flatMap_cons, List.append_assoc]
      · intro s hs
        rcases List.mem_cons.mp hs with rfl | hs
        · exact ⟨hfits, hlt⟩
        · exact hskipped s hs

theorem not_findsRecord {key : Key} {bs : Bytes} (hread : readEntry bs = none) :
    ¬ FindsRecord key bs := by
  rintro ⟨skipped, found, rest, rfl, hskipped, hfound, -⟩
  cases skipped with
  | nil =>
      rw [dataBlock, List.flatMap_nil, List.nil_append, readEntry_encodeEntry hfound] at hread
      simp at hread
  | cons first skipped =>
      rw [dataBlock, List.flatMap_cons, List.append_assoc,
        readEntry_encodeEntry (hskipped first List.mem_cons_self).1] at hread
      simp at hread

/-- Whatever the bytes are, this is where the loop of `Get` ends with a record. -/
theorem scan_eq_none_iff {key : Key} {fuel : ℕ} {bs : Bytes} (hfuel : bs.length < fuel) :
    scan key fuel bs = none ↔ ¬ FindsRecord key bs := by
  induction fuel generalizing bs with
  | zero => omega
  | succ fuel ih =>
      rw [scan]
      split
      · next hread => exact iff_of_true rfl (not_findsRecord hread)
      · next e rest hread =>
          have hlength := readEntry_length hread
          rw [findsRecord_iff hread]
          -- below the key the loop goes on, and above it it gives up
          rcases lt_trichotomy e.key key with hlt | heq | hgt
          · rw [if_neg hlt.ne, if_neg hlt.asymm, ih (by omega)]
            simp [hlt, hlt.ne]
          · simp [heq]
          · rw [if_neg hgt.ne', if_pos hgt]
            simp [hgt.ne', hgt.asymm]

/-- In a table of records that fit, the search for a key that is not there goes on behind the
data block if all keys are below it, and otherwise ends. -/
theorem findsRecord_dataBlock {key : Key} {entries : List MemEntry}
    (hsorted : SortedEntries entries) (hfits : ∀ e ∈ entries, e.Fits)
    (habsent : ∀ e ∈ entries, e.key ≠ key) (tail : Bytes) :
    FindsRecord key (dataBlock entries ++ tail) ↔
      (∀ e ∈ entries, e.key < key) ∧ FindsRecord key tail := by
  have hfuel := Nat.lt_succ_self (dataBlock entries ++ tail).length
  have hscan := scan_dataBlock key hsorted hfits hfuel
  rw [lookup_eq_none.mpr habsent, Option.none_or] at hscan
  -- both sides say where a scan ends, and the scan of a data block is known
  rw [← not_iff_not, ← scan_eq_none_iff (Nat.lt_succ_self _), hscan]
  split
  · next hall =>
      rw [scan_eq_none_iff (Nat.lt_succ_self _)]
      exact not_congr (and_iff_right hall).symm
  · next hnot => exact iff_of_true rfl fun h => hnot h.1

/-- The lookup of a key that was not written.  It finds nothing, unless the filter lets the
key through and the file, read as records without regard to its blocks, has a record of the
key behind smaller ones.  If the lengths of the entries fit their fields, that record is
behind the data block and all keys of the table are below the key. -/
theorem SSTableWriter.get_absent_iff {w : SSTableWriter} {dir dir' : Directory}
    {entries : List MemEntry} (hsorted : SortedEntries entries)
    (hwrite : w.write dir entries = some dir') (key : Key)
    (habsent : ∀ e ∈ entries, e.key ≠ key) :
    ∃ r, openSSTable dir' w.path = .ok r ∧
      (r.get dir' key = none ↔ ¬ ((bloomOf entries).mightContain (bloomCells key) ∧
        FindsRecord key (tableBytes entries))) ∧
      ((∀ e ∈ entries, e.Fits) →
        (r.get dir' key = none ↔ ¬ ((bloomOf entries).mightContain (bloomCells key) ∧
          (∀ e ∈ entries, e.key < key) ∧ FindsRecord key (tableTail entries)))) := by
  obtain ⟨hsize, hfile⟩ := SSTableWriter.write_eq_some hwrite
  have hget : (readerOf w.path entries).get dir' key = none ↔
      ¬ ((bloomOf entries).mightContain (bloomCells key) ∧
        FindsRecord key (tableBytes entries)) := by
    unfold SSTableReader.get
    simp only [readerOf, hfile]
    split
    · next hmight => simp [hmight, scan_eq_none_iff (Nat.lt_succ_self _)]
    · next hmight => simp [hmight]
  refine ⟨readerOf w.path entries, openSSTable_of_size hsize hfile, hget, fun hfits => ?_⟩
  rw [hget, tableBytes, findsRecord_dataBlock hsorted hfits habsent]

/-- Three keys whose cells in the filter, taken together, include those of the key `[1]`, and
which mark the first bytes of the filter as `1, 0, 0, 0, 1`. -/
def mimicEntries : List MemEntry :=
  [⟨[0, 118, 136, 53], [], kindPut⟩, ⟨[0, 150, 119, 50], [], kindPut⟩,
    ⟨[0, 181, 37, 19], [], kindPut⟩]

/-- At the key `[0]` the same table answers as it should. -/
theorem SSTableWriter.get_absent_iff_mimicEntries :
    ∃ dir' r, (SSTableWriter.mk ['t']).write ∅ mimicEntries = some dir' ∧
      openSSTable dir' ['t'] = .ok r ∧ r.get dir' [0] = none := by
  have hsize : (tableBytes mimicEntries).length < maxInt64 := by decide +kernel
  have hwrite : (SSTableWriter.mk ['t']).write ∅ mimicEntries =
      some ((∅ : Directory).insert ['t'] (tableBytes mimicEntries)) := if_pos hsize
  obtain ⟨r, hopen, -, hget⟩ :=
    SSTableWriter.get_absent_iff (by decide) hwrite [0] (by decide)
  refine ⟨_, r, hwrite, hopen, (hget (by decide)).mpr ?_⟩
  rintro ⟨-, hbelow, -⟩
  exact absurd hbelow (by decide)

/-- A key that was never written is found, with 256 bytes of the filter as its value. -/
theorem SSTableWriter.get_finds_absent_key :
    ∃ dir' r e, (SSTableWriter.mk ['t']).write ∅ mimicEntries = some dir' ∧
      SortedEntries mimicEntries ∧ (∀ e ∈ mimicEntries, e.Fits ∧ e.key ≠ [1]) ∧
      openSSTable dir' ['t'] = .ok r ∧ r.iterateAll dir' = .ok mimicEntries ∧
      r.get dir' [1] = some e ∧ e.value.length = 256 := by
  have hsize : (tableBytes mimicEntries).length < maxInt64 := by decide +kernel
  have hwrite : (SSTableWriter.mk ['t']).write ∅ mimicEntries =
      some ((∅ : Directory).insert ['t'] (tableBytes mimicEntries)) := if_pos hsize
  have htable : TableEntries mimicEntries := ⟨by decide, by decide, hsize⟩
  have hfile := (SSTableWriter.write_eq_some hwrite).2
  -- the filter begins like a record: a key of length 1, and the key is the byte 1
  have hfound : (((readerOf ['t'] mimicEntries).get
      ((∅ : Directory).insert ['t'] (tableBytes mimicEntries)) [1]).map
        fun e => e.value.length) = some 256 := by decide +kernel
  obtain ⟨e, hget, hvalue⟩ := Option.map_eq_some_iff.mp hfound
  exact ⟨_, _, e, hwrite, htable.sorted, by decide, openSSTable_tableBytes htable hfile,
    iterateAll_tableBytes htable hfile, hget, hvalue⟩

end RaftKV.Storage
