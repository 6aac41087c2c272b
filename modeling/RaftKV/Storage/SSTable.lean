import RaftKV.Bloom
import RaftKV.Files
import RaftKV.LittleEndian
import RaftKV.Storage.Memtable

/-!
# Sorted string tables

`storage/sstable.go`: an immutable file of sorted records, followed by a bloom
filter and a footer.

```text
data block    [key_len:4][key][val_len:4][val][kind:1]  for each entry
bloom filter  1024 bytes
footer        [bloom_offset:8][bloom_size:8][entry_count:4][magic:4]
```

A table gives back every record written to it.  The point lookup does not know
where the data block ends: for a key above all keys of the table it goes on reading
records in the bloom filter and the footer.  `SilentTail` says that it finds nothing
there.
-/

namespace RaftKV.Storage

def sstMagic : ℕ := 0xDEADB0B5

/-- The bytes of the filter. -/
def bloomSize : ℕ := 1024

def bloomHashes : ℕ := 7

/-- File offsets are signed. -/
def maxInt64 : ℕ := 2 ^ 63

/-! ## The bloom filter -/

/-- `hash/fnv`, variant 1a. -/
def fnv1a (bs : Bytes) : UInt32 :=
  bs.foldl (fun h b => (h ^^^ b.toUInt32) * 16777619) 2166136261

/-- `hash`: the seed goes in front, its high byte first. -/
def hash (key : Key) (seed : ℕ) : UInt32 :=
  fnv1a ((leBytes 4 seed).reverse ++ key)

def bloomCells (key : Key) : List (Fin bloomSize) :=
  (List.range bloomHashes).map fun i =>
    ⟨(hash key i).toNat % bloomSize, Nat.mod_lt _ (by decide)⟩

def bloomOf (entries : List MemEntry) : Bloom bloomSize :=
  entries.foldl (fun b e => b.add (bloomCells e.key)) (Bloom.new bloomSize)

/-! ## Writing -/

def encodeEntry (e : MemEntry) : Bytes :=
  leBytes 4 e.key.length ++ (e.key ++ (leBytes 4 e.value.length ++ (e.value ++ [e.kind])))

def dataBlock (entries : List MemEntry) : Bytes :=
  entries.flatMap encodeEntry

def footer (bloomOffset entryCount : ℕ) : Bytes :=
  leBytes 8 bloomOffset ++ (leBytes 8 bloomSize ++ (leBytes 4 entryCount ++ leBytes 4 sstMagic))

/-- What follows the data block. -/
def tableTail (entries : List MemEntry) : Bytes :=
  (bloomOf entries).bits ++ footer (dataBlock entries).length entries.length

/-- `SSTableWriter.Write`. -/
def tableBytes (entries : List MemEntry) : Bytes :=
  dataBlock entries ++ tableTail entries

/-! ## Reading -/

structure SSTableReader where
  path : FileName
  bloom : Bloom bloomSize
  entryCount : ℕ
  deriving DecidableEq

/-- What keeps a table from being opened or read. -/
inductive SSTableError
  | notExist
  | fileTooSmall
  | badMagic (magic : ℕ)
  | seekFooter
  | seekBloomBlock
  | readBloomBlock
  deriving DecidableEq, Repr

/-- The last 24 bytes. -/
def footerOf (file : Bytes) : Bytes :=
  file.drop (file.length - 24)

/-- The bloom offset that a footer holds. -/
def bloomOffsetOf (file : Bytes) : ℕ :=
  leNat ((footerOf file).take 8)

/-- `OpenSSTable`. -/
def openSSTable (dir : Directory) (path : FileName) : Except SSTableError SSTableReader :=
  match dir.lookup path with
  | none => .error .notExist
  | some file =>
      if file.length < 24 then .error .fileTooSmall
      else if leNat ((footerOf file).drop 20) ≠ sstMagic then
        .error (.badMagic (leNat ((footerOf file).drop 20)))
      else if maxInt64 ≤ bloomOffsetOf file then .error .seekBloomBlock
      else
        match Bloom.ofBytes bloomSize (file.drop (bloomOffsetOf file)) with
        | none => .error .readBloomBlock
        | some bloom => .ok ⟨path, bloom, leNat (((footerOf file).drop 16).take 4)⟩

/-- One record from the front of a stream. -/
def readEntry (bs : Bytes) : Option (MemEntry × Bytes) :=
  match readLE 4 bs with
  | none => none
  | some (keyLen, bs) =>
      match readFull keyLen bs with
      | none => none
      | some (key, bs) =>
          match readLE 4 bs with
          | none => none
          | some (valLen, bs) =>
              match readFull valLen bs with
              | none => none
              | some (_, []) => none
              | some (value, kind :: bs) => some (⟨key, value, kind⟩, bs)

/-- The loop of `Get`: stops at the key, above it, or where no record can be read. -/
def scan (key : Key) : ℕ → Bytes → Option MemEntry
  | 0, _ => none
  | fuel + 1, bs =>
      match readEntry bs with
      | none => none
      | some (e, rest) =>
          if e.key = key then some e
          else if key < e.key then none
          else scan key fuel rest

/-- `Get`: the record of the key, `none` for "not found". -/
def SSTableReader.get (r : SSTableReader) (dir : Directory) (key : Key) : Option MemEntry :=
  if r.bloom.mightContain (bloomCells key) then
    match dir.lookup r.path with
    | none => none
    | some file => scan key (file.length + 1) file
  else none

/-- The loop of `IterateAll`, which ends at the bloom offset. -/
def iterateLoop (bloomOffset : ℕ) : ℕ → ℕ → Bytes → List MemEntry
  | 0, _, _ => []
  | fuel + 1, pos, bs =>
      if pos < bloomOffset then
        match readEntry bs with
        | none => []
        | some (e, rest) =>
            e :: iterateLoop bloomOffset fuel (pos + (4 + e.key.length + 4 + e.value.length + 1))
              rest
      else []

/-- `IterateAll`.  An offset that is negative as a signed number ends the loop at
once. -/
def SSTableReader.iterateAll (r : SSTableReader) (dir : Directory) :
    Except SSTableError (List MemEntry) :=
  match dir.lookup r.path with
  | none => .error .notExist
  | some file =>
      if file.length < 24 then .error .seekFooter
      else if maxInt64 ≤ bloomOffsetOf file then .ok []
      else .ok (iterateLoop (bloomOffsetOf file) (file.length + 1) 0 file)

/-! ## One record -/

/-- The lengths that the format can hold. -/
def MemEntry.Fits (e : MemEntry) : Prop :=
  e.key.length < 2 ^ 32 ∧ e.value.length < 2 ^ 32

instance (e : MemEntry) : Decidable e.Fits :=
  inferInstanceAs (Decidable (_ ∧ _))

theorem length_encodeEntry (e : MemEntry) :
    (encodeEntry e).length = 4 + e.key.length + 4 + e.value.length + 1 := by
  simp only [encodeEntry, List.length_append, length_leBytes, List.length_singleton]
  omega

theorem readEntry_encodeEntry {e : MemEntry} (h : e.Fits) (rest : Bytes) :
    readEntry (encodeEntry e ++ rest) = some (e, rest) := by
  have hkey : e.key.length < 256 ^ 4 := h.1
  have hvalue : e.value.length < 256 ^ 4 := h.2
  unfold readEntry encodeEntry
  simp only [List.append_assoc, readLE_append hkey, readFull_append, readLE_append hvalue,
    List.singleton_append]

/-- A record that is read stands at the front of the stream. -/
theorem readEntry_some {bs rest : Bytes} {e : MemEntry} (h : readEntry bs = some (e, rest)) :
    bs = encodeEntry e ++ rest ∧ e.Fits := by
  unfold readEntry at h
  split at h
  · simp at h
  next keyLen bs₁ hread₁ =>
  split at h
  · simp at h
  next key bs₂ hread₂ =>
  split at h
  · simp at h
  next valLen bs₃ hread₃ =>
  split at h
  · simp at h
  · simp at h
  · next value kind bs₄ hread₄ =>
      rw [Option.some.injEq, Prod.mk.injEq] at h
      obtain ⟨rfl, rfl⟩ := h
      obtain ⟨rfl, hkey⟩ := readLE_some hread₁
      obtain ⟨rfl, rfl⟩ := readFull_some hread₂
      obtain ⟨rfl, hvalue⟩ := readLE_some hread₃
      obtain ⟨rfl, rfl⟩ := readFull_some hread₄
      exact ⟨by simp [encodeEntry], hkey, hvalue⟩

/-- Reading a record takes it from the stream. -/
theorem readEntry_length {bs rest : Bytes} {e : MemEntry} (h : readEntry bs = some (e, rest)) :
    rest.length < bs.length := by
  rw [(readEntry_some h).1, List.length_append, length_encodeEntry]
  omega

/-! ## The point lookup -/

section Scan

variable {key : Key} {entries : List MemEntry}

/-- Rounds beyond the length of the stream are never used. -/
theorem scan_fuel {fuel fuel' : ℕ} {bs : Bytes} (h : bs.length < fuel) (h' : bs.length < fuel') :
    scan key fuel bs = scan key fuel' bs := by
  induction fuel generalizing fuel' bs with
  | zero => omega
  | succ fuel ih =>
      obtain ⟨fuel', rfl⟩ : ∃ f, fuel' = f + 1 := ⟨fuel' - 1, by omega⟩
      rw [scan, scan]
      split
      · rfl
      · next e rest hread =>
          have := readEntry_length hread
          rw [@ih fuel' rest (by omega) (by omega)]

/-- The lookup on a data block: a record of the key is found, a record above it ends
the search, and otherwise it goes on behind the block. -/
theorem scan_dataBlock (key : Key) (hsorted : SortedEntries entries)
    (hfits : ∀ e ∈ entries, e.Fits) {fuel : ℕ} {tail : Bytes}
    (hfuel : (dataBlock entries ++ tail).length < fuel) :
    scan key fuel (dataBlock entries ++ tail) =
      (lookup MemEntry.key key entries).or
        (if ∀ e ∈ entries, e.key < key then scan key (tail.length + 1) tail else none) := by
  induction entries generalizing fuel with
  | nil =>
      simp only [dataBlock, List.flatMap_nil, List.nil_append] at hfuel ⊢
      simp [scan_fuel hfuel (Nat.lt_succ_self _)]
  | cons e rest ih =>
      obtain ⟨fuel, rfl⟩ : ∃ f, fuel = f + 1 := ⟨fuel - 1, by omega⟩
      have hblock : dataBlock (e :: rest) ++ tail =
          encodeEntry e ++ (dataBlock rest ++ tail) := by
        simp [dataBlock]
      rw [hblock] at hfuel ⊢
      rw [scan, readEntry_encodeEntry (hfits e List.mem_cons_self), lookup_cons]
      rw [List.length_append, length_encodeEntry] at hfuel
      simp only
      by_cases heq : e.key = key
      · simp [heq]
      · by_cases hlt : key < e.key
        · have hnone := lookup_eq_none_of_lt hsorted hlt
          rw [lookup_cons, if_neg heq] at hnone
          have hnot : ¬ ∀ e' ∈ e :: rest, e'.key < key := fun h =>
            absurd (h e List.mem_cons_self) hlt.asymm
          rw [if_neg heq, if_pos hlt, if_neg heq, hnone, if_neg hnot]
          rfl
        · have hbelow : e.key < key := lt_of_le_of_ne (not_lt.mp hlt) heq
          have hrest : ∀ e' ∈ rest, e'.Fits := fun e' he' => hfits e' (List.mem_cons_of_mem _ he')
          rw [if_neg heq, if_neg hlt, if_neg heq,
            ih (List.pairwise_cons.mp hsorted).2 hrest (by omega)]
          simp [hbelow]

end Scan

/-- The lookup of a key above all keys of the table, if the filter lets it through,
finds no record in the bytes behind the data block. -/
def SilentTail (entries : List MemEntry) (key : Key) : Prop :=
  (bloomOf entries).mightContain (bloomCells key) → (∀ e ∈ entries, e.key < key) →
    scan key ((tableTail entries).length + 1) (tableTail entries) = none

instance (entries : List MemEntry) (key : Key) : Decidable (SilentTail entries key) :=
  inferInstanceAs (Decidable (_ → _ → _))

/-! ## A table as a whole -/

/-- What a table can be written from. -/
structure TableEntries (entries : List MemEntry) : Prop where
  sorted : SortedEntries entries
  fits : ∀ e ∈ entries, e.Fits
  /-- The file can be written: its offsets are signed numbers of 64 bits. -/
  size : (tableBytes entries).length < maxInt64

section Table

variable {entries : List MemEntry} {dir : Directory} {path : FileName}

theorem length_footer (offset count : ℕ) : (footer offset count).length = 24 := by
  simp [footer]

/-- The reader of a written table. -/
def readerOf (path : FileName) (entries : List MemEntry) : SSTableReader :=
  ⟨path, bloomOf entries, entries.length % 2 ^ 32⟩

theorem footerOf_tableBytes (entries : List MemEntry) :
    footerOf (tableBytes entries) = footer (dataBlock entries).length entries.length := by
  have hsplit : tableBytes entries = (dataBlock entries ++ (bloomOf entries).bits) ++
      footer (dataBlock entries).length entries.length := by
    simp [tableBytes, tableTail]
  unfold footerOf
  rw [hsplit, List.length_append, length_footer, Nat.add_sub_cancel, List.drop_left]

theorem bloomOffsetOf_tableBytes (hsize : (tableBytes entries).length < maxInt64) :
    bloomOffsetOf (tableBytes entries) = (dataBlock entries).length := by
  rw [tableBytes, List.length_append] at hsize
  have hlt : (dataBlock entries).length < 256 ^ 8 := by
    have : maxInt64 < 256 ^ 8 := by decide
    omega
  rw [bloomOffsetOf, footerOf_tableBytes, footer,
    List.take_left' (length_leBytes _ _), leNat_leBytes_of_lt hlt]

theorem length_tableBytes (entries : List MemEntry) :
    (tableBytes entries).length = (dataBlock entries).length + bloomSize + 24 := by
  rw [tableBytes, tableTail, List.length_append, List.length_append, (bloomOf entries).length_bits,
    length_footer]
  omega

/-- A written table opens, whatever its entries are. -/
theorem openSSTable_of_size (hsize : (tableBytes entries).length < maxInt64)
    (hfile : dir.lookup path = some (tableBytes entries)) :
    openSSTable dir path = .ok (readerOf path entries) := by
  have hlen := length_tableBytes entries
  have hmagic : leNat ((footer (dataBlock entries).length entries.length).drop 20) = sstMagic := by
    have hsplit : footer (dataBlock entries).length entries.length =
        (leBytes 8 (dataBlock entries).length ++ (leBytes 8 bloomSize ++
          leBytes 4 entries.length)) ++ leBytes 4 sstMagic := by
      simp [footer]
    rw [hsplit, List.drop_left' (by simp), leNat_leBytes_of_lt (by decide)]
  have hcount : leNat (((footer (dataBlock entries).length entries.length).drop 16).take 4) =
      entries.length % 2 ^ 32 := by
    have hsplit : footer (dataBlock entries).length entries.length =
        (leBytes 8 (dataBlock entries).length ++ leBytes 8 bloomSize) ++
          (leBytes 4 entries.length ++ leBytes 4 sstMagic) := by
      simp [footer]
    rw [hsplit, List.drop_left' (by simp), List.take_left' (length_leBytes _ _)]
    exact leNat_leBytes 4 entries.length
  have hbloom : (tableBytes entries).drop (dataBlock entries).length =
      (bloomOf entries).bits ++ footer (dataBlock entries).length entries.length := by
    rw [tableBytes, List.drop_left, tableTail]
  unfold openSSTable
  rw [hfile]
  simp only
  rw [if_neg (by omega), footerOf_tableBytes, bloomOffsetOf_tableBytes hsize, hmagic,
    if_neg (not_not.mpr rfl), if_neg (by omega), hbloom, Bloom.ofBytes_append, hcount]
  rfl

theorem openSSTable_tableBytes (h : TableEntries entries)
    (hfile : dir.lookup path = some (tableBytes entries)) :
    openSSTable dir path = .ok (readerOf path entries) :=
  openSSTable_of_size h.size hfile

/-- The point lookup agrees with the records, but for what it may read behind them. -/
theorem get_tableBytes (h : TableEntries entries) {key : Key} (hsilent : SilentTail entries key)
    (hfile : dir.lookup path = some (tableBytes entries)) :
    (readerOf path entries).get dir key = lookup MemEntry.key key entries := by
  have hfuel : (dataBlock entries ++ tableTail entries).length <
      (dataBlock entries ++ tableTail entries).length + 1 := Nat.lt_succ_self _
  have hscan := scan_dataBlock key h.sorted h.fits hfuel
  unfold SSTableReader.get
  simp only [readerOf, hfile]
  split
  · next hmight =>
      rw [tableBytes, hscan]
      split
      · next hall => rw [hsilent hmight hall, Option.or_none]
      · rw [Option.or_none]
  · next hmight =>
      symm
      rw [lookup_eq_none]
      rintro e he rfl
      exact hmight (Bloom.mightContain_foldl_add (fun e : MemEntry => bloomCells e.key) he _)

theorem iterateLoop_dataBlock (hfits : ∀ e ∈ entries, e.Fits) {fuel pos offset : ℕ} {tail : Bytes}
    (hfuel : (dataBlock entries).length < fuel)
    (hoffset : offset = pos + (dataBlock entries).length) :
    iterateLoop offset fuel pos (dataBlock entries ++ tail) = entries := by
  induction entries generalizing fuel pos with
  | nil =>
      obtain ⟨fuel, rfl⟩ : ∃ f, fuel = f + 1 := ⟨fuel - 1, by omega⟩
      rw [iterateLoop, if_neg]
      simp only [dataBlock, List.flatMap_nil, List.length_nil] at hoffset
      omega
  | cons e rest ih =>
      obtain ⟨fuel, rfl⟩ : ∃ f, fuel = f + 1 := ⟨fuel - 1, by omega⟩
      have hblock : dataBlock (e :: rest) = encodeEntry e ++ dataBlock rest := by
        simp [dataBlock]
      rw [hblock] at hfuel hoffset ⊢
      rw [List.length_append, length_encodeEntry] at hfuel hoffset
      rw [iterateLoop, if_pos (by omega), List.append_assoc,
        readEntry_encodeEntry (hfits e List.mem_cons_self)]
      simp only
      rw [ih (fun e' he' => hfits e' (List.mem_cons_of_mem _ he')) (by omega) (by omega)]

/-- The scan for a compaction reads exactly what was written. -/
theorem iterateAll_tableBytes (h : TableEntries entries)
    (hfile : dir.lookup path = some (tableBytes entries)) :
    (readerOf path entries).iterateAll dir = .ok entries := by
  have hlen := length_tableBytes entries
  have hsize := h.size
  unfold SSTableReader.iterateAll
  simp only [readerOf, hfile]
  rw [if_neg (by omega), bloomOffsetOf_tableBytes hsize, if_neg (by omega), hlen, tableBytes,
    iterateLoop_dataBlock h.fits (by omega) (by omega)]

end Table

end RaftKV.Storage
