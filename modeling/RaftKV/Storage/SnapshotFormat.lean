import RaftKV.Storage.SSTable

/-!
# The snapshot format

The wire format of `storage/snapshot.go`: a flat stream of records
`[key_len:4][key][val_len:4][val]` that ends where the bytes end.  Every record is a
live put, so there is no kind byte.
-/

namespace RaftKV.Storage

/-- The part of a record that could not be read. -/
inductive DecodeError
  | keyLength
  | key
  | valueLength
  | value
  deriving DecidableEq, Repr

def encodeRecord (e : MemEntry) : Bytes :=
  leBytes 4 e.key.length ++ (e.key ++ (leBytes 4 e.value.length ++ e.value))

def encodeSnapshot (entries : List MemEntry) : Bytes :=
  entries.flatMap encodeRecord

/-- The loop of `decodeSnapshot`.  Only a stream that ends between two records has
been read completely. -/
def decodeLoop : ℕ → Bytes → Except DecodeError (List MemEntry)
  | 0, _ => .ok []
  | _ + 1, [] => .ok []
  | fuel + 1, bs =>
      match readLE 4 bs with
      | none => .error .keyLength
      | some (keyLen, bs) =>
          match readFull keyLen bs with
          | none => .error .key
          | some (key, bs) =>
              match readLE 4 bs with
              | none => .error .valueLength
              | some (valLen, bs) =>
                  match readFull valLen bs with
                  | none => .error .value
                  | some (value, bs) =>
                      match decodeLoop fuel bs with
                      | .error err => .error err
                      | .ok entries => .ok (⟨key, value, kindPut⟩ :: entries)

/-- A record takes at least eight bytes, so the length of the data bounds the rounds. -/
def decodeSnapshot (data : Bytes) : Except DecodeError (List MemEntry) :=
  decodeLoop (data.length + 1) data

/-- The entry that a record is read back as. -/
def MemEntry.asPut (e : MemEntry) : MemEntry :=
  { e with kind := kindPut }

theorem length_encodeRecord (e : MemEntry) :
    (encodeRecord e).length = 4 + e.key.length + 4 + e.value.length := by
  simp only [encodeRecord, List.length_append, length_leBytes]
  omega

theorem encodeSnapshot_cons (e : MemEntry) (entries : List MemEntry) :
    encodeSnapshot (e :: entries) = encodeRecord e ++ encodeSnapshot entries := by
  simp [encodeSnapshot]

theorem decodeLoop_encodeRecord {e : MemEntry} (h : e.Fits) (fuel : ℕ) (rest : Bytes) :
    decodeLoop (fuel + 1) (encodeRecord e ++ rest) =
      match decodeLoop fuel rest with
      | .error err => .error err
      | .ok entries => .ok (e.asPut :: entries) := by
  have hkey : e.key.length < 256 ^ 4 := h.1
  have hvalue : e.value.length < 256 ^ 4 := h.2
  have hne : encodeRecord e ++ rest ≠ [] := by
    intro hnil
    have := congrArg List.length hnil
    rw [List.length_append, length_encodeRecord, List.length_nil] at this
    omega
  obtain ⟨first, others, hcons⟩ := List.exists_cons_of_ne_nil hne
  rw [hcons, decodeLoop]
  · rw [← hcons, encodeRecord]
    simp only [List.append_assoc, readLE_append hkey, readFull_append, readLE_append hvalue]
    rfl
  · simp

theorem decodeLoop_encodeSnapshot {entries : List MemEntry} (h : ∀ e ∈ entries, e.Fits)
    {fuel : ℕ} (hfuel : (encodeSnapshot entries).length < fuel) :
    decodeLoop fuel (encodeSnapshot entries) = .ok (entries.map MemEntry.asPut) := by
  induction entries generalizing fuel with
  | nil =>
      obtain ⟨fuel, rfl⟩ : ∃ f, fuel = f + 1 := ⟨fuel - 1, by omega⟩
      rfl
  | cons e rest ih =>
      obtain ⟨fuel, rfl⟩ : ∃ f, fuel = f + 1 := ⟨fuel - 1, by omega⟩
      rw [encodeSnapshot_cons, List.length_append, length_encodeRecord] at hfuel
      rw [encodeSnapshot_cons, decodeLoop_encodeRecord (h e List.mem_cons_self),
        ih (fun e' he' => h e' (List.mem_cons_of_mem _ he')) (by omega)]
      rfl

/-- A snapshot is read back as it was written. -/
theorem decodeSnapshot_encodeSnapshot {entries : List MemEntry} (h : ∀ e ∈ entries, e.Fits) :
    decodeSnapshot (encodeSnapshot entries) = .ok (entries.map MemEntry.asPut) :=
  decodeLoop_encodeSnapshot h (Nat.lt_succ_self _)

/-! ## What decodes -/

/-- A round of the loop that does not fail has read a record, unless the stream was at
its end. -/
theorem decodeLoop_ok {fuel : ℕ} {bs : Bytes} {entries : List MemEntry}
    (h : decodeLoop (fuel + 1) bs = .ok entries) :
    bs = [] ∧ entries = [] ∨
      ∃ e rest others, e.Fits ∧ e.kind = kindPut ∧ bs = encodeRecord e ++ rest ∧
        decodeLoop fuel rest = .ok others ∧ entries = e :: others := by
  cases bs with
  | nil => exact .inl ⟨rfl, (Except.ok.inj h).symm⟩
  | cons b bs =>
      -- each part of the record is there, or the loop fails
      simp only [decodeLoop] at h
      split at h
      · simp at h
      rename_i keyLen bs₁ hkeyLen
      split at h
      · simp at h
      rename_i key bs₂ hkey
      split at h
      · simp at h
      rename_i valLen bs₃ hvalLen
      split at h
      · simp at h
      rename_i value bs₄ hvalue
      split at h
      · simp at h
      rename_i others hothers
      obtain ⟨hbytes, hkeyLt⟩ := readLE_some hkeyLen
      obtain ⟨rfl, rfl⟩ := readFull_some hkey
      obtain ⟨rfl, hvalLt⟩ := readLE_some hvalLen
      obtain ⟨rfl, rfl⟩ := readFull_some hvalue
      refine .inr ⟨⟨key, value, kindPut⟩, bs₄, others, ⟨hkeyLt, hvalLt⟩, rfl, ?_, hothers,
        (Except.ok.inj h).symm⟩
      rw [hbytes, encodeRecord]
      simp only [List.append_assoc]

/-- What is decoded has lengths that the format can hold. -/
theorem fits_of_decodeLoop {fuel : ℕ} {bs : Bytes} {entries : List MemEntry}
    (h : decodeLoop fuel bs = .ok entries) : ∀ e ∈ entries, e.Fits := by
  induction fuel generalizing bs entries with
  | zero =>
      obtain rfl : [] = entries := Except.ok.inj h
      simp
  | succ fuel ih =>
      obtain ⟨-, rfl⟩ | ⟨e, rest, others, hfits, -, -, hothers, rfl⟩ := decodeLoop_ok h
      · simp
      · exact List.forall_mem_cons.mpr ⟨hfits, ih hothers⟩

theorem fits_of_decodeSnapshot {data : Bytes} {entries : List MemEntry}
    (h : decodeSnapshot data = .ok entries) : ∀ e ∈ entries, e.Fits :=
  fits_of_decodeLoop h

/-- Nothing of the stream is skipped. -/
theorem encodeSnapshot_of_decodeLoop {fuel : ℕ} {bs : Bytes} {entries : List MemEntry}
    (hfuel : bs.length < fuel) (h : decodeLoop fuel bs = .ok entries) :
    encodeSnapshot entries = bs := by
  induction fuel generalizing bs entries with
  | zero => omega
  | succ fuel ih =>
      obtain ⟨rfl, rfl⟩ | ⟨e, rest, others, -, -, rfl, hothers, rfl⟩ := decodeLoop_ok h
      · rfl
      · rw [List.length_append, length_encodeRecord] at hfuel
        rw [encodeSnapshot_cons, ih (by omega) hothers]

theorem encodeSnapshot_of_decodeSnapshot {data : Bytes} {entries : List MemEntry}
    (h : decodeSnapshot data = .ok entries) : encodeSnapshot entries = data :=
  encodeSnapshot_of_decodeLoop (Nat.lt_succ_self _) h

/-- A record that is read from the front of another is that record. -/
theorem eq_nil_of_encodeRecord_append {e e' : MemEntry} {rest : Bytes} (h : e.Fits) (h' : e'.Fits)
    (heq : encodeRecord e = encodeRecord e' ++ rest) : rest = [] := by
  have hwhole := decodeLoop_encodeRecord h 1 []
  have hfront := decodeLoop_encodeRecord h' 1 rest
  rw [List.append_nil, heq, hfront] at hwhole
  -- both decode to one entry in front, whose length is that of the record
  have hsame : e'.asPut = e.asPut := by
    cases hdecode : decodeLoop 1 rest with
    | error err => simp [hdecode, decodeLoop] at hwhole
    | ok entries =>
        rw [hdecode] at hwhole
        exact (List.cons.inj (Except.ok.inj hwhole)).1
  have hlength : (encodeRecord e').length = (encodeRecord e).length := by
    obtain ⟨hkey, hvalue, -⟩ : e'.key = e.key ∧ e'.value = e.value ∧ kindPut = kindPut :=
      MemEntry.mk.inj hsame
    rw [length_encodeRecord, length_encodeRecord, hkey, hvalue]
  rw [heq, List.length_append] at hlength
  exact List.eq_nil_of_length_eq_zero (by omega)

/-! ## What is rejected -/

/-- Whole records do not hide what is wrong behind them. -/
theorem decodeSnapshot_append_error {front : List MemEntry} {tail : Bytes}
    (hfront : ∀ e ∈ front, e.Fits)
    (htail : ∀ fuel, ∃ err, decodeLoop (fuel + 1) tail = .error err) :
    ∃ err, decodeSnapshot (encodeSnapshot front ++ tail) = .error err := by
  unfold decodeSnapshot
  generalize hfuel : (encodeSnapshot front ++ tail).length = fuel
  replace hfuel : (encodeSnapshot front).length ≤ fuel := by
    rw [← hfuel, List.length_append]
    omega
  induction front generalizing fuel with
  | nil => exact htail fuel
  | cons e front ih =>
      obtain ⟨hfits, hfront⟩ := List.forall_mem_cons.mp hfront
      rw [encodeSnapshot_cons, List.length_append, length_encodeRecord] at hfuel
      obtain ⟨fuel, rfl⟩ : ∃ f, fuel = f + 1 := ⟨fuel - 1, by omega⟩
      obtain ⟨err, herr⟩ := ih hfront fuel (by omega)
      refine ⟨err, ?_⟩
      rw [encodeSnapshot_cons, List.append_assoc, decodeLoop_encodeRecord hfits, herr]

/-- A stream that ends inside a record. -/
theorem decodeLoop_cut {e : MemEntry} (h : e.Fits) {n : ℕ} (hpos : 0 < n)
    (hcut : n < (encodeRecord e).length) (fuel : ℕ) :
    ∃ err, decodeLoop (fuel + 1) ((encodeRecord e).take n) = .error err := by
  cases hdecode : decodeLoop (fuel + 1) ((encodeRecord e).take n) with
  | error err => exact ⟨err, rfl⟩
  | ok entries =>
      have hlength : ((encodeRecord e).take n).length = n := by
        rw [List.length_take]
        omega
      exfalso
      obtain ⟨hnil, -⟩ | ⟨e', rest, others, hfits, -, hbytes, -, -⟩ := decodeLoop_ok hdecode
      · rw [hnil, List.length_nil] at hlength
        omega
      · have hwhole : encodeRecord e = encodeRecord e' ++ (rest ++ (encodeRecord e).drop n) := by
          rw [← List.append_assoc, ← hbytes, List.take_append_drop]
        have hnone := congrArg List.length (eq_nil_of_encodeRecord_append h hfits hwhole)
        rw [List.length_append, List.length_drop, List.length_nil] at hnone
        omega

/-- A key length that the stream does not hold. -/
theorem decodeLoop_long_key {keyLen : ℕ} {bs : Bytes} (hlt : keyLen < 2 ^ 32)
    (h : bs.length < keyLen) (fuel : ℕ) :
    decodeLoop (fuel + 1) (leBytes 4 keyLen ++ bs) = .error .key := by
  have hkeyLen : keyLen < 256 ^ 4 := hlt
  have hne : leBytes 4 keyLen ++ bs ≠ [] := by
    intro hnil
    simpa using congrArg List.length hnil
  rw [decodeLoop]
  · simp only [readLE_append hkeyLen, readFull_eq_none h]
  · exact hne

/-- A value length that the stream does not hold. -/
theorem decodeLoop_long_value {key bs : Bytes} {valLen : ℕ} (hkey : key.length < 2 ^ 32)
    (hlt : valLen < 2 ^ 32) (h : bs.length < valLen) (fuel : ℕ) :
    decodeLoop (fuel + 1) (leBytes 4 key.length ++ (key ++ (leBytes 4 valLen ++ bs))) =
      .error .value := by
  have hkeyLen : key.length < 256 ^ 4 := hkey
  have hvalLen : valLen < 256 ^ 4 := hlt
  have hne : leBytes 4 key.length ++ (key ++ (leBytes 4 valLen ++ bs)) ≠ [] := by
    intro hnil
    simpa using congrArg List.length hnil
  rw [decodeLoop]
  · simp only [readLE_append hkeyLen, readFull_append, readLE_append hvalLen,
      readFull_eq_none h]
  · exact hne

end RaftKV.Storage
