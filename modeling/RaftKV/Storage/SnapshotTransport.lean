import RaftKV.Storage.ReadBack

/-!
# Snapshots carry the map

Runs of the engine with `LoadSnapshot` among the steps, against a map that the steps
change alike.  Whatever layers the flushes and compactions have left, `Snapshot` is
the sorted list of the pairs of that map.

Such a list is determined by the map, so an engine that has loaded it writes the same
bytes again.  Of the engine that loads it nothing is asked: `LoadSnapshot` takes away
all layers it had, and reads no file but the one it writes.

The format itself is a bijection onto its image (`snapshot_format_bijective`): a string
that no list of records is written as is rejected, and changes nothing in the engine.
-/

namespace RaftKV.Storage

/-! ## Sorted live records -/

/-- Records are written without their kind. -/
theorem encodeSnapshot_asPut (entries : List MemEntry) :
    encodeSnapshot (entries.map MemEntry.asPut) = encodeSnapshot entries := by
  unfold encodeSnapshot
  rw [List.flatMap_map]
  rfl

namespace SnapshotEntries

variable {entries entries' : List MemEntry}

theorem sorted_asPut (h : SnapshotEntries entries) :
    SortedEntries (entries.map MemEntry.asPut) :=
  List.pairwise_map.mpr h.sorted

/-- What a key has in the map is what its record says. -/
theorem visible_eq_some_iff (h : SnapshotEntries entries) {key : Key} {value : Bytes} :
    visible [entries] key = some value ↔
      (⟨key, value, kindPut⟩ : MemEntry) ∈ entries.map MemEntry.asPut := by
  simp only [visible, newest_cons, newest_nil, Option.or_none]
  constructor
  · intro hvisible
    obtain ⟨entry, hentry, rfl⟩ := Option.map_eq_some_iff.mp hvisible
    obtain ⟨hlookup, -⟩ := Option.filter_eq_some_iff.mp hentry
    refine List.mem_map.mpr ⟨entry, mem_of_lookup hlookup, ?_⟩
    rw [← key_of_lookup hlookup]
    rfl
  · intro hmem
    obtain ⟨entry, hentry, heq⟩ := List.mem_map.mp hmem
    have hkey : entry.key = key := congrArg MemEntry.key heq
    have hvalue : entry.value = value := congrArg MemEntry.value heq
    have hlookup := lookup_eq_some_of_mem h.sorted hentry
    rw [hkey] at hlookup
    rw [hlookup, Option.filter_some, if_pos (h.live entry hentry), Option.map_some, hvalue]

theorem mem_of_visible_eq (h : SnapshotEntries entries) (h' : SnapshotEntries entries')
    (hmap : visible [entries] = visible [entries']) {entry : MemEntry}
    (hentry : entry ∈ entries.map MemEntry.asPut) : entry ∈ entries'.map MemEntry.asPut := by
  obtain ⟨entry', -, rfl⟩ := List.mem_map.mp hentry
  have hvisible : visible [entries] entry'.key = some entry'.value :=
    h.visible_eq_some_iff.mpr hentry
  rw [hmap] at hvisible
  exact h'.visible_eq_some_iff.mp hvisible

/-- The map determines the bytes. -/
theorem encode_eq (h : SnapshotEntries entries) (h' : SnapshotEntries entries')
    (hmap : visible [entries] = visible [entries']) :
    encodeSnapshot entries = encodeSnapshot entries' := by
  have hsame : entries.map MemEntry.asPut = entries'.map MemEntry.asPut :=
    h.sorted_asPut.eq_of_mem_iff h'.sorted_asPut fun entry =>
      ⟨h.mem_of_visible_eq h' hmap, h'.mem_of_visible_eq h hmap.symm⟩
  rw [← encodeSnapshot_asPut entries, hsame, encodeSnapshot_asPut]

end SnapshotEntries

/-! ## Loading into any engine -/

namespace Engine

variable {e e' : Engine} {entries : List MemEntry}

/-- One table and nothing in memory. -/
theorem snapshot_of_table {t : Table} (hactive : e.active = .new) (himm : e.immutable = none)
    (hreaders : e.sstables = [t.reader])
    (hfile : e.files.lookup t.path = some (tableBytes t.entries)) :
    ∃ entries, e.snapshot = .ok (encodeSnapshot entries) ∧ SnapshotEntries entries ∧
      visible [entries] = visible [t.entries] := by
  have hfiles : ∀ t' ∈ [t], e.files.lookup t'.path = some (tableBytes t'.entries) := by
    simpa using hfile
  have hdisk : e.diskLayers = [t.entries] := by
    unfold diskLayers
    rw [hreaders]
    exact records_map hfiles
  have hmem : e.memLayers = [[]] := by
    unfold memLayers
    rw [hactive, himm]
    rfl
  have hread : readTables e.files e.sstables.reverse = .ok e.diskLayers.reverse := by
    rw [hreaders, hdisk]
    exact Backed.readTables_map fun t' ht' => iterateAll_tableBytes t'.written (hfiles t' ht')
  obtain ⟨entries, hsnapshot, hentries, hvisible⟩ := snapshot_of_layers hread fun layer hlayer => by
    rw [hmem, hdisk] at hlayer
    rcases List.mem_cons.mp hlayer with rfl | hlayer
    · exact ⟨List.Pairwise.nil, by simp⟩
    · rw [List.mem_singleton.mp hlayer]
      exact ⟨t.written.sorted, t.written.fits⟩
  refine ⟨entries, hsnapshot, hentries, ?_⟩
  rw [hvisible, contents, hmem, hdisk]
  exact visible_nil_cons

/-- A snapshot that does not decode is refused and changes nothing. -/
theorem loadSnapshot_error (e : Engine) {data : Bytes} {err : DecodeError}
    (h : decodeSnapshot data = .error err) :
    e.loadSnapshot data = (.error (.decodeSnapshot err), e) := by
  simp only [loadSnapshot, h]

/-- A snapshot that was loaded is written again. -/
theorem snapshot_loadSnapshot (hentries : SnapshotEntries entries)
    (hload : e.loadSnapshot (encodeSnapshot entries) = (.ok (), e')) (hw : e'.Writable) :
    e'.snapshot = .ok (encodeSnapshot entries) := by
  suffices hagain : ∃ again, e'.snapshot = .ok (encodeSnapshot again) ∧ SnapshotEntries again ∧
      visible [again] = visible [entries] by
    obtain ⟨again, hsnapshot, hagain, hmap⟩ := hagain
    rw [hsnapshot, hagain.encode_eq hentries hmap]
  rw [← visible_memtableOf hentries]
  have hfits : ∀ entry ∈ (memtableOf entries).entries, entry.Fits := by
    intro entry hentry
    obtain ⟨entry', hentry', rfl⟩ := mem_memtableOf hentry
    exact hentries.fits entry' hentry'
  unfold loadSnapshot at hload
  rw [decodeSnapshot_encodeSnapshot hentries.fits] at hload
  simp only [memtableOf_asPut, Prod.mk.injEq, true_and] at hload
  by_cases hsize : (memtableOf entries).size > 0
  · -- the records are flushed to one table
    rw [if_pos hsize] at hload
    have hne : (memtableOf entries).entries ≠ [] := fun hempty =>
      hsize.ne' ((memtableOf entries).size_eq_zero.mpr hempty)
    set e₀ : Engine := rotate
      { e with
        sstables := []
        active := memtableOf entries
        immutable := none
        files := removeFiles (e.sstables.map SSTableReader.path) e.files }
    have himm : e₀.immutable = some (memtableOf entries) := rfl
    have hlookup := lookup_writeTable_self e₀ (memtableOf entries).entries
    rw [← (doFlush_files himm hne).1, hload] at hlookup
    have hwritten : TableEntries (memtableOf entries).entries :=
      ⟨(memtableOf entries).sorted, hfits, hw.length_lt hlookup⟩
    rw [doFlush_eq himm hne hwritten] at hload
    subst hload
    exact snapshot_of_table (t := ⟨e₀.nextSeq, _, hwritten⟩) rfl rfl rfl hlookup
  · -- there are none
    have hempty : (memtableOf entries).entries = [] :=
      (memtableOf entries).size_eq_zero.mp (by omega)
    rw [if_neg hsize, doFlush_of_empty (by simp)] at hload
    subst hload
    exact snapshot_of_layers rfl fun layer hlayer => by
      rw [List.mem_singleton.mp hlayer]
      exact ⟨(memtableOf entries).sorted, hfits⟩

end Engine

/-! ## Runs with loaded snapshots -/

/-- A step of an engine, `LoadSnapshot` among them. -/
inductive MapOp
  | basic (op : Op)
  | loadSnapshot (data : Bytes)
  deriving DecidableEq, Repr

namespace MapOp

/-- The run goes on behind a snapshot that is refused. -/
def exec (e : Engine) : MapOp → Except EngineError Engine
  | .basic op => e.exec op
  | .loadSnapshot data => .ok (e.loadSnapshot data).2

/-- What a step does to a map: a snapshot takes its place. -/
def apply (s : Store) : MapOp → Store
  | .basic op => s.apply op
  | .loadSnapshot data =>
      match decodeSnapshot data with
      | .ok entries => .ofEntries entries
      | .error _ => s

def Completes (e : Engine) : MapOp → Prop
  | .basic op => op.Completes e
  | .loadSnapshot data =>
      match e.loadSnapshot data with
      | (.ok _, e') => e'.Writable
      | (.error _, _) => True

instance (e : Engine) : (a : MapOp) → Decidable (a.Completes e)
  | .basic op => inferInstanceAs (Decidable (op.Completes e))
  | .loadSnapshot data =>
      match hload : e.loadSnapshot data with
      | (.ok _, e') => decidable_of_iff e'.Writable (by simp [Completes, hload])
      | (.error _, _) => isTrue (by simp [Completes, hload])

end MapOp

/-- The map after a run. -/
def liveMap (ops : List MapOp) : Store :=
  ops.foldl MapOp.apply Store.empty

namespace Engine

def runMap (e : Engine) : List MapOp → Except EngineError Engine
  | [] => .ok e
  | a :: ops =>
      match a.exec e with
      | .error err => .error err
      | .ok e' => e'.runMap ops

/-- Every step of a run completes. -/
def CompletesMap (e : Engine) : List MapOp → Prop
  | [] => True
  | a :: ops =>
      a.Completes e ∧
        match a.exec e with
        | .error _ => True
        | .ok e' => e'.CompletesMap ops

instance CompletesMap.decide : (e : Engine) → (ops : List MapOp) → Decidable (e.CompletesMap ops)
  | _, [] => isTrue trivial
  | e, a :: ops =>
      have : Decidable (match a.exec e with
          | .error _ => True
          | .ok e' => e'.CompletesMap ops) :=
        match a.exec e with
        | .error _ => isTrue trivial
        | .ok e' => CompletesMap.decide e' ops
      inferInstanceAs (Decidable (_ ∧ _))

variable {e : Engine}

theorem Sound.execMap (h : e.Sound) {a : MapOp} (ha : a.Completes e) :
    ∃ e', a.exec e = .ok e' ∧ e'.Sound ∧ e'.contents = a.apply e.contents := by
  cases a with
  | basic op => exact h.exec ha
  | loadSnapshot data =>
      cases hdecode : decodeSnapshot data with
      | error err =>
          have hload := e.loadSnapshot_error hdecode
          exact ⟨e, by simp [MapOp.exec, hload], h, by simp [MapOp.apply, hdecode]⟩
      | ok entries =>
          obtain ⟨e', hload, hloaded⟩ := h.loadSnapshot_decoded hdecode
          have hw : e'.Writable := by simpa [MapOp.Completes, hload] using ha
          obtain ⟨hsound, hcontents, -⟩ := hloaded hw
          exact ⟨e', by simp [MapOp.exec, hload], hsound, by simp [MapOp.apply, hdecode, hcontents]⟩

theorem Sound.runMap (h : e.Sound) {ops : List MapOp} (hops : e.CompletesMap ops) :
    ∃ e', e.runMap ops = .ok e' ∧ e'.Sound ∧
      e'.contents = ops.foldl MapOp.apply e.contents := by
  induction ops generalizing e with
  | nil => exact ⟨e, rfl, h, rfl⟩
  | cons a ops ih =>
      obtain ⟨ha, hrest⟩ := hops
      obtain ⟨e', hexec, hsound, hcontents⟩ := h.execMap ha
      rw [hexec] at hrest
      obtain ⟨e'', hrun, hsound', hcontents'⟩ := ih hsound hrest
      refine ⟨e'', ?_, hsound', ?_⟩
      · rw [Engine.runMap, hexec]
        exact hrun
      · rw [hcontents', hcontents, List.foldl_cons]

end Engine

/-- After every run the snapshot decodes to the pairs of the map, strictly sorted, and
any engine that loads it writes the same snapshot. -/
theorem snapshot_is_live_map (ops : List MapOp) (hops : Engine.fresh.CompletesMap ops) :
    ∃ e data pairs, Engine.fresh.runMap ops = .ok e ∧ e.snapshot = .ok data ∧
      decodeSnapshot data = .ok pairs ∧ SortedEntries pairs ∧ (∀ pair ∈ pairs, pair.live) ∧
      (∀ key value, (∃ pair ∈ pairs, pair.key = key ∧ pair.value = value) ↔
        liveMap ops key = some value) ∧
      ∀ other : Engine, ∃ other', other.loadSnapshot data = (.ok (), other') ∧
        (other'.Writable → other'.snapshot = .ok data) := by
  obtain ⟨e, hrun, hsound, hcontents⟩ := Engine.sound_fresh.runMap hops
  obtain ⟨entries, hsnapshot, hentries, hvisible⟩ := hsound.snapshot
  have hmap : visible [entries] = liveMap ops := by
    rw [hvisible, hcontents, Engine.contents_fresh]
    rfl
  have hdecode := decodeSnapshot_encodeSnapshot hentries.fits
  refine ⟨e, _, _, hrun, hsnapshot, hdecode, hentries.sorted_asPut, fun pair hpair => ?_,
    fun key value => ?_, fun other => ?_⟩
  · obtain ⟨entry, -, rfl⟩ := List.mem_map.mp hpair
    rfl
  · rw [← hmap, hentries.visible_eq_some_iff]
    constructor
    · rintro ⟨pair, hpair, rfl, rfl⟩
      obtain ⟨entry, -, rfl⟩ := List.mem_map.mp hpair
      exact hpair
    · exact fun hpair => ⟨_, hpair, rfl, rfl⟩
  · obtain ⟨other', hload⟩ :
        ∃ other', other.loadSnapshot (encodeSnapshot entries) = (.ok (), other') := by
      unfold Engine.loadSnapshot
      rw [hdecode]
      exact ⟨_, rfl⟩
    exact ⟨other', hload, Engine.snapshot_loadSnapshot hentries hload⟩

/-- A deleted key under a flushed one, a snapshot over both, and a write after it. -/
def transportRun : List MapOp :=
  [.basic (.put [97] [1]), .basic .rotateAndFlush, .basic (.delete [97]),
    .loadSnapshot (encodeSnapshot [⟨[98], [2], kindPut⟩]), .basic (.put [97] [3]),
    .basic .rotateAndFlush, .basic .doCompaction, .basic .reopen]

theorem snapshot_is_live_map_transportRun :
    ∃ e data pairs, Engine.fresh.runMap transportRun = .ok e ∧ e.snapshot = .ok data ∧
      decodeSnapshot data = .ok pairs ∧
      (∃ pair ∈ pairs, pair.key = [97] ∧ pair.value = [3]) ∧
      ∃ pair ∈ pairs, pair.key = [98] ∧ pair.value = [2] := by
  obtain ⟨e, data, pairs, hrun, hsnapshot, hdecode, -, -, hpairs, -⟩ :=
    snapshot_is_live_map transportRun (by decide +kernel)
  have hmap : liveMap transportRun [97] = some [3] ∧ liveMap transportRun [98] = some [2] := by
    decide +kernel
  exact ⟨e, data, pairs, hrun, hsnapshot, hdecode, (hpairs _ _).mpr hmap.1, (hpairs _ _).mpr hmap.2⟩

/-! ## Rejected snapshots -/

/-- What is written is read back, and what is read is what would be written: cuts inside
a record, lengths that reach past the end and everything else that is not an encoding are
rejected, and the engine stays as it is. -/
theorem snapshot_format_bijective :
    (∀ entries : List MemEntry, (∀ e ∈ entries, e.Fits) →
      decodeSnapshot (encodeSnapshot entries) = .ok (entries.map MemEntry.asPut)) ∧
    (∀ data : Bytes, (∃ err, decodeSnapshot data = .error err) ∨
      ∃ entries, decodeSnapshot data = .ok entries ∧ (∀ e ∈ entries, e.Fits) ∧
        encodeSnapshot entries = data) ∧
    (∀ (front : List MemEntry) (e : MemEntry) (n : ℕ), (∀ e' ∈ front, e'.Fits) → e.Fits →
      0 < n → n < (encodeRecord e).length →
      ∃ err, decodeSnapshot (encodeSnapshot front ++ (encodeRecord e).take n) = .error err) ∧
    (∀ (front : List MemEntry) (keyLen : ℕ) (rest : Bytes), (∀ e ∈ front, e.Fits) →
      keyLen < 2 ^ 32 → rest.length < keyLen →
      ∃ err, decodeSnapshot (encodeSnapshot front ++ (leBytes 4 keyLen ++ rest)) = .error err) ∧
    (∀ (front : List MemEntry) (key : Key) (valLen : ℕ) (rest : Bytes), (∀ e ∈ front, e.Fits) →
      key.length < 2 ^ 32 → valLen < 2 ^ 32 → rest.length < valLen →
      ∃ err, decodeSnapshot (encodeSnapshot front ++
        (leBytes 4 key.length ++ (key ++ (leBytes 4 valLen ++ rest)))) = .error err) ∧
    ∀ (engine : Engine) (data : Bytes) (err : DecodeError), decodeSnapshot data = .error err →
      engine.loadSnapshot data = (.error (.decodeSnapshot err), engine) := by
  refine ⟨fun entries hfits => decodeSnapshot_encodeSnapshot hfits, fun data => ?_, ?_, ?_, ?_,
    fun engine data err => engine.loadSnapshot_error⟩
  · cases hdecode : decodeSnapshot data with
    | error err => exact .inl ⟨err, rfl⟩
    | ok entries =>
        exact .inr ⟨entries, rfl, fits_of_decodeSnapshot hdecode,
          encodeSnapshot_of_decodeSnapshot hdecode⟩
  · intro front e n hfront hfits hpos hcut
    exact decodeSnapshot_append_error hfront (decodeLoop_cut hfits hpos hcut)
  · intro front keyLen rest hfront hlt hshort
    exact decodeSnapshot_append_error hfront fun fuel =>
      ⟨_, decodeLoop_long_key hlt hshort fuel⟩
  · intro front key valLen rest hfront hkey hlt hshort
    exact decodeSnapshot_append_error hfront fun fuel =>
      ⟨_, decodeLoop_long_value hkey hlt hshort fuel⟩

end RaftKV.Storage
