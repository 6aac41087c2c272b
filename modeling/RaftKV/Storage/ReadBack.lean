import RaftKV.Storage.Operations

/-!
# Reading back the last write

Runs of the engine from an empty directory, against a map to which the same puts and
deletes are applied.  The contents of the engine are that map after every run.

A read is not always the contents.  A memtable does not tell a deleted key from one
it has never seen, so a read falls through its tombstones to older layers
(`deleted_key_read_back`); and the point lookup of a table may find a record in the
bytes behind the data block.  Where neither happens, a read returns the last write.
-/

namespace RaftKV.Storage

/-! ## Runs -/

/-- The steps of a run, each of them carried out to its end. -/
inductive Op
  | put (key : Key) (value : Bytes)
  | delete (key : Key)
  | rotateAndFlush
  | doCompaction
  | reopen
  deriving DecidableEq, Repr

namespace Engine

def exec (e : Engine) : Op → Except EngineError Engine
  | .put key value => e.put key value
  | .delete key => e.delete key
  | .rotateAndFlush => .ok e.rotateAndFlush
  | .doCompaction => .ok e.doCompaction
  | .reopen => e.reopen

def run (e : Engine) : List Op → Except EngineError Engine
  | [] => .ok e
  | op :: ops =>
      match e.exec op with
      | .error err => .error err
      | .ok e' => e'.run ops

end Engine

/-- What a step does to a map. -/
def Store.apply (s : Store) : Op → Store
  | .put key value => s.put key value
  | .delete key => s.delete key
  | .rotateAndFlush | .doCompaction | .reopen => s

/-- The map after a run: each key has what was last written to it. -/
def lastWrites (ops : List Op) : Store :=
  ops.foldl Store.apply Store.empty

/-- Lengths that the file format can hold, and a disk that takes what is written. -/
def Op.Completes (e : Engine) : Op → Prop
  | .put key value => key.length < 2 ^ 32 ∧ value.length < 2 ^ 32
  | .delete key => key.length < 2 ^ 32
  | .rotateAndFlush => e.rotateAndFlush.Writable
  | .doCompaction => e.doCompaction.Writable
  | .reopen => e.close.Writable

instance (e : Engine) : (op : Op) → Decidable (op.Completes e)
  | .put _ _ => inferInstanceAs (Decidable (_ ∧ _))
  | .delete _ => inferInstanceAs (Decidable (_ < _))
  | .rotateAndFlush => inferInstanceAs (Decidable e.rotateAndFlush.Writable)
  | .doCompaction => inferInstanceAs (Decidable e.doCompaction.Writable)
  | .reopen => inferInstanceAs (Decidable e.close.Writable)

namespace Engine

/-- Every step of a run completes. -/
def Completes (e : Engine) : List Op → Prop
  | [] => True
  | op :: ops =>
      op.Completes e ∧
        match e.exec op with
        | .error _ => True
        | .ok e' => e'.Completes ops

instance Completes.decide : (e : Engine) → (ops : List Op) → Decidable (e.Completes ops)
  | _, [] => isTrue trivial
  | e, op :: ops =>
      have : Decidable (match e.exec op with
          | .error _ => True
          | .ok e' => e'.Completes ops) :=
        match e.exec op with
        | .error _ => isTrue trivial
        | .ok e' => Completes.decide e' ops
      inferInstanceAs (Decidable (_ ∧ _))

/-- A run ends, in a state with a property. -/
def EndsIn (e : Engine) (ops : List Op) (P : Engine → Prop) : Prop :=
  ∃ e', e.run ops = .ok e' ∧ P e'

instance (e : Engine) (ops : List Op) (P : Engine → Prop) [DecidablePred P] :
    Decidable (e.EndsIn ops P) :=
  match hrun : e.run ops with
  | .error _ => isFalse fun ⟨_, hok, _⟩ => by simp [hrun] at hok
  | .ok e' => decidable_of_iff (P e')
      ⟨fun h => ⟨e', hrun, h⟩, fun ⟨_, hok, h⟩ => Except.ok.inj (hrun.symm.trans hok) ▸ h⟩

variable {e : Engine} {key : Key}

theorem Sound.exec (h : e.Sound) {op : Op} (hop : op.Completes e) :
    ∃ e', e.exec op = .ok e' ∧ e'.Sound ∧ e'.contents = e.contents.apply op := by
  cases op with
  | put key value => exact h.put hop
  | delete key => exact h.delete hop
  | rotateAndFlush => exact ⟨_, rfl, h.rotateAndFlush hop⟩
  | doCompaction =>
      obtain ⟨hsound, hcontents, -⟩ := h.doCompaction hop
      exact ⟨_, rfl, hsound, hcontents⟩
  | reopen => exact h.reopen hop

/-- Every run ends, with the contents that its writes make. -/
theorem Sound.run (h : e.Sound) {ops : List Op} (hops : e.Completes ops) :
    ∃ e', e.run ops = .ok e' ∧ e'.Sound ∧ e'.contents = ops.foldl Store.apply e.contents := by
  induction ops generalizing e with
  | nil => exact ⟨e, rfl, h, rfl⟩
  | cons op ops ih =>
      obtain ⟨hop, hrest⟩ := hops
      obtain ⟨e', hexec, hsound, hcontents⟩ := h.exec hop
      rw [hexec] at hrest
      obtain ⟨e'', hrun, hsound', hcontents'⟩ := ih hsound hrest
      refine ⟨e'', ?_, hsound', ?_⟩
      · rw [Engine.run, hexec]
        exact hrun
      · rw [hcontents', hcontents, List.foldl_cons]

/-! ## Reading -/

/-- No layer below a tombstone of the active memtable has a value for its key. -/
def Unshadowed (e : Engine) (key : Key) : Prop :=
  ∀ entry ∈ lookup MemEntry.key key e.active.entries, entry.kind = kindDelete →
    visible ((e.immutable.map Memtable.entries).toList ++ e.diskLayers) key = none

instance (e : Engine) (key : Key) : Decidable (e.Unshadowed key) :=
  inferInstanceAs (Decidable (∀ entry ∈ lookup MemEntry.key key e.active.entries, _ → _))

/-- No table answers for the key from the bytes behind its records. -/
def SilentTables (e : Engine) (key : Key) : Prop :=
  ∀ r ∈ e.sstables, SilentTail (r.records e.files) key

instance (e : Engine) (key : Key) : Decidable (e.SilentTables key) :=
  inferInstanceAs (Decidable (∀ r ∈ e.sstables, SilentTail (r.records e.files) key))

end Engine

theorem Memtable.get_eq (m : Memtable) (key : Key) :
    m.get key = ((lookup MemEntry.key key m.entries).filter MemEntry.live).map MemEntry.value := by
  unfold Memtable.get
  rw [findEntry_eq_lookup m.sorted]
  cases lookup MemEntry.key key m.entries with
  | none => rfl
  | some entry =>
      rw [Option.filter_some]
      by_cases hkind : entry.kind = kindDelete
      · simp [MemEntry.live, hkind]
      · simp [MemEntry.live, hkind]

namespace Engine

variable {e : Engine} {key : Key}

theorem getTables_eq {files : Directory} {tables : List Table}
    (hfiles : ∀ t ∈ tables, files.lookup t.path = some (tableBytes t.entries))
    (hsilent : ∀ t ∈ tables, SilentTail t.entries key) :
    getTables files key (tables.map Table.reader) = visible (tables.map Table.entries) key := by
  induction tables with
  | nil => rfl
  | cons t rest ih =>
      have hget : t.reader.get files key = lookup MemEntry.key key t.entries :=
        get_tableBytes t.written (hsilent t List.mem_cons_self) (hfiles t List.mem_cons_self)
      have ih := ih (fun t' ht' => hfiles t' (List.mem_cons_of_mem _ ht'))
        fun t' ht' => hsilent t' (List.mem_cons_of_mem _ ht')
      rw [List.map_cons, List.map_cons, getTables, hget, visible, newest_cons]
      cases lookup MemEntry.key key t.entries with
      | none =>
          rw [Option.none_or]
          exact ih
      | some entry =>
          rw [Option.some_or, Option.filter_some]
          by_cases hkind : entry.kind = kindDelete
          · simp [MemEntry.live, hkind]
          · simp [MemEntry.live, hkind]

/-- A read returns the contents, unless it falls through a tombstone or a table
invents a record. -/
theorem Sound.get_eq_contents (h : e.Sound) (hshadow : e.Unshadowed key)
    (hsilent : e.SilentTables key) : e.get key = e.contents key := by
  obtain ⟨tables, hb⟩ := h.backed
  have htables : getTables e.files key e.sstables = visible e.diskLayers key := by
    rw [hb.readers, hb.diskLayers]
    refine getTables_eq hb.files fun t ht => ?_
    have hrecords : t.reader.records e.files = t.entries := by
      rw [SSTableReader.records, hb.iterateAll ht]
    rw [← hrecords]
    exact hsilent t.reader (hb.readers ▸ List.mem_map_of_mem ht)
  -- the waiting memtable is empty, so the tables are all there is below the active one
  have himm : (e.immutable.bind fun imm => imm.get key) = none ∧
      visible ((e.immutable.map Memtable.entries).toList ++ e.diskLayers) =
        visible e.diskLayers := by
    cases himm : e.immutable with
    | none => exact ⟨rfl, rfl⟩
    | some imm =>
        have hempty : imm.entries = [] := h.idle imm himm
        refine ⟨?_, ?_⟩
        · rw [Option.bind_some, Memtable.get_eq, hempty]
          rfl
        · rw [Option.map_some, Option.toList_some, hempty]
          exact visible_nil_cons
  have hcontents : e.contents key = (((lookup MemEntry.key key e.active.entries).or
      (newest MemEntry.key key ((e.immutable.map Memtable.entries).toList ++
        e.diskLayers))).filter MemEntry.live).map MemEntry.value := by
    rw [contents, memLayers, visible, List.cons_append, newest_cons]
  rw [hcontents]
  unfold Engine.get
  rw [Memtable.get_eq, himm.1, htables, ← himm.2]
  cases hlookup : lookup MemEntry.key key e.active.entries with
  | none =>
      rw [Option.none_or]
      rfl
  | some entry =>
      rw [Option.some_or, Option.filter_some]
      by_cases hkind : entry.kind = kindDelete
      · have hbelow := hshadow entry hlookup hkind
        simp [MemEntry.live, hkind, hbelow]
      · simp [MemEntry.live, hkind]

end Engine

/-- After every run, and for every key whose deletion is not shadowing an older value
and which no table invents, a read returns what was last written. -/
theorem get_reads_last_write (ops : List Op) (hops : Engine.fresh.Completes ops) :
    ∃ e, Engine.fresh.run ops = .ok e ∧
      ∀ key, e.Unshadowed key → e.SilentTables key → e.get key = lastWrites ops key := by
  obtain ⟨e, hrun, hsound, hcontents⟩ := Engine.sound_fresh.run hops
  refine ⟨e, hrun, fun key hshadow hsilent => ?_⟩
  rw [hsound.get_eq_contents hshadow hsilent, hcontents, Engine.contents_fresh]
  rfl

/-- A key written twice, flushed in between, deleted before a flush, and all of it
compacted and reopened. -/
def compactedRun : List Op :=
  [.put [97] [1], .put [98] [2], .rotateAndFlush, .put [97] [3], .delete [98], .rotateAndFlush,
    .doCompaction, .reopen]

theorem get_reads_last_write_compactedRun :
    ∃ e, Engine.fresh.run compactedRun = .ok e ∧ e.get [97] = some [3] ∧ e.get [98] = none := by
  obtain ⟨e, hrun, hget⟩ := get_reads_last_write compactedRun (by decide +kernel)
  have hclean : Engine.fresh.EndsIn compactedRun fun e =>
      (e.Unshadowed [97] ∧ e.SilentTables [97]) ∧ e.Unshadowed [98] ∧ e.SilentTables [98] := by
    decide +kernel
  obtain ⟨e', hrun', ⟨hshadow, hsilent⟩, hshadow', hsilent'⟩ := hclean
  obtain rfl : e = e' := Except.ok.inj (hrun.symm.trans hrun')
  exact ⟨e, hrun, hget [97] hshadow hsilent, hget [98] hshadow' hsilent'⟩

/-- A key that was flushed and then deleted. -/
def deletedRun : List Op :=
  [.put [97] [1], .rotateAndFlush, .delete [97]]

/-- The read falls through the tombstone to the flushed value. -/
theorem deleted_key_read_back :
    Engine.fresh.Completes deletedRun ∧ lastWrites deletedRun [97] = none ∧
      ∃ e, Engine.fresh.run deletedRun = .ok e ∧ e.get [97] = some [1] := by
  have hread : Engine.fresh.EndsIn deletedRun fun e => e.get [97] = some [1] := by
    decide +kernel
  exact ⟨by decide +kernel, by decide +kernel, hread⟩

end RaftKV.Storage
