import RaftKV.Storage.Memtable

/-!
# Runs of the memtable

`Put` and `Delete` one after another, from an empty table.

The table of `Memtable.lean` cannot be built unsorted.  Here the source's slice is
followed as it is, with nothing assumed of it: `insert` searches, and then overwrites in
place or grows the slice by a zero entry, copies the tail one place up over itself and
writes to the gap.  On a sorted slice that is the insertion of `Memtable.lean`
(`insertSlice_eq`), so the slice of every run is the entries of a table, and what the
slice holds of a key is the last operation on it (`lookup_runSlice`).
-/

namespace RaftKV.Storage

/-- `memEntry{}`. -/
def MemEntry.zero : MemEntry := ⟨[], [], kindPut⟩

/-- `insert`, on the slice. -/
def insertSlice (entries : List MemEntry) (e : MemEntry) : List MemEntry :=
  let idx := position entries e.key
  let grown := entries ++ [MemEntry.zero]
  let shifted := (copyAt grown (idx + 1) (grown.drop idx)).set idx e
  match entries[idx]? with
  | some old => if old.key = e.key then entries.set idx e else shifted
  | none => shifted

theorem position_le (entries : List MemEntry) (key : Key) :
    position entries key ≤ entries.length :=
  search_le _ _

theorem insertSlice_eq (entries : List MemEntry) (e : MemEntry) :
    insertSlice entries e = insertEntry entries e := by
  have hshift := set_copyAt_insert entries (position_le entries e.key) MemEntry.zero e
  cases hentry : entries[position entries e.key]? with
  | none => simp only [insertSlice, insertEntry, hentry, hshift]
  | some old => simp only [insertSlice, insertEntry, hentry, hshift]

/-- A call that writes. -/
inductive MemtableOp
  | put (key : Key) (value : Bytes)
  | delete (key : Key)
  deriving DecidableEq, Repr

namespace MemtableOp

def key : MemtableOp → Key
  | put key _ => key
  | delete key => key

/-- The entry that the call inserts. -/
def entry : MemtableOp → MemEntry
  | put key value => ⟨key, value, kindPut⟩
  | delete key => ⟨key, [], kindDelete⟩

def apply (m : Memtable) : MemtableOp → Memtable
  | put key value => m.put key value
  | delete key => m.delete key

@[simp] theorem key_entry (op : MemtableOp) : op.entry.key = op.key := by
  cases op with
  | put key value => rfl
  | delete key => rfl

theorem entries_apply (m : Memtable) (op : MemtableOp) :
    (op.apply m).entries = insertEntry m.entries op.entry := by
  cases op with
  | put key value => rfl
  | delete key => rfl

end MemtableOp

/-- The table after some calls. -/
def runMemtable (ops : List MemtableOp) : Memtable :=
  ops.foldl MemtableOp.apply .new

/-- The source's slice after some calls. -/
def runSlice (ops : List MemtableOp) : List MemEntry :=
  ops.foldl (fun entries op => insertSlice entries op.entry) []

/-- The last call with a key. -/
def lastOp (ops : List MemtableOp) (key : Key) : Option MemtableOp :=
  ops.reverse.find? fun op => op.key = key

section Runs

variable {ops : List MemtableOp} {op : MemtableOp} {key : Key} {e : MemEntry}

theorem runMemtable_append (ops : List MemtableOp) (op : MemtableOp) :
    runMemtable (ops ++ [op]) = op.apply (runMemtable ops) := by
  rw [runMemtable, List.foldl_append, List.foldl_cons, List.foldl_nil, ← runMemtable]

theorem lastOp_append (ops : List MemtableOp) (op : MemtableOp) (key : Key) :
    lastOp (ops ++ [op]) key = if op.key = key then some op else lastOp ops key := by
  unfold lastOp
  rw [List.reverse_append, List.reverse_singleton, List.singleton_append, List.find?_cons]
  by_cases hkey : op.key = key
  · simp [hkey]
  · simp [hkey]

theorem runSlice_eq (ops : List MemtableOp) : runSlice ops = (runMemtable ops).entries := by
  induction ops using List.reverseRecOn with
  | nil => rfl
  | append_singleton ops op ih =>
      rw [runMemtable_append, MemtableOp.entries_apply, ← ih, ← insertSlice_eq, runSlice,
        List.foldl_append, List.foldl_cons, List.foldl_nil, ← runSlice]

theorem sortedEntries_runSlice (ops : List MemtableOp) : SortedEntries (runSlice ops) := by
  rw [runSlice_eq]
  exact (runMemtable ops).sorted

/-- The slice holds the entry of the last call with each key. -/
theorem lookup_runSlice (ops : List MemtableOp) (key : Key) :
    lookup MemEntry.key key (runSlice ops) = (lastOp ops key).map MemtableOp.entry := by
  induction ops using List.reverseRecOn with
  | nil => rfl
  | append_singleton ops op ih =>
      have hsorted := (runMemtable ops).sorted
      rw [runSlice_eq] at ih ⊢
      rw [runMemtable_append, MemtableOp.entries_apply, insertEntry_eq_upsert hsorted,
        lookup_upsert hsorted, lastOp_append, ih, MemtableOp.key_entry]
      split
      · rfl
      · rfl

theorem key_of_lastOp (h : lastOp ops key = some op) : op.key = key := by
  simpa using List.find?_some h

theorem mem_runSlice_iff :
    e ∈ runSlice ops ↔ (lastOp ops e.key).map MemtableOp.entry = some e := by
  rw [← lookup_runSlice]
  exact ⟨lookup_eq_some_of_mem (sortedEntries_runSlice ops), mem_of_lookup⟩

theorem isSome_lastOp : (lastOp ops key).isSome ↔ ∃ op ∈ ops, op.key = key := by
  simp [lastOp]

/-- A key is in the slice exactly if some call had it. -/
theorem mem_keys_runSlice :
    key ∈ (runSlice ops).map MemEntry.key ↔ key ∈ ops.map MemtableOp.key := by
  have hslice : key ∈ (runSlice ops).map MemEntry.key ↔ (lastOp ops key).isSome := by
    rw [← Option.isSome_map, ← lookup_runSlice, Option.isSome_iff_ne_none, ne_eq, lookup_eq_none]
    simp
  rw [hslice, isSome_lastOp, List.mem_map]

/-- A tombstone reads as absent, and so does a key that no call had. -/
theorem get_runMemtable (ops : List MemtableOp) (key : Key) (value : Bytes) :
    (runMemtable ops).get key = some value ↔ lastOp ops key = some (.put key value) := by
  unfold Memtable.get
  rw [findEntry_eq_lookup (runMemtable ops).sorted, ← runSlice_eq, lookup_runSlice]
  cases hlast : lastOp ops key with
  | none => simp
  | some op =>
      have hkey := key_of_lastOp hlast
      cases op with
      | put key' value' =>
          obtain rfl : key' = key := hkey
          simp [MemtableOp.entry, kindPut, kindDelete]
      | delete key' => simp [MemtableOp.entry]

end Runs

/-- After any calls the slice is strictly sorted, no key is in it twice, its keys are
those of the calls, and it holds the kind and value of the last call with each.
`Snapshot` returns it, and `Get` answers exactly the keys whose last call was a put. -/
theorem memtable_is_sorted_map (ops : List MemtableOp) :
    SortedEntries (runSlice ops) ∧ ((runSlice ops).map MemEntry.key).Nodup ∧
      (∀ key, key ∈ (runSlice ops).map MemEntry.key ↔ key ∈ ops.map MemtableOp.key) ∧
      (∀ e, e ∈ runSlice ops ↔ ∃ op, lastOp ops e.key = some op ∧ op.entry = e) ∧
      (runMemtable ops).snapshot = runSlice ops ∧
      ∀ key value, (runMemtable ops).get key = some value ↔
        lastOp ops key = some (.put key value) := by
  have hsorted := sortedEntries_runSlice ops
  refine ⟨hsorted, ?_, fun key => mem_keys_runSlice, fun e => ?_, (runSlice_eq ops).symm,
    get_runMemtable ops⟩
  · exact List.pairwise_map.mpr (hsorted.imp fun hlt => hlt.ne)
  · rw [mem_runSlice_iff, Option.map_eq_some_iff]

end RaftKV.Storage
