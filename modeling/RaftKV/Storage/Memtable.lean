import RaftKV.GoData
import RaftKV.Search
import RaftKV.SortedList

/-!
# The memtable

`storage/memtable.go`: a buffer of records sorted by key, searched by bisection.
The record of a deleted key is a tombstone.

The table carries the proof that it is sorted, without which the bisection would
miss keys, and that its size estimate tells an empty table from a non-empty one.
Of the source's record the sequence numbers are left out: they are assigned and
never read.
-/

namespace RaftKV.Storage

/-- Keys are strings, compared byte by byte. -/
abbrev Key := Bytes

/-- `entryKind`; a file may hold any byte here. -/
abbrev EntryKind := UInt8

def kindPut : EntryKind := 0

def kindDelete : EntryKind := 1

structure MemEntry where
  key : Key
  value : Bytes
  kind : EntryKind
  deriving DecidableEq, Repr

/-- Strictly sorted by key. -/
abbrev SortedEntries (entries : List MemEntry) : Prop :=
  SortedBy MemEntry.key entries

/-! ## Searching -/

/-- The leftmost position whose key is not below `key`. -/
def position (entries : List MemEntry) (key : Key) : ℕ :=
  search entries.length fun i => (entries[i]?).all fun e => key ≤ e.key

/-- `insert`: replaces the entry of the key, or shifts everything behind its place
to the right. -/
def insertEntry (entries : List MemEntry) (e : MemEntry) : List MemEntry :=
  match entries[position entries e.key]? with
  | some old =>
      if old.key = e.key then entries.set (position entries e.key) e
      else entries.take (position entries e.key) ++ e :: entries.drop (position entries e.key)
  | none => entries.take (position entries e.key) ++ e :: entries.drop (position entries e.key)

/-- The entry of a key, if there is one. -/
def findEntry (entries : List MemEntry) (key : Key) : Option MemEntry :=
  (entries[position entries key]?).filter fun e => e.key = key

section Position

variable {entries : List MemEntry} {key : Key}

/-- The bisection splits a sorted list at the key. -/
theorem position_spec (h : SortedEntries entries) (key : Key) :
    (∀ e ∈ entries.take (position entries key), e.key < key) ∧
      ∀ e ∈ entries.drop (position entries key), key ≤ e.key := by
  have hmono : ∀ a b, a ≤ b → b < entries.length →
      (entries[a]?).all (fun e => key ≤ e.key) → (entries[b]?).all fun e => key ≤ e.key := by
    intro a b hab hb ha
    rw [List.getElem?_eq_getElem (by omega), Option.all_some, decide_eq_true_eq] at ha
    rw [List.getElem?_eq_getElem hb, Option.all_some, decide_eq_true_eq]
    rcases Nat.eq_or_lt_of_le hab with rfl | hlt
    · exact ha
    · exact ha.trans (List.pairwise_iff_getElem.mp h a b (by omega) hb hlt).le
  obtain ⟨hle, hlow, hhigh⟩ := search_spec hmono
  refine ⟨fun e he => ?_, fun e he => ?_⟩
  · obtain ⟨i, hi, rfl⟩ := List.mem_iff_getElem.mp he
    rw [List.length_take] at hi
    have := hlow i (by unfold position at hi; omega)
    rw [List.getElem?_eq_getElem (by omega), Option.all_some, decide_eq_false_iff_not,
      not_le] at this
    rw [List.getElem_take]
    exact this
  · obtain ⟨i, hi, rfl⟩ := List.mem_iff_getElem.mp he
    rw [List.length_drop] at hi
    have := hhigh (position entries key + i) (Nat.le_add_right _ _) (by omega)
    rw [List.getElem?_eq_getElem (by omega), Option.all_some, decide_eq_true_eq] at this
    rw [List.getElem_drop]
    exact this

theorem insertEntry_eq_upsert (h : SortedEntries entries) (e : MemEntry) :
    insertEntry entries e = upsert MemEntry.key e entries := by
  obtain ⟨hlow, hhigh⟩ := position_spec h e.key
  unfold insertEntry
  set p := position entries e.key
  conv_rhs => rw [← List.take_append_drop p entries]
  rw [upsert_append hlow]
  cases hdrop : entries.drop p with
  | nil =>
      have hlen : entries.length ≤ p := List.drop_eq_nil_iff.mp hdrop
      rw [List.getElem?_eq_none hlen]
      rfl
  | cons old rest =>
      have hget : entries[p]? = some old := by
        rw [← List.head?_drop, hdrop]
        rfl
      have hle := hhigh old (by rw [hdrop]; exact List.mem_cons_self)
      have hlt : p < entries.length := (List.getElem?_eq_some_iff.mp hget).1
      have hrest : entries.drop (p + 1) = rest := by
        rw [← List.drop_drop, hdrop]
        rfl
      rw [hget, upsert, if_neg (not_lt.mpr hle)]
      simp only
      split
      · rw [List.set_eq_take_append_cons_drop, if_pos hlt, hrest]
      · rfl

theorem findEntry_eq_lookup (h : SortedEntries entries) :
    findEntry entries key = lookup MemEntry.key key entries := by
  obtain ⟨hlow, hhigh⟩ := position_spec h key
  unfold findEntry
  set p := position entries key
  have hsorted : SortedEntries (entries.drop p) := h.sublist (List.drop_sublist _ _)
  conv_rhs => rw [← List.take_append_drop p entries]
  rw [lookup_append_of_lt hlow, ← List.head?_drop]
  cases hdrop : entries.drop p with
  | nil => rfl
  | cons first rest =>
      have hle := hhigh first (by rw [hdrop]; exact List.mem_cons_self)
      rw [hdrop] at hsorted
      rw [List.head?_cons, Option.filter_some, lookup_cons]
      by_cases hkey : first.key = key
      · simp [hkey]
      · have hlt : key < first.key := lt_of_le_of_ne hle (Ne.symm hkey)
        have hnone := lookup_eq_none_of_lt hsorted hlt
        rw [lookup_cons, if_neg hkey] at hnone
        simp [hkey, hnone]

end Position

/-! ## The table -/

structure Memtable where
  entries : List MemEntry
  /-- The approximate number of bytes. -/
  size : ℕ
  sorted : SortedEntries entries
  size_eq_zero : size = 0 ↔ entries = []

/-- `4 * 1024 * 1024`. -/
def maxMemtableSize : ℕ := 4194304

namespace Memtable

/-- `NewMemtable`. -/
def new : Memtable :=
  ⟨[], 0, List.Pairwise.nil, by simp⟩

/-- `insert`, with what the entry adds to the size. -/
def insert (m : Memtable) (e : MemEntry) (bytes : ℕ) : Memtable where
  entries := insertEntry m.entries e
  size := m.size + bytes + 16
  sorted := by
    rw [insertEntry_eq_upsert m.sorted]
    exact sortedBy_upsert m.sorted
  size_eq_zero := by
    have hne : insertEntry m.entries e ≠ [] := by
      unfold insertEntry
      split
      · next old hold =>
          split
          · intro hnil
            rw [List.set_eq_nil_iff] at hnil
            simp [hnil] at hold
          · simp
      · simp
    simp [hne]

def put (m : Memtable) (key : Key) (value : Bytes) : Memtable :=
  m.insert ⟨key, value, kindPut⟩ (key.length + value.length)

def delete (m : Memtable) (key : Key) : Memtable :=
  m.insert ⟨key, [], kindDelete⟩ key.length

/-- `Get`: the value if the key is there and alive; a tombstone reads as absent. -/
def get (m : Memtable) (key : Key) : Option Bytes :=
  match findEntry m.entries key with
  | none => none
  | some e => if e.kind = kindDelete then none else some e.value

def shouldFlush (m : Memtable) : Bool :=
  m.size ≥ maxMemtableSize

/-- `Snapshot`. -/
def snapshot (m : Memtable) : List MemEntry :=
  m.entries

variable {m : Memtable} {key : Key}

theorem lookup_insert (m : Memtable) (e : MemEntry) (bytes : ℕ) :
    lookup MemEntry.key key (m.insert e bytes).entries =
      if e.key = key then some e else lookup MemEntry.key key m.entries := by
  change lookup MemEntry.key key (insertEntry m.entries e) = _
  rw [insertEntry_eq_upsert m.sorted, lookup_upsert m.sorted]

theorem mem_insert {e e' : MemEntry} {bytes : ℕ} (h : e' ∈ (m.insert e bytes).entries) :
    e' = e ∨ e' ∈ m.entries := by
  change e' ∈ insertEntry m.entries e at h
  rw [insertEntry_eq_upsert m.sorted] at h
  exact mem_upsert h

end Memtable

end RaftKV.Storage
