import RaftKV.Raft.Types

/-!
# Durable storage

`PersistentState` is the interface of the same name in `raft/node.go`.  Every
writing call returns its error next to the storage it leaves behind; a reading
call returns an error or a value.

`MemState` is `raft/memstate.go`.  `Interrupted` wraps any storage to describe a
process that dies inside a critical section: the first `callsLeft` writing calls
reach the disk, the later ones never happen.
-/

namespace RaftKV.Raft

/-- How a node persists its hard state, its log and its snapshot. -/
class PersistentState (σ : Type) where
  /-- The storage of a node that has never run. -/
  fresh : σ
  saveHardState : ℕ → NodeId → σ → Except String Unit × σ
  loadHardState : σ → Except String (ℕ × NodeId)
  appendEntries : List LogEntry → σ → Except String Unit × σ
  loadEntries : σ → Except String (List LogEntry)
  truncateSuffix : ℕ → σ → Except String Unit × σ
  saveSnapshot : Bytes → ℕ → ℕ → σ → Except String Unit × σ
  loadSnapshot : σ → Except String (Bytes × ℕ × ℕ)
  loadSnapshotMeta : σ → Except String (ℕ × ℕ)
  truncatePrefix : ℕ → σ → Except String Unit × σ

export PersistentState (saveHardState loadHardState appendEntries loadEntries truncateSuffix
  saveSnapshot loadSnapshot loadSnapshotMeta truncatePrefix)

/-! ## The in-memory implementation -/

/-- `memState`. -/
structure MemState where
  term : ℕ
  voted : NodeId
  entries : List LogEntry
  snapshot : Bytes
  lastIncludedIndex : ℕ
  lastIncludedTerm : ℕ
  deriving DecidableEq, Repr

instance : PersistentState MemState where
  fresh := ⟨0, "", [], [], 0, 0⟩
  saveHardState term votedFor m := (.ok (), { m with term := term, voted := votedFor })
  loadHardState m := .ok (m.term, m.voted)
  appendEntries entries m := (.ok (), { m with entries := m.entries ++ entries })
  loadEntries m := .ok m.entries
  truncateSuffix keepIndex m :=
    (.ok (), { m with entries := m.entries.filter fun e => e.index ≤ keepIndex })
  saveSnapshot data lastIncludedIndex lastIncludedTerm m :=
    (.ok (), { m with
      snapshot := data
      lastIncludedIndex := lastIncludedIndex
      lastIncludedTerm := lastIncludedTerm })
  loadSnapshot m := .ok (m.snapshot, m.lastIncludedIndex, m.lastIncludedTerm)
  loadSnapshotMeta m := .ok (m.lastIncludedIndex, m.lastIncludedTerm)
  truncatePrefix discardIndex m :=
    (.ok (), { m with entries := m.entries.filter fun e => discardIndex < e.index })

/-! ## Dying inside a critical section -/

/-- Storage under a process that will die after `callsLeft` more writing calls. -/
structure Interrupted (σ : Type) where
  durable : σ
  callsLeft : ℕ

/-- One writing call: performed while the process lives, without effect after. -/
def Interrupted.write {σ : Type} (call : σ → Except String Unit × σ) (s : Interrupted σ) :
    Except String Unit × Interrupted σ :=
  match s.callsLeft with
  | 0 => (.ok (), s)
  | n + 1 => ((call s.durable).1, ⟨(call s.durable).2, n⟩)

instance {σ : Type} [PersistentState σ] : PersistentState (Interrupted σ) where
  fresh := ⟨PersistentState.fresh, 0⟩
  saveHardState term votedFor := Interrupted.write (saveHardState term votedFor)
  loadHardState s := loadHardState s.durable
  appendEntries entries := Interrupted.write (appendEntries entries)
  loadEntries s := loadEntries s.durable
  truncateSuffix keepIndex := Interrupted.write (truncateSuffix keepIndex)
  saveSnapshot data index term := Interrupted.write (saveSnapshot data index term)
  loadSnapshot s := loadSnapshot s.durable
  loadSnapshotMeta s := loadSnapshotMeta s.durable
  truncatePrefix discardIndex := Interrupted.write ( truncatePrefix discardIndex)

/-- What election safety asks of the storage: saving the hard state succeeds,
loading it returns the last saved pair, and no other call touches it. -/
class LawfulHardState (σ : Type) [PersistentState σ] : Prop where
  load_fresh : loadHardState (PersistentState.fresh : σ) = .ok (0, "")
  save_ok : ∀ (t : ℕ) (v : NodeId) (s : σ), (saveHardState t v s).1 = .ok ()
  load_save : ∀ (t : ℕ) (v : NodeId) (s : σ), loadHardState (saveHardState t v s).2 = .ok (t, v)
  load_appendEntries : ∀ (es : List LogEntry) (s : σ),
    loadHardState (appendEntries es s).2 = loadHardState s
  load_truncateSuffix : ∀ (k : ℕ) (s : σ),
    loadHardState (truncateSuffix k s).2 = loadHardState s
  load_saveSnapshot : ∀ (data : Bytes) (i t : ℕ) (s : σ),
    loadHardState (saveSnapshot data i t s).2 = loadHardState s
  load_truncatePrefix : ∀ (d : ℕ) (s : σ),
    loadHardState (truncatePrefix d s).2 = loadHardState s

instance : LawfulHardState MemState where
  load_fresh := rfl
  save_ok _ _ _ := rfl
  load_save _ _ _ := rfl
  load_appendEntries _ _ := rfl
  load_truncateSuffix _ _ := rfl
  load_saveSnapshot _ _ _ _ := rfl
  load_truncatePrefix _ _ := rfl

/-- What rebuilding a log asks of the storage: the calls that save and cut
succeed, the entries are kept as a list, and the snapshot's index and term are
those saved last. -/
class LawfulLog (σ : Type) [PersistentState σ] : Prop where
  entries_fresh : loadEntries (PersistentState.fresh : σ) = .ok []
  base_fresh : loadSnapshotMeta (PersistentState.fresh : σ) = .ok (0, 0)
  saveSnapshot_ok : ∀ (data : Bytes) (i t : ℕ) (s : σ), (saveSnapshot data i t s).1 = .ok ()
  truncatePrefix_ok : ∀ (d : ℕ) (s : σ), ( truncatePrefix d s).1 = .ok ()
  entries_saveHardState : ∀ (t : ℕ) (v : NodeId) (s : σ),
    loadEntries (saveHardState t v s).2 = loadEntries s
  entries_appendEntries : ∀ (es : List LogEntry) (s : σ),
    loadEntries (appendEntries es s).2 = (loadEntries s).map (· ++ es)
  entries_truncateSuffix : ∀ (k : ℕ) (s : σ), loadEntries (truncateSuffix k s).2 =
    (loadEntries s).map (List.filter fun e => e.index ≤ k)
  entries_saveSnapshot : ∀ (data : Bytes) (i t : ℕ) (s : σ),
    loadEntries (saveSnapshot data i t s).2 = loadEntries s
  entries_truncatePrefix : ∀ (d : ℕ) (s : σ), loadEntries ( truncatePrefix d s).2 =
    (loadEntries s).map (List.filter fun e => d < e.index)
  base_saveHardState : ∀ (t : ℕ) (v : NodeId) (s : σ),
    loadSnapshotMeta (saveHardState t v s).2 = loadSnapshotMeta s
  base_appendEntries : ∀ (es : List LogEntry) (s : σ),
    loadSnapshotMeta (appendEntries es s).2 = loadSnapshotMeta s
  base_truncateSuffix : ∀ (k : ℕ) (s : σ),
    loadSnapshotMeta (truncateSuffix k s).2 = loadSnapshotMeta s
  base_saveSnapshot : ∀ (data : Bytes) (i t : ℕ) (s : σ),
    loadSnapshotMeta (saveSnapshot data i t s).2 = .ok (i, t)
  base_truncatePrefix : ∀ (d : ℕ) (s : σ),
    loadSnapshotMeta ( truncatePrefix d s).2 = loadSnapshotMeta s

/-- Saving the hard state leaves log and snapshot alone, which storage that refuses calls
promises too. -/
class SeparateHardState (σ : Type) [PersistentState σ] : Prop where
  entries_save : ∀ (t : ℕ) (v : NodeId) (s : σ), loadEntries (saveHardState t v s).2 = loadEntries s
  base_save : ∀ (t : ℕ) (v : NodeId) (s : σ),
    loadSnapshotMeta (saveHardState t v s).2 = loadSnapshotMeta s

instance {σ : Type} [PersistentState σ] [LawfulLog σ] : SeparateHardState σ where
  entries_save := LawfulLog.entries_saveHardState
  base_save := LawfulLog.base_saveHardState

instance : LawfulLog MemState where
  entries_fresh := rfl
  base_fresh := rfl
  saveSnapshot_ok _ _ _ _ := rfl
  truncatePrefix_ok _ _ := rfl
  entries_saveHardState _ _ _ := rfl
  entries_appendEntries _ _ := rfl
  entries_truncateSuffix _ _ := rfl
  entries_saveSnapshot _ _ _ _ := rfl
  entries_truncatePrefix _ _ := rfl
  base_saveHardState _ _ _ := rfl
  base_appendEntries _ _ := rfl
  base_truncateSuffix _ _ := rfl
  base_saveSnapshot _ _ _ _ := rfl
  base_truncatePrefix _ _ := rfl

end RaftKV.Raft
