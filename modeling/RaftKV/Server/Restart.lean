import RaftKV.Raft.Ballots
import RaftKV.Server.Replay

/-!
# Crashes

One server process with its node, its storage and its state machine, followed through
any number of crashes.  A crash loses everything in memory.  What is left is the node's
storage, from which `Start` takes the index `S` of the last snapshot as the new
`commitIndex`, and the engine's files; the entries above `S` are then delivered again.
The snapshot's bytes are not loaded, the engine is trusted to have the entries up to
`S` in its own files.

Nothing makes it so: `maybeSnapshot` has the log compacted without flushing the
engine.  A crash right behind it loses entries that are in no file any more
(`compacted_entry_lost`).  If the engine was flushed behind the entry `S`, then it
holds the effect of every entry up to `S`, perhaps of later ones too, and delivering
the later ones again leads to the state of the whole log.

The process may die between any two steps and behind any storage call of its node.  A flush, a
compaction and the loading of a snapshot are one step each: the process does not die inside
them, and they do not overlap.
-/

namespace RaftKV.Server

open RaftKV.Raft RaftKV.Storage

/-- A server process, with two indices that the source does not keep. -/
structure Process (σ : Type) where
  node : Node σ
  machine : StateMachine
  /-- The last entry or snapshot that the apply loop took, or the index above which
  a new process has the entries delivered. -/
  delivered : ℕ
  /-- What was `delivered` when the engine last had everything in its files. -/
  flushed : ℕ

inductive Process.Event
  | raft (inside : Section)
  | dispatch
  | snapshot
  | flush
  | compactTables
  | crash
  /-- The process dies inside a critical section of the node, behind some of its calls
  of the storage. -/
  | crashInside (inside : Section) (calls : ℕ)

namespace Process

variable {σ : Type} [PersistentState σ]

def initial (cfg : Config) (snapshotInterval : ℕ) : Process σ where
  node := Node.newNode cfg PersistentState.fresh
  machine := .new .fresh snapshotInterval
  delivered := 0
  flushed := 0

omit [PersistentState σ] in
/-- The apply loop takes the next message.  Loading a snapshot writes it out. -/
def dispatch (codec : Codec) (p : Process σ) : Process σ :=
  if p.machine.snapshotDue.isSome then p
  else
    match p.node.applyCh with
    | [] => p
    | .command entry :: rest =>
        { p with
          node := { p.node with applyCh := rest }
          machine := p.machine.dispatch codec (.command entry)
          delivered := entry.index }
    | .snapshot data index term :: rest =>
        { p with
          node := { p.node with applyCh := rest }
          machine := p.machine.dispatch codec (.snapshot data index term)
          delivered := index
          flushed := index }

/-- `maybeSnapshot`; its errors are only logged. -/
def snapshot (p : Process σ) : Process σ :=
  match p.machine.snapshotDue with
  | none => p
  | some (index, term) =>
      match p.machine.engine.snapshot with
      | .error _ => { p with machine := { p.machine with snapshotDue := none } }
      | .ok data =>
          { p with
            node := (p.node.compactLog data index term).2
            machine := { p.machine with snapshotDue := none } }

omit [PersistentState σ] in
/-- A flush is skipped as long as a memtable waits to be flushed. -/
def flush (p : Process σ) : Process σ :=
  { p with
    machine := { p.machine with engine := p.machine.engine.rotateAndFlush }
    flushed := if p.machine.engine.immutable = none then p.delivered else p.flushed }

/-- A new process on the storage and the engine's files that are left.  If it cannot be
started there is none, as in a run that ends here. -/
def restart (p : Process σ) (storage : σ) : Process σ :=
  match p.node.restart storage, p.machine.restart with
  | .ok node, .ok machine => ⟨node, machine, node.commitIndex, p.flushed⟩
  | _, _ => p

def step (codec : Codec) (p : Process σ) : Event → Process σ
  | .raft inside => { p with node := inside.run p.node }
  | .dispatch => p.dispatch codec
  | .snapshot => p.snapshot
  | .flush => p.flush
  | .compactTables =>
      { p with machine := { p.machine with engine := p.machine.engine.doCompaction } }
  | .crash => p.restart p.node.storage
  | .crashInside inside calls => p.restart (Cluster.durableAfter p.node inside calls)

/-! ## Runs over a committed log -/

section Conditions

variable (codec : Codec) (log : CommittedLog) (p : Process σ)

omit [PersistentState σ] in
/-- What `ApplyCh` may bring next: the next entry, or a snapshot that holds the map of
the log at a later index, perhaps with parts of still later ones. -/
def Expects : Option ApplyMsg → Prop
  | none => True
  | some (.command entry) => log.entries[p.delivered]? = some entry
  | some (.snapshot data index _) =>
      p.delivered < index ∧ index ≤ log.entries.length ∧
        ∃ entries, SnapshotEntries entries ∧ data = encodeSnapshot entries ∧
          Within (log.storeAt codec) index log.entries.length (visible [entries])

omit [PersistentState σ] in
/-- The apply loop is fed the committed log. -/
def Fed : Event → Prop
  | .dispatch => p.Expects codec log p.node.applyCh.head?
  | _ => True

/-- Moreover the disk takes what the engine writes. -/
def Proper (event : Event) : Prop :=
  p.Fed codec log event ∧ (p.step codec event).machine.engine.Writable

/-- Starting on `storage` is safe: the engine was flushed behind the last entry of the
saved snapshot, and no entry above it is a retry of one below. -/
def Covers (storage : σ) : Prop :=
  ∀ snapshot ∈ (loadSnapshotMeta storage).toOption,
    snapshot.1 ≤ p.flushed ∧ log.NoRetryAfter codec snapshot.1

omit [PersistentState σ] in
/-- The dedup table that a snapshot does not bring is not missed. -/
def Unmissed : Option ApplyMsg → Prop
  | some (.snapshot _ index _) => log.NoRetryAfter codec index
  | _ => True

/-- No step loses anything. -/
def Lossless : Event → Prop
  | .dispatch => Unmissed codec log p.node.applyCh.head?
  | .crash => p.Covers codec log p.node.storage
  | .crashInside inside calls => p.Covers codec log (Cluster.durableAfter p.node inside calls)
  | _ => True

omit [PersistentState σ] in
/-- Only for a snapshot there is something to decide about every key. -/
noncomputable instance : (msg : Option ApplyMsg) → Decidable (p.Expects codec log msg)
  | none => isTrue trivial
  | some (.command entry) =>
      inferInstanceAs (Decidable (log.entries[p.delivered]? = some entry))
  | some (.snapshot _ _ _) => Classical.propDecidable _

omit [PersistentState σ] in
noncomputable instance : (event : Event) → Decidable (p.Fed codec log event)
  | .dispatch => inferInstanceAs (Decidable (p.Expects codec log p.node.applyCh.head?))
  | .raft _ => isTrue trivial
  | .snapshot => isTrue trivial
  | .flush => isTrue trivial
  | .compactTables => isTrue trivial
  | .crash => isTrue trivial
  | .crashInside _ _ => isTrue trivial

noncomputable instance (event : Event) : Decidable (p.Proper codec log event) :=
  inferInstanceAs (Decidable (_ ∧ _))

instance (storage : σ) : Decidable (p.Covers codec log storage) :=
  inferInstanceAs (Decidable (∀ snapshot ∈ (loadSnapshotMeta storage).toOption, _))

instance : (msg : Option ApplyMsg) → Decidable (Unmissed codec log msg)
  | none => isTrue trivial
  | some (.command _) => isTrue trivial
  | some (.snapshot _ index _) => inferInstanceAs (Decidable (log.NoRetryAfter codec index))

instance : (event : Event) → Decidable (p.Lossless codec log event)
  | .dispatch => inferInstanceAs (Decidable (Unmissed codec log p.node.applyCh.head?))
  | .crash => inferInstanceAs (Decidable (p.Covers codec log p.node.storage))
  | .crashInside inside calls =>
      inferInstanceAs
        (Decidable (p.Covers codec log (Cluster.durableAfter p.node inside calls)))
  | .raft _ => isTrue trivial
  | .snapshot => isTrue trivial
  | .flush => isTrue trivial
  | .compactTables => isTrue trivial

end Conditions

/-- A process that a restart on its files would not set back. -/
structure Recoverable (codec : Codec) (log : CommittedLog) (p : Process σ) : Prop where
  follows : p.machine.Follows codec log p.delivered log.entries.length
  disk : Within (log.storeAt codec) p.flushed log.entries.length p.machine.engine.onDisk
  delivered_le : p.delivered ≤ log.entries.length
  flushed_le : p.flushed ≤ log.entries.length

namespace Recoverable

variable {codec : Codec} {log : CommittedLog} {p : Process σ}

theorem initial (cfg : Config) (snapshotInterval : ℕ) :
    (Process.initial cfg snapshotInterval : Process σ).Recoverable codec log where
  follows := (StateMachine.Follows.fresh snapshotInterval).mono (Nat.zero_le _)
  disk := (Within.refl (log.storeAt codec) 0).mono le_rfl (Nat.zero_le _)
  delivered_le := Nat.zero_le _
  flushed_le := Nat.zero_le _

omit [PersistentState σ] in
/-- The node does not matter, nor does anything of the machine but its state. -/
theorem congr {p' : Process σ} (h : p.Recoverable codec log)
    (hsound : p'.machine.engine.Sound)
    (hcontents : p'.machine.engine.contents = p.machine.engine.contents)
    (hdisk : p'.machine.engine.onDisk = p.machine.engine.onDisk)
    (hseq : p'.machine.lastSeq = p.machine.lastSeq)
    (hlast : p'.machine.lastApplied = p.machine.lastApplied)
    (hdelivered : p'.delivered = p.delivered) (hflushed : p'.flushed = p.flushed) :
    p'.Recoverable codec log where
  follows := hdelivered ▸ h.follows.congr hsound hcontents hseq hlast
  disk := hflushed ▸ hdisk ▸ h.disk
  delivered_le := hdelivered ▸ h.delivered_le
  flushed_le := hflushed ▸ h.flushed_le

omit [PersistentState σ] in
theorem dispatch (h : p.Recoverable codec log) (hlog : log.Fits codec)
    (hexpects : p.Expects codec log p.node.applyCh.head?)
    (hunmissed : Unmissed codec log p.node.applyCh.head?)
    (hw : (p.dispatch codec).machine.engine.Writable) :
    (p.dispatch codec).Recoverable codec log := by
  unfold Process.dispatch at hw ⊢
  split
  · exact h
  · next hdue =>
      rw [if_neg hdue] at hw
      cases hnext : p.node.applyCh with
      | nil => exact h
      | cons msg rest =>
          rw [hnext] at hexpects hunmissed hw
          cases msg with
          | command entry =>
              have hentry : log.entries[p.delivered]? = some entry := hexpects
              have hlt : p.delivered < log.entries.length :=
                (List.getElem?_eq_some_iff.mp hentry).1
              obtain ⟨hfollows, hdisk, -⟩ := h.follows.dispatch hlog hentry
              rw [max_eq_left hlt, ← CommittedLog.index_eq hentry] at hfollows
              refine ⟨hfollows, ?_, ?_, h.flushed_le⟩
              · exact hdisk ▸ h.disk
              · exact (CommittedLog.index_eq hentry).trans_le hlt
          | snapshot data index term =>
              obtain ⟨hindex, hle, entries, hentries, rfl, hwithin⟩ := hexpects
              have hnew : p.machine.lastApplied < index :=
                h.follows.lastApplied_le.trans_lt hindex
              obtain ⟨hfollows, hdisk, -⟩ :=
                h.follows.applySnapshot hentries hwithin hunmissed hnew hw
              exact ⟨hfollows, hdisk ▸ hwithin, hle, hle⟩

theorem snapshot (h : p.Recoverable codec log) : p.snapshot.Recoverable codec log := by
  have hsound := h.follows.sound
  unfold Process.snapshot
  split
  · exact h
  · split
    · exact h.congr hsound rfl rfl rfl rfl rfl rfl
    · exact h.congr hsound rfl rfl rfl rfl rfl rfl

omit [PersistentState σ] in
theorem flush (h : p.Recoverable codec log) (hw : p.flush.machine.engine.Writable) :
    p.flush.Recoverable codec log := by
  have hfollows := h.follows.rotateAndFlush hw
  by_cases hskip : p.machine.engine.immutable = none
  · have hflushed : p.flush.flushed = p.delivered := if_pos hskip
    refine ⟨hfollows, ?_, h.delivered_le, hflushed ▸ h.delivered_le⟩
    rw [hflushed]
    change Within _ _ _ p.machine.engine.rotateAndFlush.onDisk
    rw [h.follows.sound.onDisk_rotateAndFlush hskip hw]
    exact h.follows.lags.store
  · -- the worker comes back without having done anything
    have hsame : p.machine.engine.rotateAndFlush = p.machine.engine := by
      rw [Engine.rotateAndFlush, if_pos]
      exact Option.isSome_iff_ne_none.mpr hskip
    have hflushed : p.flush.flushed = p.flushed := if_neg hskip
    refine h.congr hfollows.sound ?_ ?_ rfl rfl rfl hflushed
    · exact congrArg Engine.contents hsame
    · exact congrArg Engine.onDisk hsame

/-- A crash: memory is lost, and what is on disk has to do. -/
theorem restarted (h : p.Recoverable codec log) {storage : σ} {node : Node σ}
    (hstart : p.node.restart storage = .ok node) (hcovers : p.Covers codec log storage) :
    ∃ machine, p.machine.restart = .ok machine ∧
      (⟨node, machine, node.commitIndex, p.flushed⟩ : Process σ).Recoverable codec log := by
  obtain ⟨term, hmeta⟩ := Node.restart_commitIndex hstart
  have hsaved : (node.commitIndex, term) ∈ (loadSnapshotMeta storage).toOption := by
    rw [hmeta]
    rfl
  obtain ⟨hflushed, hretry⟩ := hcovers _ hsaved
  obtain ⟨tables, hbacked⟩ := h.follows.sound.backed
  obtain ⟨engine, hopen, hsound, hcontents, hdisk⟩ := hbacked.openDir_contents
  refine ⟨.new engine p.machine.snapshotInterval, ?_, ?_⟩
  · rw [StateMachine.restart, hopen]
  · have hwithin : Within (log.storeAt codec) node.commitIndex log.entries.length
        engine.contents := by
      rw [hcontents]
      exact h.disk.mono hflushed le_rfl
    refine ⟨.restarted hsound hwithin hretry _, ?_, hflushed.trans h.flushed_le, h.flushed_le⟩
    exact (hdisk ▸ h.disk : Within (log.storeAt codec) p.flushed log.entries.length engine.onDisk)

theorem restart (h : p.Recoverable codec log) {storage : σ}
    (hcovers : p.Covers codec log storage) : (p.restart storage).Recoverable codec log := by
  unfold Process.restart
  cases hstart : p.node.restart storage with
  | error err => exact h
  | ok node =>
      obtain ⟨machine, hmachine, hrecoverable⟩ := h.restarted hstart hcovers
      rw [hmachine]
      exact hrecoverable

theorem step (h : p.Recoverable codec log) (hlog : log.Fits codec) {event : Event}
    (hproper : p.Proper codec log event) (hlossless : p.Lossless codec log event) :
    (p.step codec event).Recoverable codec log := by
  obtain ⟨hfed, hw⟩ := hproper
  cases event with
  | raft inside => exact h.congr h.follows.sound rfl rfl rfl rfl rfl rfl
  | dispatch => exact h.dispatch hlog hfed hlossless hw
  | snapshot => exact h.snapshot
  | flush => exact h.flush hw
  | compactTables =>
      obtain ⟨hsound, hcontents, hdisk⟩ := h.follows.sound.doCompaction hw
      exact h.congr hsound hcontents hdisk rfl rfl rfl rfl
  | crash => exact h.restart hlossless
  | crashInside inside calls => exact h.restart hlossless

end Recoverable

variable {codec : Codec} {log : CommittedLog} {p : Process σ}

/-- **A restart loses nothing.**  In every run whose steps all are lossless, a process
that starts where the last one crashed has the effect of every entry up to the
`commitIndex` it starts with, if the files cover it, and delivering the entries above
leads to the map of the whole log. -/
theorem restart_loses_nothing (hlog : log.Fits codec) {cfg : Config} {snapshotInterval : ℕ}
    (hrun : Reaches (step codec) (fun p event => p.Proper codec log event ∧
      p.Lossless codec log event) (initial cfg snapshotInterval) p)
    {storage : σ} {node : Node σ} (hstart : p.node.restart storage = .ok node)
    (hcovers : p.Covers codec log storage) :
    ∃ machine, p.machine.restart = .ok machine ∧
      Within (log.storeAt codec) node.commitIndex log.entries.length machine.engine.contents ∧
      ((log.entries.drop node.commitIndex).foldl
        (fun sm entry => sm.dispatch codec (.command entry)) machine).engine.contents =
          log.storeAt codec log.entries.length := by
  have hrecoverable : p.Recoverable codec log :=
    hrun.invariant (.initial cfg snapshotInterval) fun p event h hok =>
      h.step hlog hok.1 hok.2
  obtain ⟨machine, hmachine, hnext⟩ := hrecoverable.restarted hstart hcovers
  exact ⟨machine, hmachine, hnext.follows.lags.store,
    hnext.follows.redeliver hlog le_rfl hnext.delivered_le⟩

theorem exists_ok_of_map {ε α β : Type} {x : Except ε α} {f : α → β} {b : β}
    (h : x.map f = .ok b) : ∃ a, x = .ok a ∧ f a = b := by
  cases x with
  | error err => simp [Except.map] at h
  | ok a => exact ⟨a, rfl, Except.ok.inj h⟩

/-- Two writes in two terms, with a crash in between. -/
def twoWrites : CommittedLog where
  entries := [⟨1, 1, [9]⟩, ⟨2, 2, [10]⟩]
  indexed := by decide

/-- A cluster of one node that takes a snapshot at every entry.  The first write is
flushed and compacted away, then the process crashes; the second one follows. -/
def flushedRun : List Event :=
  [.raft .electionTimeout, .raft (.propose [9]), .dispatch, .flush, .snapshot, .crash,
    .raft .electionTimeout, .raft (.propose [10]), .dispatch]

def flushedEnd : Process MemState :=
  flushedRun.foldl (step valueCodec) (initial ⟨"a", []⟩ 1)

theorem restart_loses_nothing_flushedRun :
    ∃ node machine, flushedEnd.node.restart flushedEnd.node.storage = .ok node ∧
      node.commitIndex = 1 ∧ flushedEnd.machine.restart = .ok machine ∧
      ((twoWrites.entries.drop 1).foldl
        (fun sm entry => sm.dispatch valueCodec (.command entry)) machine).engine.contents =
          twoWrites.storeAt valueCodec 2 := by
  have hcommit : (flushedEnd.node.restart flushedEnd.node.storage).map Node.commitIndex =
      .ok 1 := by
    decide +kernel
  obtain ⟨node, hstart, hindex⟩ := exists_ok_of_map hcommit
  have hcovers : flushedEnd.Covers valueCodec twoWrites flushedEnd.node.storage := by
    decide +kernel
  obtain ⟨machine, hmachine, -, hmap⟩ := restart_loses_nothing (by decide +kernel)
    (Reaches.foldl .refl flushedRun (by decide +kernel)) hstart hcovers
  rw [hindex] at hmap
  exact ⟨node, machine, hstart, hindex, hmachine, hmap⟩

/-- One write. -/
def oneWrite : CommittedLog where
  entries := [⟨1, 1, [9]⟩]
  indexed := by decide

/-- The write is applied and compacted away, but never flushed. -/
def unflushedRun : List Event :=
  [.raft .electionTimeout, .raft (.propose [9]), .dispatch, .snapshot]

def unflushedEnd : Process MemState :=
  unflushedRun.foldl (step valueCodec) (initial ⟨"a", []⟩ 1)

/-- If the process crashes now, the new one takes entry 1 for committed and delivered,
and its engine does not have it. -/
theorem compacted_entry_lost :
    Reaches (step valueCodec) (fun p event => p.Proper valueCodec oneWrite event)
        (initial ⟨"a", []⟩ 1) unflushedEnd ∧
      ∃ node machine, unflushedEnd.node.restart unflushedEnd.node.storage = .ok node ∧
        unflushedEnd.machine.restart = .ok machine ∧ node.commitIndex = 1 ∧
        machine.engine.contents [107] = none ∧ oneWrite.storeAt valueCodec 1 [107] = some [9] ∧
        ((oneWrite.entries.drop 1).foldl
          (fun sm entry => sm.dispatch valueCodec (.command entry)) machine).engine.contents ≠
            oneWrite.storeAt valueCodec 1 := by
  have hcommit : (unflushedEnd.node.restart unflushedEnd.node.storage).map Node.commitIndex =
      .ok 1 := by
    decide +kernel
  have hempty : unflushedEnd.machine.restart.map (fun sm => sm.engine.contents [107]) =
      .ok none := by
    decide +kernel
  have hwrite : oneWrite.storeAt valueCodec 1 [107] = some [9] := by decide +kernel
  obtain ⟨node, hstart, hindex⟩ := exists_ok_of_map hcommit
  obtain ⟨machine, hmachine, hcontents⟩ := exists_ok_of_map hempty
  refine ⟨Reaches.foldl .refl unflushedRun (by decide +kernel), node, machine, hstart, hmachine,
    hindex, hcontents, hwrite, fun heq => ?_⟩
  -- nothing is delivered again
  have hsame : machine.engine.contents [107] = oneWrite.storeAt valueCodec 1 [107] :=
    congrFun heq [107]
  rw [hcontents, hwrite] at hsame
  simp at hsame

end Process

end RaftKV.Server
