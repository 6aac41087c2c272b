import RaftKV.Raft.Ballots
import RaftKV.Server.Convergence

/-!
# The index of a snapshot

A server through several lifetimes.  At a graceful stop the apply loop takes the messages
that are left, and the engine writes everything out.  The next process, perhaps with another
`snapshotInterval`, opens the engine again and has the entries above the last snapshot of
its node delivered, from `lastApplied = 0` on.

So the engine may hold the effect of entries that the new process has not come to yet.  When
`dispatch` reaches a multiple of the interval before it has caught up, `maybeSnapshot` saves
the engine with everything in it under the index of the entry that was just delivered
(`snapshot_ahead_of_its_index`).  `reached` keeps account of how far the engine has come: a
snapshot is right if its index is not below that.

The dedup table, which starts empty, is the other thing that a restart loses (`NoRetryAfter`).

Flushes and compactions are one step each: they run alone, to their end.
-/

namespace RaftKV.Server

open RaftKV.Raft RaftKV.Storage

/-- A server, with two indices that the source does not keep. -/
structure Lifetimes (σ : Type) where
  node : Node σ
  machine : StateMachine
  /-- The last entry or snapshot that the apply loop took, or the index above which
  a new process has the entries delivered. -/
  delivered : ℕ
  /-- The last entry whose effect the engine may have, from this lifetime or an earlier one. -/
  reached : ℕ

inductive Lifetimes.Event
  | raft (inside : Section)
  | dispatch
  /-- `maybeSnapshot`. -/
  | snapshot
  | flush
  | compactTables
  /-- A graceful stop, and a new process. -/
  | restart (snapshotInterval : ℕ)

namespace Lifetimes

variable {σ : Type} [PersistentState σ]

def initial (cfg : Config) (snapshotInterval : ℕ) : Lifetimes σ where
  node := Node.newNode cfg PersistentState.fresh
  machine := .new .fresh snapshotInterval
  delivered := 0
  reached := 0

omit [PersistentState σ] in
/-- The apply loop takes the next message.  A snapshot that is installed replaces what the
engine had. -/
def dispatch (codec : Codec) (p : Lifetimes σ) : Lifetimes σ :=
  if p.machine.snapshotDue.isSome then p
  else
    match p.node.applyCh with
    | [] => p
    | .command entry :: rest =>
        { p with
          node := { p.node with applyCh := rest }
          machine := p.machine.dispatch codec (.command entry)
          delivered := max p.delivered entry.index
          reached := max p.reached entry.index }
    | .snapshot data index term :: rest =>
        { p with
          node := { p.node with applyCh := rest }
          machine := p.machine.dispatch codec (.snapshot data index term)
          delivered := max p.delivered index
          reached := if index ≤ p.machine.lastApplied then p.reached else index }

/-- `maybeSnapshot`; its errors are only logged. -/
def snapshot (p : Lifetimes σ) : Lifetimes σ :=
  match p.machine.snapshotDue with
  | none => p
  | some (index, term) =>
      match p.machine.engine.snapshot with
      | .error _ => { p with machine := { p.machine with snapshotDue := none } }
      | .ok data =>
          { p with
            node := (p.node.compactLog data index term).2
            machine := { p.machine with snapshotDue := none } }

/-- The engine is closed and opened again.  If the server cannot be started there is none,
as in a run that ends here. -/
def restart (p : Lifetimes σ) (snapshotInterval : ℕ) : Lifetimes σ :=
  match p.node.restart p.node.storage, p.machine.engine.reopen with
  | .ok node, .ok engine =>
      ⟨node, .new engine snapshotInterval, node.commitIndex, p.reached⟩
  | _, _ => p

def step (codec : Codec) (p : Lifetimes σ) : Event → Lifetimes σ
  | .raft inside => { p with node := inside.run p.node }
  | .dispatch => p.dispatch codec
  | .snapshot => p.snapshot
  | .flush => { p with machine := { p.machine with engine := p.machine.engine.rotateAndFlush } }
  | .compactTables =>
      { p with machine := { p.machine with engine := p.machine.engine.doCompaction } }
  | .restart snapshotInterval => p.restart snapshotInterval

/-! ## Runs over a committed log -/

section Conditions

variable (codec : Codec) (log : CommittedLog) (p : Lifetimes σ)

omit [PersistentState σ] in
/-- What `ApplyCh` may bring: the next entry, or a snapshot of the log at a later index, or
something that was applied already. -/
def Expects : Option ApplyMsg → Prop
  | none => True
  | some (.command entry) =>
      log.entries[p.delivered]? = some entry ∨
        entry ∈ log.entries ∧ entry.index ≤ p.machine.lastApplied
  | some (.snapshot data index _) =>
      (p.delivered < index ∧ ∃ entries, SnapshotEntries entries ∧ data = encodeSnapshot entries ∧
        visible [entries] = log.storeAt codec index) ∨
      index ≤ p.machine.lastApplied

/-- The apply loop is fed the committed log, the disk takes what the engine writes, and a
server that stops has taken every snapshot that its node has installed. -/
def Proper : Event → Prop
  | .dispatch =>
      p.Expects codec log p.node.applyCh.head? ∧ (p.dispatch codec).machine.engine.Writable
  | .restart _ =>
      (∀ saved ∈ (loadSnapshotMeta p.node.storage).toOption, saved.1 ≤ p.delivered) ∧
        p.machine.engine.close.Writable
  | event => (p.step codec event).machine.engine.Writable

omit [PersistentState σ] in
/-- The dedup table that a snapshot does not bring is not missed. -/
def Unmissed : Option ApplyMsg → Prop
  | some (.snapshot _ index _) => p.machine.lastApplied < index → log.NoRetryAfter codec index
  | _ => True

/-- No entry that follows on a restart or an installed snapshot is a retry of one that the
lost dedup table knew. -/
def Remembers : Event → Prop
  | .dispatch => p.Unmissed codec log p.node.applyCh.head?
  | .restart _ =>
      ∀ saved ∈ (loadSnapshotMeta p.node.storage).toOption, log.NoRetryAfter codec saved.1
  | _ => True

omit [PersistentState σ] in
/-- Only for a snapshot there is something to decide about every key. -/
noncomputable instance : (msg : Option ApplyMsg) → Decidable (p.Expects codec log msg)
  | none => isTrue trivial
  | some (.command entry) =>
      inferInstanceAs (Decidable (log.entries[p.delivered]? = some entry ∨
        entry ∈ log.entries ∧ entry.index ≤ p.machine.lastApplied))
  | some (.snapshot _ _ _) => Classical.propDecidable _

noncomputable instance : (event : Event) → Decidable (p.Proper codec log event)
  | .dispatch => inferInstanceAs (Decidable (p.Expects codec log p.node.applyCh.head? ∧ _))
  | .restart _ => inferInstanceAs (Decidable (_ ∧ Engine.Writable _))
  | .raft _ => inferInstanceAs (Decidable (Engine.Writable _))
  | .snapshot => inferInstanceAs (Decidable (Engine.Writable _))
  | .flush => inferInstanceAs (Decidable (Engine.Writable _))
  | .compactTables => inferInstanceAs (Decidable (Engine.Writable _))

omit [PersistentState σ] in
instance : (msg : Option ApplyMsg) → Decidable (p.Unmissed codec log msg)
  | none => isTrue trivial
  | some (.command _) => isTrue trivial
  | some (.snapshot _ index _) =>
      inferInstanceAs (Decidable (_ → log.NoRetryAfter codec index))

instance : (event : Event) → Decidable (p.Remembers codec log event)
  | .dispatch => inferInstanceAs (Decidable (p.Unmissed codec log p.node.applyCh.head?))
  | .restart _ =>
      inferInstanceAs (Decidable (∀ saved ∈ (loadSnapshotMeta p.node.storage).toOption, _))
  | .raft _ => isTrue trivial
  | .snapshot => isTrue trivial
  | .flush => isTrue trivial
  | .compactTables => isTrue trivial

end Conditions

/-- The engine has the effect of the entries up to `delivered`, and perhaps of some up to
`reached`. -/
structure Ahead (codec : Codec) (log : CommittedLog) (p : Lifetimes σ) : Prop where
  follows : p.machine.Follows codec log p.delivered p.reached
  delivered_le : p.delivered ≤ p.reached
  due : ∀ due ∈ p.machine.snapshotDue, due.1 ≤ p.delivered

namespace Ahead

variable {codec : Codec} {log : CommittedLog} {p : Lifetimes σ}

theorem initial (cfg : Config) (snapshotInterval : ℕ) :
    (Lifetimes.initial cfg snapshotInterval : Lifetimes σ).Ahead codec log where
  follows := StateMachine.Follows.fresh snapshotInterval
  delivered_le := le_rfl
  due := by simp [Lifetimes.initial, StateMachine.new]

omit [PersistentState σ] in
/-- The node does not matter, nor does anything of the machine but its state. -/
theorem congr {p' : Lifetimes σ} (h : p.Ahead codec log) (hsound : p'.machine.engine.Sound)
    (hcontents : p'.machine.engine.contents = p.machine.engine.contents)
    (hseq : p'.machine.lastSeq = p.machine.lastSeq)
    (hlast : p'.machine.lastApplied = p.machine.lastApplied)
    (hdelivered : p'.delivered = p.delivered) (hreached : p'.reached = p.reached)
    (hdue : ∀ due ∈ p'.machine.snapshotDue, due.1 ≤ p.delivered) : p'.Ahead codec log where
  follows := by
    rw [hdelivered, hreached]
    exact h.follows.congr hsound hcontents hseq hlast
  delivered_le := by
    rw [hdelivered, hreached]
    exact h.delivered_le
  due := hdelivered ▸ hdue

omit [PersistentState σ] in
/-- An entry is delivered. -/
theorem command (h : p.Ahead codec log) (hlog : log.Fits codec) {entry : LogEntry}
    (hexpects : p.Expects codec log (some (.command entry))) (node : Node σ) :
    (⟨node, p.machine.dispatch codec (.command entry), max p.delivered entry.index,
      max p.reached entry.index⟩ : Lifetimes σ).Ahead codec log := by
  have hle := h.delivered_le
  have hdue : ∀ due ∈ (p.machine.dispatch codec (.command entry)).snapshotDue,
      due.1 ≤ max p.delivered entry.index := by
    intro due hdue
    simp only [StateMachine.dispatch] at hdue
    split at hdue
    · obtain rfl := Option.some.inj hdue
      exact le_max_right _ _
    · simp at hdue
  refine ⟨?_, max_le_max_right _ hle, hdue⟩
  rcases hexpects with hentry | ⟨-, hstale⟩
  · have hindex := CommittedLog.index_eq hentry
    obtain ⟨hfollows, -, -⟩ := h.follows.dispatch hlog hentry
    rw [hindex, max_eq_right (Nat.le_succ p.delivered)]
    exact hfollows
  · -- an entry that comes a second time is skipped, and neither index moves
    have hlast := h.follows.lastApplied_le
    have hdelivered : max p.delivered entry.index = p.delivered := max_eq_left (by omega)
    have hreached : max p.reached entry.index = p.reached := max_eq_left (by omega)
    have hskip : p.machine.apply codec entry = p.machine.notifyPending entry.index none :=
      if_pos hstale
    simp only [hdelivered, hreached, StateMachine.dispatch, hskip]
    refine h.follows.congr ?_ ?_ ?_ ?_
    · simpa using h.follows.sound
    · simp
    · simp
    · simp

omit [PersistentState σ] in
/-- A snapshot is installed, or skipped. -/
theorem install (h : p.Ahead codec log) {data : Bytes} {index term : ℕ}
    (hexpects : p.Expects codec log (some (.snapshot data index term)))
    (hunmissed : p.Unmissed codec log (some (.snapshot data index term)))
    (hdue : p.machine.snapshotDue = none)
    (hw : (p.machine.dispatch codec (.snapshot data index term)).engine.Writable)
    (node : Node σ) :
    (⟨node, p.machine.dispatch codec (.snapshot data index term), max p.delivered index,
      if index ≤ p.machine.lastApplied then p.reached else index⟩ : Lifetimes σ).Ahead
        codec log := by
  have hlast := h.follows.lastApplied_le
  by_cases hstale : index ≤ p.machine.lastApplied
  · have hskip : p.machine.dispatch codec (.snapshot data index term) = p.machine :=
      if_pos hstale
    have hdelivered : max p.delivered index = p.delivered := max_eq_left (by omega)
    rw [if_pos hstale, hskip, hdelivered]
    exact ⟨h.follows, h.delivered_le, h.due⟩
  · -- `LoadSnapshot` replaces everything, so the engine is no longer ahead
    obtain ⟨hnew, entries, hentries, rfl, hvisible⟩ := hexpects.resolve_right hstale
    have hwithin : Within (log.storeAt codec) index index (visible [entries]) := by
      rw [hvisible]
      exact Within.refl _ index
    obtain ⟨hfollows, -, -⟩ := h.follows.applySnapshot hentries hwithin
      (hunmissed (not_le.mp hstale)) (not_le.mp hstale) hw
    rw [if_neg hstale, max_eq_right hnew.le]
    refine ⟨hfollows, le_rfl, ?_⟩
    have hnone :
        (p.machine.dispatch codec (.snapshot (encodeSnapshot entries) index term)).snapshotDue =
          none := by
      simp only [StateMachine.dispatch, StateMachine.applySnapshot]
      split
      · exact hdue
      · split <;> exact hdue
    simp [hnone]

omit [PersistentState σ] in
theorem dispatch (h : p.Ahead codec log) (hlog : log.Fits codec)
    (hexpects : p.Expects codec log p.node.applyCh.head?)
    (hunmissed : p.Unmissed codec log p.node.applyCh.head?)
    (hw : (p.dispatch codec).machine.engine.Writable) :
    (p.dispatch codec).Ahead codec log := by
  unfold Lifetimes.dispatch at hw ⊢
  by_cases hdue : p.machine.snapshotDue.isSome
  · rw [if_pos hdue]
    exact h
  · rw [if_neg hdue] at hw ⊢
    cases hnext : p.node.applyCh with
    | nil => exact h
    | cons msg rest =>
        rw [hnext] at hexpects hunmissed hw
        cases msg with
        | command entry => exact h.command hlog hexpects _
        | snapshot data index term =>
            exact h.install hexpects hunmissed (by simpa using hdue) hw _

theorem snapshot (h : p.Ahead codec log) : p.snapshot.Ahead codec log := by
  have hsound := h.follows.sound
  unfold Lifetimes.snapshot
  split
  · exact h
  · split
    · exact h.congr hsound rfl rfl rfl rfl rfl (by simp)
    · exact h.congr hsound rfl rfl rfl rfl rfl (by simp)

/-- The engine keeps what it has; the entries behind the last snapshot come again. -/
theorem restart (h : p.Ahead codec log) {snapshotInterval : ℕ}
    (hproper : p.Proper codec log (.restart snapshotInterval))
    (hremembers : p.Remembers codec log (.restart snapshotInterval)) :
    (p.restart snapshotInterval).Ahead codec log := by
  obtain ⟨hsaved, hw⟩ := hproper
  obtain ⟨engine, hopen, hsound, hcontents⟩ := h.follows.sound.reopen hw
  unfold Lifetimes.restart
  rw [hopen]
  cases hstart : p.node.restart p.node.storage with
  | error err => exact h
  | ok node =>
      obtain ⟨term, hmeta⟩ := Node.restart_commitIndex hstart
      have hmem : (node.commitIndex, term) ∈ (loadSnapshotMeta p.node.storage).toOption := by
        rw [hmeta]
        rfl
      have hle : node.commitIndex ≤ p.delivered := hsaved _ hmem
      -- the new process starts below what the engine has
      have hwithin : Within (log.storeAt codec) node.commitIndex p.reached engine.contents := by
        rw [hcontents]
        exact h.follows.lags.store.mono hle le_rfl
      refine ⟨.restarted hsound hwithin (hremembers _ hmem) _, hle.trans h.delivered_le, ?_⟩
      simp [StateMachine.new]

theorem step (h : p.Ahead codec log) (hlog : log.Fits codec) {event : Event}
    (hproper : p.Proper codec log event) (hremembers : p.Remembers codec log event) :
    (p.step codec event).Ahead codec log := by
  cases event with
  | raft inside => exact h.congr h.follows.sound rfl rfl rfl rfl rfl h.due
  | dispatch => exact h.dispatch hlog hproper.1 hremembers hproper.2
  | snapshot => exact h.snapshot
  | flush =>
      obtain ⟨hsound, hcontents⟩ := h.follows.sound.rotateAndFlush hproper
      exact h.congr hsound hcontents rfl rfl rfl rfl h.due
  | compactTables =>
      obtain ⟨hsound, hcontents, -⟩ := h.follows.sound.doCompaction hproper
      exact h.congr hsound hcontents rfl rfl rfl rfl h.due
  | restart snapshotInterval => exact h.restart hproper hremembers

end Ahead

variable {codec : Codec} {log : CommittedLog} {p : Lifetimes σ}

/-- A snapshot is the state at its index.  In every run over a committed log, through any
number of graceful restarts with any intervals, in which no entry behind a restart or an
installed snapshot is a retry of one that the lost dedup table knew: whenever a snapshot is
due for an index that nothing has gone beyond, `maybeSnapshot` hands bytes to `CompactLog`
that decode to the map of the log at this index. -/
theorem snapshot_is_state_at_index (hlog : log.Fits codec) {cfg : Config} {snapshotInterval : ℕ}
    (hrun : Reaches (step codec) (fun p event => p.Proper codec log event ∧
      p.Remembers codec log event) (initial cfg snapshotInterval) p)
    {index term : ℕ} (hdue : p.machine.snapshotDue = some (index, term))
    (hreached : p.reached ≤ index) :
    ∃ data entries, (p.step codec .snapshot).node = (p.node.compactLog data index term).2 ∧
      decodeSnapshot data = .ok entries ∧ Store.ofEntries entries = log.storeAt codec index := by
  have hahead : p.Ahead codec log :=
    hrun.invariant (.initial cfg snapshotInterval) fun p event h hok =>
      h.step hlog hok.1 hok.2
  have hdelivered : index ≤ p.delivered := hahead.due _ hdue
  have hle := hahead.delivered_le
  -- `index ≤ delivered ≤ reached ≤ index`
  obtain rfl : p.delivered = index := by omega
  have hfollows : p.machine.Follows codec log p.delivered p.delivered :=
    hahead.follows.mono hreached
  obtain ⟨entries, hsnapshot, hentries, hvisible⟩ := hfollows.sound.snapshot
  refine ⟨encodeSnapshot entries, entries.map MemEntry.asPut, ?_,
    decodeSnapshot_encodeSnapshot hentries.fits, ?_⟩
  · simp only [step, Lifetimes.snapshot, hdue, hsnapshot]
  · calc Store.ofEntries (entries.map MemEntry.asPut)
        = visible [entries] := Engine.ofEntries_asPut hentries
      _ = p.machine.engine.contents := hvisible
      _ = log.storeAt codec p.delivered := hfollows.lags.store_eq

/-- Puts of one byte to keys of one byte. -/
def pairCodec : Codec where
  marshal cmd := cmd.key ++ cmd.value
  unmarshal
    | [key, value] => some ⟨.put, [key], [value], "", 0⟩
    | _ => none

/-- Two keys are written, and behind a restart a third. -/
def threeKeys : CommittedLog where
  entries := [⟨1, 1, [97, 1]⟩, ⟨2, 1, [98, 2]⟩, ⟨3, 2, [99, 3]⟩]
  indexed := by decide

/-- A cluster of one node that takes no snapshots.  It is restarted behind the second entry,
with this interval, and goes on until the entry at the interval is delivered again. -/
def redelivered (snapshotInterval : ℕ) : List Event :=
  [.raft .electionTimeout, .raft (.propose [97, 1]), .raft (.propose [98, 2]), .dispatch,
    .dispatch, .restart snapshotInterval, .raft .electionTimeout, .raft (.propose [99, 3])] ++
  List.replicate snapshotInterval .dispatch

def redeliveredEnd (snapshotInterval : ℕ) : Lifetimes MemState :=
  (redelivered snapshotInterval).foldl (step pairCodec) (initial ⟨"a", []⟩ 0)

theorem snapshot_is_state_at_index_redelivered :
    ∃ data entries, ((redeliveredEnd 2).step pairCodec .snapshot).node =
        ((redeliveredEnd 2).node.compactLog data 2 1).2 ∧
      decodeSnapshot data = .ok entries ∧
        Store.ofEntries entries = threeKeys.storeAt pairCodec 2 := by
  have hend : (redeliveredEnd 2).machine.snapshotDue = some (2, 1) ∧
      (redeliveredEnd 2).reached ≤ 2 := by
    decide +kernel
  have hallowed : Allowed (step pairCodec) (fun p event => p.Proper pairCodec threeKeys event ∧
      p.Remembers pairCodec threeKeys event) (initial ⟨"a", []⟩ 0 : Lifetimes MemState)
      (redelivered 2) := by
    decide +kernel
  have hrun : Reaches (step pairCodec) (fun p event => p.Proper pairCodec threeKeys event ∧
      p.Remembers pairCodec threeKeys event) (initial ⟨"a", []⟩ 0) (redeliveredEnd 2) :=
    Reaches.foldl .refl _ hallowed
  exact snapshot_is_state_at_index (by decide +kernel) hrun hend.1 hend.2

omit [PersistentState σ] in
/-- What the bytes that `maybeSnapshot` saves have for a key. -/
def savedValue (p : Lifetimes σ) (key : Key) : Option Bytes :=
  match p.machine.engine.snapshot with
  | .error _ => none
  | .ok data =>
      match decodeSnapshot data with
      | .error _ => none
      | .ok entries => Store.ofEntries entries key

/-- A client writes 10, another one writes 20, and the first write is tried again. -/
def retriedKey : CommittedLog where
  entries := [⟨1, 1, [1, 1, 10]⟩, ⟨2, 1, [0, 0, 20]⟩, ⟨3, 2, [1, 1, 10]⟩]
  indexed := by decide

/-- The first process takes a snapshot behind the second entry. -/
def retried : List Event :=
  [.raft .electionTimeout, .raft (.propose [1, 1, 10]), .raft (.propose [0, 0, 20]), .dispatch,
    .dispatch, .snapshot, .restart 3, .raft .electionTimeout, .raft (.propose [1, 1, 10]),
    .dispatch]

def retriedEnd : Lifetimes MemState :=
  retried.foldl (step Replica.sessionCodec) (initial ⟨"a", []⟩ 2)

/-- With the interval changed to 1, the snapshot of the first entry has the key of the second.
And a retry behind a restart is executed: the snapshot of the third entry has 10, where the log
has 20.  Both snapshots are accepted. -/
theorem snapshot_ahead_of_its_index :
    (Allowed (step pairCodec) (fun p event => p.Proper pairCodec threeKeys event)
        (initial ⟨"a", []⟩ 0 : Lifetimes MemState) (redelivered 1) ∧
      (redeliveredEnd 1).machine.snapshotDue = some (1, 1) ∧
      ((redeliveredEnd 1).step pairCodec .snapshot).node.lastIncludedIndex = 1 ∧
      (redeliveredEnd 1).savedValue [98] = some [2] ∧
      threeKeys.storeAt pairCodec 1 [98] = none) ∧
    Allowed (step Replica.sessionCodec)
        (fun p event => p.Proper Replica.sessionCodec retriedKey event)
        (initial ⟨"a", []⟩ 2 : Lifetimes MemState) retried ∧
      retriedEnd.machine.snapshotDue = some (3, 2) ∧ retriedEnd.reached ≤ 3 ∧
      (retriedEnd.step Replica.sessionCodec .snapshot).node.lastIncludedIndex = 3 ∧
      retriedEnd.savedValue [107] = some [10] ∧
      retriedKey.storeAt Replica.sessionCodec 3 [107] = some [20] := by
  refine ⟨?_, ?_⟩ <;> decide +kernel

end Lifetimes

end RaftKV.Server
