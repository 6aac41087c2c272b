import RaftKV.Raft.Node
import RaftKV.Storage.Engine

/-!
# The state machine

`server/statemachine.go`: consumes the messages of a node's `ApplyCh`, applies them to
the storage engine and answers the clients that wait for them.

`apply` and `applySnapshot` run under `sm.mu`, and so does `ProposeWrite` up to the
registration of its waiter; each is one function here.  `maybeSnapshot` runs behind
`apply` without the lock, so `dispatch` only notes that a snapshot is due.

A call of `ProposeWrite` that waits is its `PendingWrite`, and what is sent to it is
recorded in `returned`.  Two more records are kept that the source does not have: the
entries that `apply` did not skip, and the change events handed to the broadcaster.
Left out are the metrics and the channels and threads themselves.
-/

namespace RaftKV.Server

open RaftKV.Raft RaftKV.Storage

/-- `Command.Op`; anything but the two known words is an error when it is applied. -/
inductive CommandOp
  | put
  | delete
  | unknown (op : String)
  deriving DecidableEq, Repr

/-- The payload of a log entry. -/
structure Command where
  op : CommandOp
  key : Key
  value : Bytes
  clientId : String
  seqNum : ℕ
  deriving DecidableEq, Repr

/-- The encoding of commands, `encoding/json` in the source.  Nothing is assumed about
it: a JSON string does not carry every key. -/
structure Codec where
  marshal : Command → Bytes
  unmarshal : Bytes → Option Command

/-- Puts to one key, encoded by their value. -/
def valueCodec : Codec where
  marshal cmd := cmd.value
  unmarshal data := some ⟨.put, [107], data, "", 0⟩

/-- `Result.Err`. -/
inductive ApplyError
  /-- The text is "corrupt log entry". -/
  | corruptLogEntry
  /-- The text is "unknown op: %q". -/
  | unknownOp (op : String)
  /-- The text is "entry superseded by an installed snapshot". -/
  | superseded
  | engine (err : EngineError)
  deriving DecidableEq, Repr

/-- What a waiting call receives: `none` is the empty error, on which `ProposeWrite`
returns nil. -/
abbrev Result := Option ApplyError

/-- A call of `ProposeWrite` that waits, by what `Propose` returned and the command it
was called with. -/
structure PendingWrite where
  logIndex : ℕ
  term : ℕ
  cmd : Command
  deriving DecidableEq, Repr

/-- What is published to watchers. -/
structure ChangeEvent where
  index : ℕ
  term : ℕ
  op : CommandOp
  key : Key
  value : Bytes
  deriving DecidableEq, Repr

structure StateMachine where
  engine : Engine
  /-- Waiting calls by log index. -/
  pending : GoMap ℕ PendingWrite
  lastApplied : ℕ
  /-- The last sequence number applied for each client. -/
  lastSeq : GoMap String ℕ
  /-- Zero disables snapshots. -/
  snapshotInterval : ℕ
  /-- The apply loop stands in front of `maybeSnapshot`, with this index and term. -/
  snapshotDue : Option (ℕ × ℕ)
  returned : List (PendingWrite × Result)
  applied : List LogEntry
  published : List ChangeEvent

namespace StateMachine

/-- `NewStateMachine`. -/
def new (engine : Engine) (snapshotInterval : ℕ) : StateMachine where
  engine := engine
  pending := ∅
  lastApplied := 0
  lastSeq := ∅
  snapshotInterval := snapshotInterval
  snapshotDue := none
  returned := []
  applied := []
  published := []

/-- `notifyPending`: whoever waits at the index is answered, whatever it proposed. -/
def notifyPending (sm : StateMachine) (logIndex : ℕ) (result : Result) : StateMachine :=
  match sm.pending.lookup logIndex with
  | none => sm
  | some pw =>
      { sm with
        pending := sm.pending.erase logIndex
        returned := sm.returned ++ [(pw, result)] }

/-- The dedup test of `apply`. -/
def isDuplicate (lastSeq : GoMap String ℕ) (cmd : Command) : Bool :=
  cmd.clientId ≠ "" && (lastSeq.lookup cmd.clientId).any fun seq => cmd.seqNum ≤ seq

/-- The write of `apply`. -/
def execute (engine : Engine) (cmd : Command) : Except ApplyError Engine :=
  match cmd.op with
  | .put => (engine.put cmd.key cmd.value).mapError .engine
  | .delete => (engine.delete cmd.key).mapError .engine
  | .unknown op => .error (.unknownOp op)

/-- The dedup table after a write. -/
def recordSeq (lastSeq : GoMap String ℕ) (cmd : Command) : GoMap String ℕ :=
  if cmd.clientId ≠ "" then lastSeq.insert cmd.clientId cmd.seqNum else lastSeq

/-- Behind the first test of `apply` every branch moves `lastApplied`. -/
def advance (sm : StateMachine) (entry : LogEntry) : StateMachine :=
  { sm with lastApplied := entry.index, applied := sm.applied ++ [entry] }

/-- A write has succeeded: it is published and remembered for its client. -/
def executed (sm : StateMachine) (entry : LogEntry) (cmd : Command) (engine : Engine) :
    StateMachine :=
  { sm.advance entry with
    engine := engine
    lastSeq := recordSeq sm.lastSeq cmd
    published := sm.published ++
      [ChangeEvent.mk entry.index entry.term cmd.op cmd.key cmd.value] }

/-- `apply`. -/
def apply (codec : Codec) (sm : StateMachine) (entry : LogEntry) : StateMachine :=
  if entry.index ≤ sm.lastApplied then sm.notifyPending entry.index none
  else
    match codec.unmarshal entry.data with
    | none => (sm.advance entry).notifyPending entry.index (some .corruptLogEntry)
    | some cmd =>
        if isDuplicate sm.lastSeq cmd then (sm.advance entry).notifyPending entry.index none
        else
          match execute sm.engine cmd with
          | .error err => (sm.advance entry).notifyPending entry.index (some err)
          | .ok engine => (sm.executed entry cmd engine).notifyPending entry.index none

/-- `applySnapshot`. -/
def applySnapshot (sm : StateMachine) (data : Bytes) (index : ℕ) : StateMachine :=
  if index ≤ sm.lastApplied then sm
  else
    match sm.engine.loadSnapshot data with
    | (.error _, engine) => { sm with engine := engine }
    | (.ok _, engine) =>
        -- the waiters that the snapshot covers are told so, the others keep waiting
        let covered := sm.pending.entries.filter fun waiter => waiter.1 ≤ index
        { sm with
          engine := engine
          lastSeq := ∅
          pending := covered.foldl (fun m waiter => m.erase waiter.1) sm.pending
          returned := sm.returned ++ covered.map fun waiter => (waiter.2, some .superseded)
          lastApplied := index }

/-- `dispatch` up to `maybeSnapshot`. -/
def dispatch (codec : Codec) (sm : StateMachine) : ApplyMsg → StateMachine
  | .command entry =>
      { sm.apply codec entry with
        snapshotDue :=
          if sm.snapshotInterval > 0 ∧ entry.index % sm.snapshotInterval = 0 then
            some (entry.index, entry.term)
          else none }
  | .snapshot data index _ => sm.applySnapshot data index

/-- The process restarts: the engine is opened again on the files it left behind. -/
def restart (sm : StateMachine) : Except EngineError StateMachine :=
  match Engine.openDir sm.engine.files with
  | .error err => .error err
  | .ok engine => .ok (new engine sm.snapshotInterval)

variable {σ : Type} [PersistentState σ]

/-- `ProposeWrite` up to the registration of the waiter; `none` is `ErrNotLeader`. -/
def proposeWrite (codec : Codec) (sm : StateMachine) (n : Node σ) (cmd : Command) :
    Option StateMachine :=
  match (n.propose (codec.marshal cmd)).1 with
  | none => none
  | some (logIndex, term) =>
      some { sm with pending := sm.pending.insert logIndex ⟨logIndex, term, cmd⟩ }

omit [PersistentState σ] in
/-- `ReadValue`: only the role is asked for; `none` is `ErrNotLeader`. -/
def readValue (sm : StateMachine) (n : Node σ) (key : Key) : Option (Option Bytes) :=
  if n.role ≠ .leader then none else some (sm.engine.get key)

/-! ## What answers a waiter -/

variable {sm : StateMachine} {codec : Codec}

omit [PersistentState σ] in
theorem notifyPending_cases (sm : StateMachine) (logIndex : ℕ) (result : Result) :
    sm.pending.lookup logIndex = none ∧ sm.notifyPending logIndex result = sm ∨
      ∃ pw, sm.pending.lookup logIndex = some pw ∧
        sm.notifyPending logIndex result = { sm with
          pending := sm.pending.erase logIndex
          returned := sm.returned ++ [(pw, result)] } := by
  unfold notifyPending
  cases hlookup : sm.pending.lookup logIndex with
  | none => exact .inl ⟨rfl, rfl⟩
  | some pw => exact .inr ⟨pw, rfl, rfl⟩

omit [PersistentState σ] in
/-- An entry is skipped, or it is applied and whoever waits at its index is answered. -/
theorem apply_cases (codec : Codec) (sm : StateMachine) (entry : LogEntry) :
    entry.index ≤ sm.lastApplied ∧ sm.apply codec entry = sm.notifyPending entry.index none ∨
      sm.lastApplied < entry.index ∧ ∃ (sm' : StateMachine) (result : Result),
        sm'.pending = sm.pending ∧ sm'.returned = sm.returned ∧
        sm'.applied = sm.applied ++ [entry] ∧ sm'.lastApplied = entry.index ∧
        sm.apply codec entry = sm'.notifyPending entry.index result := by
  unfold apply
  split
  · next hskip => exact .inl ⟨hskip, rfl⟩
  · next hnew =>
      refine .inr ⟨not_le.mp hnew, ?_⟩
      split
      · exact ⟨sm.advance entry, _, rfl, rfl, rfl, rfl, rfl⟩
      · next cmd _ =>
          split
          · exact ⟨sm.advance entry, _, rfl, rfl, rfl, rfl, rfl⟩
          · split
            · exact ⟨sm.advance entry, _, rfl, rfl, rfl, rfl, rfl⟩
            · next engine _ => exact ⟨sm.executed entry cmd engine, _, rfl, rfl, rfl, rfl, rfl⟩

end StateMachine

end RaftKV.Server
