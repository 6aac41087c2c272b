import RaftKV.Server.Replay

/-!
# What `apply` executes

On an open engine a put or delete cannot fail, so for every new entry `apply` does one
of two things: it executes the entry's command, which then reaches the engine, the
dedup table and the watchers, or it only moves `lastApplied` (the entry is malformed,
its operation is unknown, or the dedup table has its sequence number).  Nothing is
asked of the engine but that it is open.
-/

namespace RaftKV.Server

open RaftKV.Raft RaftKV.Storage

/-- The two operations that reach the engine. -/
def Command.isWrite (cmd : Command) : Bool :=
  match cmd.op with
  | .put => true
  | .delete => true
  | .unknown _ => false

namespace StateMachine

variable {codec : Codec} {sm : StateMachine} {entry : LogEntry}

/-- A command on an open engine. -/
theorem execute_open {engine : Engine} (hopen : engine.closed = false) (cmd : Command) :
    (cmd.isWrite = true ∧ ∃ engine', execute engine cmd = .ok engine' ∧ engine'.closed = false ∧
      cmd.write engine.contents = some engine'.contents) ∨
    (cmd.isWrite = false ∧ (∃ err, execute engine cmd = .error err) ∧
      cmd.write engine.contents = none) := by
  unfold Command.isWrite Command.write execute
  cases cmd.op with
  | put =>
      obtain ⟨engine', hput, hopen', hcontents⟩ := Engine.put_open hopen cmd.key cmd.value
      exact .inl ⟨rfl, engine', by rw [hput]; rfl, hopen', by rw [hcontents]⟩
  | delete =>
      obtain ⟨engine', hdelete, hopen', hcontents⟩ := Engine.delete_open hopen cmd.key
      exact .inl ⟨rfl, engine', by rw [hdelete]; rfl, hopen', by rw [hcontents]⟩
  | unknown op => exact .inr ⟨rfl, ⟨_, rfl⟩, rfl⟩

/-- What happens to a new entry. -/
theorem apply_new_cases (codec : Codec) (hopen : sm.engine.closed = false)
    (hnew : sm.lastApplied < entry.index) :
    (∃ cmd engine, codec.unmarshal entry.data = some cmd ∧ cmd.isWrite = true ∧
      isDuplicate sm.lastSeq cmd = false ∧ execute sm.engine cmd = .ok engine ∧
      engine.closed = false ∧ cmd.write sm.engine.contents = some engine.contents ∧
      sm.apply codec entry = (sm.executed entry cmd engine).notifyPending entry.index none) ∨
    ((∀ cmd, codec.unmarshal entry.data = some cmd →
        isDuplicate sm.lastSeq cmd = true ∨ cmd.isWrite = false ∧
          cmd.write sm.engine.contents = none) ∧
      ∃ result, sm.apply codec entry = (sm.advance entry).notifyPending entry.index result) := by
  unfold apply
  rw [if_neg hnew.not_ge]
  cases hcmd : codec.unmarshal entry.data with
  | none => exact .inr ⟨by simp, _, rfl⟩
  | some cmd =>
      simp only [Option.some.injEq, forall_eq']
      by_cases hdup : isDuplicate sm.lastSeq cmd = true
      · rw [if_pos hdup]
        exact .inr ⟨.inl hdup, _, rfl⟩
      rw [if_neg hdup]
      rcases execute_open hopen cmd with
        ⟨hwrite, engine, hok, hopen', hcontents⟩ | ⟨hwrite, ⟨err, herr⟩, hnone⟩
      · rw [hok]
        exact .inl ⟨cmd, engine, rfl, hwrite, by simpa using hdup, hok, hopen', hcontents, rfl⟩
      · rw [herr]
        exact .inr ⟨.inr ⟨hwrite, hnone⟩, _, rfl⟩

@[simp] theorem notifyPending_published (sm : StateMachine) (index : ℕ) (result : Result) :
    (sm.notifyPending index result).published = sm.published := by
  unfold notifyPending
  split <;> rfl

/-- An entry that was applied before. -/
theorem apply_old (codec : Codec) (hold : entry.index ≤ sm.lastApplied) :
    sm.apply codec entry = sm.notifyPending entry.index none :=
  if_pos hold

/-- A new entry does to a state machine what it does to the state of a log. -/
theorem apply_open (codec : Codec) (hopen : sm.engine.closed = false)
    (hnew : sm.lastApplied < entry.index) :
    (sm.apply codec entry).logState = sm.logState.apply codec entry ∧
      (sm.apply codec entry).engine.closed = false ∧
      (sm.apply codec entry).lastApplied = entry.index := by
  unfold LogState.apply
  rcases apply_new_cases codec hopen hnew with
    ⟨cmd, engine, hcmd, -, hdup, -, hopen', hcontents, heq⟩ | ⟨hskip, result, heq⟩
  · rw [heq, hcmd]
    simp only [notifyPending_engine, notifyPending_lastApplied]
    refine ⟨?_, hopen', rfl⟩
    unfold LogState.applyCommand
    have hstore : cmd.write sm.logState.store = some engine.contents := hcontents
    have hnot : ¬ isDuplicate sm.logState.lastSeq cmd = true := by
      rw [Bool.not_eq_true]
      exact hdup
    rw [if_neg hnot, hstore]
    simp [logState, executed]
  · rw [heq]
    simp only [notifyPending_engine, notifyPending_lastApplied]
    refine ⟨?_, hopen, rfl⟩
    have hsame : ((sm.advance entry).notifyPending entry.index result).logState = sm.logState := by
      simp [logState, advance]
    rw [hsame]
    cases hcmd : codec.unmarshal entry.data with
    | none => rfl
    | some cmd =>
        unfold LogState.applyCommand
        rcases hskip cmd hcmd with hdup | ⟨-, hnone⟩
        · exact (if_pos hdup).symm
        · simp only
          split
          · rfl
          · have hnone' : cmd.write sm.logState.store = none := hnone
            rw [hnone']

/-! ## Executions -/

/-- The command of an entry that `apply` executes: the one it hands to the watchers. -/
def execution (codec : Codec) (sm : StateMachine) (entry : LogEntry) : Option Command :=
  if (sm.apply codec entry).published = sm.published then none
  else codec.unmarshal entry.data

theorem execution_old (codec : Codec) (hold : entry.index ≤ sm.lastApplied) :
    sm.execution codec entry = none := by
  unfold execution
  rw [apply_old codec hold, notifyPending_published, if_pos rfl]

/-- A new entry is executed if it is a put or delete that the dedup table does not
have. -/
theorem execution_eq_some_iff (hopen : sm.engine.closed = false)
    (hnew : sm.lastApplied < entry.index) {cmd : Command} :
    sm.execution codec entry = some cmd ↔ codec.unmarshal entry.data = some cmd ∧
      cmd.isWrite = true ∧ isDuplicate sm.lastSeq cmd = false := by
  unfold execution
  rcases apply_new_cases codec hopen hnew with
    ⟨cmd', engine, hcmd, hwrite, hdup, -, -, -, heq⟩ | ⟨hskip, result, heq⟩
  · have hgrown : (sm.apply codec entry).published ≠ sm.published := by
      rw [heq, notifyPending_published]
      simp [executed]
    rw [if_neg hgrown, hcmd, Option.some.injEq]
    constructor
    · rintro rfl
      exact ⟨rfl, hwrite, hdup⟩
    · exact fun h => h.1
  · have hsame : (sm.apply codec entry).published = sm.published := by
      rw [heq, notifyPending_published]
      rfl
    rw [if_pos hsame]
    constructor
    · intro h
      cases h
    · rintro ⟨hcmd, hwrite, hdup⟩
      rcases hskip cmd hcmd with hdup' | ⟨hwrite', -⟩
      · rw [hdup] at hdup'
        cases hdup'
      · rw [hwrite] at hwrite'
        cases hwrite'

/-- What reaches the engine: the command that is executed, and nothing else. -/
theorem apply_engine (codec : Codec) (hopen : sm.engine.closed = false) (entry : LogEntry) :
    match sm.execution codec entry with
      | some cmd => execute sm.engine cmd = .ok (sm.apply codec entry).engine
      | none => (sm.apply codec entry).engine = sm.engine := by
  rcases Nat.lt_or_ge sm.lastApplied entry.index with hnew | hold
  · rcases apply_new_cases codec hopen hnew with
      ⟨cmd, engine, hcmd, hwrite, hdup, hok, -, -, heq⟩ | ⟨hskip, result, heq⟩
    · rw [(execution_eq_some_iff hopen hnew).mpr ⟨hcmd, hwrite, hdup⟩, heq, notifyPending_engine]
      exact hok
    · have hnone : sm.execution codec entry = none := by
        unfold execution
        rw [heq, notifyPending_published]
        exact if_pos rfl
      rw [hnone, heq, notifyPending_engine]
      rfl
  · rw [execution_old codec hold, apply_old codec hold, notifyPending_engine]

/-- The dedup table behind an entry. -/
theorem apply_lastSeq (codec : Codec) (hopen : sm.engine.closed = false) (entry : LogEntry) :
    (sm.apply codec entry).lastSeq = match sm.execution codec entry with
      | some cmd => recordSeq sm.lastSeq cmd
      | none => sm.lastSeq := by
  rcases Nat.lt_or_ge sm.lastApplied entry.index with hnew | hold
  · rcases apply_new_cases codec hopen hnew with
      ⟨cmd, engine, hcmd, hwrite, hdup, -, -, -, heq⟩ | ⟨hskip, result, heq⟩
    · rw [(execution_eq_some_iff hopen hnew).mpr ⟨hcmd, hwrite, hdup⟩, heq, notifyPending_lastSeq]
      rfl
    · have hnone : sm.execution codec entry = none := by
        unfold execution
        rw [heq, notifyPending_published]
        exact if_pos rfl
      rw [hnone, heq, notifyPending_lastSeq]
      rfl
  · rw [execution_old codec hold, apply_old codec hold, notifyPending_lastSeq]

/-- The engine stays open. -/
theorem apply_isOpen (codec : Codec) (hopen : sm.engine.closed = false) (entry : LogEntry) :
    (sm.apply codec entry).engine.closed = false := by
  rcases Nat.lt_or_ge sm.lastApplied entry.index with hnew | hold
  · exact (apply_open codec hopen hnew).2.1
  · rw [apply_old codec hold, notifyPending_engine]
    exact hopen

/-! ## Sequences of entries -/

/-- The machine behind a sequence of entries. -/
def applyAll (codec : Codec) (sm : StateMachine) (entries : List LogEntry) : StateMachine :=
  entries.foldl (apply codec) sm

theorem applyAll_isOpen (codec : Codec) (hopen : sm.engine.closed = false)
    (entries : List LogEntry) : (sm.applyAll codec entries).engine.closed = false := by
  induction entries generalizing sm with
  | nil => exact hopen
  | cons entry rest ih => exact ih (apply_isOpen codec hopen entry)

theorem applyAll_concat (codec : Codec) (sm : StateMachine) (entries : List LogEntry)
    (entry : LogEntry) :
    sm.applyAll codec (entries ++ [entry]) = (sm.applyAll codec entries).apply codec entry := by
  unfold applyAll
  rw [List.foldl_concat]

/-- The command executed for the entry at a position. -/
def executedAt (codec : Codec) (sm : StateMachine) (entries : List LogEntry) (i : ℕ) :
    Option Command :=
  entries[i]?.bind fun entry => (sm.applyAll codec (entries.take i)).execution codec entry

/-- What reaches the engine at a position. -/
theorem executedAt_engine (codec : Codec) (hopen : sm.engine.closed = false)
    (entries : List LogEntry) (i : ℕ) :
    match sm.executedAt codec entries i with
      | some cmd => execute (sm.applyAll codec (entries.take i)).engine cmd =
          .ok (sm.applyAll codec (entries.take (i + 1))).engine
      | none => (sm.applyAll codec (entries.take (i + 1))).engine =
          (sm.applyAll codec (entries.take i)).engine := by
  unfold executedAt
  rw [List.take_add_one]
  cases entries[i]? with
  | none =>
      rw [Option.toList_none, List.append_nil]
      rfl
  | some entry =>
      rw [Option.toList_some, applyAll_concat]
      exact apply_engine codec (applyAll_isOpen codec hopen _) entry

end StateMachine

end RaftKV.Server
