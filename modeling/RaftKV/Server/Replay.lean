import RaftKV.History
import RaftKV.Server.StateMachine
import RaftKV.Storage.Operations

/-!
# The committed log and the machines that follow it

What a committed log means: a map and a dedup table, built by its entries in order
(`CommittedLog.stateAt`).  A state machine over a sound engine computes exactly that
(`StateMachine.logState_apply`).

A machine that was restarted or that loaded a snapshot does not have the state of the
log at any index.  Its map may be ahead for some keys, since the engine was flushed
after the index from which entries are delivered again, and its dedup table has lost
what lies below that index.  `Lags` says how far this may go, and that delivering the
next entry makes up for it; the one danger is an entry that only the lost part of the
table would have skipped (`NoRetryAfter`).
-/

namespace RaftKV.Server

open RaftKV.Raft RaftKV.Storage

/-! ## The meaning of a log -/

/-- The effect of a command on a map. -/
def Command.write (cmd : Command) (store : Store) : Option Store :=
  match cmd.op with
  | .put => some (store.put cmd.key cmd.value)
  | .delete => some (store.delete cmd.key)
  | .unknown _ => none

theorem Command.write_eq_none_iff {cmd : Command} {store : Store} :
    cmd.write store = none ↔ ∀ view, cmd.write view = none := by
  unfold Command.write
  split <;> simp

/-- A write sets one key to a value that does not depend on the map. -/
theorem Command.write_apply {cmd : Command} {store store' : Store}
    (hwrite : cmd.write store = some store') (view : Store) :
    ∃ view', cmd.write view = some view' ∧ view' cmd.key = store' cmd.key ∧
      ∀ key, key ≠ cmd.key → view' key = view key ∧ store' key = store key := by
  unfold Command.write at hwrite ⊢
  split at hwrite
  · rw [Option.some.injEq] at hwrite
    subst hwrite
    refine ⟨_, rfl, ?_, fun key hkey => ⟨?_, ?_⟩⟩
    · simp [Store.put]
    · exact Function.update_of_ne hkey _ _
    · exact Function.update_of_ne hkey _ _
  · rw [Option.some.injEq] at hwrite
    subst hwrite
    refine ⟨_, rfl, ?_, fun key hkey => ⟨?_, ?_⟩⟩
    · simp [Store.delete]
    · exact Function.update_of_ne hkey _ _
    · exact Function.update_of_ne hkey _ _
  · simp at hwrite

/-- What the entries of a log have built. -/
structure LogState where
  store : Store
  lastSeq : GoMap String ℕ

namespace LogState

def empty : LogState where
  store := Store.empty
  lastSeq := ∅

def applyCommand (st : LogState) (cmd : Command) : LogState :=
  if StateMachine.isDuplicate st.lastSeq cmd then st
  else
    match cmd.write st.store with
    | none => st
    | some store => ⟨store, StateMachine.recordSeq st.lastSeq cmd⟩

def apply (codec : Codec) (st : LogState) (entry : LogEntry) : LogState :=
  match codec.unmarshal entry.data with
  | none => st
  | some cmd => st.applyCommand cmd

end LogState

/-- The entries that a cluster has committed, from index 1. -/
structure CommittedLog where
  entries : List LogEntry
  indexed : ∀ (i : ℕ) (h : i < entries.length), entries[i].index = i + 1

namespace CommittedLog

variable (codec : Codec) (log : CommittedLog)

def stateAt (index : ℕ) : LogState :=
  (log.entries.take index).foldl (LogState.apply codec) LogState.empty

/-- The map after each entry. -/
def storeAt (index : ℕ) : Store :=
  (log.stateAt codec index).store

/-- Every command is one that the engine's file formats can hold. -/
def Fits : Prop :=
  ∀ entry ∈ log.entries, ∀ cmd ∈ codec.unmarshal entry.data,
    cmd.key.length < 2 ^ 32 ∧ cmd.value.length < 2 ^ 32

/-- Nothing above `base` is skipped for what was applied up to `base`. -/
def NoRetryAfter (base : ℕ) : Prop :=
  ∀ entry ∈ log.entries.drop base, ∀ cmd ∈ codec.unmarshal entry.data,
    StateMachine.isDuplicate (log.stateAt codec base).lastSeq cmd = false

instance : Decidable (log.Fits codec) :=
  inferInstanceAs (Decidable (∀ entry ∈ log.entries, ∀ cmd ∈ codec.unmarshal entry.data, _))

instance (base : ℕ) : Decidable (log.NoRetryAfter codec base) :=
  inferInstanceAs
    (Decidable (∀ entry ∈ log.entries.drop base, ∀ cmd ∈ codec.unmarshal entry.data, _))

variable {codec log} {entry : LogEntry} {index : ℕ}

theorem stateAt_succ (hentry : log.entries[index]? = some entry) :
    log.stateAt codec (index + 1) = (log.stateAt codec index).apply codec entry := by
  unfold stateAt
  rw [List.take_add_one, hentry, Option.toList_some, List.foldl_concat]

theorem index_eq (hentry : log.entries[index]? = some entry) : entry.index = index + 1 := by
  obtain ⟨hlt, rfl⟩ := List.getElem?_eq_some_iff.mp hentry
  exact log.indexed index hlt

/-- Before the first entry there is nothing to lose. -/
theorem noRetryAfter_zero : log.NoRetryAfter codec 0 := by
  intro entry _ cmd _
  simp [stateAt, LogState.empty, StateMachine.isDuplicate]

end CommittedLog

/-! ## Dedup tables -/

/-- A table that was emptied when the full one was `base`: it knows what a client has
done since, and nothing of clients that have done nothing since. -/
def Tracks (base full table : GoMap String ℕ) : Prop :=
  ∀ client, table.lookup client = full.lookup client ∨
    table.lookup client = none ∧ full.lookup client = base.lookup client

namespace Tracks

variable {base full table : GoMap String ℕ} {cmd : Command}

theorem emptied (base : GoMap String ℕ) : Tracks base base ∅ :=
  fun _ => .inr ⟨rfl, rfl⟩

theorem refl (base table : GoMap String ℕ) : Tracks base table table :=
  fun _ => .inl rfl

theorem isDuplicate_eq (h : Tracks base full table)
    (hnew : StateMachine.isDuplicate base cmd = false) :
    StateMachine.isDuplicate table cmd = StateMachine.isDuplicate full cmd := by
  rcases h cmd.clientId with heq | ⟨hnone, hbase⟩
  · simp only [StateMachine.isDuplicate, heq]
  · -- the machine has forgotten this client, so the full table must not skip the command
    have hfull : StateMachine.isDuplicate full cmd = false := by
      rw [← hnew]
      simp only [StateMachine.isDuplicate, hbase]
    rw [hfull]
    simp [StateMachine.isDuplicate, hnone]

theorem recordSeq (h : Tracks base full table) (cmd : Command) :
    Tracks base (StateMachine.recordSeq full cmd) (StateMachine.recordSeq table cmd) := by
  unfold StateMachine.recordSeq
  split
  · intro client
    by_cases hclient : client = cmd.clientId
    · subst hclient
      rw [AList.lookup_insert, AList.lookup_insert]
      exact .inl rfl
    · rw [AList.lookup_insert_ne hclient, AList.lookup_insert_ne hclient]
      exact h client
  · exact h

end Tracks

/-! ## Catching up with a log -/

/-- A state from which the entries above `delivered` lead to the state of the log. -/
structure LogState.Lags (codec : Codec) (log : CommittedLog) (delivered ahead : ℕ)
    (st : LogState) : Prop where
  store : Within (log.storeAt codec) delivered ahead st.store
  lastSeq : ∃ base ≤ delivered, log.NoRetryAfter codec base ∧
    Tracks (log.stateAt codec base).lastSeq (log.stateAt codec delivered).lastSeq st.lastSeq

namespace LogState.Lags

variable {codec : Codec} {log : CommittedLog} {delivered ahead ahead' : ℕ} {st : LogState}

theorem empty : LogState.empty.Lags codec log 0 0 where
  store := Within.refl (log.storeAt codec) 0
  lastSeq := ⟨0, le_rfl, CommittedLog.noRetryAfter_zero, Tracks.refl _ _⟩

/-- A machine that starts with an empty table. -/
theorem restarted {store : Store} (hstore : Within (log.storeAt codec) delivered ahead store)
    (hretry : log.NoRetryAfter codec delivered) :
    (⟨store, ∅⟩ : LogState).Lags codec log delivered ahead where
  store := hstore
  lastSeq := ⟨delivered, le_rfl, hretry, Tracks.emptied _⟩

theorem mono (h : st.Lags codec log delivered ahead) (hle : ahead ≤ ahead') :
    st.Lags codec log delivered ahead' where
  store := h.store.mono le_rfl hle
  lastSeq := h.lastSeq

/-- A machine that is not ahead anywhere has the map of the log. -/
theorem store_eq (h : st.Lags codec log delivered delivered) :
    st.store = log.storeAt codec delivered :=
  h.store.eq

/-- An entry that leaves the log's state as it is. -/
theorem unchanged (h : st.Lags codec log delivered ahead)
    (hsame : log.stateAt codec (delivered + 1) = log.stateAt codec delivered) :
    st.Lags codec log (delivered + 1) (max ahead (delivered + 1)) where
  store := h.store.advance fun key => .inr ⟨rfl, by rw [CommittedLog.storeAt, hsame]; rfl⟩
  lastSeq := by
    obtain ⟨base, hbase, hretry, htracks⟩ := h.lastSeq
    exact ⟨base, hbase.trans (Nat.le_succ _), hretry, hsame ▸ htracks⟩

/-- A command that is executed on both sides, or on neither. -/
theorem applyCommand (h : st.Lags codec log delivered ahead) {cmd : Command}
    (hsucc : log.stateAt codec (delivered + 1) =
      (log.stateAt codec delivered).applyCommand cmd)
    (hnew : ∀ base ≤ delivered, log.NoRetryAfter codec base →
      StateMachine.isDuplicate (log.stateAt codec base).lastSeq cmd = false) :
    (st.applyCommand cmd).Lags codec log (delivered + 1) (max ahead (delivered + 1)) := by
  obtain ⟨base, hbase, hretry, htracks⟩ := h.lastSeq
  have hdup := htracks.isDuplicate_eq (hnew base hbase hretry)
  unfold LogState.applyCommand at hsucc ⊢
  rw [hdup]
  split at hsucc
  · next hskip =>
      rw [if_pos hskip]
      exact h.unchanged hsucc
  · next hexec =>
      rw [if_neg hexec]
      split at hsucc
      · next hnone =>
          rw [Command.write_eq_none_iff.mp hnone st.store]
          exact h.unchanged hsucc
      · next store' hsome =>
          obtain ⟨view', hview, hkey, hother⟩ := Command.write_apply hsome st.store
          rw [hview]
          refine ⟨h.store.advance fun key => ?_, base, hbase.trans (Nat.le_succ _), hretry, ?_⟩
          · rw [CommittedLog.storeAt, hsucc]
            by_cases heq : key = cmd.key
            · subst heq
              exact .inl hkey
            · exact .inr (hother key heq)
          · rw [hsucc]
            exact htracks.recordSeq cmd

/-- Delivering the next entry. -/
theorem apply (h : st.Lags codec log delivered ahead) {entry : LogEntry}
    (hentry : log.entries[delivered]? = some entry) :
    (st.apply codec entry).Lags codec log (delivered + 1) (max ahead (delivered + 1)) := by
  have hsucc : log.stateAt codec (delivered + 1) = _ := CommittedLog.stateAt_succ hentry
  unfold LogState.apply at hsucc ⊢
  cases hcmd : codec.unmarshal entry.data with
  | none =>
      rw [hcmd] at hsucc
      exact h.unchanged hsucc
  | some cmd =>
      rw [hcmd] at hsucc
      refine h.applyCommand hsucc fun base hbase hretry => ?_
      refine hretry entry ?_ cmd hcmd
      -- the entry stands above every point the table may have been emptied at
      refine List.mem_of_getElem? (i := delivered - base) ?_
      rw [List.getElem?_drop, Nat.add_sub_cancel' hbase, hentry]

end LogState.Lags

/-! ## State machines -/

namespace StateMachine

variable {codec : Codec} {sm : StateMachine}

/-- What a state machine stands for. -/
def logState (sm : StateMachine) : LogState where
  store := sm.engine.contents
  lastSeq := sm.lastSeq

@[simp] theorem notifyPending_engine (sm : StateMachine) (index : ℕ) (result : Result) :
    (sm.notifyPending index result).engine = sm.engine := by
  unfold notifyPending
  split <;> rfl

@[simp] theorem notifyPending_lastSeq (sm : StateMachine) (index : ℕ) (result : Result) :
    (sm.notifyPending index result).lastSeq = sm.lastSeq := by
  unfold notifyPending
  split <;> rfl

@[simp] theorem notifyPending_lastApplied (sm : StateMachine) (index : ℕ) (result : Result) :
    (sm.notifyPending index result).lastApplied = sm.lastApplied := by
  unfold notifyPending
  split <;> rfl

@[simp] theorem notifyPending_applied (sm : StateMachine) (index : ℕ) (result : Result) :
    (sm.notifyPending index result).applied = sm.applied := by
  unfold notifyPending
  split <;> rfl

/-- On a sound engine a command does to the contents what it does to a map. -/
theorem execute_cases {engine : Engine} (h : engine.Sound) {cmd : Command}
    (hfits : cmd.key.length < 2 ^ 32 ∧ cmd.value.length < 2 ^ 32) :
    cmd.write engine.contents = none ∧ (∃ err, execute engine cmd = .error err) ∨
      ∃ engine', execute engine cmd = .ok engine' ∧ engine'.Sound ∧
        cmd.write engine.contents = some engine'.contents ∧ engine'.onDisk = engine.onDisk := by
  unfold Command.write execute
  cases cmd.op with
  | put =>
      obtain ⟨engine', hput, hsound, hcontents⟩ := h.put hfits
      refine .inr ⟨engine', ?_, hsound, ?_, Engine.onDisk_put hput⟩
      · rw [hput]
        rfl
      · rw [hcontents]
  | delete =>
      obtain ⟨engine', hdelete, hsound, hcontents⟩ := h.delete hfits.1
      refine .inr ⟨engine', ?_, hsound, ?_, Engine.onDisk_delete hdelete⟩
      · rw [hdelete]
        rfl
      · rw [hcontents]
  | unknown op => exact .inl ⟨rfl, _, rfl⟩

/-- A new entry does to a state machine what it does to the state of a log. -/
theorem apply_spec (h : sm.engine.Sound) {entry : LogEntry}
    (hnew : sm.lastApplied < entry.index)
    (hfits : ∀ cmd ∈ codec.unmarshal entry.data,
      cmd.key.length < 2 ^ 32 ∧ cmd.value.length < 2 ^ 32) :
    (sm.apply codec entry).logState = sm.logState.apply codec entry ∧
      (sm.apply codec entry).engine.Sound ∧
      (sm.apply codec entry).engine.onDisk = sm.engine.onDisk ∧
      (sm.apply codec entry).lastApplied = entry.index := by
  unfold apply LogState.apply
  rw [if_neg hnew.not_ge]
  cases hcmd : codec.unmarshal entry.data with
  | none => simp [logState, advance, h]
  | some cmd =>
      unfold LogState.applyCommand
      by_cases hdup : isDuplicate sm.lastSeq cmd
      · simp [logState, advance, h, hdup]
      · rcases execute_cases h (hfits cmd hcmd) with
          ⟨hnone, err, herr⟩ | ⟨engine, hok, hsound, hsome, hdisk⟩
        · simp [logState, advance, h, hdup, herr, hnone]
        · simp [logState, executed, advance, hdup, hok, hsome, hsound, hdisk]

/-- A machine that the entries above `delivered` bring to the state of the log. -/
structure Follows (codec : Codec) (log : CommittedLog) (delivered ahead : ℕ)
    (sm : StateMachine) : Prop where
  sound : sm.engine.Sound
  lags : sm.logState.Lags codec log delivered ahead
  lastApplied_le : sm.lastApplied ≤ delivered

namespace Follows

variable {log : CommittedLog} {delivered ahead ahead' index : ℕ} {sm' : StateMachine}

theorem fresh (snapshotInterval : ℕ) :
    (StateMachine.new Engine.fresh snapshotInterval).Follows codec log 0 0 where
  sound := Engine.sound_fresh
  lags := LogState.Lags.empty
  lastApplied_le := le_rfl

/-- Nothing else of a state machine matters. -/
theorem congr (h : sm.Follows codec log delivered ahead) (hsound : sm'.engine.Sound)
    (hcontents : sm'.engine.contents = sm.engine.contents) (hseq : sm'.lastSeq = sm.lastSeq)
    (hlast : sm'.lastApplied = sm.lastApplied) : sm'.Follows codec log delivered ahead where
  sound := hsound
  lags := by
    rw [logState, hcontents, hseq]
    exact h.lags
  lastApplied_le := hlast ▸ h.lastApplied_le

theorem mono (h : sm.Follows codec log delivered ahead) (hle : ahead ≤ ahead') :
    sm.Follows codec log delivered ahead' :=
  ⟨h.sound, h.lags.mono hle, h.lastApplied_le⟩

/-- A machine opened on an engine that has the effect of every entry up to `delivered`. -/
theorem restarted {engine : Engine} (hsound : engine.Sound)
    (hcontents : Within (log.storeAt codec) delivered ahead engine.contents)
    (hretry : log.NoRetryAfter codec delivered) (snapshotInterval : ℕ) :
    (StateMachine.new engine snapshotInterval).Follows codec log delivered ahead where
  sound := hsound
  lags := .restarted hcontents hretry
  lastApplied_le := Nat.zero_le _

/-- The next entry is applied. -/
theorem dispatch (h : sm.Follows codec log delivered ahead) (hlog : log.Fits codec)
    {entry : LogEntry} (hentry : log.entries[delivered]? = some entry) :
    (sm.dispatch codec (.command entry)).Follows codec log (delivered + 1)
        (max ahead (delivered + 1)) ∧
      (sm.dispatch codec (.command entry)).engine.onDisk = sm.engine.onDisk ∧
      (sm.dispatch codec (.command entry)).lastApplied = delivered + 1 := by
  have hindex := CommittedLog.index_eq hentry
  have hnew : sm.lastApplied < entry.index := by
    rw [hindex]
    exact Nat.lt_succ_of_le h.lastApplied_le
  obtain ⟨hstate, hsound, hdisk, hlast⟩ :=
    apply_spec h.sound hnew (hlog entry (List.mem_of_getElem? hentry))
  refine ⟨⟨hsound, ?_, (hlast.trans hindex).le⟩, hdisk, hlast.trans hindex⟩
  change (sm.apply codec entry).logState.Lags codec log _ _
  rw [hstate]
  exact h.lags.apply hentry

/-- A snapshot is installed that holds the map of the log at `index`, or parts of later
ones. -/
theorem applySnapshot (h : sm.Follows codec log delivered ahead)
    {entries : List MemEntry} (hentries : SnapshotEntries entries)
    (hwithin : Within (log.storeAt codec) index ahead' (visible [entries]))
    (hretry : log.NoRetryAfter codec index) (hnew : sm.lastApplied < index)
    (hw : (sm.applySnapshot (encodeSnapshot entries) index).engine.Writable) :
    (sm.applySnapshot (encodeSnapshot entries) index).Follows codec log index ahead' ∧
      (sm.applySnapshot (encodeSnapshot entries) index).engine.onDisk = visible [entries] ∧
      (sm.applySnapshot (encodeSnapshot entries) index).lastApplied = index := by
  obtain ⟨engine, hload, hspec⟩ := h.sound.loadSnapshot hentries
  unfold StateMachine.applySnapshot at hw ⊢
  rw [if_neg hnew.not_ge] at hw ⊢
  simp only [hload] at hw ⊢
  obtain ⟨hsound, hcontents, hdisk⟩ := hspec hw
  refine ⟨⟨hsound, ?_, le_rfl⟩, hdisk, trivial⟩
  exact .restarted (hcontents ▸ hwithin) hretry

theorem rotateAndFlush (h : sm.Follows codec log delivered ahead)
    (hw : sm.engine.rotateAndFlush.Writable) :
    { sm with engine := sm.engine.rotateAndFlush }.Follows codec log delivered ahead :=
  h.congr (h.sound.rotateAndFlush hw).1 (h.sound.rotateAndFlush hw).2 rfl rfl

theorem doCompaction (h : sm.Follows codec log delivered ahead)
    (hw : sm.engine.doCompaction.Writable) :
    { sm with engine := sm.engine.doCompaction }.Follows codec log delivered ahead :=
  h.congr (h.sound.doCompaction hw).1 (h.sound.doCompaction hw).2.1 rfl rfl

/-- All entries above `delivered` are applied. -/
theorem redeliver (h : sm.Follows codec log delivered ahead) (hlog : log.Fits codec)
    (hahead : ahead ≤ log.entries.length) (hle : delivered ≤ log.entries.length) :
    ((log.entries.drop delivered).foldl (fun sm entry => sm.dispatch codec (.command entry))
      sm).engine.contents = log.storeAt codec log.entries.length := by
  induction hrest : log.entries.drop delivered generalizing sm delivered ahead with
  | nil =>
      have hall : delivered = log.entries.length :=
        le_antisymm hle (List.drop_eq_nil_iff.mp hrest)
      subst hall
      exact (h.mono hahead).lags.store_eq
  | cons entry rest ih =>
      have hentry : log.entries[delivered]? = some entry := by
        rw [← List.head?_drop, hrest, List.head?_cons]
      have hlt : delivered < log.entries.length := (List.getElem?_eq_some_iff.mp hentry).1
      have htail : log.entries.drop (delivered + 1) = rest := by
        rw [← List.drop_drop, hrest, List.drop_one, List.tail_cons]
      exact ih (h.dispatch hlog hentry).1 (max_le hahead hlt) hlt htail

end Follows

end StateMachine

end RaftKV.Server
