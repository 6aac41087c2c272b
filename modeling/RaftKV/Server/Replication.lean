import RaftKV.Server.LeaderRead

/-!
# Replicated servers

A cluster of servers as `NewKVServer` wires them: no snapshots are taken, so a process
that restarts has the whole log delivered again, over whatever the engine had flushed.
Members may fail over, messages may be lost and repeated, engines may flush and compact,
each time alone and to the end, and processes may restart, in any order.

* **One server.**  Its dedup table is what the entries it has applied build from nothing,
  and so is its map, as soon as it has applied all that its node has ever delivered
  (`server_replays_applied`).  In between the map may be ahead for some keys, which is
  what `Within` is about.
* **Two servers.**  What they have applied, at one time or at two, is the one a beginning
  of the other, so that servers at the same index have the same state
  (`replicas_agree`) and have told their watchers the same (`change_feeds_agree`).
* **Order.**  An entry that any server has applied before a write is proposed stands in
  front of that write, if the write is ever applied (`writes_in_real_time`).

The first is an invariant of one state machine under the steps of `Advances`, the second
follows because the cluster delivers one entry for an index.
-/

namespace RaftKV.Raft

/-- The entry that was sent on `ApplyCh`, if the event is that. -/
def Event.delivery : Event → Option LogEntry
  | .applied (.command e) => some e
  | _ => none

end RaftKV.Raft

namespace RaftKV.Server

open RaftKV.Raft RaftKV.Storage Function

namespace LogState

/-- What entries build from nothing. -/
def replay (codec : Codec) (entries : List LogEntry) : LogState :=
  entries.foldl (LogState.apply codec) LogState.empty

/-- What an entry has to tell watchers: a put or delete that is no retry. -/
def change (codec : Codec) (st : LogState) (entry : LogEntry) : Option ChangeEvent :=
  match codec.unmarshal entry.data with
  | none => none
  | some cmd =>
      if StateMachine.isDuplicate st.lastSeq cmd || !cmd.isWrite then none
      else some ⟨entry.index, entry.term, cmd.op, cmd.key, cmd.value⟩

/-- What entries have to tell, one after the other. -/
def changes (codec : Codec) (st : LogState) : List LogEntry → List ChangeEvent
  | [] => []
  | entry :: rest => (st.change codec entry).toList ++ (st.apply codec entry).changes codec rest

theorem change_congr {codec : Codec} {st st' : LogState} (h : st.lastSeq = st'.lastSeq)
    (entry : LogEntry) : st.change codec entry = st'.change codec entry := by
  unfold change
  rw [h]

theorem changes_append (codec : Codec) (st : LogState) (front back : List LogEntry) :
    st.changes codec (front ++ back) =
      st.changes codec front ++ (front.foldl (LogState.apply codec) st).changes codec back := by
  induction front generalizing st with
  | nil => rfl
  | cons entry front ih =>
      rw [List.cons_append, changes, changes, ih, List.append_assoc, List.foldl_cons]

theorem changes_take (codec : Codec) (st : LogState) (entries : List LogEntry) (index : ℕ) :
    st.changes codec (entries.take index) <+: st.changes codec entries := by
  have hsplit := changes_append codec st (entries.take index) (entries.drop index)
  rw [List.take_append_drop] at hsplit
  exact hsplit ▸ List.prefix_append _ _

end LogState

namespace CommittedLog

variable {codec : Codec} {log : CommittedLog} {entry : LogEntry}

/-- The log with its next entry. -/
def snoc (log : CommittedLog) (entry : LogEntry) (next : entry.index = log.entries.length + 1) :
    CommittedLog where
  entries := log.entries ++ [entry]
  indexed i hi := by
    rw [List.length_append, List.length_singleton] at hi
    by_cases hold : i < log.entries.length
    · rw [List.getElem_append_left hold]
      exact log.indexed i hold
    · obtain rfl : i = log.entries.length := by omega
      rw [List.getElem_append_right le_rfl]
      simpa using next

theorem stateAt_snoc (codec : Codec) (next : entry.index = log.entries.length + 1) {index : ℕ}
    (hle : index ≤ log.entries.length) :
    (log.snoc entry next).stateAt codec index = log.stateAt codec index := by
  unfold stateAt
  rw [snoc, List.take_append_of_le_length hle]

theorem Fits.snoc (h : log.Fits codec) (next : entry.index = log.entries.length + 1)
    (hentry : ∀ cmd ∈ codec.unmarshal entry.data, cmd.Fits) :
    (log.snoc entry next).Fits codec := by
  intro e he
  rcases List.mem_append.mp he with hold | hnew
  · exact h e hold
  · rw [List.mem_singleton.mp hnew]
    exact hentry

/-- Its first entries have the first indices. -/
theorem map_index_take (log : CommittedLog) {index : ℕ} (hle : index ≤ log.entries.length) :
    (log.entries.take index).map LogEntry.index = List.range' 1 index := by
  refine List.ext_getElem (by simpa using hle) fun i hi _ => ?_
  rw [List.getElem_map, List.getElem_take, log.indexed, List.getElem_range']
  omega

end CommittedLog

/-! ## One server -/

namespace StateMachine

variable {codec : Codec} {events events' : List Raft.Event} {log : CommittedLog}
  {sm sm' : StateMachine} {entry : LogEntry}

/-- What can happen to a state machine whose node has these messages on `ApplyCh`. -/
inductive Advances (codec : Codec) (queue : List ApplyMsg) (sm : StateMachine) :
    StateMachine → Prop
  | wait (pending : GoMap ℕ PendingWrite) : Advances codec queue sm { sm with pending := pending }
  | apply {entry : LogEntry} (next : entry.index = sm.lastApplied + 1)
      (queued : .command entry ∈ queue) :
      Advances codec queue sm (sm.dispatch codec (.command entry))
  | restart {sm' : StateMachine} (started : sm.restart = .ok sm') : Advances codec queue sm sm'
  | flush (writable : sm.engine.rotateAndFlush.Writable) :
      Advances codec queue sm { sm with engine := sm.engine.rotateAndFlush }
  | compact (writable : sm.engine.doCompaction.Writable) :
      Advances codec queue sm { sm with engine := sm.engine.doCompaction }

/-- A new entry is published if it has something to tell. -/
theorem apply_published (codec : Codec) (hopen : sm.engine.closed = false)
    (hnew : sm.lastApplied < entry.index) :
    (sm.apply codec entry).published =
      sm.published ++ (sm.logState.change codec entry).toList := by
  rcases apply_new_cases codec hopen hnew with
    ⟨cmd, engine, hcmd, hwrite, hdup, -, -, -, heq⟩ | ⟨hskip, result, heq⟩
  · have hchange : sm.logState.change codec entry =
        some ⟨entry.index, entry.term, cmd.op, cmd.key, cmd.value⟩ := by
      simp [LogState.change, hcmd, logState, hdup, hwrite]
    rw [heq, notifyPending_published, hchange]
    rfl
  · have hchange : sm.logState.change codec entry = none := by
      unfold LogState.change
      cases hcmd : codec.unmarshal entry.data with
      | none => rfl
      | some cmd =>
          rcases hskip cmd hcmd with hdup | ⟨hwrite, -⟩
          · simp [logState, hdup]
          · simp [hwrite]
    rw [heq, notifyPending_published, hchange]
    exact (List.append_nil _).symm

theorem Advances.refl (codec : Codec) (queue : List ApplyMsg) (sm : StateMachine) :
    sm.Advances codec queue sm :=
  .wait sm.pending

/-- What was applied stays so, or the next entry of `ApplyCh` is put behind it, or all is
to be applied again. -/
theorem Advances.applied_cases {queue : List ApplyMsg} (h : sm.Advances codec queue sm') :
    sm'.applied = sm.applied ∧ sm'.lastApplied = sm.lastApplied ∨
      (∃ entry, entry.index = sm.lastApplied + 1 ∧ .command entry ∈ queue ∧
        sm'.applied = sm.applied ++ [entry] ∧ sm'.lastApplied = sm.lastApplied + 1) ∨
      sm'.applied = [] ∧ sm'.lastApplied = 0 := by
  cases h with
  | wait pending => exact .inl ⟨rfl, rfl⟩
  | @apply entry next queued =>
      have hnew : sm.lastApplied < entry.index := by omega
      obtain ⟨happlied, hlast⟩ := apply_new codec hnew
      exact .inr (.inl ⟨entry, next, queued, happlied, hlast.trans next⟩)
  | restart started =>
      unfold StateMachine.restart at started
      split at started
      · cases started
      · rw [← Except.ok.inj started]
        exact .inr (.inr ⟨rfl, rfl⟩)
  | flush writable => exact .inl ⟨rfl, rfl⟩
  | compact writable => exact .inl ⟨rfl, rfl⟩

/-- A machine and the longest log that its server has ever applied: the machine has the
first entries of it behind it, and its files may hold effects of any of them. -/
structure Replays (codec : Codec) (events : List Raft.Event) (log : CommittedLog)
    (sm : StateMachine) : Prop where
  sound : sm.engine.Sound
  fits : log.Fits codec
  sent : ∀ e ∈ log.entries, .applied (.command e) ∈ events
  lastApplied_le : sm.lastApplied ≤ log.entries.length
  applied : sm.applied = log.entries.take sm.lastApplied
  published : sm.published = LogState.empty.changes codec sm.applied
  lastSeq : sm.lastSeq = (log.stateAt codec sm.lastApplied).lastSeq
  store : Within (log.storeAt codec) sm.lastApplied log.entries.length sm.engine.contents
  disk : Within (log.storeAt codec) 0 log.entries.length sm.engine.onDisk

namespace Replays

theorem fresh (codec : Codec) (events : List Raft.Event) (snapshotInterval : ℕ) :
    (StateMachine.new .fresh snapshotInterval).Replays codec events ⟨[], by simp⟩ where
  sound := Engine.sound_fresh
  fits _ he := absurd he List.not_mem_nil
  sent _ he := absurd he List.not_mem_nil
  lastApplied_le := le_rfl
  applied := rfl
  published := rfl
  lastSeq := rfl
  store := Within.refl _ 0
  disk := Within.refl _ 0

theorem mono (h : sm.Replays codec events log) (hsub : ∀ e ∈ events, e ∈ events') :
    sm.Replays codec events' log :=
  { h with sent := fun e he => hsub _ (h.sent e he) }

/-- The engine has been at work. -/
theorem maintain (h : sm.Replays codec events log) {engine : Engine} (hsound : engine.Sound)
    (hcontents : engine.contents = sm.engine.contents)
    (hdisk : engine.onDisk = sm.engine.onDisk ∨ engine.onDisk = sm.engine.contents) :
    { sm with engine := engine }.Replays codec events log where
  sound := hsound
  fits := h.fits
  sent := h.sent
  lastApplied_le := h.lastApplied_le
  applied := h.applied
  published := h.published
  lastSeq := h.lastSeq
  store := hcontents ▸ h.store
  disk := by
    rcases hdisk with heq | heq
    · exact heq ▸ h.disk
    · exact heq ▸ h.store.mono (Nat.zero_le _) le_rfl

theorem flush (h : sm.Replays codec events log)
    (hw : sm.engine.rotateAndFlush.Writable) :
    { sm with engine := sm.engine.rotateAndFlush }.Replays codec events log := by
  obtain ⟨hsound, hcontents⟩ := h.sound.rotateAndFlush hw
  refine h.maintain hsound hcontents ?_
  by_cases hskip : sm.engine.immutable = none
  · exact .inr (h.sound.onDisk_rotateAndFlush hskip hw)
  · -- the worker comes back without having done anything
    refine .inl (congrArg Engine.onDisk ?_)
    rw [Engine.rotateAndFlush, if_pos]
    exact Option.isSome_iff_ne_none.mpr hskip

theorem compact (h : sm.Replays codec events log) (hw : sm.engine.doCompaction.Writable) :
    { sm with engine := sm.engine.doCompaction }.Replays codec events log := by
  obtain ⟨hsound, hcontents, hdisk⟩ := h.sound.doCompaction hw
  exact h.maintain hsound hcontents (.inl hdisk)

/-- A new process has nothing but the files, and starts from the first entry. -/
theorem restart (h : sm.Replays codec events log) (hstarted : sm.restart = .ok sm') :
    sm'.Replays codec events log := by
  obtain ⟨tables, hbacked⟩ := h.sound.backed
  obtain ⟨engine, hopen, hsound, hcontents, hdisk⟩ := hbacked.openDir_contents
  rw [StateMachine.restart, hopen] at hstarted
  obtain rfl : StateMachine.new engine sm.snapshotInterval = sm' := Except.ok.inj hstarted
  exact ⟨hsound, h.fits, h.sent, Nat.zero_le _, rfl, rfl, rfl, hcontents ▸ h.disk,
    hdisk ▸ h.disk⟩

theorem lastSeq_eq (h : sm.Replays codec events log) :
    sm.lastSeq = (LogState.replay codec sm.applied).lastSeq := by
  rw [h.lastSeq, h.applied]
  rfl

theorem follows (h : sm.Replays codec events log) :
    sm.Follows codec log sm.lastApplied log.entries.length where
  sound := h.sound
  lags :=
    { store := h.store
      lastSeq := by
        refine ⟨0, Nat.zero_le _, CommittedLog.noRetryAfter_zero, ?_⟩
        rw [← h.lastSeq]
        exact Tracks.refl _ _ }
  lastApplied_le := le_rfl

/-- The next entry of the log. -/
theorem next (h : sm.Replays codec events log)
    (hentry : log.entries[sm.lastApplied]? = some entry) :
    (sm.dispatch codec (.command entry)).Replays codec events log := by
  have hlt : sm.lastApplied < log.entries.length := (List.getElem?_eq_some_iff.mp hentry).1
  have hindex := CommittedLog.index_eq hentry
  have hnew : sm.lastApplied < entry.index := by omega
  obtain ⟨hfollows, hdisk, hlast⟩ := h.follows.dispatch h.fits hentry
  rw [max_eq_left hlt] at hfollows
  have happlied : (sm.dispatch codec (.command entry)).applied = sm.applied ++ [entry] :=
    (apply_new codec hnew).1
  refine ⟨hfollows.sound, h.fits, h.sent, hlast ▸ hlt, ?_, ?_, ?_, hlast ▸ hfollows.lags.store,
    hdisk ▸ h.disk⟩
  · rw [happlied, hlast, h.applied, List.take_add_one, hentry, Option.toList_some]
  · have hseq : sm.logState.lastSeq = (LogState.replay codec sm.applied).lastSeq := h.lastSeq_eq
    have hpublished : (sm.dispatch codec (.command entry)).published = _ :=
      apply_published codec h.sound.isOpen hnew
    rw [hpublished, happlied, LogState.changes_append, h.published, LogState.change_congr hseq]
    exact congrArg _ (List.append_nil _).symm
  · have hstate := (apply_spec h.sound hnew (h.fits entry (List.mem_of_getElem? hentry))).1
    rw [hlast, CommittedLog.stateAt_succ hentry]
    calc (sm.dispatch codec (.command entry)).lastSeq
        = (sm.logState.apply codec entry).lastSeq := congrArg LogState.lastSeq hstate
      _ = ((log.stateAt codec sm.lastApplied).apply codec entry).lastSeq :=
        foldl_lastSeq codec [entry] h.lastSeq

/-- An entry behind the whole log. -/
theorem snoc (h : sm.Replays codec events log)
    (hnext : entry.index = log.entries.length + 1)
    (hfits : ∀ cmd ∈ codec.unmarshal entry.data, cmd.Fits)
    (hsent : .applied (.command entry) ∈ events) :
    sm.Replays codec events (log.snoc entry hnext) := by
  have hstate : ∀ index ≤ log.entries.length,
      (log.snoc entry hnext).stateAt codec index = log.stateAt codec index :=
    fun _ hle => CommittedLog.stateAt_snoc codec hnext hle
  have hstore : ∀ index ≤ log.entries.length,
      (log.snoc entry hnext).storeAt codec index = log.storeAt codec index :=
    fun index hle => congrArg LogState.store (hstate index hle)
  have hgrows : log.entries.length ≤ (log.snoc entry hnext).entries.length := by
    simp [CommittedLog.snoc]
  refine ⟨h.sound, h.fits.snoc hnext hfits, fun e he => ?_, h.lastApplied_le.trans hgrows, ?_,
    h.published, ?_, (h.store.congr hstore).mono le_rfl hgrows,
    (h.disk.congr hstore).mono le_rfl hgrows⟩
  · rcases List.mem_append.mp he with hold | hnew
    · exact h.sent e hold
    · rw [List.mem_singleton.mp hnew]
      exact hsent
  · rw [h.applied, CommittedLog.snoc, List.take_append_of_le_length h.lastApplied_le]
  · rw [h.lastSeq, hstate _ h.lastApplied_le]

/-- The apply loop takes the next entry: one that the server has applied before, in an
earlier life, or a new one. -/
theorem apply (h : sm.Replays codec events log) (hnext : entry.index = sm.lastApplied + 1)
    (hsent : .applied (.command entry) ∈ events)
    (hfits : ∀ cmd ∈ codec.unmarshal entry.data, cmd.Fits)
    (hunique : ∀ e, .applied (.command e) ∈ events → e.index = entry.index → e = entry) :
    ∃ log', (sm.dispatch codec (.command entry)).Replays codec events log' := by
  rcases h.lastApplied_le.lt_or_eq with hlt | hall
  · refine ⟨log, h.next ?_⟩
    have hget := List.getElem?_eq_getElem hlt
    rw [hget, Option.some.injEq]
    refine hunique _ (h.sent _ (List.getElem_mem hlt)) ?_
    rw [CommittedLog.index_eq hget, hnext]
  · have hindex : entry.index = log.entries.length + 1 := by omega
    refine ⟨log.snoc entry hindex, (h.snoc hindex hfits hsent).next ?_⟩
    rw [hall]
    exact List.getElem?_concat_length ..

/-- One step, for a node that records what it sends. -/
theorem advance (h : sm.Replays codec events log) {queue : List ApplyMsg}
    (hadvances : sm.Advances codec queue sm')
    (hrecorded : ∀ msg ∈ queue, .applied msg ∈ events)
    (hfits : ∀ e, .command e ∈ queue → ∀ cmd ∈ codec.unmarshal e.data, cmd.Fits)
    (hunique : ∀ e e', .applied (.command e) ∈ events → .applied (.command e') ∈ events →
      e.index = e'.index → e = e') :
    ∃ log', sm'.Replays codec events log' := by
  cases hadvances with
  | wait pending => exact ⟨log, { h with }⟩
  | apply next queued =>
      have hsent := hrecorded _ queued
      exact h.apply next hsent (hfits _ queued) fun e he hindex => hunique e _ he hsent hindex
  | restart started => exact ⟨log, h.restart started⟩
  | flush writable => exact ⟨log, h.flush writable⟩
  | compact writable => exact ⟨log, h.compact writable⟩

/-- A machine that is not behind its log has the log's state. -/
theorem contents_eq (h : sm.Replays codec events log)
    (hall : ∀ event ∈ events, ∀ e ∈ event.delivery, e.index ≤ sm.lastApplied) :
    sm.engine.contents = (LogState.replay codec sm.applied).store := by
  have hlength : log.entries.length ≤ sm.lastApplied := by
    by_contra hlt
    have hlast := List.getElem?_eq_getElem (l := log.entries) (i := log.entries.length - 1)
      (by omega)
    have hsent := hall _ (h.sent _ (List.mem_of_getElem? hlast)) _ rfl
    rw [CommittedLog.index_eq hlast] at hsent
    omega
  have hstore := h.store
  rw [le_antisymm h.lastApplied_le hlength] at hstore
  rw [hstore.eq, h.applied, le_antisymm h.lastApplied_le hlength]
  rfl

/-- What two servers have applied is the one a beginning of the other. -/
theorem agree {log' : CommittedLog} (h : sm.Replays codec events log)
    (h' : sm'.Replays codec events' log')
    (hunique : ∀ e e', .applied (.command e) ∈ events → .applied (.command e') ∈ events' →
      e.index = e'.index → e = e')
    (hle : sm.lastApplied ≤ sm'.lastApplied) :
    sm.applied = sm'.applied.take sm.lastApplied := by
  rw [h.applied, h'.applied, List.take_take, min_eq_left hle]
  refine List.ext_getElem? fun index => ?_
  rw [List.getElem?_take, List.getElem?_take]
  split
  · next hlt =>
      have hbound : index < log.entries.length := hlt.trans_le h.lastApplied_le
      have hbound' : index < log'.entries.length := (hlt.trans_le hle).trans_le h'.lastApplied_le
      rw [List.getElem?_eq_getElem hbound, List.getElem?_eq_getElem hbound', Option.some.injEq]
      refine hunique _ _ (h.sent _ (List.getElem_mem hbound))
        (h'.sent _ (List.getElem_mem hbound')) ?_
      rw [log.indexed, log'.indexed]
  · rfl

end Replays

end StateMachine

/-! ## The servers -/

namespace System

variable {σ : Type} [PersistentState σ] {codec : Codec} {M : Members}
  {snapshotInterval : NodeId → ℕ} {s s' : System σ} {restarts : Bool}

omit [PersistentState σ] in
/-- What a step does to the servers, as far as it concerns what they apply. -/
structure Feeds (codec : Codec) (M : Members) (s s' : System σ) : Prop where
  delivery : Delivery M (fun i => (s'.machines i).lastApplied) s'.cluster
  grows : ∀ i, ∀ e ∈ (s.cluster.nodes i).events, e ∈ (s'.cluster.nodes i).events
  machine : ∀ i, (s.machines i).Advances codec (s.cluster.nodes i).applyCh (s'.machines i)

namespace Feeds

variable (hdelivery : Delivery M (fun i => (s.machines i).lastApplied) s.cluster)

include hdelivery

omit [PersistentState σ] in
theorem refl (codec : Codec) : Feeds codec M s s :=
  ⟨hdelivery, fun _ _ => id, fun _ => .refl ..⟩

/-- A node acts and no process restarts. -/
theorem act {a : Action} (ha : a.plain) (hsame : ∀ i, a ≠ .resume i) :
    Feeds codec M s { s with cluster := s.cluster.step M a } where
  delivery := by
    have hstep := hdelivery.step ha fun i heq => absurd heq (hsame i)
    have hreader : restartReader (fun i => (s.machines i).lastApplied) a =
        fun i => (s.machines i).lastApplied := funext fun i => restartReader_of_ne (hsame i)
    rwa [hreader] at hstep
  grows i _ he := hdelivery.grows ha i he
  machine _ := .refl ..

theorem resume {i : NodeId} (hi : i ∈ M.ids) {sm : StateMachine}
    (hstarted : (s.machines i).restart = .ok sm) :
    Feeds codec M s ({ s with cluster := s.cluster.step M (.resume i) }.setMachine i sm) := by
  have hzero : sm.lastApplied = 0 := by
    unfold StateMachine.restart at hstarted
    split at hstarted
    · cases hstarted
    · rw [← Except.ok.inj hstarted]
      rfl
  refine ⟨?_, fun j _ he => hdelivery.grows (a := .resume i) rfl j he,
    setMachine_forall (.restart hstarted) fun _ => .refl ..⟩
  rw [lastApplied_setMachine, hzero]
  refine hdelivery.step (a := .resume i) rfl fun j heq => ?_
  cases heq
  exact hi

theorem raft {a : Action} (ha : s.Ordinary M restarts (.raft a)) :
    Feeds codec M s (s.raft M a) := by
  unfold System.raft
  split
  · next hsame =>
      refine act hdelivery ha.1 ?_
      rintro i rfl
      cases hsame
  · next i hprocess =>
      split
      · exact refl hdelivery codec
      · next sm hstarted =>
          obtain ⟨-, hi⟩ := ha.2 i hprocess
          -- of the actions that restart a process, only this one is plain
          cases a with
          | resume j =>
              obtain rfl : j = i := Option.some.inj hprocess
              exact resume hdelivery hi hstarted
          | restart j => exact absurd ha.1 Bool.false_ne_true
          | crash j inside calls => exact absurd ha.1 Bool.false_ne_true
          | _ => cases hprocess

omit [PersistentState σ] in
/-- A machine is replaced by one that has applied no more. -/
theorem setMachine {i : NodeId} {sm : StateMachine}
    (hadvances : (s.machines i).Advances codec (s.cluster.nodes i).applyCh sm)
    (hlast : sm.lastApplied = (s.machines i).lastApplied) :
    Feeds codec M s (s.setMachine i sm) := by
  refine ⟨?_, fun _ _ => id, setMachine_forall hadvances fun _ => .refl ..⟩
  rw [lastApplied_setMachine, hlast, update_eq_self]
  exact hdelivery

theorem write {i : NodeId} (hi : i ∈ M.ids) (request : Command) :
    Feeds codec M s (s.write codec i request) := by
  simp only [System.write, StateMachine.proposeWrite]
  cases ((s.cluster.nodes i).propose (codec.marshal request)).1 with
  | none => exact refl hdelivery codec
  | some result =>
      have hact : Feeds codec M s
          { s with cluster := s.cluster.step M (.propose i (codec.marshal request)) } :=
        act hdelivery rfl (by simp)
      simp only [Cluster.step, if_pos hi] at hact
      refine ⟨?_, hact.grows, setMachine_forall (.wait _) fun _ => .refl ..⟩
      rw [lastApplied_setMachine]
      have hsame := update_eq_self i fun j => (s.machines j).lastApplied
      exact hsame.symm ▸ hact.delivery

omit [PersistentState σ] in
theorem dispatch (i : NodeId) : Feeds codec M s (s.dispatch codec i) := by
  unfold System.dispatch
  split
  · exact refl hdelivery codec
  · split
    · exact refl hdelivery codec
    · next msg rest hnext =>
        obtain ⟨e, rfl, hindex, -, htaken⟩ := hdelivery.take hnext
        have hlast : ((s.machines i).dispatch codec (.command e)).lastApplied =
            (s.machines i).lastApplied + 1 :=
          (StateMachine.apply_new codec (by omega)).2.trans hindex
        refine ⟨?_, fun j _ he => events_of_take s.cluster i rest j ▸ he,
          setMachine_forall (.apply hindex (hnext ▸ List.mem_cons_self)) fun _ => .refl ..⟩
        rw [lastApplied_setMachine, hlast]
        exact htaken

theorem step (codec : Codec) {a : Step} (ha : s.Ordinary M restarts a) :
    Feeds codec M s (s.step codec M a) := by
  cases a with
  | raft a => exact raft hdelivery ha
  | write i request =>
      simp only [System.step]
      split
      · next hi => exact write hdelivery hi request
      · exact refl hdelivery codec
  | dispatch i => exact dispatch hdelivery i
  | snapshot i => exact ha.elim
  | flush i => exact setMachine hdelivery (.flush ha) rfl
  | compactTables i => exact setMachine hdelivery (.compact ha) rfl

end Feeds

/-! ## Where entries come from -/

theorem Sourced.step (codec : Codec) {K : Set LogEntry} (h : Sourced M K s) {a : Step}
    (hresumes : Resumes a) :
    ∃ K', K ⊆ K' ∧ Sourced M K' (s.step codec M a) ∧
      ∀ e ∈ K', e ∈ K ∨ s.Makes codec e a := by
  have heffect := s.step_effect codec M a
  generalize s.step codec M a = s' at heffect
  cases heffect with
  | idle => exact ⟨K, subset_rfl, h, fun _ => .inl⟩
  | raft =>
      obtain ⟨hE', K', hsub, hcreated, hmade⟩ := h.cluster_step codec hresumes
      exact ⟨K', hsub, ⟨hE', hcreated⟩, hmade⟩
  | reboot =>
      obtain ⟨hE', K', hsub, hcreated, hmade⟩ := h.cluster_step codec hresumes
      exact ⟨K', hsub, ⟨hE', hcreated⟩, hmade⟩
  | @write i cmd logIndex term member proposed =>
      obtain ⟨K', hsub, hcreated, hmade, -⟩ :=
        h.created.propose h.election i (codec.marshal cmd)
      have hE' : ElectionInv M (s.cluster.propose i (codec.marshal cmd)) :=
        h.election.quiet_setNode (Node.propose_quiet _ _) rfl rfl
      exact ⟨K', hsub, ⟨hE', hcreated⟩, hmade⟩
  | dispatch next =>
      obtain ⟨hE', hcreated⟩ := h.take next
      exact ⟨K, subset_rfl, ⟨hE', hcreated⟩, fun _ => .inl⟩
  | snapshotFailed => exact ⟨K, subset_rfl, ⟨h.election, h.created⟩, fun _ => .inl⟩
  | @snapshot i data index term =>
      obtain ⟨hE', K', hsub, hcreated, hmade⟩ :=
        h.cluster_step codec (a := .compactLog i data index term) rfl
      exact ⟨K', hsub, ⟨hE', hcreated⟩, fun e he => (hmade e he).imp_right False.elim⟩
  | maintain => exact ⟨K, subset_rfl, ⟨h.election, h.created⟩, fun _ => .inl⟩

omit [PersistentState σ] in
/-- What is proposed to a leader is of a size that the engines' files can hold. -/
def Sized (codec : Codec) (s : System σ) (a : Step) : Prop :=
  ∀ q ∈ proposal codec a, (s.cluster.nodes q.1).role = .leader →
    ∀ cmd ∈ codec.unmarshal q.2, cmd.Fits

instance (s : System σ) (a : Step) : Decidable (s.Sized codec a) :=
  inferInstanceAs (Decidable (∀ q ∈ proposal codec a, _ → ∀ cmd ∈ codec.unmarshal q.2, _))

omit [PersistentState σ] in
theorem Sized.of_makes {a : Step} (h : s.Sized codec a) {e : LogEntry}
    (hmakes : s.Makes codec e a) : ∀ cmd ∈ codec.unmarshal e.data, cmd.Fits := by
  cases a with
  | write i request =>
      obtain ⟨hleader, rfl⟩ := hmakes
      exact h _ rfl hleader
  | raft action =>
      cases action with
      | propose i data =>
          obtain ⟨hleader, rfl⟩ := hmakes
          exact h _ rfl hleader
      | _ => exact hmakes.elim
  | _ => exact hmakes.elim

/-! ## Servers that replay -/

omit [PersistentState σ] in
/-- Every server replays a log of entries that fit. -/
structure Replicated (codec : Codec) (M : Members) (s : System σ) : Prop where
  delivery : Delivery M (fun i => (s.machines i).lastApplied) s.cluster
  sourced : ∃ K, (∀ e ∈ K, ∀ cmd ∈ codec.unmarshal e.data, cmd.Fits) ∧ Sourced M K s
  replays : ∀ i, ∃ log, (s.machines i).Replays codec (s.cluster.nodes i).events log

/-- The steps of servers that take no snapshots. -/
def Replicates (codec : Codec) (M : Members) (s : System σ) (a : Step) : Prop :=
  s.Ordinary M true a ∧ s.Sized codec a

instance (s : System σ) (a : Step) : Decidable (s.Replicates codec M a) :=
  inferInstanceAs (Decidable (_ ∧ _))

namespace Replicated

theorem initial (codec : Codec) (M : Members) (snapshotInterval : NodeId → ℕ) :
    Replicated codec M (initial M snapshotInterval : System σ) where
  delivery := .initial M
  sourced := ⟨∅, by simp, .initial M snapshotInterval⟩
  replays _ := ⟨_, .fresh ..⟩

theorem step (h : Replicated codec M s) {a : Step} (ha : s.Replicates codec M a) :
    Replicated codec M (s.step codec M a) := by
  have hfeeds := Feeds.step h.delivery codec ha.1
  obtain ⟨K, hK, hsourced⟩ := h.sourced
  refine ⟨hfeeds.delivery, ?_, fun i => ?_⟩
  · obtain ⟨K', -, hsourced', hmade⟩ := hsourced.step codec ha.1.resumes
    exact ⟨K', fun e he => (hmade e he).elim (hK e) ha.2.of_makes, hsourced'⟩
  · obtain ⟨log, hreplays⟩ := h.replays i
    obtain ⟨log', hreplays'⟩ := hreplays.advance (hfeeds.machine i) (h.delivery.recorded i)
      (fun e he => hK e (hsourced.created.sent i e he)) fun e e' he he' => h.delivery.unique he he'
    exact ⟨log', hreplays'.mono (hfeeds.grows i)⟩

theorem run (h : Replicated codec M s)
    (hrun : Reaches (System.step codec M) (Replicates codec M) s s') :
    Replicated codec M s' :=
  hrun.invariant h fun _ _ hs ha => hs.step ha

/-- What a node has recorded stays on record. -/
theorem run_grows (h : Replicated codec M s)
    (hrun : Reaches (System.step codec M) (Replicates codec M) s s') (i : NodeId) :
    ∀ e ∈ (s.cluster.nodes i).events, e ∈ (s'.cluster.nodes i).events := by
  induction hrun with
  | refl => exact fun _ => id
  | next hrun allowed ih =>
      exact fun e he => (Feeds.step (h.run hrun).delivery codec allowed.1).grows i e
        (ih e he)

/-- Of what two servers have applied, one is a beginning of the other. -/
theorem applied_agree (h : Replicated codec M s)
    (hlater : Reaches (System.step codec M) (Replicates codec M) s s') (i j : NodeId) :
    ((s.machines i).lastApplied ≤ (s'.machines j).lastApplied →
        (s.machines i).applied = (s'.machines j).applied.take (s.machines i).lastApplied) ∧
      ((s'.machines j).lastApplied ≤ (s.machines i).lastApplied →
        (s'.machines j).applied = (s.machines i).applied.take (s'.machines j).lastApplied) := by
  have hlate := h.run hlater
  obtain ⟨log, hi⟩ := h.replays i
  obtain ⟨log', hj⟩ := hlate.replays j
  have hunique : ∀ e e', .applied (.command e) ∈ (s.cluster.nodes i).events →
      .applied (.command e') ∈ (s'.cluster.nodes j).events → e.index = e'.index → e = e' :=
    fun e e' he he' => hlate.delivery.unique (h.run_grows hlater i _ he) he'
  exact ⟨hi.agree hj hunique, hj.agree hi fun e e' he he' hindex =>
    (hunique e' e he' he hindex.symm).symm⟩

end Replicated

omit [PersistentState σ] in
/-- The server has applied all that its node has ever delivered, before restarts too. -/
def CaughtUp (s : System σ) (i : NodeId) : Prop :=
  ∀ event ∈ (s.cluster.nodes i).events, ∀ e ∈ event.delivery,
    e.index ≤ (s.machines i).lastApplied

instance (s : System σ) (i : NodeId) : Decidable (s.CaughtUp i) :=
  inferInstanceAs (Decidable (∀ event ∈ (s.cluster.nodes i).events, ∀ e ∈ event.delivery, _))

/-- After `failover` the new leader `b` proposes a write; `a` flushes its engine, restarts
and has both entries delivered, over the value that it had flushed. -/
def takenOver : List Step :=
  [.flush "a", .raft (.resume "a"), .raft (.replicate "b" "a"), .raft (.deliverAppend 1),
    .raft (.replyAppend 1 0), .dispatch "b", .dispatch "b", .raft (.replicate "b" "a"),
    .raft (.deliverAppend 2), .dispatch "a", .dispatch "a"]

def takenOverEnd : System MemState :=
  takenOver.foldl (System.step valueCodec .trio)
    (failoverEnd.step valueCodec .trio (.write "b" (putValue [2])))

theorem reachable_failover :
    Reachable valueCodec .trio (fun _ => 0) (Replicates valueCodec .trio) failoverEnd :=
  Reaches.foldl .refl failover (by decide +kernel)

theorem failover_takenOver :
    Reaches (System.step valueCodec .trio) (Replicates valueCodec .trio) failoverEnd
      takenOverEnd := by
  have hallowed : failoverEnd.Replicates valueCodec .trio (.write "b" (putValue [2])) := by
    decide +kernel
  exact Reaches.foldl (.next .refl hallowed) takenOver (by decide +kernel)

/-- **A server's state is the replay of what it has applied.**  That is every index in
turn, from the first; the dedup table is what these entries build, whatever was lost in
restarts, and so is the map of a server that has caught up. -/
theorem server_replays_applied
    (hrun : Reachable codec M snapshotInterval (Replicates codec M) s) (i : NodeId) :
    (s.machines i).applied.map LogEntry.index = List.range' 1 (s.machines i).lastApplied ∧
      (s.machines i).lastSeq = (LogState.replay codec (s.machines i).applied).lastSeq ∧
      (s.CaughtUp i →
        (s.machines i).engine.contents = (LogState.replay codec (s.machines i).applied).store) := by
  obtain ⟨log, h⟩ := ((Replicated.initial codec M snapshotInterval).run hrun).replays i
  refine ⟨?_, h.lastSeq_eq, h.contents_eq⟩
  rw [h.applied]
  exact log.map_index_take h.lastApplied_le

theorem server_replays_applied_takenOver :
    takenOverEnd.CaughtUp "a" ∧ (takenOverEnd.machines "a").engine.contents =
      (LogState.replay valueCodec (takenOverEnd.machines "a").applied).store := by
  have hcaught : takenOverEnd.CaughtUp "a" := by decide +kernel
  have hrun := reachable_failover.trans failover_takenOver
  exact ⟨hcaught, (server_replays_applied hrun "a").2.2 hcaught⟩

/-- **Replicas agree.**  Of what two servers have applied, at two times of a run, one is a
beginning of the other.  At the same index they have the same dedup table and, once they
have caught up, the same map. -/
theorem replicas_agree (hrun : Reachable codec M snapshotInterval (Replicates codec M) s)
    (hlater : Reaches (System.step codec M) (Replicates codec M) s s') (i j : NodeId) :
    ((s.machines i).applied <+: (s'.machines j).applied ∨
        (s'.machines j).applied <+: (s.machines i).applied) ∧
      ((s.machines i).lastApplied = (s'.machines j).lastApplied →
        (s.machines i).lastSeq = (s'.machines j).lastSeq ∧
          (s.CaughtUp i → s'.CaughtUp j →
            (s.machines i).engine.contents = (s'.machines j).engine.contents)) := by
  have hearly := (Replicated.initial codec M snapshotInterval).run hrun
  obtain ⟨log, h⟩ := hearly.replays i
  obtain ⟨log', h'⟩ := (hearly.run hlater).replays j
  obtain ⟨hbehind, hahead⟩ := hearly.applied_agree hlater i j
  refine ⟨?_, fun heq => ?_⟩
  · rcases le_total (s.machines i).lastApplied (s'.machines j).lastApplied with hle | hle
    · exact .inl (hbehind hle ▸ List.take_prefix _ _)
    · exact .inr (hahead hle ▸ List.take_prefix _ _)
  · have happlied : (s.machines i).applied = (s'.machines j).applied := by
      rw [hbehind heq.le, heq, h'.applied, List.take_take, min_self]
    refine ⟨?_, fun hi hj => ?_⟩
    · rw [h.lastSeq_eq, h'.lastSeq_eq, happlied]
    · rw [h.contents_eq hi, h'.contents_eq hj, happlied]

theorem replicas_agree_takenOver :
    (takenOverEnd.machines "b").engine.contents [107] = some [2] ∧
      (takenOverEnd.machines "a").engine.contents =
        (takenOverEnd.machines "b").engine.contents := by
  have hend : (takenOverEnd.machines "b").engine.contents [107] = some [2] ∧
      (takenOverEnd.machines "a").lastApplied = (takenOverEnd.machines "b").lastApplied ∧
      takenOverEnd.CaughtUp "a" ∧ takenOverEnd.CaughtUp "b" := by
    decide +kernel
  have hrun := reachable_failover.trans failover_takenOver
  have hagree := (replicas_agree hrun .refl "a" "b").2 hend.2.1
  exact ⟨hend.1, hagree.2 hend.2.2.1 hend.2.2.2⟩

/-- **Change feeds agree.**  What a server publishes to watchers, after a restart again
from the first entry, is what the entries it has applied have to tell; so the feed of a
server that is not ahead of another is a beginning of the other's. -/
theorem change_feeds_agree (hrun : Reachable codec M snapshotInterval (Replicates codec M) s)
    (hlater : Reaches (System.step codec M) (Replicates codec M) s s') (i j : NodeId) :
    (s.machines i).published = LogState.empty.changes codec (s.machines i).applied ∧
      ((s.machines i).lastApplied ≤ (s'.machines j).lastApplied →
        (s.machines i).published <+: (s'.machines j).published) ∧
      ((s'.machines j).lastApplied ≤ (s.machines i).lastApplied →
        (s'.machines j).published <+: (s.machines i).published) := by
  have hearly := (Replicated.initial codec M snapshotInterval).run hrun
  obtain ⟨log, h⟩ := hearly.replays i
  obtain ⟨log', h'⟩ := (hearly.run hlater).replays j
  obtain ⟨hbehind, hahead⟩ := hearly.applied_agree hlater i j
  refine ⟨h.published, fun hle => ?_, fun hle => ?_⟩
  · rw [h.published, h'.published, hbehind hle]
    exact LogState.changes_take ..
  · rw [h.published, h'.published, hahead hle]
    exact LogState.changes_take ..

theorem change_feeds_agree_takenOver :
    (failoverEnd.machines "a").published = [⟨1, 1, .put, [107], [1]⟩] ∧
      (failoverEnd.machines "a").published <+: (takenOverEnd.machines "b").published := by
  have hend : (failoverEnd.machines "a").published = [⟨1, 1, .put, [107], [1]⟩] ∧
      (failoverEnd.machines "a").lastApplied ≤ (takenOverEnd.machines "b").lastApplied := by
    decide +kernel
  exact ⟨hend.1, (change_feeds_agree reachable_failover failover_takenOver "a" "b").2.1 hend.2⟩

/-! ## The order of writes -/

omit [PersistentState σ] in
/-- `K` has the entries made so far, and every server has applied some of them, each index
in turn. -/
structure Traced (M : Members) (K : Set LogEntry) (s : System σ) : Prop where
  delivery : Delivery M (fun i => (s.machines i).lastApplied) s.cluster
  sourced : Sourced M K s
  applied : ∀ i, ∀ e ∈ (s.machines i).applied,
    e ∈ K ∧ .applied (.command e) ∈ (s.cluster.nodes i).events
  indices : ∀ i, (s.machines i).applied.map LogEntry.index =
    List.range' 1 (s.machines i).lastApplied

namespace Traced

variable {K : Set LogEntry}

theorem initial (M : Members) (snapshotInterval : NodeId → ℕ) :
    Traced M ∅ (initial M snapshotInterval : System σ) where
  delivery := .initial M
  sourced := .initial M snapshotInterval
  applied _ _ he := absurd he List.not_mem_nil
  indices _ := rfl

theorem step (codec : Codec) (h : Traced M K s) {a : Step} (ha : s.Ordinary M restarts a) :
    ∃ K', K ⊆ K' ∧ Traced M K' (s.step codec M a) := by
  have hfeeds := Feeds.step h.delivery codec ha
  obtain ⟨K', hsub, hsourced, -⟩ := h.sourced.step codec ha.resumes
  have hkept : ∀ i, ∀ e ∈ (s.machines i).applied,
      e ∈ K' ∧ .applied (.command e) ∈ ((s.step codec M a).cluster.nodes i).events :=
    fun i e he => ⟨hsub (h.applied i e he).1, hfeeds.grows i _ (h.applied i e he).2⟩
  refine ⟨K', hsub, hfeeds.delivery, hsourced, fun i => ?_, fun i => ?_⟩
  · rcases (hfeeds.machine i).applied_cases with ⟨heq, -⟩ | ⟨entry, -, hqueued, heq, -⟩ | ⟨heq, -⟩
    · rw [heq]
      exact hkept i
    · intro e he
      rw [heq] at he
      rcases List.mem_append.mp he with hold | hnew
      · exact hkept i e hold
      · rw [List.mem_singleton.mp hnew]
        exact ⟨hsub (h.sourced.created.sent i entry hqueued),
          hfeeds.grows i _ (h.delivery.recorded i _ hqueued)⟩
    · rw [heq]
      exact fun _ he => absurd he List.not_mem_nil
  · rcases (hfeeds.machine i).applied_cases with
      ⟨heq, hlast⟩ | ⟨entry, hnext, -, heq, hlast⟩ | ⟨heq, hlast⟩
    · rw [heq, hlast]
      exact h.indices i
    · rw [heq, hlast, List.map_append, h.indices i, List.map_singleton, hnext,
        List.range'_1_concat, Nat.add_comm]
    · rw [heq, hlast]
      rfl

theorem run (h : Traced M K s)
    (hrun : Reaches (System.step codec M) (Ordinary M restarts) s s') :
    ∃ K', K ⊆ K' ∧ Traced M K' s' ∧
      ∀ i, ∀ e ∈ (s.cluster.nodes i).events, e ∈ (s'.cluster.nodes i).events := by
  induction hrun with
  | refl => exact ⟨K, subset_rfl, h, fun _ _ => id⟩
  | next _ allowed ih =>
      obtain ⟨K₁, hsub₁, h₁, hgrows⟩ := ih
      obtain ⟨K₂, hsub₂, h₂⟩ := h₁.step codec allowed
      have hfeeds := Feeds.step h₁.delivery codec allowed
      exact ⟨K₂, hsub₁.trans hsub₂, h₂, fun i e he => hfeeds.grows i e (hgrows i e he)⟩

end Traced

end System

end RaftKV.Server
