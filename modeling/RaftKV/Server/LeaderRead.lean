import RaftKV.Raft.Delivery
import RaftKV.Server.Acknowledgement
import RaftKV.Server.Dedup
import RaftKV.Storage.Records

/-!
# Reads on the leader

`ReadValue` asks its node for its role and then reads the engine.  The engine holds what
the apply loop has applied, and a leader that was just elected may have applied less
than the cluster has committed: it marks entries of earlier terms committed only with
its first own entry.  So a write that another node has acknowledged can be missing
(`acknowledged_write_not_found`).

A leader that has applied the index of the write reads it.  The acknowledgement means
that the node that gave it has applied the write's own entry; no two nodes apply
different entries at one index, and every node applies every index in turn.  So the
leader has applied that entry too, and nothing else has touched the key.  The read, the flushes
and the compactions of the engine do not overlap.
-/

namespace RaftKV.Server

open RaftKV.Raft RaftKV.Storage Function

/-! ## The command and its rivals -/

namespace Command

/-- What a read of the key returns after the command. -/
def written (cmd : Command) : Option Bytes :=
  match cmd.op with
  | .put => some cmd.value
  | _ => none

/-- The lengths that the format of the tables can hold. -/
def Fits (cmd : Command) : Prop :=
  cmd.key.length < 2 ^ 32 ∧ cmd.value.length < 2 ^ 32

/-- Another command that is no write of the key, and because of which the command is
not taken for a retry. -/
def Spares (cmd other : Command) : Prop :=
  other.isWrite = true → other.key ≠ cmd.key ∧ other.Fits ∧
    (cmd.clientId ≠ "" → other.clientId = cmd.clientId → other.seqNum < cmd.seqNum)

instance (cmd : Command) : Decidable cmd.Fits :=
  inferInstanceAs (Decidable (_ ∧ _))

instance (cmd other : Command) : Decidable (cmd.Spares other) :=
  inferInstanceAs (Decidable (_ → _ ∧ _ ∧ (_ → _ → _)))

theorem written_of_put {cmd : Command} (h : cmd.op = .put) : cmd.written = some cmd.value := by
  rw [written, h]

theorem written_eq_none {cmd : Command} (h : cmd.op ≠ .put) : cmd.written = none := by
  unfold written
  split
  · next hput => exact absurd hput h
  · rfl

theorem write_eq_update {cmd : Command} {store store' : Store}
    (h : cmd.write store = some store') : store' = update store cmd.key cmd.written := by
  unfold Command.write at h
  unfold written
  cases hop : cmd.op with
  | put =>
      rw [hop] at h
      exact (Option.some.inj h).symm
  | delete =>
      rw [hop] at h
      exact (Option.some.inj h).symm
  | unknown op =>
      rw [hop] at h
      cases h

end Command

/-- Whatever the entry's payload decodes to leaves the command alone. -/
def Harmless (codec : Codec) (cmd : Command) (e : LogEntry) : Prop :=
  ∀ other ∈ codec.unmarshal e.data, cmd.Spares other

/-! ## One state machine -/

namespace StateMachine

variable {codec : Codec} {cmd : Command} {p entry : LogEntry} {restarts : Bool}
  {sm sm' : StateMachine}

theorem execute_sound {engine engine' : Engine} (h : engine.Sound) (hfits : cmd.Fits)
    (hok : execute engine cmd = .ok engine') : engine'.Sound := by
  rcases execute_cases h hfits with ⟨-, err, herr⟩ | ⟨next, hnext, hsound, -, -⟩
  · rw [hok] at herr
    cases herr
  · rw [hok] at hnext
    obtain rfl : engine' = next := Except.ok.inj hnext
    exact hsound

theorem execute_uniform {engine engine' : Engine} {key : Key} {live : Bool}
    (h : engine.Uniform key live) (hok : execute engine cmd = .ok engine')
    (hkey : cmd.key = key → cmd.written.isSome = live) : engine'.Uniform key live := by
  unfold execute at hok
  unfold Command.written at hkey
  cases hop : cmd.op with
  | put =>
      simp only [hop] at hok hkey
      cases hput : engine.put cmd.key cmd.value with
      | error err =>
          rw [hput] at hok
          cases hok
      | ok next =>
          rw [hput] at hok
          obtain rfl : next = engine' := Except.ok.inj hok
          exact h.put hput fun heq => (hkey heq).symm
  | delete =>
      simp only [hop] at hok hkey
      cases hdelete : engine.delete cmd.key with
      | error err =>
          rw [hdelete] at hok
          cases hok
      | ok next =>
          rw [hdelete] at hok
          obtain rfl : next = engine' := Except.ok.inj hok
          exact h.delete hdelete fun heq => (hkey heq).symm
  | unknown op =>
      rw [hop] at hok
      cases hok

/-- A state machine on which nothing but the entry `p` of the command touches its key. -/
structure Carries (cmd : Command) (p : LogEntry) (restarts : Bool) (sm : StateMachine) :
    Prop where
  sound : sm.engine.Sound
  uniform : sm.engine.Uniform cmd.key cmd.written.isSome
  done : p ∈ sm.applied → sm.engine.contents cmd.key = cmd.written
  ahead : p ∉ sm.applied → cmd.clientId ≠ "" → ¬ Reached sm.lastSeq cmd.clientId cmd.seqNum
  untouched : restarts = false → p ∉ sm.applied → sm.engine.contents cmd.key = none

namespace Carries

theorem fresh (cmd : Command) (p : LogEntry) (restarts : Bool) (snapshotInterval : ℕ) :
    (StateMachine.new .fresh snapshotInterval).Carries cmd p restarts where
  sound := Engine.sound_fresh
  uniform := Engine.uniform_fresh _ _
  done h := absurd h List.not_mem_nil
  ahead _ _ := by simp [Reached, StateMachine.new]
  untouched _ _ := rfl

/-- Nothing has happened to the key, and the command is still no retry. -/
theorem keep (h : sm.Carries cmd p restarts) (hsound : sm'.engine.Sound)
    (huniform : sm'.engine.Uniform cmd.key cmd.written.isSome)
    (hcontents : sm'.engine.contents cmd.key = sm.engine.contents cmd.key)
    (happlied : p ∈ sm'.applied ↔ p ∈ sm.applied)
    (hseq : cmd.clientId ≠ "" → Reached sm'.lastSeq cmd.clientId cmd.seqNum →
      Reached sm.lastSeq cmd.clientId cmd.seqNum) : sm'.Carries cmd p restarts where
  sound := hsound
  uniform := huniform
  done := by
    rw [happlied, hcontents]
    exact h.done
  ahead := by
    rw [happlied]
    exact fun hnot hclient => mt (hseq hclient) (h.ahead hnot hclient)
  untouched := by
    rw [happlied, hcontents]
    exact h.untouched

/-- The layers of the engine were reorganised. -/
theorem maintain (h : sm.Carries cmd p restarts) {engine : Engine} (hsound : engine.Sound)
    (hrecords : engine.records ⊆ sm.engine.records)
    (hcontents : engine.contents = sm.engine.contents) :
    { sm with engine := engine }.Carries cmd p restarts :=
  h.keep hsound (h.uniform.of_subset hrecords) (congrFun hcontents _) Iff.rfl fun _ => id

/-- After a restart the apply loop begins anew, with an empty table. -/
theorem restart (h : sm.Carries cmd p true) (hrestart : sm.restart = .ok sm') :
    sm'.Carries cmd p true := by
  unfold StateMachine.restart at hrestart
  cases hopen : Engine.openDir sm.engine.files with
  | error err =>
      rw [hopen] at hrestart
      cases hrestart
  | ok engine =>
      rw [hopen] at hrestart
      obtain rfl : StateMachine.new engine sm.snapshotInterval = sm' := Except.ok.inj hrestart
      obtain ⟨hsound, hrecords⟩ := h.sound.records_openDir hopen
      exact ⟨hsound, h.uniform.of_subset hrecords, fun hmem => absurd hmem List.not_mem_nil,
        fun _ _ => by simp [Reached, StateMachine.new], fun hfalse => by cases hfalse⟩

/-- The entry of the command is applied. -/
theorem apply_own (h : sm.Carries cmd p restarts) (hnew : sm.lastApplied < p.index)
    (hfresh : p ∉ sm.applied) (hcmd : codec.unmarshal p.data = some cmd)
    (hwrite : cmd.isWrite = true) (hfits : cmd.Fits) :
    (sm.apply codec p).Carries cmd p restarts := by
  -- it is no retry
  have hdup : isDuplicate sm.lastSeq cmd = false := by
    by_cases hclient : cmd.clientId = ""
    · exact isDuplicate_anonymous hclient
    · exact (isDuplicate_eq_false_iff hclient).mpr (h.ahead hfresh hclient)
  rcases apply_new_cases codec h.sound.isOpen hnew with
    ⟨cmd', engine, hcmd', -, -, hok, -, hcontents, heq⟩ | ⟨hnone, -⟩
  · obtain rfl : cmd = cmd' := Option.some.inj (hcmd.symm.trans hcmd')
    have hmem : p ∈ (sm.apply codec p).applied := by
      rw [heq]
      simp [executed, advance]
    have hengine : (sm.apply codec p).engine = engine := by
      rw [heq]
      simp [executed]
    refine ⟨?_, ?_, fun _ => ?_, fun hnot => absurd hmem hnot, fun _ hnot => absurd hmem hnot⟩
    · rw [hengine]
      exact execute_sound h.sound hfits hok
    · rw [hengine]
      exact execute_uniform h.uniform hok fun _ => rfl
    · rw [hengine, Command.write_eq_update hcontents, update_self]
  · rcases hnone cmd hcmd with hretry | ⟨hread, -⟩
    · rw [hdup] at hretry
      cases hretry
    · rw [hwrite] at hread
      cases hread

/-- An entry that leaves the command alone is applied. -/
theorem apply_other (h : sm.Carries cmd p restarts) (hnew : sm.lastApplied < entry.index)
    (hne : entry ≠ p) (hharmless : Harmless codec cmd entry) :
    (sm.apply codec entry).Carries cmd p restarts := by
  rcases apply_new_cases codec h.sound.isOpen hnew with
    ⟨other, engine, hother, hwrite, -, hok, -, hcontents, heq⟩ | ⟨-, result, heq⟩
  · obtain ⟨hkey, hfits, hseq⟩ := hharmless other hother hwrite
    rw [heq]
    refine h.keep ?_ ?_ ?_ ?_ fun hclient hreached => ?_
    · rw [notifyPending_engine]
      exact execute_sound h.sound hfits hok
    · rw [notifyPending_engine]
      exact execute_uniform h.uniform hok fun heq => absurd heq hkey
    · rw [notifyPending_engine]
      change engine.contents cmd.key = _
      rw [Command.write_eq_update hcontents, update_of_ne hkey.symm]
    · simp [executed, advance, hne.symm]
    · -- the table may have the client of the command, but at a smaller number
      rw [notifyPending_lastSeq] at hreached
      change Reached (recordSeq sm.lastSeq other) cmd.clientId cmd.seqNum at hreached
      rw [reached_recordSeq hclient] at hreached
      split at hreached
      · next hsame => exact absurd (hseq hclient hsame) hreached.not_gt
      · exact hreached
  · rw [heq]
    refine h.keep ?_ ?_ ?_ ?_ fun _ hreached => ?_
    · rw [notifyPending_engine]
      exact h.sound
    · rw [notifyPending_engine]
      exact h.uniform
    · rw [notifyPending_engine]
      rfl
    · simp [advance, hne.symm]
    · rwa [notifyPending_lastSeq] at hreached

end Carries

theorem apply_new (codec : Codec) (hnew : sm.lastApplied < entry.index) :
    (sm.apply codec entry).applied = sm.applied ++ [entry] ∧
      (sm.apply codec entry).lastApplied = entry.index := by
  rcases sm.apply_cases codec entry with ⟨hold, -⟩ |
    ⟨-, next, result, -, -, happlied, hlast, heq⟩
  · exact absurd hold hnew.not_ge
  · rw [heq, notifyPending_applied, notifyPending_lastApplied]
    exact ⟨happlied, hlast⟩

/-- The apply loop has applied what its node has sent, each index in turn. -/
structure Consumes (events : List Raft.Event) (sm : StateMachine) : Prop where
  recorded : ∀ e ∈ sm.applied, .applied (.command e) ∈ events
  complete : ∀ index, 0 < index → index ≤ sm.lastApplied → ∃ e ∈ sm.applied, e.index = index

namespace Consumes

variable {events events' : List Raft.Event}

theorem new (events : List Raft.Event) (engine : Engine) (snapshotInterval : ℕ) :
    (StateMachine.new engine snapshotInterval).Consumes events where
  recorded _ he := absurd he List.not_mem_nil
  complete _ hpos hle := absurd hle hpos.not_ge

theorem mono (h : sm.Consumes events) (hsub : ∀ e ∈ events, e ∈ events') :
    sm.Consumes events' where
  recorded e he := hsub _ (h.recorded e he)
  complete := h.complete

theorem congr (h : sm.Consumes events) (happlied : sm'.applied = sm.applied)
    (hlast : sm'.lastApplied = sm.lastApplied) : sm'.Consumes events where
  recorded := happlied ▸ h.recorded
  complete := happlied ▸ hlast ▸ h.complete

theorem apply (codec : Codec) (h : sm.Consumes events) (hnext : entry.index = sm.lastApplied + 1)
    (hsent : .applied (.command entry) ∈ events) :
    (sm.apply codec entry).Consumes events := by
  have hnew : sm.lastApplied < entry.index := by omega
  obtain ⟨happlied, hlast⟩ := apply_new codec hnew
  refine ⟨fun e he => ?_, fun index hpos hle => ?_⟩
  · rw [happlied] at he
    rcases List.mem_append.mp he with hold | hnew
    · exact h.recorded e hold
    · rw [List.mem_singleton.mp hnew]
      exact hsent
  · rw [happlied]
    rw [hlast] at hle
    by_cases hindex : index = entry.index
    · exact ⟨entry, List.mem_append_right _ (List.mem_singleton_self _), hindex.symm⟩
    · obtain ⟨e, he, heq⟩ := h.complete index hpos (by omega)
      exact ⟨e, List.mem_append_left _ he, heq⟩

end Consumes

end StateMachine

/-! ## The servers -/

namespace System

variable {σ : Type} [PersistentState σ] {codec : Codec} {M : Members}
  {snapshotInterval : NodeId → ℕ} {s : System σ} {cmd : Command} {p : LogEntry}
  {restarts : Bool}

omit [PersistentState σ] in
/-- No snapshots are taken; if processes restart at all, members do, and they keep what
their nodes have persisted; the files stay within what the format can hold. -/
def Ordinary (M : Members) (restarts : Bool) (s : System σ) : Step → Prop
  | .raft a => a.plain = true ∧ ∀ i ∈ rebooted a, restarts = true ∧ i ∈ M.ids
  | .snapshot _ => False
  | .flush i => (s.machines i).engine.rotateAndFlush.Writable
  | .compactTables i => (s.machines i).engine.doCompaction.Writable
  | _ => True

/-- The node and the payload of a proposal. -/
def proposal (codec : Codec) : Step → Option (NodeId × Bytes)
  | .write i request => some (i, codec.marshal request)
  | .raft (.propose i data) => some (i, data)
  | _ => none

omit [PersistentState σ] in
/-- What is proposed to a leader leaves the command alone. -/
def Spares (codec : Codec) (cmd : Command) (s : System σ) (a : Step) : Prop :=
  ∀ q ∈ proposal codec a, (s.cluster.nodes q.1).role = .leader →
    ∀ other ∈ codec.unmarshal q.2, cmd.Spares other

omit [PersistentState σ] in
theorem Spares.harmless {a : Step} (h : s.Spares codec cmd a) {e : LogEntry}
    (hmakes : s.Makes codec e a) : Harmless codec cmd e := by
  cases a with
  | write i request =>
      obtain ⟨hleader, rfl⟩ := hmakes
      exact h _ rfl hleader
  | raft action =>
      cases action with
      | propose i data =>
          obtain ⟨hleader, rfl⟩ := hmakes
          exact h _ rfl hleader
      | _ => exact hmakes.elim
  | _ => exact hmakes.elim

/-- The steps of a run around an acknowledged write. -/
def Undisturbed (codec : Codec) (M : Members) (cmd : Command) (restarts : Bool) (s : System σ)
    (a : Step) : Prop :=
  s.Ordinary M restarts a ∧ s.WakesOwn a ∧ s.Spares codec cmd a

instance (s : System σ) : (a : Step) → Decidable (s.Ordinary M restarts a)
  | .raft a => inferInstanceAs (Decidable (_ ∧ ∀ i ∈ rebooted a, _ ∧ _))
  | .snapshot _ => isFalse id
  | .flush _ => inferInstanceAs (Decidable (Engine.Writable _))
  | .compactTables _ => inferInstanceAs (Decidable (Engine.Writable _))
  | .write _ _ => isTrue trivial
  | .dispatch _ => isTrue trivial

instance (s : System σ) (a : Step) : Decidable (s.Spares codec cmd a) :=
  inferInstanceAs (Decidable (∀ q ∈ proposal codec a, _ → ∀ other ∈ codec.unmarshal q.2, _))

instance (s : System σ) (a : Step) : Decidable (s.Undisturbed codec M cmd restarts a) :=
  inferInstanceAs (Decidable (_ ∧ _ ∧ _))

omit [PersistentState σ] in
theorem Ordinary.resumes {a : Step} (h : s.Ordinary M restarts a) : Resumes a := by
  cases a with
  | raft action =>
      cases action with
      | restart i => exact absurd h.1 Bool.false_ne_true
      | crash i inside calls => exact absurd h.1 Bool.false_ne_true
      | _ => rfl
  | _ => trivial

omit [PersistentState σ] in
theorem lastApplied_setMachine (s : System σ) (i : NodeId) (sm : StateMachine) :
    (fun j => ((s.setMachine i sm).machines j).lastApplied) =
      update (fun j => (s.machines j).lastApplied) i sm.lastApplied :=
  comp_update StateMachine.lastApplied s.machines i sm

omit [PersistentState σ] in
/-- Taking a message from `ApplyCh` leaves the records of all nodes. -/
theorem events_of_take (c : Cluster σ) (i : NodeId) (rest : List ApplyMsg) (j : NodeId) :
    ((c.setNode i { c.nodes i with applyCh := rest }).nodes j).events = (c.nodes j).events := by
  by_cases hj : j = i
  · subst hj
    rw [Cluster.setNode_self]
  · rw [c.setNode_of_ne _ hj]

/-- Every state machine is fed by its node, and carries the command. -/
structure Fed (M : Members) (cmd : Command) (p : LogEntry) (restarts : Bool) (s : System σ) :
    Prop where
  delivery : Delivery M (fun i => (s.machines i).lastApplied) s.cluster
  consumes : ∀ i, (s.machines i).Consumes (s.cluster.nodes i).events
  carries : ∀ i, (s.machines i).Carries cmd p restarts

namespace Fed

theorem initial (M : Members) (snapshotInterval : NodeId → ℕ) :
    Fed M cmd p restarts (initial M snapshotInterval : System σ) where
  delivery := .initial M
  consumes _ := .new ..
  carries _ := .fresh ..

/-- A node acts and no process restarts. -/
theorem act (h : Fed M cmd p restarts s) {a : Action} (ha : a.plain)
    (hsame : ∀ i, a ≠ .resume i) :
    Fed M cmd p restarts { s with cluster := s.cluster.step M a } where
  delivery := by
    have hdelivery := h.delivery.step ha fun i heq => absurd heq (hsame i)
    have hreader : restartReader (fun i => (s.machines i).lastApplied) a =
        fun i => (s.machines i).lastApplied := funext fun i => restartReader_of_ne (hsame i)
    rwa [hreader] at hdelivery
  consumes i := (h.consumes i).mono fun _ he => h.delivery.grows ha i he
  carries := h.carries

/-- A process restarts. -/
theorem resume (h : Fed M cmd p true s) {i : NodeId} (hi : i ∈ M.ids) {sm : StateMachine}
    (hrestart : (s.machines i).restart = .ok sm) :
    Fed M cmd p true ({ s with cluster := s.cluster.step M (.resume i) }.setMachine i sm) := by
  have hnew : ∃ engine, sm = .new engine (s.machines i).snapshotInterval := by
    unfold StateMachine.restart at hrestart
    split at hrestart
    · cases hrestart
    · exact ⟨_, (Except.ok.inj hrestart).symm⟩
  obtain ⟨engine, hsm⟩ := hnew
  refine ⟨?_, setMachine_forall ?_ fun j => ?_, setMachine_forall ?_ h.carries⟩
  · have hdelivery := h.delivery.step (a := .resume i) rfl fun j heq => by
      cases heq
      exact hi
    have hzero : sm.lastApplied = 0 := hsm ▸ rfl
    rw [lastApplied_setMachine, hzero]
    exact hdelivery
  · rw [hsm]
    exact .new ..
  · exact (h.consumes j).mono fun _ he => h.delivery.grows (a := .resume i) rfl j he
  · exact (h.carries i).restart hrestart

omit [PersistentState σ] in
/-- A machine is replaced by one that differs in nothing that was delivered. -/
theorem setMachine (h : Fed M cmd p restarts s) {i : NodeId} {sm : StateMachine}
    (happlied : sm.applied = (s.machines i).applied)
    (hlast : sm.lastApplied = (s.machines i).lastApplied) (hcarries : sm.Carries cmd p restarts) :
    Fed M cmd p restarts (s.setMachine i sm) := by
  refine ⟨?_, setMachine_forall ((h.consumes i).congr happlied hlast) h.consumes,
    setMachine_forall hcarries h.carries⟩
  rw [lastApplied_setMachine, hlast, update_eq_self]
  exact h.delivery

omit [PersistentState σ] in
/-- The apply loop takes the next message. -/
theorem take (h : Fed M cmd p restarts s) {i : NodeId} {msg : ApplyMsg} {rest : List ApplyMsg}
    (hnext : (s.cluster.nodes i).applyCh = msg :: rest)
    (hcarries : ∀ e, msg = .command e → (s.machines i).lastApplied < e.index →
      ((s.machines i).apply codec e).Carries cmd p restarts) :
    Fed M cmd p restarts ({ s with
      cluster := s.cluster.setNode i { s.cluster.nodes i with applyCh := rest }
    }.setMachine i ((s.machines i).dispatch codec msg)) := by
  obtain ⟨e, rfl, hindex, hsent, hdelivery⟩ := h.delivery.take hnext
  have hnew : (s.machines i).lastApplied < e.index := by omega
  obtain ⟨happlied, hlast⟩ := StateMachine.apply_new codec hnew
  have hevents := events_of_take s.cluster i rest
  refine ⟨?_, setMachine_forall ?_ fun j => ?_, setMachine_forall ?_ h.carries⟩
  · have hdispatched :
        ((s.machines i).dispatch codec (.command e)).lastApplied =
          (s.machines i).lastApplied + 1 := hlast.trans hindex
    rw [lastApplied_setMachine, hdispatched]
    exact hdelivery
  · have hconsumes := (h.consumes i).apply codec hindex hsent
    exact (hconsumes.mono fun _ he => hevents i ▸ he).congr rfl rfl
  · exact (h.consumes j).mono fun _ he => hevents j ▸ he
  · exact (hcarries e rfl hnew).keep (hcarries e rfl hnew).sound (hcarries e rfl hnew).uniform
      rfl Iff.rfl fun _ => id

/-- What a node has sent stays on record. -/
theorem grows (h : Fed M cmd p restarts s) {a : Step} (ha : s.Ordinary M restarts a)
    {i : NodeId} {e : Raft.Event} (he : e ∈ (s.cluster.nodes i).events) :
    e ∈ ((s.step codec M a).cluster.nodes i).events := by
  have heffect := s.step_effect codec M a
  generalize s.step codec M a = s' at heffect
  cases heffect with
  | idle => exact he
  | raft hsame => exact h.delivery.grows ha.1 i he
  | reboot hprocess hstarted => exact h.delivery.grows ha.1 i he
  | @write j request logIndex term hj hproposed =>
      have hgrows := h.delivery.grows (a := .propose j (codec.marshal request)) rfl i he
      simp only [Cluster.step, if_pos hj] at hgrows
      exact hgrows
  | @dispatch j msg rest hnext =>
      have hevents := events_of_take s.cluster j rest i
      rw [← hevents] at he
      exact he
  | snapshotFailed => exact ha.elim
  | snapshot due taken => exact ha.elim
  | maintain work => exact he

theorem raft (h : Fed M cmd p restarts s) {a : Action}
    (ha : s.Ordinary M restarts (.raft a)) : Fed M cmd p restarts (s.raft M a) := by
  unfold System.raft
  split
  · next hsame =>
      refine h.act ha.1 ?_
      rintro i rfl
      cases hsame
  · next i hprocess =>
      split
      · exact h
      · next sm hstarted =>
          obtain ⟨rfl, hi⟩ := ha.2 i hprocess
          -- of the actions that restart a process, only this one is plain
          cases a with
          | resume j =>
              obtain rfl : j = i := Option.some.inj hprocess
              exact h.resume hi hstarted
          | restart j => exact absurd ha.1 Bool.false_ne_true
          | crash j inside calls => exact absurd ha.1 Bool.false_ne_true
          | _ => cases hprocess

theorem write (h : Fed M cmd p restarts s) {i : NodeId} (hi : i ∈ M.ids) (request : Command) :
    Fed M cmd p restarts (s.write codec i request) := by
  simp only [System.write, StateMachine.proposeWrite]
  cases ((s.cluster.nodes i).propose (codec.marshal request)).1 with
  | none => exact h
  | some result =>
      have hact := h.act (a := .propose i (codec.marshal request)) rfl (by simp)
      simp only [Cluster.step, if_pos hi] at hact
      have hcarries := h.carries i
      exact hact.setMachine rfl rfl
        (hcarries.keep hcarries.sound hcarries.uniform rfl Iff.rfl fun _ => id)

omit [PersistentState σ] in
/-- The entries that the apply loops take are the command's own, or leave it alone. -/
theorem dispatch (h : Fed M cmd p restarts s)
    (haccounted : s.AccountedBy (fun e => e = p ∨ Harmless codec cmd e) codec M) (i : NodeId)
    (hcmd : codec.unmarshal p.data = some cmd) (hwrite : cmd.isWrite = true) (hfits : cmd.Fits) :
    Fed M cmd p restarts (s.dispatch codec i) := by
  unfold System.dispatch
  split
  · exact h
  · split
    · exact h
    · next msg rest hnext =>
        obtain ⟨K, hK, hsourced, hwaits⟩ := haccounted
        refine h.take hnext ?_
        rintro e rfl hnew
        have he : e ∈ K := hsourced.created.sent i e (by rw [hnext]; exact List.mem_cons_self)
        by_cases hown : e = p
        · subst hown
          refine (h.carries i).apply_own hnew (fun hmem => ?_) hcmd hwrite hfits
          exact absurd ((hwaits i).applied_le e hmem) hnew.not_ge
        · exact (h.carries i).apply_other hnew hown ((hK e he).resolve_left hown)

theorem step (h : Fed M cmd p restarts s)
    (haccounted : s.AccountedBy (fun e => e = p ∨ Harmless codec cmd e) codec M) {a : Step}
    (ha : s.Ordinary M restarts a) (hcmd : codec.unmarshal p.data = some cmd)
    (hwrite : cmd.isWrite = true) (hfits : cmd.Fits) :
    Fed M cmd p restarts (s.step codec M a) := by
  cases a with
  | raft a => exact h.raft ha
  | write i request =>
      simp only [System.step]
      split
      · next hi => exact h.write hi request
      · exact h
  | dispatch i => exact h.dispatch haccounted i hcmd hwrite hfits
  | snapshot i => exact ha.elim
  | flush i =>
      obtain ⟨hsound, hcontents⟩ := (h.carries i).sound.rotateAndFlush ha
      exact h.setMachine rfl rfl
        ((h.carries i).maintain hsound ((h.carries i).sound.records_rotateAndFlush ha) hcontents)
  | compactTables i =>
      obtain ⟨hsound, hcontents, -⟩ := (h.carries i).sound.doCompaction ha
      exact h.setMachine rfl rfl
        ((h.carries i).maintain hsound ((h.carries i).sound.records_doCompaction ha) hcontents)

omit [PersistentState σ] in
/-- What one node has sent, every apply loop that is beyond its index has applied. -/
theorem applied_of_sent (h : Fed M cmd p restarts s) {i j : NodeId} {e : LogEntry}
    (hsent : .applied (.command e) ∈ (s.cluster.nodes i).events) (hpos : 0 < e.index)
    (hle : e.index ≤ (s.machines j).lastApplied) : e ∈ (s.machines j).applied := by
  obtain ⟨e', he', hindex⟩ := (h.consumes j).complete e.index hpos hle
  have hsent' := (h.consumes j).recorded e' he'
  rw [h.delivery.unique hsent hsent' hindex.symm]
  exact he'

omit [PersistentState σ] in
theorem readValue_eq (h : Fed M cmd p restarts s) {j : NodeId} {asked : Node σ}
    (hleader : asked.role = .leader) (hsilent : (s.machines j).engine.SilentTables cmd.key) :
    (s.machines j).readValue asked cmd.key = some ((s.machines j).engine.contents cmd.key) := by
  unfold StateMachine.readValue
  have hcarries := h.carries j
  rw [if_neg (not_not.mpr hleader), hcarries.sound.get_of_uniform hcarries.uniform hsilent]

end Fed

/-- The invariant of runs in which the entry `p` of the command, if there is one yet, is
the only one that matters to the key. -/
structure Serves (codec : Codec) (M : Members) (cmd : Command) (p : LogEntry)
    (restarts : Bool) (s : System σ) : Prop where
  accounted : s.AccountedBy (fun e => e = p ∨ Harmless codec cmd e) codec M
  fed : s.Fed M cmd p restarts

namespace Serves

theorem initial (codec : Codec) (M : Members) (cmd : Command) (p : LogEntry) (restarts : Bool)
    (snapshotInterval : NodeId → ℕ) :
    Serves codec M cmd p restarts (initial M snapshotInterval : System σ) :=
  ⟨.initial M snapshotInterval, .initial M snapshotInterval⟩

theorem step (h : Serves codec M cmd p restarts s) {a : Step} (ha : s.Ordinary M restarts a)
    (hown : s.WakesOwn a) (hmakes : ∀ e, s.Makes codec e a → e = p ∨ Harmless codec cmd e)
    (hcmd : codec.unmarshal p.data = some cmd) (hwrite : cmd.isWrite = true) (hfits : cmd.Fits) :
    Serves codec M cmd p restarts (s.step codec M a) :=
  ⟨h.accounted.step ha.resumes hown hmakes, h.fed.step h.accounted ha hcmd hwrite hfits⟩

theorem run (h : Serves codec M cmd p restarts s) {s' : System σ}
    (hrun : Reaches (System.step codec M) (Undisturbed codec M cmd restarts) s s')
    (hcmd : codec.unmarshal p.data = some cmd) (hwrite : cmd.isWrite = true) (hfits : cmd.Fits) :
    Serves codec M cmd p restarts s' :=
  hrun.invariant h fun _ _ hs ⟨ha, hown, hspares⟩ =>
    hs.step ha hown (fun _ hmakes => .inr (hspares.harmless hmakes)) hcmd hwrite hfits

/-- The call of the command itself. -/
theorem write {i : NodeId} {index term : ℕ}
    (h : Serves codec M cmd ⟨index, term, codec.marshal cmd⟩ restarts s)
    (hproposed : ((s.cluster.nodes i).propose (codec.marshal cmd)).1 = some (index, term))
    (hcodec : codec.unmarshal (codec.marshal cmd) = some cmd) (hwrite : cmd.isWrite = true)
    (hfits : cmd.Fits) :
    Serves codec M cmd ⟨index, term, codec.marshal cmd⟩ restarts
      (s.step codec M (.write i cmd)) := by
  refine h.step trivial trivial ?_ hcodec hwrite hfits
  rintro e ⟨-, rfl⟩
  exact .inl (Node.nextEntry_of_propose hproposed)

omit [PersistentState σ] in
/-- A call that has returned nil has had its entry applied and so sent. -/
theorem sent (h : Serves codec M cmd p restarts s) {i : NodeId} {pw : PendingWrite}
    (hack : (pw, none) ∈ (s.machines i).returned) :
    .applied (.command (pw.entry codec)) ∈ (s.cluster.nodes i).events := by
  obtain ⟨K, -, -, hwaits⟩ := h.accounted
  exact (h.fed.consumes i).recorded _ ((hwaits i).answered pw hack)

/-- What has been sent is still on record at the end of a run. -/
theorem run_sent (h : Serves codec M cmd p restarts s) {s' : System σ}
    (hrun : Reaches (System.step codec M) (Undisturbed codec M cmd restarts) s s')
    (hcmd : codec.unmarshal p.data = some cmd) (hwrite : cmd.isWrite = true) (hfits : cmd.Fits)
    {i : NodeId} {e : Raft.Event} (he : e ∈ (s.cluster.nodes i).events) :
    e ∈ (s'.cluster.nodes i).events := by
  induction hrun with
  | refl => exact he
  | next hrun allowed ih => exact (h.run hrun hcmd hwrite hfits).fed.grows allowed.1 ih

end Serves

/-- **Leader reads reflect acknowledged writes that the leader has applied.**  A call of
`ProposeWrite` for a put or a delete has returned nil on node `i`; nothing else was
proposed that writes its key or makes it a retry.  `ReadValue` finds node `j` leader and
reads the engine, maybe some steps later.  It returns what was written if `j` has then
applied the index of the call; for a delete it always does.  Without restarts, a put is
read only then. -/
theorem leader_reads_acknowledged_write {s₁ s₂ s₃ s₄ : System σ} {i j : NodeId} {index term : ℕ}
    (hwrite : cmd.isWrite = true) (hfits : cmd.Fits)
    (hcodec : codec.unmarshal (codec.marshal cmd) = some cmd)
    (hbefore : Reachable codec M snapshotInterval (Undisturbed codec M cmd restarts) s₁)
    (hproposed : ((s₁.cluster.nodes i).propose (codec.marshal cmd)).1 = some (index, term))
    (hafter : Reaches (System.step codec M) (Undisturbed codec M cmd restarts)
      (s₁.step codec M (.write i cmd)) s₂)
    (hack : (⟨index, term, cmd⟩, none) ∈ (s₂.machines i).returned)
    (hrest : Reaches (System.step codec M) (Undisturbed codec M cmd restarts) s₂ s₃)
    (hleader : (s₃.cluster.nodes j).role = .leader)
    (hreading : Reaches (System.step codec M) (Undisturbed codec M cmd restarts) s₃ s₄)
    (hsilent : (s₄.machines j).engine.SilentTables cmd.key) :
    ((cmd.op = .put → index ≤ (s₄.machines j).lastApplied) →
        (s₄.machines j).readValue (s₃.cluster.nodes j) cmd.key = some cmd.written) ∧
      (restarts = false →
        (s₄.machines j).readValue (s₃.cluster.nodes j) cmd.key = some cmd.written →
        cmd.op = .put → index ≤ (s₄.machines j).lastApplied) := by
  have hserves := (((Serves.initial codec M cmd ⟨index, term, codec.marshal cmd⟩ restarts
    snapshotInterval).run hbefore hcodec hwrite hfits).write hproposed hcodec hwrite hfits).run
      hafter hcodec hwrite hfits
  have hlater := hrest.trans hreading
  have hsent := hserves.run_sent hlater hcodec hwrite hfits (hserves.sent hack)
  have hend := hserves.run hlater hcodec hwrite hfits
  have hcarries := hend.fed.carries j
  rw [hend.fed.readValue_eq hleader hsilent, Option.some.injEq]
  refine ⟨fun hreached => ?_, fun hrestarts hread hop => ?_⟩
  · by_cases hop : cmd.op = .put
    · -- the leader has applied the entry that was acknowledged
      refine hcarries.done (hend.fed.applied_of_sent hsent ?_ (hreached hop))
      have hindex := congrArg LogEntry.index (Node.nextEntry_of_propose hproposed)
      exact hindex ▸ Nat.succ_pos _
    · have hnone : cmd.written = none := Command.written_eq_none hop
      have huniform := hcarries.uniform
      rw [hnone] at huniform ⊢
      exact huniform.contents_eq_none
  · -- otherwise the leader has applied nothing that writes the key
    by_contra hbehind
    have hnot : (⟨index, term, codec.marshal cmd⟩ : LogEntry) ∉ (s₄.machines j).applied := by
      intro hmem
      obtain ⟨K, -, -, hwaits⟩ := hend.accounted
      exact hbehind ((hwaits j).applied_le _ hmem)
    rw [hcarries.untouched hrestarts hnot, Command.written_of_put hop] at hread
    cases hread

/-- `a` is elected. -/
def elected : System MemState :=
  (ownWrite.take 3).foldl (System.step valueCodec .trio) (.initial .trio fun _ => 0)

/-- Its write is acknowledged. -/
def acknowledged : System MemState :=
  (ownWrite.drop 4).foldl (System.step valueCodec .trio)
    (elected.step valueCodec .trio (.write "a" (putValue [1])))

theorem leader_reads_acknowledged_write_ownWrite :
    (⟨1, 1, putValue [1]⟩, none) ∈ (acknowledged.machines "a").returned ∧
      (acknowledged.cluster.nodes "a").role = .leader ∧
      (acknowledged.machines "a").readValue (acknowledged.cluster.nodes "a") [107] =
        some (some [1]) := by
  have hend : (⟨1, 1, putValue [1]⟩, none) ∈ (acknowledged.machines "a").returned ∧
      (acknowledged.cluster.nodes "a").role = .leader ∧
      (acknowledged.machines "a").engine.SilentTables [107] ∧
      1 ≤ (acknowledged.machines "a").lastApplied := by
    decide +kernel
  have hbefore : Reachable valueCodec .trio (fun _ => 0)
      (Undisturbed valueCodec .trio (putValue [1]) false) elected :=
    Reaches.foldl .refl (ownWrite.take 3) (by decide +kernel)
  have hafter : Reaches (System.step valueCodec .trio)
      (Undisturbed valueCodec .trio (putValue [1]) false)
      (elected.step valueCodec .trio (.write "a" (putValue [1]))) acknowledged :=
    Reaches.foldl .refl (ownWrite.drop 4) (by decide +kernel)
  have hreads := leader_reads_acknowledged_write rfl (by decide) rfl hbefore
    (by decide +kernel) hafter hend.1 .refl hend.2.1 .refl hend.2.2.1
  exact ⟨hend.1, hend.2.1, hreads.1 fun _ => hend.2.2.2⟩

/-- After its write is acknowledged, `b`, which has the entry but does not know that it is
committed, is elected in term 2 with the vote of `c`. -/
def failover : List Step :=
  ownWrite ++ [.raft (.electionTimeout "b"), .raft (.deliverVote 3), .raft (.replyVote 3 0)]

def failoverEnd : System MemState :=
  failover.foldl (System.step valueCodec .trio) (.initial .trio fun _ => 0)

/-- The leader of the highest term does not find the value that was acknowledged. -/
theorem acknowledged_write_not_found :
    Reachable valueCodec .trio (fun _ => 0)
        (fun s a => s.Ordinary .trio false a ∧ s.WakesOwn a) failoverEnd ∧
      (⟨1, 1, putValue [1]⟩, none) ∈ (failoverEnd.machines "a").returned ∧
      (failoverEnd.cluster.nodes "b").role = .leader ∧
      (∀ i ∈ Members.trio.ids, (failoverEnd.cluster.nodes i).currentTerm ≤
        (failoverEnd.cluster.nodes "b").currentTerm) ∧
      (failoverEnd.machines "b").readValue (failoverEnd.cluster.nodes "b") [107] = some none := by
  refine ⟨Reaches.foldl .refl failover (by decide +kernel), ?_⟩
  decide +kernel

end System

end RaftKV.Server
