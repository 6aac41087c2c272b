import RaftKV.Raft.Created
import RaftKV.Server.StateMachine

/-!
# Servers

A cluster whose nodes each feed a state machine.  A step is an action of the Raft
cluster, or one of the critical sections of a state machine: a client's write, the
next message of `ApplyCh`, a snapshot that is due.  A flush or a compaction of the engine
may happen between any two of them, and is one step: it runs to its end without another
thread in between and without a crash (`Storage.Workers.rotateAndFlush_alone`,
`doCompaction_alone`).  When a process restarts, its node and its state machine do so
together.
-/

namespace RaftKV.Server

open RaftKV.Raft RaftKV.Storage Function

structure System (σ : Type) where
  cluster : Cluster σ
  machines : NodeId → StateMachine

inductive Step
  | raft (a : Action)
  | write (i : NodeId) (cmd : Command)
  | dispatch (i : NodeId)
  | snapshot (i : NodeId)
  | flush (i : NodeId)
  | compactTables (i : NodeId)

/-- The process that an action restarts. -/
def rebooted : Action → Option NodeId
  | .resume i => some i
  | .restart i => some i
  | .crash i _ _ => some i
  | _ => none

namespace System

variable {σ : Type} [PersistentState σ]

/-- Every process has just been started on empty storage. -/
def initial (M : Members) (snapshotInterval : NodeId → ℕ) : System σ where
  cluster := .initial M
  machines i := .new .fresh (snapshotInterval i)

omit [PersistentState σ] in
def setMachine (s : System σ) (i : NodeId) (sm : StateMachine) : System σ :=
  { s with machines := update s.machines i sm }

/-- An action of the cluster; a restart whose engine does not open leaves no process
behind, as if it had not been tried. -/
def raft (M : Members) (s : System σ) (a : Action) : System σ :=
  match rebooted a with
  | none => { s with cluster := s.cluster.step M a }
  | some i =>
      match (s.machines i).restart with
      | .error _ => s
      | .ok sm => { s with cluster := s.cluster.step M a }.setMachine i sm

/-- `ProposeWrite`: the proposal and the waiter are registered under one lock. -/
def write (codec : Codec) (s : System σ) (i : NodeId) (cmd : Command) : System σ :=
  match (s.machines i).proposeWrite codec (s.cluster.nodes i) cmd with
  | none => s
  | some sm => { s with cluster := s.cluster.propose i (codec.marshal cmd) }.setMachine i sm

omit [PersistentState σ] in
/-- The apply loop takes the next message. -/
def dispatch (codec : Codec) (s : System σ) (i : NodeId) : System σ :=
  if (s.machines i).snapshotDue.isSome then s
  else
    match (s.cluster.nodes i).applyCh with
    | [] => s
    | msg :: rest =>
        { s with
          cluster := s.cluster.setNode i { s.cluster.nodes i with applyCh := rest }
        }.setMachine i ((s.machines i).dispatch codec msg)

/-- `maybeSnapshot`; its errors are only logged. -/
def snapshot (M : Members) (s : System σ) (i : NodeId) : System σ :=
  match (s.machines i).snapshotDue with
  | none => s
  | some (index, term) =>
      let done := { s.machines i with snapshotDue := none }
      match (s.machines i).engine.snapshot with
      | .error _ => s.setMachine i done
      | .ok data =>
          { s with cluster := s.cluster.step M (.compactLog i data index term) }.setMachine i done

omit [PersistentState σ] in
/-- Work of the engine. -/
def maintain (s : System σ) (i : NodeId) (work : Engine → Engine) : System σ :=
  s.setMachine i { s.machines i with engine := work (s.machines i).engine }

def step (codec : Codec) (M : Members) (s : System σ) : Step → System σ
  | .raft a => s.raft M a
  | .write i cmd => if i ∈ M.ids then s.write codec i cmd else s
  | .dispatch i => s.dispatch codec i
  | .snapshot i => s.snapshot M i
  | .flush i => s.maintain i Engine.rotateAndFlush
  | .compactTables i => s.maintain i Engine.doCompaction

/-- The systems reached by steps that `ok` allows. -/
abbrev Reachable (codec : Codec) (M : Members) (snapshotInterval : NodeId → ℕ)
    (ok : System σ → Step → Prop) : System σ → Prop :=
  Reaches (step codec M) ok (initial M snapshotInterval)

omit [PersistentState σ] in
/-- A property of all machines after one of them was replaced. -/
theorem setMachine_forall {P : NodeId → StateMachine → Prop} {s : System σ} {i : NodeId}
    {sm : StateMachine} (hself : P i sm) (hother : ∀ j, P j (s.machines j)) :
    ∀ j, P j ((s.setMachine i sm).machines j) := by
  intro j
  by_cases hj : j = i
  · subst hj
    change P j (update s.machines j sm j)
    rw [update_self]
    exact hself
  · change P j (update s.machines i sm j)
    rw [update_of_ne hj]
    exact hother j

/-! ## What a step can do -/

/-- The cases of `step`, each with what it does to the cluster and to the machines. -/
inductive Effect (codec : Codec) (M : Members) (s : System σ) : Step → System σ → Prop
  | idle {a : Step} : Effect codec M s a s
  | raft {a : Action} (same : rebooted a = none) :
      Effect codec M s (.raft a) { s with cluster := s.cluster.step M a }
  | reboot {a : Action} {i : NodeId} {sm : StateMachine} (process : rebooted a = some i)
      (started : (s.machines i).restart = .ok sm) :
      Effect codec M s (.raft a) ({ s with cluster := s.cluster.step M a }.setMachine i sm)
  | write {i : NodeId} {cmd : Command} {logIndex term : ℕ} (member : i ∈ M.ids)
      (proposed : ((s.cluster.nodes i).propose (codec.marshal cmd)).1 = some (logIndex, term)) :
      Effect codec M s (.write i cmd)
        ({ s with cluster := s.cluster.propose i (codec.marshal cmd) }.setMachine i
          { s.machines i with
            pending := (s.machines i).pending.insert logIndex ⟨logIndex, term, cmd⟩ })
  | dispatch {i : NodeId} {msg : ApplyMsg} {rest : List ApplyMsg}
      (next : (s.cluster.nodes i).applyCh = msg :: rest) :
      Effect codec M s (.dispatch i)
        ({ s with
          cluster := s.cluster.setNode i { s.cluster.nodes i with applyCh := rest }
        }.setMachine i ((s.machines i).dispatch codec msg))
  | snapshotFailed {i : NodeId} :
      Effect codec M s (.snapshot i)
        (s.setMachine i { s.machines i with snapshotDue := none })
  | snapshot {i : NodeId} {data : Bytes} {index term : ℕ}
      (due : (s.machines i).snapshotDue = some (index, term))
      (taken : (s.machines i).engine.snapshot = .ok data) :
      Effect codec M s (.snapshot i)
        ({ s with cluster := s.cluster.step M (.compactLog i data index term) }.setMachine i
          { s.machines i with snapshotDue := none })
  | maintain {a : Step} {i : NodeId} (work : Engine → Engine) :
      Effect codec M s a (s.maintain i work)

theorem step_effect (codec : Codec) (M : Members) (s : System σ) (a : Step) :
    Effect codec M s a (s.step codec M a) := by
  cases a with
  | raft a =>
      simp only [step, System.raft]
      split
      · next hsame => exact .raft hsame
      · next i hprocess =>
          split
          · exact .idle
          · next sm hstarted => exact .reboot hprocess hstarted
  | write i cmd =>
      simp only [step]
      split
      · next hmember =>
          simp only [System.write, StateMachine.proposeWrite]
          cases hproposed : ((s.cluster.nodes i).propose (codec.marshal cmd)).1 with
          | none => exact .idle
          | some result => exact .write hmember hproposed
      · exact .idle
  | dispatch i =>
      simp only [step, System.dispatch]
      split
      · exact .idle
      · split
        · exact .idle
        · next msg rest hnext => exact .dispatch hnext
  | snapshot i =>
      simp only [step, System.snapshot]
      split
      · exact .idle
      · next index term hdue =>
          split
          · exact .snapshotFailed
          · next data htaken => exact .snapshot hdue htaken
  | flush i => exact .maintain _
  | compactTables i => exact .maintain _

/-! ## Entries and their makers -/

/-- Restarts keep what the node's memory held. -/
def Resumes : Step → Prop
  | .raft a => a.resumes
  | _ => True

omit [PersistentState σ] in
/-- The entry that a step makes, if it is a proposal to a leader. -/
def Makes (codec : Codec) (s : System σ) (e : LogEntry) : Step → Prop
  | .write i cmd => (s.cluster.nodes i).role = .leader ∧
      e = (s.cluster.nodes i).nextEntry (codec.marshal cmd)
  | .raft (.propose i data) => (s.cluster.nodes i).role = .leader ∧
      e = (s.cluster.nodes i).nextEntry data
  | _ => False

/-- The invariants of the cluster under the servers. -/
structure Sourced (M : Members) (K : Set LogEntry) (s : System σ) : Prop where
  election : ElectionInv M s.cluster
  created : Created K s.cluster

variable {codec : Codec} {M : Members} {K : Set LogEntry} {s : System σ}

theorem Sourced.initial (M : Members) (snapshotInterval : NodeId → ℕ) :
    Sourced M ∅ (initial M snapshotInterval : System σ) :=
  ⟨.initial M, .initial M⟩

theorem Sourced.cluster_step (codec : Codec) (h : Sourced M K s) {a : Action} (ha : a.resumes) :
    ElectionInv M (s.cluster.step M a) ∧
      ∃ K', K ⊆ K' ∧ Created K' (s.cluster.step M a) ∧
        ∀ e ∈ K', e ∈ K ∨ s.Makes codec e (.raft a) := by
  have hE' : ElectionInv M (s.cluster.step M a) := by
    refine h.election.step a ?_ ?_
    · rintro i rfl
      simp [Action.resumes] at ha
    · rintro i inside calls rfl
      simp [Action.resumes] at ha
  obtain ⟨K', hsub, hcreated, hmade⟩ := h.created.step h.election ha hE'
  refine ⟨hE', K', hsub, hcreated, fun e he => (hmade e he).imp_right ?_⟩
  rintro ⟨i, data, rfl, hleader, heq⟩
  exact ⟨hleader, heq⟩

omit [PersistentState σ] in
/-- Taking a message from `ApplyCh` adds nothing. -/
theorem Sourced.take (h : Sourced M K s) {i : NodeId} {msg : ApplyMsg} {rest : List ApplyMsg}
    (hnext : (s.cluster.nodes i).applyCh = msg :: rest) :
    ElectionInv M (s.cluster.setNode i { s.cluster.nodes i with applyCh := rest }) ∧
      Created K (s.cluster.setNode i { s.cluster.nodes i with applyCh := rest }) := by
  have hquiet : Quiet (s.cluster.nodes i) { s.cluster.nodes i with applyCh := rest } :=
    .of_electoral rfl
  have hE' : ElectionInv M (s.cluster.setNode i { s.cluster.nodes i with applyCh := rest }) :=
    h.election.quiet_setNode hquiet rfl rfl
  refine ⟨hE', h.created.quiet hE' rfl ?_ hquiet h.created.carried⟩
  have hanchored := h.created.anchored i
  refine ⟨⟨hanchored.nonempty, hanchored.committed⟩, fun e he => .inl he, fun e he => .inl ?_,
    fun _ => le_rfl⟩
  rw [hnext]
  exact List.mem_cons_of_mem _ he

end System

end RaftKV.Server
