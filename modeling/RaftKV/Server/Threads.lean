import RaftKV.Mutex
import RaftKV.Raft.Cluster
import RaftKV.Server.StateMachine

/-!
# Locks and the channel between the node and the state machine

The atomic models have a critical section send all its messages at once.  Here `ApplyCh` has
its capacity, messages are sent and received one by one, and the goroutines of a server wait for
each other: calls of `ProposeWrite` take `sm.mu`, then `n.mu` inside `Propose`; RPC handlers and
timers take `n.mu`; both send what they commit before they let go of anything.  The apply loop
takes `sm.mu` for each message and `n.mu` when it has the log compacted.

The critical sections themselves are those of the atomic models.  Nobody sees the node while
`n.mu` is held, so a section may be run when the lock is taken, and what it has to send follows
message by message.  A call of `ProposeWrite` is followed to the registration of its waiter;
that it then waits for its entry to be applied is not part of this model.  Nothing is stopped.
-/

namespace RaftKV.Server

open RaftKV.Raft RaftKV.Storage

variable {σ : Type}

/-! ## Where a thread stands -/

/-- The apply loop, or a goroutine by its number. -/
inductive Thread
  | loop
  | call (i : ℕ)
  deriving DecidableEq, Repr

/-- `applyLoop`. -/
inductive LoopPc
  /-- In front of the receive. -/
  | receive
  /-- In front of `sm.mu.Lock()`. -/
  | lock (msg : ApplyMsg)
  /-- Inside `sm.mu`. -/
  | apply (msg : ApplyMsg)
  /-- In `CompactLog`, in front of `n.mu.Lock()`. -/
  | lockNode (data : Bytes) (index term : ℕ)
  /-- Inside `n.mu`. -/
  | compact (data : Bytes) (index term : ℕ)
  deriving DecidableEq, Repr

inductive Goroutine
  /-- `ProposeWrite` in front of `sm.mu.Lock()`. -/
  | write (cmd : Command)
  /-- `ProposeWrite` inside `sm.mu`, in front of `n.mu.Lock()` in `Propose`. -/
  | propose (cmd : Command)
  /-- A critical section of the node in front of `n.mu.Lock()`. -/
  | call (inside : Section)
  /-- Inside `n.mu`, with the messages that are left to be sent.  In `ProposeWrite` it goes back
  to its caller with what `Propose` returns. -/
  | sending (unsent : List ApplyMsg) (back : Option (Command × Option (ℕ × ℕ)))
  /-- `ProposeWrite` inside `sm.mu`, in front of the registration of its waiter. -/
  | register (cmd : Command) (result : Option (ℕ × ℕ))
  | finished

namespace LoopPc

def inMachine : LoopPc → Bool
  | apply _ => true
  | _ => false

def inNode : LoopPc → Bool
  | compact _ _ _ => true
  | _ => false

/-- A loop that is ready to receive takes one message more than the channel holds. -/
def spare : LoopPc → ℕ
  | receive => 1
  | _ => 0

def rank : LoopPc → ℕ
  | lock _ => 0
  | apply _ => 1
  | lockNode _ _ _ => 1
  | compact _ _ _ => 2
  | receive => 3

end LoopPc

namespace Goroutine

def inMachine : Goroutine → Bool
  | propose _ => true
  | sending _ back => back.isSome
  | register _ _ => true
  | _ => false

def inNode : Goroutine → Bool
  | sending _ _ => true
  | _ => false

def rank : Goroutine → ℕ
  | write _ => 0
  | propose _ => 1
  | call _ => 1
  | register _ _ => 1
  | sending _ _ => 2
  | finished => 0

/-- Behind the critical section of the node. -/
def afterNode : Option (Command × Option (ℕ × ℕ)) → Goroutine
  | none => finished
  | some (cmd, result) => register cmd result

end Goroutine

/-! ## The threads of a server -/

/-- The capacity of `ApplyCh`. -/
def applyChCapacity : ℕ := 4096

/-- A server with its goroutines.  The node's own `applyCh` is empty: what it sends goes to
`channel`. -/
structure Threads (σ : Type) where
  node : Node σ
  machine : StateMachine
  channel : List ApplyMsg
  loop : LoopPc
  goroutines : List Goroutine
  machineMu : Mutex Thread
  nodeMu : Mutex Thread

inductive ThreadEvent
  /-- A client calls `ProposeWrite`. -/
  | write (cmd : Command)
  /-- An RPC arrives, a reply to one, or a timer fires. -/
  | call (inside : Section)
  | run (t : Thread)

/-- The registration of a waiter, or none if the node is not the leader. -/
def StateMachine.register (sm : StateMachine) (cmd : Command) : Option (ℕ × ℕ) → StateMachine
  | none => sm
  | some (logIndex, term) =>
      { sm with pending := sm.pending.insert logIndex ⟨logIndex, term, cmd⟩ }

/-- `ProposeWrite` of the atomic model is `Propose` and the registration. -/
theorem StateMachine.proposeWrite_eq [PersistentState σ] (codec : Codec) (sm : StateMachine)
    (n : Node σ) (cmd : Command) : sm.proposeWrite codec n cmd =
      (n.propose (codec.marshal cmd)).1.map fun result => sm.register cmd (some result) := by
  unfold proposeWrite
  cases (n.propose (codec.marshal cmd)).1 with
  | none => rfl
  | some result => rfl

/-- The apply loop behind `sm.mu`: `maybeSnapshot` if a snapshot is due. -/
def StateMachine.afterApply (sm : StateMachine) : LoopPc :=
  match sm.snapshotDue with
  | none => .receive
  | some (index, term) =>
      match sm.engine.snapshot with
      | .error _ => .receive
      | .ok data => .lockNode data index term

namespace Threads

variable [PersistentState σ]

omit [PersistentState σ] in
/-- A server that has nothing to do. -/
def resting (n : Node σ) (sm : StateMachine) : Threads σ :=
  ⟨{ n with applyCh := [] }, sm, [], .receive, [], none, none⟩

omit [PersistentState σ] in
/-- A goroutine takes `n.mu` and runs its critical section up to the first send. -/
def enter (w : Threads σ) (i : ℕ) (n : Node σ) (back : Option (Command × Option (ℕ × ℕ))) :
    Threads σ :=
  { w with
    node := { n with applyCh := [] }
    nodeMu := some (.call i)
    goroutines := w.goroutines.set i (.sending n.applyCh back) }

/-- A step of the apply loop; `none` if it has to wait. -/
def moveLoop (codec : Codec) (w : Threads σ) : Option (Threads σ) :=
  match w.loop with
  | .receive =>
      match w.channel with
      | [] => none
      | msg :: rest => some { w with channel := rest, loop := .lock msg }
  | .lock msg =>
      match w.machineMu with
      | none => some { w with machineMu := some .loop, loop := .apply msg }
      | some _ => none
  | .apply msg => some
      { w with
        machine := { w.machine.dispatch codec msg with snapshotDue := none }
        machineMu := none
        loop := (w.machine.dispatch codec msg).afterApply }
  | .lockNode data index term =>
      match w.nodeMu with
      | none => some { w with nodeMu := some .loop, loop := .compact data index term }
      | some _ => none
  | .compact data index term => some
      { w with
        node := (w.node.compactLog data index term).2
        nodeMu := none
        loop := .receive }

/-- A step of a goroutine. -/
def moveCall (codec : Codec) (w : Threads σ) (i : ℕ) : Goroutine → Option (Threads σ)
  | .write cmd =>
      match w.machineMu with
      | none => some { w with
          machineMu := some (.call i)
          goroutines := w.goroutines.set i (.propose cmd) }
      | some _ => none
  | .propose cmd =>
      match w.nodeMu with
      | none => some (w.enter i (w.node.propose (codec.marshal cmd)).2
          (some (cmd, (w.node.propose (codec.marshal cmd)).1)))
      | some _ => none
  | .call inside =>
      match w.nodeMu with
      | none => some (w.enter i (inside.run w.node) none)
      | some _ => none
  | .sending (msg :: unsent) back =>
      if w.channel.length < applyChCapacity then some
        { w with
          channel := w.channel ++ [msg]
          goroutines := w.goroutines.set i (.sending unsent back) }
      else none
  | .sending [] back => some
      { w with
        nodeMu := none
        goroutines := w.goroutines.set i (.afterNode back) }
  | .register cmd result => some
      { w with
        machine := w.machine.register cmd result
        machineMu := none
        goroutines := w.goroutines.set i .finished }
  | .finished => none

def move (codec : Codec) (w : Threads σ) : Thread → Option (Threads σ)
  | .loop => w.moveLoop codec
  | .call i => w.goroutines[i]?.bind (w.moveCall codec i)

def step (codec : Codec) (w : Threads σ) : ThreadEvent → Threads σ
  | .write cmd => { w with goroutines := w.goroutines ++ [.write cmd] }
  | .call inside => { w with goroutines := w.goroutines ++ [.call inside] }
  | .run t => (w.move codec t).getD w

omit [PersistentState σ] in
/-- A thread has something to do: a message to receive, or a function to finish. -/
def Active (w : Threads σ) : Thread → Prop
  | .loop => w.loop ≠ .receive ∨ w.channel ≠ []
  | .call i => ∃ g, w.goroutines[i]? = some g ∧ g ≠ .finished

/-- Something is to be done, and no thread can take a step. -/
def Stuck (codec : Codec) (w : Threads σ) : Prop :=
  (∃ t, w.Active t) ∧ ∀ t, w.move codec t = none

/-- The node that a goroutine leaves if it takes `n.mu` now. -/
def entering (codec : Codec) (w : Threads σ) (i : ℕ) : Option (Node σ) :=
  match w.nodeMu, w.goroutines[i]? with
  | none, some (.propose cmd) => some (w.node.propose (codec.marshal cmd)).2
  | none, some (.call inside) => some (inside.run w.node)
  | _, _ => none

omit [PersistentState σ] in
/-- There is room for `k` more messages. -/
def HasRoom (w : Threads σ) (k : ℕ) : Prop :=
  w.channel.length + k ≤ applyChCapacity + w.loop.spare

omit [PersistentState σ] in
instance decidableHasRoom (w : Threads σ) (k : ℕ) : Decidable (w.HasRoom k) :=
  inferInstanceAs (Decidable (_ ≤ _))

/-- Who takes `n.mu` finds room for what it will send. -/
def Room (codec : Codec) (w : Threads σ) : ThreadEvent → Prop
  | .run (.call i) => ∀ n ∈ w.entering codec i, w.HasRoom n.applyCh.length
  | _ => True

instance decidableRoom (codec : Codec) (w : Threads σ) : (event : ThreadEvent) →
    Decidable (w.Room codec event)
  | .run (.call i) =>
      inferInstanceAs (Decidable (∀ n ∈ w.entering codec i, w.HasRoom n.applyCh.length))
  | .run .loop => inferInstanceAs (Decidable True)
  | .write _ => inferInstanceAs (Decidable True)
  | .call _ => inferInstanceAs (Decidable True)

/-! ## The discipline of the locks -/

section

variable {onLoop : LoopPc → Bool} {onCall : Goroutine → Bool} {codec : Codec}
  {w w' : Threads σ} {i : ℕ} {g g' : Goroutine}

omit [PersistentState σ] in
/-- The threads whose place passes a test. -/
def Inside (onLoop : LoopPc → Bool) (onCall : Goroutine → Bool) (w : Threads σ) : Thread → Prop
  | .loop => onLoop w.loop
  | .call i => w.goroutines[i]?.any onCall

omit [PersistentState σ] in
/-- Both locks are held by the threads that stand inside them, and the channel keeps its
capacity. -/
structure Orderly (w : Threads σ) : Prop where
  machineMu : w.machineMu.Guards (w.Inside LoopPc.inMachine Goroutine.inMachine)
  nodeMu : w.nodeMu.Guards (w.Inside LoopPc.inNode Goroutine.inNode)
  capacity : w.channel.length ≤ applyChCapacity

omit [PersistentState σ] in
theorem inside_call (hg : w.goroutines[i]? = some g) :
    w.Inside onLoop onCall (.call i) ↔ onCall g := by
  simp [Inside, hg]

omit [PersistentState σ] in
theorem exists_of_inside (h : w.Inside onLoop onCall (.call i)) :
    ∃ g, w.goroutines[i]? = some g ∧ onCall g := by
  have h : w.goroutines[i]?.any onCall := h
  cases hg : w.goroutines[i]? with
  | none => simp [hg] at h
  | some g => exact ⟨g, rfl, by simpa [hg] using h⟩

omit [PersistentState σ] in
theorem getElem?_set (hg : w.goroutines[i]? = some g)
    (hset : w'.goroutines = w.goroutines.set i g') : w'.goroutines[i]? = some g' := by
  rw [hset, List.getElem?_set_self (List.getElem?_eq_some_iff.mp hg).1]

omit [PersistentState σ] in
/-- A goroutine moves, and the others stand where they stood. -/
theorem guards_call {mu mu' : Mutex Thread} (h : mu.Guards (w.Inside onLoop onCall))
    (hg : w.goroutines[i]? = some g) (hset : w'.goroutines = w.goroutines.set i g')
    (hloop : w'.loop = w.loop) (hstep : Mutex.Step (.call i) mu mu' (onCall g) (onCall g')) :
    mu'.Guards (w'.Inside onLoop onCall) := by
  have hbefore : w.Inside onLoop onCall (.call i) ↔ onCall g := inside_call hg
  have hafter : w'.Inside onLoop onCall (.call i) ↔ onCall g' := inside_call (getElem?_set hg hset)
  rw [← propext hbefore, ← propext hafter] at hstep
  refine h.step hstep fun u hne => ?_
  cases u with
  | loop => simp [Inside, hloop]
  | call j =>
      have hij : i ≠ j := fun heq => hne (heq ▸ rfl)
      simp [Inside, hset, List.getElem?_set_ne hij]

omit [PersistentState σ] in
/-- The loop moves, and the goroutines stand where they stood. -/
theorem guards_loop {mu mu' : Mutex Thread} (h : mu.Guards (w.Inside onLoop onCall))
    (hsame : w'.goroutines = w.goroutines)
    (hstep : Mutex.Step .loop mu mu' (onLoop w.loop) (onLoop w'.loop)) :
    mu'.Guards (w'.Inside onLoop onCall) := by
  refine h.step hstep fun u hne => ?_
  cases u with
  | loop => exact absurd rfl hne
  | call j => simp [Inside, hsame]

omit [PersistentState σ] in
/-- A goroutine is started outside of a lock. -/
theorem guards_start {mu : Mutex Thread} (h : mu.Guards (w.Inside onLoop onCall))
    (hout : onCall g = false) (hnew : w'.goroutines = w.goroutines ++ [g])
    (hloop : w'.loop = w.loop) : mu.Guards (w'.Inside onLoop onCall) := by
  intro t
  rw [← h t]
  cases t with
  | loop => simp [Inside, hloop]
  | call j =>
      rcases Nat.lt_or_ge j w.goroutines.length with hlt | hge
      · simp [Inside, hnew, List.getElem?_append_left hlt]
      · -- a new goroutine, or none at all
        have hnone : w.goroutines[j]? = none := List.getElem?_eq_none hge
        have hany : [g][j - w.goroutines.length]?.any onCall = false := by
          cases hg : [g][j - w.goroutines.length]? with
          | none => rfl
          | some g' =>
              obtain rfl := List.mem_singleton.mp (List.mem_of_getElem? hg)
              exact hout
        simp [Inside, hnew, List.getElem?_append_right hge, hnone, hany]

/-- What a step of a goroutine does to the locks and to the channel: it sends a message, or it
leaves the channel alone and is about to send only if it has just taken `n.mu`. -/
theorem moveCall_cases (hg : w.goroutines[i]? = some g)
    (hmove : w.moveCall codec i g = some w') :
    ∃ g', w'.goroutines = w.goroutines.set i g' ∧ w'.loop = w.loop ∧
      Mutex.Step (.call i) w.machineMu w'.machineMu g.inMachine g'.inMachine ∧
      Mutex.Step (.call i) w.nodeMu w'.nodeMu g.inNode g'.inNode ∧
      ((w'.channel = w.channel ∧ ∀ unsent back, g' = .sending unsent back →
          ∃ n ∈ w.entering codec i, n.applyCh = unsent) ∨
        ∃ msg unsent back, g = .sending (msg :: unsent) back ∧ g' = .sending unsent back ∧
          w'.channel = w.channel ++ [msg] ∧ w.channel.length < applyChCapacity) := by
  cases g with
  | write cmd =>
      cases hmu : w.machineMu with
      | none =>
          simp only [moveCall, hmu, Option.some.injEq] at hmove
          subst hmove
          exact ⟨_, rfl, rfl, .lock rfl, .keep .rfl, .inl ⟨rfl, fun _ _ h => nomatch h⟩⟩
      | some t => simp [moveCall, hmu] at hmove
  | propose cmd =>
      cases hmu : w.nodeMu with
      | none =>
          simp only [moveCall, hmu, Option.some.injEq] at hmove
          subst hmove
          refine ⟨_, rfl, rfl, .keep .rfl, .lock rfl, .inl ⟨rfl, fun unsent back h => ?_⟩⟩
          refine ⟨(w.node.propose (codec.marshal cmd)).2, ?_, (Goroutine.sending.inj h).1⟩
          simp [entering, hmu, hg]
      | some t => simp [moveCall, hmu] at hmove
  | call inside =>
      cases hmu : w.nodeMu with
      | none =>
          simp only [moveCall, hmu, Option.some.injEq] at hmove
          subst hmove
          refine ⟨_, rfl, rfl, .keep .rfl, .lock rfl, .inl ⟨rfl, fun unsent back h => ?_⟩⟩
          refine ⟨inside.run w.node, ?_, (Goroutine.sending.inj h).1⟩
          simp [entering, hmu, hg]
      | some t => simp [moveCall, hmu] at hmove
  | sending unsent back =>
      cases unsent with
      | nil =>
          simp only [moveCall, Option.some.injEq] at hmove
          subst hmove
          cases back with
          | none =>
              exact ⟨_, rfl, rfl, .keep .rfl, .unlock rfl Bool.false_ne_true,
                .inl ⟨rfl, fun _ _ h => nomatch h⟩⟩
          | some back =>
              exact ⟨_, rfl, rfl, .keep .rfl, .unlock rfl Bool.false_ne_true,
                .inl ⟨rfl, fun _ _ h => nomatch h⟩⟩
      | cons msg unsent =>
          simp only [moveCall] at hmove
          split at hmove
          · next hlt =>
              rw [Option.some.injEq] at hmove
              subst hmove
              exact ⟨_, rfl, rfl, .keep .rfl, .keep .rfl,
                .inr ⟨msg, unsent, back, rfl, rfl, rfl, hlt⟩⟩
          · simp at hmove
  | register cmd result =>
      simp only [moveCall, Option.some.injEq] at hmove
      subst hmove
      exact ⟨_, rfl, rfl, .unlock rfl Bool.false_ne_true, .keep .rfl,
        .inl ⟨rfl, fun _ _ h => nomatch h⟩⟩
  | finished => simp [moveCall] at hmove

omit [PersistentState σ] in
theorem afterApply_outside (sm : StateMachine) :
    sm.afterApply.inMachine = false ∧ sm.afterApply.inNode = false := by
  unfold StateMachine.afterApply
  split
  · exact ⟨rfl, rfl⟩
  · split
    · exact ⟨rfl, rfl⟩
    · exact ⟨rfl, rfl⟩

/-- What a step of the apply loop does to the locks and to the channel: there is never less
room than before. -/
theorem moveLoop_cases (hmove : w.moveLoop codec = some w') :
    w'.goroutines = w.goroutines ∧
      Mutex.Step .loop w.machineMu w'.machineMu w.loop.inMachine w'.loop.inMachine ∧
      Mutex.Step .loop w.nodeMu w'.nodeMu w.loop.inNode w'.loop.inNode ∧
      w'.channel.length ≤ w.channel.length ∧
      w'.channel.length + w.loop.spare ≤ w.channel.length + w'.loop.spare := by
  unfold moveLoop at hmove
  cases hpc : w.loop with
  | receive =>
      rw [hpc] at hmove
      cases hchannel : w.channel with
      | nil => simp [hchannel] at hmove
      | cons msg rest =>
          simp only [hchannel, Option.some.injEq] at hmove
          subst hmove
          exact ⟨rfl, .keep .rfl, .keep .rfl, Nat.le_succ _, le_rfl⟩
  | lock msg =>
      rw [hpc] at hmove
      cases hmu : w.machineMu with
      | none =>
          simp only [hmu, Option.some.injEq] at hmove
          subst hmove
          exact ⟨rfl, .lock rfl, .keep .rfl, le_rfl, le_rfl⟩
      | some t => simp [hmu] at hmove
  | apply msg =>
      simp only [hpc, Option.some.injEq] at hmove
      subst hmove
      obtain ⟨hmachine, hnode⟩ := afterApply_outside (w.machine.dispatch codec msg)
      refine ⟨rfl, .unlock rfl ?_, .keep ?_, le_rfl, Nat.le_add_right _ _⟩
      · simp [hmachine]
      · rw [hnode]
        exact .rfl
  | lockNode data index term =>
      rw [hpc] at hmove
      cases hmu : w.nodeMu with
      | none =>
          simp only [hmu, Option.some.injEq] at hmove
          subst hmove
          exact ⟨rfl, .keep .rfl, .lock rfl, le_rfl, le_rfl⟩
      | some t => simp [hmu] at hmove
  | compact data index term =>
      simp only [hpc, Option.some.injEq] at hmove
      subst hmove
      exact ⟨rfl, .keep .rfl, .unlock rfl Bool.false_ne_true, le_rfl, Nat.le_add_right _ _⟩

omit [PersistentState σ] in
theorem orderly_resting (n : Node σ) (sm : StateMachine) : (resting n sm).Orderly := by
  refine ⟨fun t => ?_, fun t => ?_, Nat.zero_le _⟩
  · cases t with
    | loop => simp [Inside, resting, LoopPc.inMachine]
    | call i => simp [Inside, resting]
  · cases t with
    | loop => simp [Inside, resting, LoopPc.inNode]
    | call i => simp [Inside, resting]

theorem Orderly.move (h : w.Orderly) {t : Thread} (hmove : w.move codec t = some w') :
    w'.Orderly := by
  cases t with
  | loop =>
      obtain ⟨hsame, hmachine, hnode, hchannel, -⟩ := moveLoop_cases hmove
      exact ⟨guards_loop h.machineMu hsame hmachine, guards_loop h.nodeMu hsame hnode,
        hchannel.trans h.capacity⟩
  | call i =>
      obtain ⟨g, hg, hcall⟩ := Option.bind_eq_some_iff.mp hmove
      obtain ⟨g', hset, hloop, hmachine, hnode, hchannel⟩ := moveCall_cases hg hcall
      refine ⟨guards_call h.machineMu hg hset hloop hmachine,
        guards_call h.nodeMu hg hset hloop hnode, ?_⟩
      rcases hchannel with ⟨hsame, -⟩ | ⟨msg, unsent, back, -, -, hsent, hlt⟩
      · rw [hsame]
        exact h.capacity
      · rw [hsent, List.length_append]
        exact hlt

/-- The locks are in order in every run, whatever there is room for. -/
theorem Orderly.step (h : w.Orderly) (event : ThreadEvent) : (w.step codec event).Orderly := by
  cases event with
  | write cmd =>
      exact ⟨guards_start h.machineMu (g := .write cmd) rfl rfl rfl,
        guards_start h.nodeMu (g := .write cmd) rfl rfl rfl, h.capacity⟩
  | call inside =>
      exact ⟨guards_start h.machineMu (g := .call inside) rfl rfl rfl,
        guards_start h.nodeMu (g := .call inside) rfl rfl rfl, h.capacity⟩
  | run t =>
      cases hmove : w.move codec t with
      | none => simpa [Threads.step, hmove] using h
      | some w' => simpa [Threads.step, hmove] using h.move hmove

end

end Threads

end RaftKV.Server
