import RaftKV.Raft.ApplyStream
import RaftKV.Server.Threads

/-!
# Deadlock

A goroutine that sends waits for the apply loop when the channel is full, and the apply loop may
wait for a lock of that goroutine: for `sm.mu` if it is a call of `ProposeWrite`, for `n.mu` if
the loop has the log compacted.  Then nothing moves any more.

It takes a critical section that has more to send than the channel has room for.  As long as
there is none (`Roomy`), waiting is ranked.  Whoever waits for `sm.mu` waits for its holder,
which waits for `n.mu` at most; the holder of `n.mu` waits for the apply loop at most, and only
while the loop is about to receive.

A log that has grown beyond the channel is enough.  After a restart nothing is committed, and
the first entry of the new term commits everything at once.
-/

namespace RaftKV.Server.Threads

open RaftKV.Raft RaftKV.Storage

variable {σ : Type} [PersistentState σ] {codec : Codec} {w w' : Threads σ} {i : ℕ}
  {g g' : Goroutine}

/-! ## Room in the channel -/

omit [PersistentState σ] in
/-- Whoever sends has room for what is left. -/
def Roomy (w : Threads σ) : Prop :=
  ∀ (i : ℕ) (unsent : List ApplyMsg) (back : Option (Command × Option (ℕ × ℕ))),
    w.goroutines[i]? = some (.sending unsent back) → w.HasRoom unsent.length

omit [PersistentState σ] in
/-- Only one goroutine sends at a time. -/
theorem Orderly.sender_unique (h : w.Orderly) {j : ℕ} {unsent unsent' : List ApplyMsg}
    {back back' : Option (Command × Option (ℕ × ℕ))}
    (hi : w.goroutines[i]? = some (.sending unsent back))
    (hj : w.goroutines[j]? = some (.sending unsent' back')) : j = i :=
  Thread.call.inj (h.nodeMu.unique ((inside_call hi).mpr rfl) ((inside_call hj).mpr rfl))

theorem Roomy.loop (h : w.Roomy) (hmove : w.moveLoop codec = some w') : w'.Roomy := by
  obtain ⟨hsame, -, -, -, hroom⟩ := moveLoop_cases hmove
  intro i unsent back hi
  rw [hsame] at hi
  have hbefore : w.HasRoom unsent.length := h i unsent back hi
  unfold HasRoom at hbefore ⊢
  omega

theorem Roomy.call (h : w.Roomy) (hw : w.Orderly) (hg : w.goroutines[i]? = some g)
    (hmove : w.moveCall codec i g = some w')
    (hfits : ∀ n ∈ w.entering codec i, w.HasRoom n.applyCh.length) : w'.Roomy := by
  have hmoved : w.move codec (.call i) = some w' := by simp [move, hg, hmove]
  have hw' := hw.move hmoved
  obtain ⟨g', hset, hloop, -, -, hchannel⟩ := moveCall_cases hg hmove
  have hi := getElem?_set hg hset
  intro j unsent back hj
  rcases hchannel with ⟨hsame, henters⟩ | ⟨msg, unsent', back', rfl, rfl, hsent, -⟩
  · unfold HasRoom
    rw [hsame, hloop]
    rcases eq_or_ne i j with rfl | hne
    · obtain ⟨n, hn, rfl⟩ := henters unsent back (Option.some.inj (hi.symm.trans hj))
      exact hfits n hn
    · rw [hset, List.getElem?_set_ne hne] at hj
      exact h j unsent back hj
  · obtain rfl := hw'.sender_unique hi hj
    obtain ⟨rfl, rfl⟩ := Goroutine.sending.inj (Option.some.inj (hi.symm.trans hj))
    have hbefore : w.HasRoom (unsent'.length + 1) := h j (msg :: unsent') back' hg
    unfold HasRoom at hbefore ⊢
    rw [hsent, hloop, List.length_append, List.length_singleton]
    omega

omit [PersistentState σ] in
theorem Roomy.start (h : w.Roomy) (hg : ∀ unsent back, g ≠ .sending unsent back)
    (hnew : w'.goroutines = w.goroutines ++ [g]) (hloop : w'.loop = w.loop)
    (hchannel : w'.channel = w.channel) : w'.Roomy := by
  intro i unsent back hi
  unfold HasRoom
  rw [hchannel, hloop]
  rw [hnew] at hi
  rcases Nat.lt_or_ge i w.goroutines.length with hlt | hge
  · rw [List.getElem?_append_left hlt] at hi
    exact h i unsent back hi
  · rw [List.getElem?_append_right hge] at hi
    exact absurd (List.mem_singleton.mp (List.mem_of_getElem? hi)).symm (hg unsent back)

theorem Roomy.step (h : w.Roomy) (hw : w.Orderly) {event : ThreadEvent}
    (hroom : w.Room codec event) : (w.step codec event).Roomy := by
  cases event with
  | write cmd => exact h.start (g := .write cmd) (by simp) rfl rfl rfl
  | call inside => exact h.start (g := .call inside) (by simp) rfl rfl rfl
  | run t =>
      cases hmove : w.move codec t with
      | none => simpa [Threads.step, hmove] using h
      | some w' =>
          suffices w'.Roomy by simpa [Threads.step, hmove] using this
          cases t with
          | loop => exact h.loop hmove
          | call i =>
              obtain ⟨g, hg, hcall⟩ := Option.bind_eq_some_iff.mp hmove
              exact h.call hw hg hcall hroom

/-! ## Progress -/

omit [PersistentState σ] in
/-- The place of a thread in the order of waiting. -/
def rank (w : Threads σ) : Thread → ℕ
  | .loop => w.loop.rank
  | .call i => w.goroutines[i]?.elim 0 Goroutine.rank

omit [PersistentState σ] in
theorem rank_le (w : Threads σ) (t : Thread) : w.rank t ≤ 3 := by
  cases t with
  | loop =>
      change w.loop.rank ≤ 3
      cases w.loop <;> simp [LoopPc.rank]
  | call i =>
      change w.goroutines[i]?.elim 0 Goroutine.rank ≤ 3
      cases w.goroutines[i]? with
      | none => simp
      | some g => cases g <;> simp [Goroutine.rank]

omit [PersistentState σ] in
/-- The holder of `sm.mu` waits for `n.mu` at most. -/
theorem Orderly.machine_holder (h : w.Orderly) {t : Thread} (ht : w.machineMu = some t) :
    w.Active t ∧ 1 ≤ w.rank t := by
  have hinside := (h.machineMu t).mpr ht
  cases t with
  | loop =>
      have hinside : w.loop.inMachine := hinside
      cases hpc : w.loop with
      | apply msg => exact ⟨.inl (by simp [hpc]), by simp [rank, hpc, LoopPc.rank]⟩
      | _ => simp [hpc, LoopPc.inMachine] at hinside
  | call i =>
      obtain ⟨g, hg, hin⟩ := exists_of_inside hinside
      cases g with
      | propose cmd => exact ⟨⟨_, hg, by simp⟩, by simp [rank, hg, Goroutine.rank]⟩
      | sending unsent back => exact ⟨⟨_, hg, by simp⟩, by simp [rank, hg, Goroutine.rank]⟩
      | register cmd result => exact ⟨⟨_, hg, by simp⟩, by simp [rank, hg, Goroutine.rank]⟩
      | _ => simp [Goroutine.inMachine] at hin

omit [PersistentState σ] in
/-- The holder of `n.mu` waits for the apply loop at most. -/
theorem Orderly.node_holder (h : w.Orderly) {t : Thread} (ht : w.nodeMu = some t) :
    w.Active t ∧ 2 ≤ w.rank t := by
  have hinside := (h.nodeMu t).mpr ht
  cases t with
  | loop =>
      have hinside : w.loop.inNode := hinside
      cases hpc : w.loop with
      | compact data index term => exact ⟨.inl (by simp [hpc]), by simp [rank, hpc, LoopPc.rank]⟩
      | _ => simp [hpc, LoopPc.inNode] at hinside
  | call i =>
      obtain ⟨g, hg, hin⟩ := exists_of_inside hinside
      cases g with
      | sending unsent back => exact ⟨⟨_, hg, by simp⟩, by simp [rank, hg, Goroutine.rank]⟩
      | _ => simp [Goroutine.inNode] at hin

omit [PersistentState σ] in
/-- A thread that waits for `sm.mu`. -/
theorem Orderly.waits_machine (h : w.Orderly) {t : Thread} (hrank : w.rank t = 0) :
    w.machineMu = none ∨ ∃ u, w.Active u ∧ w.rank t < w.rank u := by
  cases hmu : w.machineMu with
  | none => exact .inl rfl
  | some u =>
      obtain ⟨hactive, hle⟩ := h.machine_holder hmu
      exact .inr ⟨u, hactive, by omega⟩

omit [PersistentState σ] in
/-- A thread that waits for `n.mu`. -/
theorem Orderly.waits_node (h : w.Orderly) {t : Thread} (hrank : w.rank t = 1) :
    w.nodeMu = none ∨ ∃ u, w.Active u ∧ w.rank t < w.rank u := by
  cases hmu : w.nodeMu with
  | none => exact .inl rfl
  | some u =>
      obtain ⟨hactive, hle⟩ := h.node_holder hmu
      exact .inr ⟨u, hactive, by omega⟩

theorem Orderly.loop_waits (h : w.Orderly) (codec : Codec) (hactive : w.Active .loop) :
    (w.move codec .loop).isSome ∨ ∃ u, w.Active u ∧ w.rank .loop < w.rank u := by
  cases hpc : w.loop with
  | receive =>
      refine .inl ?_
      cases hchannel : w.channel with
      | nil => simp [Active, hpc, hchannel] at hactive
      | cons msg rest => simp [Threads.move, moveLoop, hpc, hchannel]
  | lock msg =>
      rcases h.waits_machine (t := .loop) (by simp [rank, hpc, LoopPc.rank]) with hmu | hwaits
      · exact .inl (by simp [Threads.move, moveLoop, hpc, hmu])
      · exact .inr hwaits
  | apply msg => exact .inl (by simp [Threads.move, moveLoop, hpc])
  | lockNode data index term =>
      rcases h.waits_node (t := .loop) (by simp [rank, hpc, LoopPc.rank]) with hmu | hwaits
      · exact .inl (by simp [Threads.move, moveLoop, hpc, hmu])
      · exact .inr hwaits
  | compact data index term => exact .inl (by simp [Threads.move, moveLoop, hpc])

omit [PersistentState σ] in
theorem Roomy.receives (h : w.Roomy) {msg : ApplyMsg} {unsent : List ApplyMsg}
    {back : Option (Command × Option (ℕ × ℕ))}
    (hg : w.goroutines[i]? = some (.sending (msg :: unsent) back))
    (hfull : ¬ w.channel.length < applyChCapacity) :
    w.loop = .receive ∧ w.channel ≠ [] := by
  have hroom : w.HasRoom (unsent.length + 1) := h i _ back hg
  unfold HasRoom at hroom
  refine ⟨?_, ?_⟩
  · cases hpc : w.loop with
    | receive => rfl
    | _ =>
        simp only [hpc, LoopPc.spare] at hroom
        omega
  · rintro hnil
    simp [hnil, applyChCapacity] at hfull

theorem Orderly.call_waits (h : w.Orderly) (codec : Codec) (hroom : w.Roomy)
    (hg : w.goroutines[i]? = some g) (hne : g ≠ .finished) :
    (w.moveCall codec i g).isSome ∨ ∃ u, w.Active u ∧ w.rank (.call i) < w.rank u := by
  have hrank : w.rank (.call i) = g.rank := by simp [rank, hg]
  cases g with
  | write cmd =>
      rcases h.waits_machine hrank with hmu | hwaits
      · exact .inl (by simp [moveCall, hmu])
      · exact .inr hwaits
  | propose cmd =>
      rcases h.waits_node hrank with hmu | hwaits
      · exact .inl (by simp [moveCall, hmu])
      · exact .inr hwaits
  | call inside =>
      rcases h.waits_node hrank with hmu | hwaits
      · exact .inl (by simp [moveCall, hmu])
      · exact .inr hwaits
  | sending unsent back =>
      cases unsent with
      | nil => exact .inl rfl
      | cons msg unsent =>
          by_cases hlt : w.channel.length < applyChCapacity
          · exact .inl (by simp [moveCall, hlt])
          · -- the channel is full, and the loop is about to receive
            obtain ⟨hpc, hchannel⟩ := hroom.receives hg hlt
            refine .inr ⟨.loop, .inr hchannel, ?_⟩
            rw [hrank]
            simp [rank, hpc, LoopPc.rank, Goroutine.rank]
  | register cmd result => exact .inl rfl
  | finished => exact absurd rfl hne

/-- With room in the channel some thread can take a step. -/
theorem Orderly.not_stuck (h : w.Orderly) (codec : Codec) (hroom : w.Roomy) : ¬ w.Stuck codec := by
  rintro ⟨⟨t, ht⟩, hnone⟩
  have hwaits : ∀ t, w.Active t →
      (w.move codec t).isSome ∨ ∃ u, w.Active u ∧ w.rank t < w.rank u := by
    intro t ht
    cases t with
    | loop => exact h.loop_waits codec ht
    | call i =>
        obtain ⟨g, hg, hne⟩ := ht
        simpa [Threads.move, hg] using h.call_waits codec hroom hg hne
  obtain ⟨u, hmove⟩ := exists_ready w.rank_le hwaits ht
  simp [hnone u] at hmove

/-! ## Too much to send -/

/-- A call of `ProposeWrite` in front of a full channel, and the apply loop in front of one of its
locks. -/
theorem Orderly.stuck_of_full (h : w.Orderly) {msg : ApplyMsg} {unsent : List ApplyMsg}
    {back : Command × Option (ℕ × ℕ)}
    (hi : w.goroutines[i]? = some (.sending (msg :: unsent) (some back)))
    (hloop : w.loop ≠ .receive) (hfull : ¬ w.channel.length < applyChCapacity) :
    w.Stuck codec := by
  have hmachine : w.machineMu = some (.call i) :=
    (h.machineMu (.call i)).mp ((inside_call hi).mpr rfl)
  have hnode : w.nodeMu = some (.call i) := (h.nodeMu (.call i)).mp ((inside_call hi).mpr rfl)
  refine ⟨⟨.call i, _, hi, by simp⟩, fun t => ?_⟩
  cases t with
  | loop =>
      cases hpc : w.loop with
      | receive => exact absurd hpc hloop
      | lock msg => simp [Threads.move, moveLoop, hpc, hmachine]
      | apply msg =>
          have hholder := (h.machineMu .loop).mp (by simp [Inside, hpc, LoopPc.inMachine])
          simp [hmachine] at hholder
      | lockNode data index term => simp [Threads.move, moveLoop, hpc, hnode]
      | compact data index term =>
          have hholder := (h.nodeMu .loop).mp (by simp [Inside, hpc, LoopPc.inNode])
          simp [hnode] at hholder
  | call j =>
      cases hg : w.goroutines[j]? with
      | none => simp [Threads.move, hg]
      | some g =>
          rcases eq_or_ne j i with rfl | hne
          · simp [Threads.move, hi, moveCall, hfull]
          · have hin : g.inMachine = false ∧ g.inNode = false := by
              refine ⟨?_, ?_⟩
              · by_contra hin
                have hholder := (h.machineMu (.call j)).mp
                  ((inside_call hg).mpr (by simpa using hin))
                simp [hmachine, hne.symm] at hholder
              · by_contra hin
                have hholder := (h.nodeMu (.call j)).mp
                  ((inside_call hg).mpr (by simpa using hin))
                simp [hnode, hne.symm] at hholder
            cases g with
            | write cmd => simp [Threads.move, hg, moveCall, hmachine]
            | call inside => simp [Threads.move, hg, moveCall, hnode]
            | finished => simp [Threads.move, hg, moveCall]
            | _ => simp [Goroutine.inMachine, Goroutine.inNode] at hin

theorem reaches_move {t : Thread} (hmove : w.move codec t = some w') :
    Reaches (step codec) (fun _ _ => True) w w' := by
  have hnext : Reaches (step codec) (fun _ _ => True) w (w.step codec (.run t)) :=
    .next .refl trivial
  simpa [step, hmove] using hnext

/-- The caller sends until the channel is full. -/
theorem Orderly.exists_stuck_of_blocked (h : w.Orderly) (codec : Codec) {unsent : List ApplyMsg}
    {back : Command × Option (ℕ × ℕ)}
    (hi : w.goroutines[i]? = some (.sending unsent (some back))) (hloop : w.loop ≠ .receive)
    (hover : applyChCapacity < w.channel.length + unsent.length) :
    ∃ w', Reaches (Threads.step codec) (fun _ _ => True) w w' ∧ w'.Stuck codec := by
  have hcapacity := h.capacity
  induction hd : applyChCapacity - w.channel.length generalizing w unsent with
  | zero =>
      cases unsent with
      | nil =>
          rw [List.length_nil] at hover
          omega
      | cons msg unsent => exact ⟨w, .refl, h.stuck_of_full hi hloop (by omega)⟩
  | succ d ih =>
      cases unsent with
      | nil =>
          rw [List.length_nil] at hover
          omega
      | cons msg unsent =>
          have hlt : w.channel.length < applyChCapacity := by omega
          have hmove : w.move codec (.call i) = some { w with
              channel := w.channel ++ [msg]
              goroutines := w.goroutines.set i (.sending unsent (some back)) } := by
            simp [Threads.move, hi, moveCall, hlt]
          have h' := h.move hmove
          obtain ⟨w', hrun, hstuck⟩ := ih h' (getElem?_set hi rfl) hloop
            (by simp only [List.length_append, List.length_cons, List.length_nil] at hover ⊢; omega)
            h'.capacity
            (by simp only [List.length_append, List.length_cons, List.length_nil]; omega)
          exact ⟨w', (reaches_move hmove).trans hrun, hstuck⟩

/-- The apply loop takes a message, and then it waits for `sm.mu`. -/
theorem Orderly.exists_stuck_of_receive (h : w.Orderly) (codec : Codec) {unsent : List ApplyMsg}
    {back : Command × Option (ℕ × ℕ)}
    (hi : w.goroutines[i]? = some (.sending unsent (some back))) (hloop : w.loop = .receive)
    (hne : w.channel ≠ []) (hover : applyChCapacity + 1 < w.channel.length + unsent.length) :
    ∃ w', Reaches (Threads.step codec) (fun _ _ => True) w w' ∧ w'.Stuck codec := by
  obtain ⟨msg, rest, hchannel⟩ := List.exists_cons_of_ne_nil hne
  have hmove : w.move codec .loop = some { w with channel := rest, loop := .lock msg } := by
    simp [Threads.move, moveLoop, hloop, hchannel]
  have hover' : applyChCapacity < rest.length + unsent.length := by
    rw [hchannel, List.length_cons] at hover
    omega
  obtain ⟨w', hrun, hstuck⟩ :=
    (h.move hmove).exists_stuck_of_blocked codec hi (by simp) hover'
  exact ⟨w', (reaches_move hmove).trans hrun, hstuck⟩

/-- A call of `ProposeWrite` that has more to send than there is room for. -/
theorem Orderly.exists_stuck (h : w.Orderly) (codec : Codec) {unsent : List ApplyMsg}
    {back : Command × Option (ℕ × ℕ)}
    (hi : w.goroutines[i]? = some (.sending unsent (some back)))
    (hover : ¬ w.HasRoom unsent.length) :
    ∃ w', Reaches (Threads.step codec) (fun _ _ => True) w w' ∧ w'.Stuck codec := by
  have hover := not_le.mp hover
  cases hpc : w.loop with
  | receive =>
      have hover : applyChCapacity + 1 < w.channel.length + unsent.length := by rwa [hpc] at hover
      cases hchannel : w.channel with
      | nil =>
          -- there is nothing to receive before the first message is sent
          rw [hchannel, List.length_nil] at hover
          obtain ⟨msg, unsent, rfl⟩ :=
            List.exists_cons_of_ne_nil (List.ne_nil_of_length_pos (by omega : 0 < unsent.length))
          have hmove : w.move codec (.call i) = some { w with
              channel := [msg]
              goroutines := w.goroutines.set i (.sending unsent (some back)) } := by
            simp [Threads.move, hi, moveCall, hchannel, applyChCapacity]
          rw [List.length_cons] at hover
          obtain ⟨w', hrun, hstuck⟩ := (h.move hmove).exists_stuck_of_receive codec
            (getElem?_set hi rfl) hpc (by simp) (by simp only [List.length_singleton]; omega)
          exact ⟨w', (reaches_move hmove).trans hrun, hstuck⟩
      | cons msg rest => exact h.exists_stuck_of_receive codec hi hpc (by simp [hchannel]) hover
  | _ =>
      refine h.exists_stuck_of_blocked codec hi (by simp [hpc]) ?_
      rwa [hpc] at hover

/-- The same in front of its critical section. -/
theorem Orderly.exists_stuck_of_propose (h : w.Orderly) (codec : Codec) {cmd : Command}
    (hi : w.goroutines[i]? = some (.propose cmd)) (hmu : w.nodeMu = none)
    (hover : ¬ w.HasRoom (w.node.propose (codec.marshal cmd)).2.applyCh.length) :
    ∃ w', Reaches (Threads.step codec) (fun _ _ => True) w w' ∧ w'.Stuck codec := by
  have hmove : w.move codec (.call i) = some (w.enter i (w.node.propose (codec.marshal cmd)).2
      (some (cmd, (w.node.propose (codec.marshal cmd)).1))) := by
    simp [Threads.move, hi, moveCall, hmu]
  obtain ⟨w', hrun, hstuck⟩ := (h.move hmove).exists_stuck codec (getElem?_set hi rfl) hover
  exact ⟨w', (reaches_move hmove).trans hrun, hstuck⟩

/-! ## The theorem -/

/-- The locks are in order in every run, whatever there is room for. -/
theorem orderly_of_reaches {n : Node σ} {sm : StateMachine}
    {ok : Threads σ → ThreadEvent → Prop} (hrun : Reaches (step codec) ok (resting n sm) w) :
    w.Orderly :=
  hrun.invariant (orderly_resting n sm) fun _ event h _ => h.step event

/-- **Deadlock.**  In every run in which whoever takes `n.mu` finds room in the channel for what
it sends, some thread can take a step as long as there is something to do.  And whenever a call
of `ProposeWrite` takes `n.mu` and does not find that room, a deadlock can follow. -/
theorem deadlock_free (codec : Codec) (n : Node σ) (sm : StateMachine) :
    (∀ w, Reaches (step codec) (Room codec) (resting n sm) w → ¬ w.Stuck codec) ∧
      ∀ w, Reaches (step codec) (fun _ _ => True) (resting n sm) w →
        ∀ (i : ℕ) (cmd : Command), w.goroutines[i]? = some (.propose cmd) → w.nodeMu = none →
          ¬ w.HasRoom (w.node.propose (codec.marshal cmd)).2.applyCh.length →
            ∃ w', Reaches (step codec) (fun _ _ => True) w w' ∧ w'.Stuck codec := by
  refine ⟨fun w hrun => ?_, fun w hrun i cmd hi hmu hover => ?_⟩
  · have hinv : w.Orderly ∧ w.Roomy := by
      refine hrun.invariant (P := fun w => w.Orderly ∧ w.Roomy)
        ⟨orderly_resting n sm, fun i unsent back hi => by simp [resting] at hi⟩ ?_
      rintro w event ⟨hw, hroomy⟩ hroom
      exact ⟨hw.step event, hroomy.step hw hroom⟩
    exact hinv.1.not_stuck codec hinv.2
  · exact (orderly_of_reaches hrun).exists_stuck_of_propose codec hi hmu hover

/-- Two writes to a server without peers that compacts its log behind every entry.  At the end
the second write sends, and the apply loop waits for its lock. -/
def twoWriters : List ThreadEvent :=
  [.call .electionTimeout, .run (.call 0), .run (.call 0),
    .write ⟨.put, [107], [1], "", 0⟩, .write ⟨.put, [107], [2], "", 0⟩,
    .run (.call 1), .run (.call 1), .run (.call 1), .run .loop, .run (.call 1), .run (.call 1),
    .run .loop, .run .loop, .run (.call 2), .run (.call 2)]

theorem deadlock_free_twoWriters :
    let w : Threads MemState := twoWriters.foldl (step valueCodec)
      (resting (.newNode ⟨"a", []⟩ PersistentState.fresh) (.new .fresh 1))
    w.loop.rank = 1 ∧ w.nodeMu = some (.call 2) ∧ w.machineMu = some (.call 2) ∧
      ¬ w.Stuck valueCodec := by
  intro w
  have hrun : Allowed (step valueCodec) (Room valueCodec)
      (resting (.newNode ⟨"a", []⟩ PersistentState.fresh) (.new .fresh 1) : Threads MemState)
      twoWriters ∧ w.loop.rank = 1 ∧ w.nodeMu = some (.call 2) ∧
        w.machineMu = some (.call 2) := by
    decide +kernel
  obtain ⟨hallowed, hloop, hnode, hmachine⟩ := hrun
  exact ⟨hloop, hnode, hmachine, (deadlock_free valueCodec _ _).1 w (.foldl .refl _ hallowed)⟩

/-! ## The first write behind a restart -/

/-- A leader without peers commits with its next entry everything that it has. -/
theorem length_sent_propose {n : Node σ} (data : Bytes) (hleader : n.role = .leader)
    (halone : n.cfg.peers = []) (hne : n.log ≠ []) (hbase : n.lastIncludedIndex ≤ n.commitIndex)
    (hcommit : n.commitIndex ≤ n.lastLogIndex) :
    (n.propose data).2.applyCh.length
      = n.applyCh.length + (n.lastLogIndex + 1 - n.commitIndex) := by
  have hlength := List.length_pos_of_ne_nil hne
  have hlast : n.lastLogIndex = n.lastIncludedIndex + n.log.length - 1 := rfl
  obtain ⟨m, hm, hlog, hframe⟩ : ∃ m, n.appendOwn (n.nextEntry data) = m ∧
      m.log = n.log ++ [n.nextEntry data] ∧ m.lastIncludedIndex = n.lastIncludedIndex ∧
      m.commitIndex = n.commitIndex ∧ m.currentTerm = n.currentTerm ∧ m.cfg = n.cfg ∧
      m.applyCh = n.applyCh := ⟨_, rfl, rfl, rfl, rfl, rfl, rfl, rfl⟩
  obtain ⟨hbase', hcommit', hterm, hcfg, happlyCh⟩ := hframe
  have hlt : n.log.length < m.log.length := by
    rw [hlog, List.length_append]
    exact Nat.lt_succ_self _
  have hpos : m.logPos (n.lastLogIndex + 1) = some ⟨n.log.length, hlt⟩ := by
    have hsub : n.lastLogIndex + 1 - m.lastIncludedIndex = n.log.length := by omega
    unfold Node.logPos
    rw [if_neg (by omega), dif_pos (by omega)]
    simp only [hsub]
  have hcommits : m.maybeAdvanceCommit = m.commitThrough (n.lastLogIndex + 1) := by
    have hlast' : m.lastLogIndex = n.lastLogIndex + 1 := by
      unfold Node.lastLogIndex
      rw [hlog, hbase', List.length_append, List.length_singleton]
      omega
    have hquorum : m.replications (n.lastLogIndex + 1) ≥ m.quorum := by
      unfold Node.quorum Node.replications
      rw [hcfg, halone]
      exact Nat.le_add_right 1 _
    have hown : (m.log.get ⟨n.log.length, hlt⟩).term = m.currentTerm := by
      simp [hlog, hterm, Node.nextEntry]
    unfold Node.maybeAdvanceCommit
    rw [hlast']
    unfold Node.advanceCommitFrom
    rw [if_pos (by omega)]
    simp only [hpos]
    rw [if_neg (not_not.mpr hown), if_pos hquorum]
  have hsent : (m.commitThrough (n.lastLogIndex + 1)).applyCh = m.applyCh ++
      ((m.log.drop (m.commitIndex + 1 - m.lastIncludedIndex)).take
        (n.lastLogIndex + 1 - m.commitIndex)).map .command := by
    rw [← Node.filterMap_logPos m (by omega)]
    rfl
  rw [Node.propose, if_neg (not_not.mpr hleader)]
  simp only [hm, hcommits, hsent, happlyCh, hlog, List.length_append, List.length_map,
    List.length_take, List.length_drop, List.length_singleton]
  omega

omit [PersistentState σ] in
theorem node_resting {n : Node σ} {sm : StateMachine} (hempty : n.applyCh = []) :
    (resting n sm).node = n := by
  cases n
  subst hempty
  rfl

/-- An election, and then a write that has taken `sm.mu`. -/
theorem reaches_propose (codec : Codec) {n : Node σ} (hempty : n.applyCh = [])
    (sm : StateMachine) (cmd : Command) :
    Reaches (step codec) (fun _ _ => True) (resting n sm)
      { resting n.electionTimeout.2 sm with
        goroutines := [.finished, .propose cmd]
        machineMu := some (.call 1) } := by
  have hsilent : n.electionTimeout.2.applyCh = [] :=
    (congrArg (fun held => held.2.2.2) (Node.electionTimeout_holding n)).trans hempty
  have hcalled : Reaches (step codec) (fun _ _ => True) (resting n sm)
      { resting n sm with goroutines := [.call .electionTimeout] } :=
    .next (a := ThreadEvent.call .electionTimeout) .refl trivial
  have helects : { resting n sm with goroutines := [.call .electionTimeout] }.move codec (.call 0)
      = some { resting n.electionTimeout.2 sm with
          goroutines := [.sending [] none]
          nodeMu := some (.call 0) } := by
    change some (enter _ 0 (resting n sm).node.electionTimeout.2 none) = _
    rw [node_resting hempty, ← hsilent]
    rfl
  have hleaves : { resting n.electionTimeout.2 sm with
      goroutines := [.sending [] none]
      nodeMu := some (.call 0) }.move codec (.call 0)
      = some { resting n.electionTimeout.2 sm with goroutines := [.finished] } := rfl
  have hwrites : Reaches (step codec) (fun _ _ => True)
      { resting n.electionTimeout.2 sm with goroutines := [.finished] }
      { resting n.electionTimeout.2 sm with goroutines := [.finished, .write cmd] } :=
    .next (a := ThreadEvent.write cmd) .refl trivial
  have hlocks : { resting n.electionTimeout.2 sm with
      goroutines := [.finished, .write cmd] }.move codec (.call 1)
      = some { resting n.electionTimeout.2 sm with
          goroutines := [.finished, .propose cmd]
          machineMu := some (.call 1) } := rfl
  exact (((hcalled.trans (reaches_move helects)).trans (reaches_move hleaves)).trans
    hwrites).trans (reaches_move hlocks)

theorem electionTimeout_alone {n : Node σ} (hrole : n.role = .follower)
    (halone : n.cfg.peers = []) :
    n.electionTimeout.2.role = .leader ∧ n.electionTimeout.2.cfg = n.cfg := by
  have hnotLeader : n.role ≠ .leader := by simp [hrole]
  have hquorum : 1 ≥ n.quorum := by
    unfold Node.quorum
    rw [halone]
    exact le_rfl
  rw [Node.electionTimeout, if_pos hnotLeader, Node.startElection, if_pos hquorum]
  exact ⟨rfl, rfl⟩

/-- A server without peers is started on a log that the channel has no room for, elects itself,
and a client writes. -/
theorem exists_stuck_of_restart (codec : Codec) (sm : StateMachine) (cmd : Command)
    {cfg : Config} (halone : cfg.peers = []) {storage : σ} {n : Node σ}
    (hstart : (Node.newNode cfg storage).start = .ok n)
    (hlong : applyChCapacity + n.commitIndex < n.lastLogIndex) :
    ∃ w, Reaches (step codec) (fun _ _ => True) (resting n sm) w ∧ w.Stuck codec := by
  obtain ⟨hcommit, hempty, first, es, hlog, -⟩ := Node.start_shape hstart
  have hnew : n.role = .follower ∧ n.cfg.peers = [] := by
    obtain ⟨snapshot, hard, entries, -, -, -, rfl⟩ := Node.start_ok hstart
    obtain ⟨hcfg, hfollower, -⟩ := (Node.newNode cfg storage).seed_frame snapshot.1 snapshot.2
    exact ⟨hfollower, (congrArg Config.peers hcfg).trans halone⟩
  obtain ⟨hleader, hcfg⟩ := electionTimeout_alone hnew.1 hnew.2
  have hholding := Node.electionTimeout_holding n
  simp only [Node.holding, Prod.mk.injEq] at hholding
  obtain ⟨hlog', hbase', hcommit', hempty'⟩ := hholding
  have hlast : n.electionTimeout.2.lastLogIndex = n.lastLogIndex :=
    Node.lastLogIndex_of_holding (Node.electionTimeout_holding n)
  have hsent := length_sent_propose (codec.marshal cmd) hleader (hcfg ▸ hnew.2)
    (by simp [hlog', hlog]) (by omega) (by omega)
  have hover : ¬ 0 + ((resting n.electionTimeout.2 sm).node.propose
      (codec.marshal cmd)).2.applyCh.length ≤ applyChCapacity + 1 := by
    rw [node_resting (hempty'.trans hempty), hsent]
    omega
  have hrun := reaches_propose codec hempty sm cmd
  obtain ⟨w, hrun', hstuck⟩ :=
    (orderly_of_reaches hrun).exists_stuck_of_propose (i := 1) codec rfl rfl hover
  exact ⟨w, hrun.trans hrun', hstuck⟩

/-- `k` entries of the first term. -/
def grownLog (k : ℕ) : List LogEntry :=
  (List.range k).map fun i => ⟨i + 1, 1, []⟩

/-- What is on the disk of a server without peers behind 4098 writes. -/
def grownStorage : MemState :=
  ⟨1, "a", grownLog 4098, [], 0, 0⟩

/-- The server is started again, elects itself, and a client writes. -/
theorem first_write_deadlocks :
    ∃ n, (Node.newNode ⟨"a", []⟩ grownStorage).start = .ok n ∧
      ∃ w, Reaches (step valueCodec) (fun _ _ => True) (resting n (.new .fresh 0)) w ∧
        w.Stuck valueCodec := by
  obtain ⟨n, hstart, hlong⟩ : ∃ n, (Node.newNode ⟨"a", []⟩ grownStorage).start = .ok n ∧
      applyChCapacity + n.commitIndex < n.lastLogIndex := by
    refine ⟨_, Node.start_eq rfl rfl rfl, ?_⟩
    simp [applyChCapacity, Node.lastLogIndex, Node.recover, Node.seed, Node.newNode, grownStorage,
      grownLog]
  exact ⟨n, hstart,
    exists_stuck_of_restart valueCodec _ ⟨.put, [107], [1], "", 0⟩ rfl hstart hlong⟩

end RaftKV.Server.Threads
