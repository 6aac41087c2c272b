import RaftKV.Storage.Workers

/-!
# Flush signals

`Put` wakes the flush worker through a channel with one slot: a call that sees the active
memtable above its limit sends a signal, and drops it if the slot is taken.  It does so after
it has released the lock, so that between the worker's receive and its rotation another call
may see the same memtable and put a second signal into the slot.

`rotateAndFlush` then runs a second time, right after the first, and finds an active memtable
that is perhaps empty.  It rotates it all the same.  `doFlush` returns at once if there is
nothing to write, and leaves the empty memtable in the slot of the immutable one, where
nobody will remove it: every later `rotateAndFlush` takes it for a flush in progress
(`Signals.Wedged`).  If no rotation ever meets an empty memtable, the slot is free whenever
the worker waits (`Signals.Slot`).
-/

namespace RaftKV.Storage

/-- Where the flush worker stands. -/
inductive WorkerPc
  /-- Waiting for a signal. -/
  | waiting
  /-- `rotateAndFlush`, about to take the lock. -/
  | entered
  /-- In `doFlush`. -/
  | flushing (pc : FlushPc)
  /-- Behind `doFlush`, about to signal the compactor. -/
  | flushed

namespace WorkerPc

/-- About to take the lock of `rotateAndFlush`. -/
def isEntered : WorkerPc → Bool
  | .entered => true
  | _ => false

/-- A table that is about to be written can be written. -/
def TableFits : WorkerPc → Prop
  | .flushing (.numbered imm _) => (tableBytes imm.snapshot).length < maxInt64
  | _ => True

instance : (pc : WorkerPc) → Decidable pc.TableFits
  | .flushing (.numbered _ _) => inferInstanceAs (Decidable (_ < _))
  | .flushing .idle => isTrue trivial
  | .flushing .rotated => isTrue trivial
  | .flushing (.captured _) => isTrue trivial
  | .flushing (.written _ _) => isTrue trivial
  | .waiting => isTrue trivial
  | .entered => isTrue trivial
  | .flushed => isTrue trivial

end WorkerPc

/-- One step of `flushWorker` and `rotateAndFlush`. -/
def Engine.workerStep (e : Engine) : WorkerPc → Engine × WorkerPc
  | .waiting => if e.flushCh then ({ e with flushCh := false }, .entered) else (e, .waiting)
  | .entered => if e.immutable.isSome then (e, .waiting) else (e.rotate, .flushing .rotated)
  | .flushing pc =>
      match e.flushStep pc with
      | (e, .idle) => (e, .flushed)
      | (e, pc) => (e, .flushing pc)
  | .flushed =>
      ({ e with compactCh := e.compactCh || compactionThreshold ≤ e.sstables.length }, .waiting)

/-- The engine, its flush worker, and the calls of `Put` that have released the lock and are
about to send a signal. -/
structure Signals where
  engine : Engine
  worker : WorkerPc
  signallers : ℕ

inductive SignalEvent
  /-- The critical section of `Put`. -/
  | put (key : Key) (value : Bytes)
  | delete (key : Key)
  /-- A call of `Put` sends its signal. -/
  | signal
  | worker
  deriving DecidableEq

namespace Signals

/-- An engine whose worker waits. -/
def resting (e : Engine) : Signals :=
  ⟨e, .waiting, 0⟩

def step (s : Signals) : SignalEvent → Signals
  | .put key value =>
      if s.engine.closed then s
      else
        { s with
          engine := { s.engine with active := s.engine.active.put key value }
          signallers :=
            if (s.engine.active.put key value).shouldFlush then s.signallers + 1
            else s.signallers }
  | .delete key =>
      if s.engine.closed then s
      else { s with engine := { s.engine with active := s.engine.active.delete key } }
  | .signal =>
      match s.signallers with
      | 0 => s
      -- a signal that finds the slot taken is dropped
      | n + 1 => { s with engine := { s.engine with flushCh := true }, signallers := n }
  | .worker =>
      { s with
        engine := (s.engine.workerStep s.worker).1
        worker := (s.engine.workerStep s.worker).2 }

/-- No write of a table fails. -/
def NoFailure (s : Signals) (event : SignalEvent) : Prop :=
  event = .worker → s.worker.TableFits

instance (s : Signals) (event : SignalEvent) : Decidable (s.NoFailure event) :=
  inferInstanceAs (Decidable (_ → _))

/-- A memtable that is rotated has something to flush. -/
def RotatesFilled (s : Signals) (event : SignalEvent) : Prop :=
  event = .worker → s.worker.isEntered → s.engine.immutable.isNone → s.engine.active.size ≠ 0

instance (s : Signals) (event : SignalEvent) : Decidable (s.RotatesFilled event) :=
  inferInstanceAs (Decidable (_ → _))

/-! ## One thread alone -/

/-- `Put` in one step is its critical section followed at once by its signal, if it sends
one. -/
theorem put_then_signal {s : Signals} {key : Key} {value : Bytes} {e : Engine}
    (halone : s.signallers = 0) (hput : s.engine.put key value = .ok e) :
    (s.step (.put key value)).step .signal = { s with engine := e } := by
  obtain ⟨engine, worker, signallers⟩ := s
  obtain rfl : signallers = 0 := halone
  unfold Engine.put at hput
  split at hput
  · simp at hput
  · next hopen =>
      obtain rfl : _ = e := Except.ok.inj hput
      simp only [step, if_neg hopen]
      by_cases hflush : (engine.active.put key value).shouldFlush
      · simp [hflush]
      · simp [hflush]

theorem workerStep_rotated {e : Engine} {imm : Memtable} (himm : e.immutable = some imm)
    (hsize : imm.size ≠ 0) :
    e.workerStep (.flushing .rotated) = (e, .flushing (.captured imm)) := by
  simp [Engine.workerStep, Engine.flushStep, himm, hsize]

theorem workerStep_numbered {e : Engine} {imm : Memtable} {seq : ℕ}
    (hwrite : (tableBytes imm.snapshot).length < maxInt64) :
    e.workerStep (.flushing (.numbered imm seq)) =
      ({ e with files := e.files.insert (fileName seq) (tableBytes imm.snapshot) },
        .flushing (.written imm (readerOf (fileName seq) imm.snapshot))) := by
  have hopen : openSSTable (e.files.insert (fileName seq) (tableBytes imm.snapshot))
      (fileName seq) = .ok (readerOf (fileName seq) imm.snapshot) :=
    openSSTable_of_size hwrite (AList.lookup_insert _)
  simp [Engine.workerStep, Engine.flushStep, hopen]

/-- A flush that does not fail, with the slot free and something to flush. -/
theorem rotateAndFlush_eq {e : Engine} (hslot : e.immutable = none) (hsize : e.active.size ≠ 0)
    (hwrite : (tableBytes e.active.snapshot).length < maxInt64) :
    e.rotateAndFlush =
      { e.rotate.writeTable e.active.snapshot with
        sstables := readerOf (fileName e.nextSeq) e.active.snapshot :: e.sstables
        immutable := none
        compactCh := e.compactCh || compactionThreshold ≤ e.sstables.length + 1 } := by
  have hopen : openSSTable (e.rotate.writeTable e.active.snapshot).files (fileName e.nextSeq) =
      .ok (readerOf (fileName e.nextSeq) e.active.snapshot) :=
    openSSTable_of_size hwrite (AList.lookup_insert _)
  have himm : e.rotate.immutable = some e.active := rfl
  have hseq : e.rotate.nextSeq = e.nextSeq := rfl
  simp only [Engine.rotateAndFlush, hslot, Option.isSome_none, Bool.false_eq_true, if_false,
    Engine.doFlush, himm, if_neg hsize, hseq, hopen]
  rfl

/-- Left alone, the worker does what `rotateAndFlush` does in one step. -/
theorem rotateAndFlush_run {e : Engine} (hslot : e.immutable = none) (hsize : e.active.size ≠ 0)
    (hwrite : (tableBytes e.active.snapshot).length < maxInt64) (n : ℕ) :
    Reaches step (fun s event => s.NoFailure event ∧ s.RotatesFilled event)
      ⟨e, .entered, n⟩ ⟨e.rotateAndFlush, .waiting, n⟩ := by
  have hrotate : e.workerStep .entered = (e.rotate, .flushing .rotated) := by
    simp [Engine.workerStep, hslot]
  have hcapture : e.rotate.workerStep (.flushing .rotated) =
      (e.rotate, .flushing (.captured e.active)) := workerStep_rotated rfl hsize
  have hnumber : e.rotate.workerStep (.flushing (.captured e.active)) =
      ({ e.rotate with sstableSeq := e.rotate.nextSeq },
        .flushing (.numbered e.active e.rotate.nextSeq)) := rfl
  have hallowed : Allowed step (fun s event => s.NoFailure event ∧ s.RotatesFilled event)
      ⟨e, .entered, n⟩ (List.replicate 6 .worker) := by
    simp only [List.replicate, Allowed, step, hrotate, hcapture, hnumber,
      workerStep_numbered hwrite, NoFailure, RotatesFilled, WorkerPc.TableFits,
      WorkerPc.isEntered]
    refine ⟨⟨fun _ => trivial, fun _ _ _ => hsize⟩, ?_⟩
    simp [hwrite, Engine.workerStep, Engine.flushStep]
  have hend : (List.replicate 6 SignalEvent.worker).foldl step ⟨e, .entered, n⟩ =
      ⟨e.rotateAndFlush, .waiting, n⟩ := by
    simp only [List.replicate, List.foldl_cons, List.foldl_nil, step, hrotate, hcapture, hnumber,
      workerStep_numbered hwrite, rotateAndFlush_eq hslot hsize hwrite]
    rfl
  rw [← hend]
  exact Reaches.foldl .refl _ hallowed

/-! ## The slot of the immutable memtable -/

/-- The slot is free, but for the time from the rotation to the end of `doFlush`. -/
def Slot (s : Signals) : Prop :=
  match s.worker with
  | .flushing .rotated => ∃ imm, s.engine.immutable = some imm ∧ imm.size ≠ 0
  | .flushing (.captured _) => True
  | .flushing (.numbered _ _) => True
  | .flushing (.written _ _) => True
  | _ => s.engine.immutable = none

/-- What only changes the active memtable or the signals leaves the slot as it is. -/
theorem Slot.congr {s s' : Signals} (h : s.Slot) (hworker : s'.worker = s.worker)
    (hslot : s'.engine.immutable = s.engine.immutable) : s'.Slot := by
  unfold Slot at h ⊢
  rw [hworker, hslot]
  exact h

theorem step_frame {s : Signals} {event : SignalEvent} (h : event ≠ .worker) :
    (s.step event).worker = s.worker ∧
      (s.step event).engine.immutable = s.engine.immutable := by
  cases event with
  | put key value =>
      simp only [step]
      split <;> exact ⟨rfl, rfl⟩
  | delete key =>
      simp only [step]
      split <;> exact ⟨rfl, rfl⟩
  | signal =>
      simp only [step]
      split <;> exact ⟨rfl, rfl⟩
  | worker => exact absurd rfl h

theorem Slot.worker {s : Signals} (h : s.Slot) (hfits : s.worker.TableFits)
    (hfilled : s.RotatesFilled .worker) : (s.step .worker).Slot := by
  obtain ⟨e, worker, signallers⟩ := s
  have hfilled := hfilled rfl
  unfold Slot at h
  simp only [step, Slot]
  cases worker with
  | waiting =>
      by_cases hsignal : e.flushCh
      · have hstep : e.workerStep .waiting = ({ e with flushCh := false }, .entered) :=
          if_pos hsignal
        rw [hstep]
        exact h
      · have hstep : e.workerStep .waiting = (e, .waiting) := if_neg hsignal
        rw [hstep]
        exact h
  | entered =>
      -- here an empty memtable would take the slot for good
      simp only at h hfilled
      simp only [Engine.workerStep, h, Option.isSome_none, Bool.false_eq_true, if_false]
      exact ⟨e.active, rfl, hfilled rfl (by simp [h])⟩
  | flushed => exact h
  | flushing pc =>
      cases pc with
      | idle => exact h
      | rotated =>
          obtain ⟨imm, himm, hsize⟩ := h
          rw [workerStep_rotated himm hsize]
          trivial
      | captured imm => trivial
      | numbered imm seq =>
          rw [workerStep_numbered hfits]
          trivial
      | written imm reader => rfl

theorem Slot.step {s : Signals} (h : s.Slot) {event : SignalEvent} (hfits : s.NoFailure event)
    (hfilled : s.RotatesFilled event) : (s.step event).Slot := by
  by_cases heq : event = .worker
  · subst heq
    exact h.worker (hfits rfl) hfilled
  · obtain ⟨hworker, hslot⟩ := step_frame (s := s) heq
    exact h.congr hworker hslot

/-! ## A slot that stays taken -/

/-- The slot holds an empty memtable, which no flush will remove. -/
def Wedged (s : Signals) : Prop :=
  (∃ imm, s.engine.immutable = some imm ∧ imm.size = 0) ∧
    (s.worker = .waiting ∨ s.worker = .entered ∨ s.worker = .flushing .rotated ∨
      s.worker = .flushed)

theorem Wedged.step {s : Signals} (h : s.Wedged) (event : SignalEvent) : (s.step event).Wedged := by
  by_cases heq : event = .worker
  · subst heq
    obtain ⟨⟨imm, himm, hsize⟩, hworker⟩ := h
    obtain ⟨e, worker, signallers⟩ := s
    simp only at himm hworker
    simp only [Wedged, Signals.step]
    rcases hworker with rfl | rfl | rfl | rfl
    · simp only [Engine.workerStep]
      split
      · exact ⟨⟨imm, himm, hsize⟩, by simp⟩
      · exact ⟨⟨imm, himm, hsize⟩, by simp⟩
    · -- `rotateAndFlush` returns, since the slot is taken
      simp only [Engine.workerStep, himm, Option.isSome_some, if_true]
      exact ⟨⟨imm, rfl, hsize⟩, by simp⟩
    · -- `doFlush` returns, since there is nothing to write
      simp only [Engine.workerStep, Engine.flushStep, himm, hsize, if_true]
      exact ⟨⟨imm, rfl, hsize⟩, by simp⟩
    · exact ⟨⟨imm, himm, hsize⟩, .inl rfl⟩
  · obtain ⟨hworker, hslot⟩ := step_frame (s := s) heq
    unfold Wedged
    rw [hworker, hslot]
    exact h

theorem Wedged.taken {s : Signals} (h : s.Wedged) : s.engine.immutable ≠ none := by
  obtain ⟨⟨imm, himm, -⟩, -⟩ := h
  simp [himm]

/-- Rotating an empty memtable takes the slot for good, and soon the worker waits again. -/
theorem wedged_of_empty_rotation {s : Signals} (hworker : s.worker = .entered)
    (hslot : s.engine.immutable = none) (hempty : s.engine.active.size = 0) :
    (s.step .worker).Wedged ∧
      ∃ s', Reaches step NoFailure (s.step .worker) s' ∧ s'.worker = .waiting ∧ s'.Wedged := by
  obtain ⟨e, worker, signallers⟩ := s
  obtain rfl : worker = .entered := hworker
  simp only at hslot hempty
  have hrotate : e.workerStep .entered = (e.rotate, .flushing .rotated) := by
    simp [Engine.workerStep, hslot]
  have hreturn : e.rotate.workerStep (.flushing .rotated) = (e.rotate, .flushed) := by
    simp [Engine.workerStep, Engine.flushStep, Engine.rotate, hempty]
  have hwedged : Wedged ⟨e.rotate, .flushing .rotated, signallers⟩ :=
    ⟨⟨e.active, rfl, hempty⟩, by simp⟩
  simp only [step, hrotate]
  refine ⟨hwedged, _, Reaches.foldl .refl [SignalEvent.worker, .worker] ?_, ?_,
    (hwedged.step .worker).step .worker⟩
  · exact ⟨fun _ => trivial, fun _ => by simp [step, hreturn, WorkerPc.TableFits], trivial⟩
  · simp only [List.foldl_cons, List.foldl_nil, step, hreturn]
    rfl

/-- Flushing and the slot of the immutable memtable.  From an engine whose slot is free, in
every run in which no write fails and no rotation meets an empty memtable, the slot is free
whenever the worker waits.  And from every state of such a run, a rotation that does meet an
empty memtable takes the slot for good: there is a run to a state in which the worker waits
and the slot is taken, and it is taken in every later state of every run. -/
theorem slot_free_while_waiting (e : Engine) (hslot : e.immutable = none) (s : Signals)
    (hrun : Reaches step (fun s event => s.NoFailure event ∧ s.RotatesFilled event)
      (resting e) s) :
    (s.worker = .waiting → s.engine.immutable = none) ∧
    ∀ event, ¬ s.RotatesFilled event →
      (∃ s', Reaches step NoFailure (s.step event) s' ∧ s'.worker = .waiting ∧
        s'.engine.immutable ≠ none) ∧
      ∀ s', Reaches step (fun _ _ => True) (s.step event) s' → s'.engine.immutable ≠ none := by
  have hinv : s.Slot := by
    refine hrun.invariant hslot fun s event h hok => ?_
    exact h.step hok.1 hok.2
  refine ⟨fun hworker => ?_, fun event hempty => ?_⟩
  · unfold Slot at hinv
    rw [hworker] at hinv
    exact hinv
  · unfold RotatesFilled at hempty
    push Not at hempty
    obtain ⟨rfl, hentered, hnone, hsize⟩ := hempty
    have hworker : s.worker = .entered := by
      revert hentered
      cases s.worker <;> simp [WorkerPc.isEntered]
    obtain ⟨hwedged, s', hreturns, hwaits, hwedged'⟩ :=
      wedged_of_empty_rotation hworker (Option.isNone_iff_eq_none.mp hnone) hsize
    refine ⟨⟨s', hreturns, hwaits, hwedged'.taken⟩, fun s' hrun' => ?_⟩
    have hinv : s'.Wedged := hrun'.invariant hwedged fun s event h _ => h.step event
    exact hinv.taken

/-- An engine with one key in memory and a signal pending. -/
def signalled : Engine :=
  { Engine.fresh with active := Memtable.new.put [1] [2], flushCh := true }

/-- The worker's way through `rotateAndFlush`. -/
theorem slot_free_while_waiting_signalled :
    ∃ s, Reaches step (fun s event => s.NoFailure event ∧ s.RotatesFilled event)
        (resting signalled) s ∧
      s.engine = { signalled with flushCh := false }.rotateAndFlush ∧
      s.engine.immutable = none := by
  have hreceive : Reaches step (fun s event => s.NoFailure event ∧ s.RotatesFilled event)
      (resting signalled) ((resting signalled).step .worker) :=
    .next .refl ⟨fun _ => trivial, nofun⟩
  have hrun := hreceive.trans
    (rotateAndFlush_run (e := { signalled with flushCh := false }) rfl (by decide)
      (by decide +kernel) 0)
  exact ⟨_, hrun, rfl, (slot_free_while_waiting signalled rfl _ hrun).1 rfl⟩

/-- Two calls of `Put` send a signal for the same memtable, the second between the worker's
receive and its rotation. -/
def doubleSignal (value : Bytes) : List SignalEvent :=
  [.put [1] value, .signal, .worker, .put [1] value, .signal]

/-- The engine behind them. -/
def doubleSignalled (value : Bytes) : Engine :=
  { Engine.fresh with active := (Memtable.new.put [1] value).put [1] value, flushCh := true }

theorem reaches_doubleSignalled {value : Bytes} (h : maxMemtableSize ≤ value.length) :
    Reaches step NoFailure (resting .fresh) ⟨doubleSignalled value, .entered, 0⟩ := by
  have hfirst : (Memtable.new.put [1] value).shouldFlush = true := by
    simp only [Memtable.shouldFlush, Memtable.put, Memtable.insert, ge_iff_le, decide_eq_true_eq]
    omega
  have hsecond : ((Memtable.new.put [1] value).put [1] value).shouldFlush = true := by
    simp only [Memtable.shouldFlush, Memtable.put, Memtable.insert, ge_iff_le, decide_eq_true_eq]
    omega
  have hput : (resting .fresh).step (.put [1] value) =
      ⟨{ Engine.fresh with active := Memtable.new.put [1] value }, .waiting, 1⟩ := by
    simp only [step, resting, Engine.fresh, Bool.false_eq_true, if_false, hfirst, if_true]
  have hput' : (⟨{ Engine.fresh with active := Memtable.new.put [1] value }, .entered, 0⟩ :
      Signals).step (.put [1] value) =
        ⟨{ Engine.fresh with active := (Memtable.new.put [1] value).put [1] value },
          .entered, 1⟩ := by
    simp only [step, Engine.fresh, Bool.false_eq_true, if_false, hsecond, if_true]
  have hreceive : ((⟨{ Engine.fresh with active := Memtable.new.put [1] value }, .waiting, 1⟩ :
      Signals).step .signal).step .worker =
        ⟨{ Engine.fresh with active := Memtable.new.put [1] value }, .entered, 0⟩ := rfl
  have hend : (doubleSignal value).foldl step (resting .fresh) =
      ⟨doubleSignalled value, .entered, 0⟩ := by
    simp only [doubleSignal, List.foldl_cons, List.foldl_nil, hput, hreceive, hput']
    rfl
  have hallowed : Allowed step NoFailure (resting .fresh) (doubleSignal value) := by
    simp only [doubleSignal, Allowed, hput, hreceive]
    exact ⟨nofun, nofun, fun _ => trivial, nofun, nofun, trivial⟩
  rw [← hend]
  exact Reaches.foldl .refl _ hallowed

/-- A run that comes to the rotation of an empty memtable goes on to a state in which the
worker waits and the slot is taken. -/
theorem taken_of_empty_rotation {init s : Signals} (hrun : Reaches step NoFailure init s)
    (hworker : s.worker = .entered) (hslot : s.engine.immutable = none)
    (hempty : s.engine.active.size = 0) :
    ∃ s', Reaches step NoFailure init s' ∧ s'.worker = .waiting ∧
      s'.engine.immutable ≠ none := by
  obtain ⟨-, s', hreturns, hwaits, hwedged⟩ := wedged_of_empty_rotation hworker hslot hempty
  have hrotates : Reaches step NoFailure init (s.step .worker) := by
    refine .next hrun fun _ => ?_
    rw [hworker]
    trivial
  exact ⟨s', hrotates.trans hreturns, hwaits, hwedged.taken⟩

/-- The worker flushes the memtable, and for the second signal rotates an empty one. -/
theorem slot_taken_by_empty_memtable :
    ∃ s, Reaches step NoFailure (resting .fresh) s ∧ s.worker = .waiting ∧
      s.engine.immutable ≠ none := by
  obtain ⟨value, hvalue⟩ : ∃ value : Bytes, value.length = maxMemtableSize :=
    ⟨List.replicate maxMemtableSize 0, List.length_replicate⟩
  have hsize : (doubleSignalled value).active.size ≠ 0 := by
    simp only [doubleSignalled, Memtable.put, Memtable.insert]
    omega
  have hentries : (doubleSignalled value).active.snapshot = [⟨[1], value, kindPut⟩] := by
    change insertEntry (insertEntry [] ⟨[1], value, kindPut⟩) ⟨[1], value, kindPut⟩ = _
    rw [insertEntry_eq_upsert List.Pairwise.nil, upsert,
      insertEntry_eq_upsert (List.pairwise_singleton _ _)]
    simp [upsert]
  have hwrite : (tableBytes (doubleSignalled value).active.snapshot).length < maxInt64 := by
    rw [hentries, length_tableBytes]
    simp only [dataBlock, List.flatMap_cons, List.flatMap_nil, List.append_nil, length_encodeEntry,
      hvalue]
    decide
  have hflushed := (reaches_doubleSignalled hvalue.ge).trans
    ((rotateAndFlush_run (e := doubleSignalled value) rfl hsize hwrite 0).mono fun _ _ h => h.1)
  rw [rotateAndFlush_eq rfl hsize hwrite] at hflushed
  -- the second signal is still in the channel, and behind the flush the memtable is empty
  exact taken_of_empty_rotation (hflushed.next (a := .worker) fun _ => trivial) rfl rfl rfl

end Signals

end RaftKV.Storage
