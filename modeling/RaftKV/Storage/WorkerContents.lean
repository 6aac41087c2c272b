import RaftKV.Storage.WorkerFiles

/-!
# What the workers do to the contents

In every state of the engine and its workers the contents are what the writes and the
snapshots loaded so far make of them, as long as

* no flush publishes a memtable that it read before the state was last replaced, and
* no compaction publishes its table after the list has changed.

The code ensures neither of the two, and without them keys are lost or come back.

A memtable that a thread flushes is `Covered`: it is the immutable memtable, or another
thread has already published what it contains.  Then publishing it changes nothing.
-/

namespace RaftKV.Storage

/-! ## Layers below others -/

/-- What shows through layers is decided by what the layers below show. -/
theorem visible_append_of_visible (upper : List (List MemEntry))
    {layers layers' : List (List MemEntry)} (h : visible layers = visible layers') :
    visible (upper ++ layers) = visible (upper ++ layers') := by
  funext key
  have hkey := congrFun h key
  unfold visible at hkey ⊢
  rw [newest_append, newest_append]
  cases newest MemEntry.key key upper with
  | some entry => rfl
  | none => simpa using hkey

theorem visible_cons_of_visible (l : List MemEntry) {layers layers' : List (List MemEntry)}
    (h : visible layers = visible layers') : visible (l :: layers) = visible (l :: layers') :=
  visible_append_of_visible [l] h

theorem visible_cons_self (l : List MemEntry) (layers : List (List MemEntry)) :
    visible (l :: l :: layers) = visible (l :: layers) := by
  funext key
  unfold visible
  rw [newest_cons, newest_cons]
  cases lookup MemEntry.key key l with
  | some entry => rfl
  | none => rfl

namespace Engine

/-! ## Steps that change nothing -/

variable {e e' : Engine} {imm imm' : Memtable}

/-- A step that is not seen by a reader. -/
structure Quiet (e e' : Engine) : Prop where
  active : e'.active = e.active
  immutable : e'.immutable = e.immutable
  disk : visible e'.diskLayers = visible e.diskLayers

/-- What is in this memtable is found without it, or it is the immutable memtable. -/
def Covered (e : Engine) (imm : Memtable) : Prop :=
  e.immutable = some imm ∨
    e.Idle ∧ visible (imm.entries :: e.diskLayers) = visible e.diskLayers

theorem Quiet.contents (h : Quiet e e') : e'.contents = e.contents := by
  have hmem : e'.memLayers = e.memLayers := by
    rw [memLayers, memLayers, h.active, h.immutable]
  unfold Engine.contents
  rw [hmem]
  exact visible_append_of_visible _ h.disk

theorem Quiet.covered (h : Quiet e e') (hc : e.Covered imm) : e'.Covered imm := by
  rcases hc with himm | ⟨hidle, hdisk⟩
  · exact .inl (h.immutable.trans himm)
  · refine .inr ⟨fun m hm => hidle m (h.immutable ▸ hm), ?_⟩
    calc visible (imm.entries :: e'.diskLayers)
        = visible (imm.entries :: e.diskLayers) := visible_cons_of_visible _ h.disk
      _ = visible e.diskLayers := hdisk
      _ = visible e'.diskLayers := h.disk.symm

/-- The contents of an engine without a memtable to be flushed. -/
theorem contents_of_idle (h : e.Idle) :
    e.contents = visible (e.active.entries :: e.diskLayers) := by
  unfold contents memLayers
  cases himm : e.immutable with
  | none => rfl
  | some m =>
      have hempty : m.entries = [] := h m himm
      rw [Option.map_some, Option.toList_some, hempty]
      exact visible_cons_of_visible e.active.entries visible_nil_cons

theorem contents_of_immutable (h : e.immutable = some imm) :
    e.contents = visible (e.active.entries :: imm.entries :: e.diskLayers) := by
  unfold contents memLayers
  rw [h]
  rfl

/-! ## Publishing a flushed memtable -/

section Publish

variable {r : SSTableReader}

/-- The critical section of `doFlush` that publishes the table. -/
def publish (e : Engine) (r : SSTableReader) : Engine :=
  { e with sstables := r :: e.sstables, immutable := none }

theorem diskLayers_publish (h : r.Reads e.files imm.entries) :
    (e.publish r).diskLayers = imm.entries :: e.diskLayers := by
  change r.records e.files :: e.diskLayers = _
  rw [h.records_eq]

theorem Covered.contents_publish (hc : e.Covered imm) (h : r.Reads e.files imm.entries) :
    (e.publish r).contents = e.contents := by
  have hidle : (e.publish r).Idle := by simp [Idle, publish]
  have hcontents : (e.publish r).contents =
      visible (e.active.entries :: imm.entries :: e.diskLayers) := by
    rw [contents_of_idle hidle, diskLayers_publish h]
    rfl
  rcases hc with himm | ⟨hidle, hdisk⟩
  · rw [hcontents, contents_of_immutable himm]
  · rw [hcontents, contents_of_idle hidle]
    exact visible_cons_of_visible _ hdisk

/-- Another thread that flushes the same memtable has nothing to add. -/
theorem Covered.publish (hc : e.Covered imm) (h : r.Reads e.files imm.entries)
    (hfilled : imm.Filled) (hc' : e.Covered imm') (hfilled' : imm'.Filled) :
    (e.publish r).Covered imm' := by
  refine .inr ⟨by simp [Idle, Engine.publish], ?_⟩
  rw [diskLayers_publish h]
  rcases hc with himm | ⟨hidle, hdisk⟩
  · rcases hc' with himm' | ⟨hidle, -⟩
    · obtain rfl : imm = imm' := Option.some.inj (himm.symm.trans himm')
      exact visible_cons_self _ _
    · exact absurd (hidle imm himm) hfilled.nonempty
  · rcases hc' with himm' | ⟨-, hdisk'⟩
    · exact absurd (hidle imm' himm') hfilled'.nonempty
    · calc visible (imm'.entries :: imm.entries :: e.diskLayers)
          = visible (imm'.entries :: e.diskLayers) := visible_cons_of_visible _ hdisk
        _ = visible e.diskLayers := hdisk'
        _ = visible (imm.entries :: e.diskLayers) := hdisk.symm

end Publish

end Engine

/-! ## When it is safe to publish -/

/-- A compaction that publishes its table replaces these tables. -/
def CompactPc.PublishesOver (sstables : List SSTableReader) : CompactPc → Prop
  | .written toCompact _ => sstables = toCompact
  | _ => True

/-- A flush that publishes its table has not been overtaken by a snapshot. -/
def FlushPc.PublishesCurrent (stale : Bool) : FlushPc → Prop
  | .written _ _ => stale = false
  | _ => True

instance (sstables : List SSTableReader) :
    (pc : CompactPc) → Decidable (pc.PublishesOver sstables)
  | .written _ _ => inferInstanceAs (Decidable (_ = _))
  | .idle => inferInstanceAs (Decidable True)
  | .reading _ _ _ => inferInstanceAs (Decidable True)
  | .merged _ _ => inferInstanceAs (Decidable True)
  | .numbered _ _ _ => inferInstanceAs (Decidable True)
  | .removing _ => inferInstanceAs (Decidable True)

instance (stale : Bool) : (pc : FlushPc) → Decidable (pc.PublishesCurrent stale)
  | .written _ _ => inferInstanceAs (Decidable (_ = _))
  | .idle => inferInstanceAs (Decidable True)
  | .rotated => inferInstanceAs (Decidable True)
  | .captured _ => inferInstanceAs (Decidable True)
  | .numbered _ _ => inferInstanceAs (Decidable True)

namespace Workers

/-! ## Which steps are quiet -/

variable {s s' : Workers} {who : Flusher}

/-- Tables whose files stay show what they showed. -/
theorem Sound.quiet_of_files (h : s.Sound) {files : Directory}
    (hfiles : ∀ r ∈ s.engine.sstables, files.lookup r.path = s.engine.files.lookup r.path) :
    s.engine.Quiet { s.engine with files := files } := by
  have hdisk : { s.engine with files := files }.diskLayers = s.engine.diskLayers := by
    refine List.map_congr_left fun r hr => ?_
    obtain ⟨records, hreads⟩ := h.tables r hr
    rw [hreads.records_eq, (hreads.congr (hfiles r hr)).records_eq]
  exact ⟨rfl, rfl, by rw [hdisk]⟩

theorem flushStep_numbered (e : Engine) (imm : Memtable) (seq : ℕ) :
    (e.flushStep (.numbered imm seq)).1 =
      { e with files := e.files.insert (fileName seq) (tableBytes imm.entries) } := by
  simp only [Engine.flushStep]
  split <;> rfl

/-- A flush is not seen before it publishes its table. -/
theorem FlushMove.quiet (h : FlushMove s s' who) (hs : s.Sound)
    (hpc : ∀ imm reader, s.flushOf who ≠ .written imm reader) :
    s.engine.Quiet s'.engine := by
  have hengine := h.engine
  cases hwho : s.flushOf who with
  | idle =>
      rw [hengine, hwho]
      exact ⟨rfl, rfl, rfl⟩
  | rotated =>
      rw [hengine, hwho, flushStep_rotated]
      exact ⟨rfl, rfl, rfl⟩
  | captured imm =>
      rw [hengine, hwho]
      exact ⟨rfl, rfl, rfl⟩
  | numbered imm seq =>
      have hpending : s.pending (.flush who) = some (fileName seq) := by rw [pending, hwho]; rfl
      obtain ⟨hlive, -, -⟩ := hs.lookup_insert hpending (tableBytes imm.entries)
      rw [hengine, hwho, flushStep_numbered]
      exact hs.quiet_of_files hlive
  | written imm reader => exact absurd hwho (hpc imm reader)

/-- A flush holds what it held, or what it has just read. -/
theorem FlushMove.holds (h : FlushMove s s' who) {imm : Memtable}
    (himm : imm ∈ (s'.flushOf who).holds) :
    imm ∈ (s.flushOf who).holds ∨ s.flushOf who = .rotated ∧ s.engine.immutable = some imm := by
  have hmoved := h.moved
  rw [hmoved] at himm
  cases hwho : s.flushOf who with
  | idle =>
      rw [hwho] at himm
      simp [Engine.flushStep, FlushPc.holds] at himm
  | rotated =>
      rw [hwho] at himm
      simp only [Engine.flushStep] at himm
      refine .inr ⟨rfl, ?_⟩
      split at himm
      · simp [FlushPc.holds] at himm
      · next m hm =>
          split at himm
          · simp [FlushPc.holds] at himm
          · rw [hm]
            exact himm
  | captured m =>
      rw [hwho] at himm
      exact .inl himm
  | numbered m seq =>
      rw [hwho] at himm
      simp only [Engine.flushStep] at himm
      split at himm
      · simp [FlushPc.holds] at himm
      · exact .inl himm
  | written m reader =>
      rw [hwho] at himm
      simp [Engine.flushStep, FlushPc.holds] at himm

/-- The condition on a compaction: the list is still the one that it has captured when it
publishes its table. -/
def ListKept (s : Workers) : WorkerEvent → Prop
  | .compactor => s.compactor.PublishesOver s.engine.sstables
  | _ => True

/-- The condition on a flush: what it publishes was read after the state was last replaced. -/
def FlushCurrent (s : Workers) : WorkerEvent → Prop
  | .flusher => s.flusher.PublishesCurrent s.stale
  | _ => True

instance (s : Workers) : (event : WorkerEvent) → Decidable (s.ListKept event)
  | .compactor => inferInstanceAs (Decidable (s.compactor.PublishesOver s.engine.sstables))
  | .put _ _ => inferInstanceAs (Decidable True)
  | .delete _ => inferInstanceAs (Decidable True)
  | .load _ => inferInstanceAs (Decidable True)
  | .loader => inferInstanceAs (Decidable True)
  | .flusher => inferInstanceAs (Decidable True)

instance (s : Workers) : (event : WorkerEvent) → Decidable (s.FlushCurrent event)
  | .flusher => inferInstanceAs (Decidable (s.flusher.PublishesCurrent s.stale))
  | .put _ _ => inferInstanceAs (Decidable True)
  | .delete _ => inferInstanceAs (Decidable True)
  | .load _ => inferInstanceAs (Decidable True)
  | .loader => inferInstanceAs (Decidable True)
  | .compactor => inferInstanceAs (Decidable True)

/-- Compaction is not seen, if the list is kept. -/
theorem Sound.quiet_compactor (h : s.Sound) (hkept : s.ListKept .compactor) :
    s.engine.Quiet (s.step .compactor).engine := by
  unfold Workers.step
  cases hpc : s.compactor with
  | idle =>
      simp only [Engine.compactStep]
      split <;> exact ⟨rfl, rfl, rfl⟩
  | reading all left inputs =>
      cases left with
      | nil => exact ⟨rfl, rfl, rfl⟩
      | cons r left =>
          simp only [Engine.compactStep]
          split <;> exact ⟨rfl, rfl, rfl⟩
  | merged all records => exact ⟨rfl, rfl, rfl⟩
  | numbered all records seq =>
      have hpending : s.pending .compactor = some (fileName seq) := by rw [pending, hpc]; rfl
      obtain ⟨hlive, -, -⟩ := h.lookup_insert hpending (tableBytes records)
      have hengine : (s.engine.compactStep (.numbered all records seq)).1 =
          { s.engine with
            files := s.engine.files.insert (fileName seq) (tableBytes records) } := by
        simp only [Engine.compactStep]
        split <;> rfl
      rw [hengine]
      exact h.quiet_of_files hlive
  | written all reader =>
      have hall : s.engine.sstables = all := by
        rw [ListKept, hpc] at hkept
        exact hkept
      obtain ⟨ρ, hintact, hprogress⟩ := h.compactor
      rw [hpc] at hintact hprogress
      have hreads : reader.Reads s.engine.files (mergeEntries (all.reverse.map ρ)) := hprogress
      -- the records that the compaction has read are those of the tables of the list
      have hlayers : all.map ρ = s.engine.diskLayers := by
        rw [Engine.diskLayers, hall]
        refine List.map_congr_left fun r hr => ?_
        obtain ⟨records, hr'⟩ := h.tables r (hall ▸ hr)
        rw [hr'.records_eq]
        exact ((hintact r hr).eq_of_iterateAll hr'.iterateAll).symm
      refine ⟨rfl, rfl, ?_⟩
      change visible [reader.records s.engine.files] = _
      rw [hreads.records_eq, List.map_reverse, hlayers]
      exact visible_mergeEntries h.tables.sorted []
  | removing paths =>
      cases paths with
      | nil => exact ⟨rfl, rfl, rfl⟩
      | cons path paths =>
          have hdoomed : path ∈ s.doomed := by
            rw [doomed, hpc]
            exact List.mem_append_left _ List.mem_cons_self
          obtain ⟨hlive, -, -⟩ := h.lookup_erase hdoomed
          exact h.quiet_of_files hlive

/-! ## The invariant -/

/-- The flush of this thread belongs to the present state. -/
def Current (s : Workers) : Flusher → Prop
  | .worker => s.stale = false
  | .loader => True

/-- What the loading of a snapshot relies on: nothing but the snapshot is in memory. -/
def Phase (s : Workers) : Prop :=
  match s.loader with
  | .idle => True
  | .removing _ =>
      s.engine.active.entries ≠ [] →
        s.engine.immutable = none ∧ (s.stale = false → s.flusher.holds = none)
  | .flushing _ => s.engine.active.entries = []

structure Agrees (s : Workers) : Prop where
  contents : s.engine.contents = s.expected
  covered : ∀ who, s.Current who → ∀ imm ∈ (s.flushOf who).holds, s.engine.Covered imm
  phase : s.Phase

/-- A flush takes a step. -/
theorem Agrees.flushMove (h : FlushMove s s' who) (hs : s.Sound) (ha : s.Agrees)
    (hexpected : s'.expected = s.expected) (hphase : s'.Phase)
    (hcurrent : ∀ imm reader, s.flushOf who = .written imm reader → s.Current who)
    (hsame : s'.Current who → s.Current who ∨ s.flushOf who = .rotated)
    (hothers : ∀ other ≠ who, s'.Current other → s.Current other) : s'.Agrees := by
  by_cases hpc : ∃ imm reader, s.flushOf who = .written imm reader
  · obtain ⟨imm, reader, hpc⟩ := hpc
    have hcovered : s.engine.Covered imm :=
      ha.covered who (hcurrent imm reader hpc) imm (by rw [hpc]; rfl)
    have hreads := (hs.flush who).reads imm reader hpc
    have hfilled := (hs.flush who).filled imm (by rw [hpc]; rfl)
    have hengine : s'.engine = s.engine.publish reader := by
      rw [h.engine, hpc]
      rfl
    refine ⟨?_, fun other hother m hm => ?_, hphase⟩
    · rw [hengine, hcovered.contents_publish hreads, ha.contents, hexpected]
    · by_cases heq : other = who
      · subst heq
        rw [h.moved, hpc] at hm
        simp [Engine.flushStep, FlushPc.holds] at hm
      · rw [h.other other heq] at hm
        rw [hengine]
        exact hcovered.publish hreads hfilled
          (ha.covered other (hothers other heq hother) m hm) ((hs.flush other).filled m hm)
  · have hquiet := h.quiet hs fun imm reader heq => hpc ⟨imm, reader, heq⟩
    refine ⟨?_, fun other hother m hm => hquiet.covered ?_, hphase⟩
    · rw [hquiet.contents, ha.contents, hexpected]
    · by_cases heq : other = who
      · subst heq
        rcases h.holds hm with hm | ⟨-, himm⟩
        · rcases hsame hother with hcur | hrotated
          · exact ha.covered other hcur m hm
          · rw [hrotated] at hm
            simp [FlushPc.holds] at hm
        · exact .inl himm
      · rw [h.other other heq] at hm
        exact ha.covered other (hothers other heq hother) m hm

/-- A step that is not seen, of a thread that flushes nothing. -/
theorem Agrees.quiet (ha : s.Agrees) (hquiet : s.engine.Quiet s'.engine)
    (hexpected : s'.expected = s.expected) (hflush : ∀ who, s'.flushOf who = s.flushOf who)
    (hstale : s'.stale = s.stale) (hphase : s'.Phase) : s'.Agrees := by
  refine ⟨?_, fun who hwho imm himm => hquiet.covered (ha.covered who ?_ imm ?_), hphase⟩
  · rw [hquiet.contents, ha.contents, hexpected]
  · cases who with
    | worker => exact hstale.symm.trans hwho
    | loader => trivial
  · rwa [← hflush]

theorem flushStep_active (e : Engine) (pc : FlushPc) : (e.flushStep pc).1.active = e.active := by
  cases pc with
  | idle => rfl
  | rotated => rw [flushStep_rotated]
  | captured imm => rfl
  | numbered imm seq => rw [flushStep_numbered]
  | written imm reader => rfl

theorem flushStep_immutable (e : Engine) (pc : FlushPc) (h : e.immutable = none) :
    (e.flushStep pc).1.immutable = none := by
  cases pc with
  | idle => exact h
  | rotated => rw [flushStep_rotated, h]
  | captured imm => exact h
  | numbered imm seq => rw [flushStep_numbered, h]
  | written imm reader => rfl

/-- The flush worker rotates the memtables. -/
theorem Agrees.rotate (ha : s.Agrees) (himm : s.engine.immutable = none) :
    { s with engine := s.engine.rotate, flusher := .rotated }.Agrees := by
  have hidle : s.engine.Idle := by simp [Engine.Idle, himm]
  refine ⟨(Engine.contents_rotate hidle).trans ha.contents, fun who hwho imm hheld => ?_, ?_⟩
  · cases who with
    | worker => simp [flushOf, FlushPc.holds] at hheld
    | loader =>
        -- nothing but the snapshot is in memory, and that has been rotated already
        have hempty : s.engine.active.entries = [] := by
          have hphase := ha.phase
          unfold Phase at hphase
          cases hloader : s.loader with
          | idle => simp [flushOf, hloader, LoadPc.flush, FlushPc.holds] at hheld
          | removing paths => simp [flushOf, hloader, LoadPc.flush, FlushPc.holds] at hheld
          | flushing pc =>
              rw [hloader] at hphase
              exact hphase
        rcases ha.covered .loader trivial imm hheld with hsome | ⟨-, hdisk⟩
        · rw [himm] at hsome
          simp at hsome
        · refine .inr ⟨fun m hm => ?_, hdisk⟩
          obtain rfl : s.engine.active = m := by simpa [Engine.rotate] using hm
          exact hempty
  · unfold Phase
    cases s.loader with
    | idle => trivial
    | removing paths => exact fun hne => absurd rfl hne
    | flushing pc => rfl

/-- Every step of the flush worker. -/
theorem Agrees.step_flusher (hs : s.Sound) (ha : s.Agrees) (hcurrent : s.FlushCurrent .flusher) :
    (s.step .flusher).Agrees := by
  by_cases hpc : s.flusher = .idle
  · simp only [Workers.step, hpc]
    split
    · exact ha
    · next hnone => exact ha.rotate (by simpa using hnone)
  · have hmove := flushMove_worker hpc
    have hrest : (s.step .flusher).expected = s.expected ∧
        (s.step .flusher).loader = s.loader ∧
        ((s.step .flusher).stale = s.stale ∨ s.flusher = .rotated) := by
      cases hflusher : s.flusher <;> simp_all [Workers.step]
    obtain ⟨hexpected, hloader, hstale⟩ := hrest
    refine Agrees.flushMove hmove hs ha hexpected ?_ ?_ ?_ (fun other hne _ => ?_)
    · have hphase := ha.phase
      unfold Phase at hphase ⊢
      rw [hloader]
      cases hpc' : s.loader with
      | idle => trivial
      | removing paths =>
          rw [hpc'] at hphase
          intro hne
          rw [hmove.engine, flushStep_active] at hne
          obtain ⟨hnone, hheld⟩ := hphase hne
          refine ⟨by rw [hmove.engine, flushStep_immutable _ _ hnone], fun hfalse => ?_⟩
          refine Option.eq_none_iff_forall_not_mem.mpr fun imm himm => ?_
          rcases hmove.holds himm with hold | ⟨-, hsome⟩
          · rcases hstale with hstale | hrotated
            · rw [flushOf, hheld (hstale ▸ hfalse)] at hold
              simp at hold
            · rw [flushOf, hrotated] at hold
              simp [FlushPc.holds] at hold
          · rw [hnone] at hsome
            simp at hsome
      | flushing pc =>
          rw [hpc'] at hphase
          simp only
          rw [hmove.engine, flushStep_active]
          exact hphase
    · intro imm reader hwritten
      have hflusher : s.flusher = .written imm reader := hwritten
      rw [FlushCurrent, hflusher] at hcurrent
      exact hcurrent
    · intro hfalse
      exact hstale.imp_left fun heq => heq.symm.trans hfalse
    · cases other with
      | worker => exact absurd rfl hne
      | loader => trivial

/-- Every step of `LoadSnapshot` once the state is replaced. -/
theorem Agrees.step_loader (hs : s.Sound) (ha : s.Agrees) : (s.step .loader).Agrees := by
  have hphase := ha.phase
  unfold Phase at hphase
  cases hpc : s.loader with
  | idle =>
      have hsame : s.step .loader = s := by
        rw [Workers.step, hpc, Engine.loadStep, ← hpc]
      rwa [hsame]
  | removing paths =>
      rw [hpc] at hphase
      cases paths with
      | cons path paths =>
          have hdoomed : path ∈ s.doomed := by
            rw [doomed, hpc]
            exact List.mem_append_right _ List.mem_cons_self
          obtain ⟨hlive, -, -⟩ := hs.lookup_erase hdoomed
          simp only [Workers.step, hpc, Engine.loadStep]
          refine ha.quiet (hs.quiet_of_files hlive) rfl (fun who => ?_) rfl hphase
          cases who with
          | worker => rfl
          | loader => rw [flushOf, flushOf, hpc]; rfl
      | nil =>
          simp only [Workers.step, hpc, Engine.loadStep]
          split
          · next hsize =>
              have hne : s.engine.active.entries ≠ [] := by
                intro hempty
                rw [s.engine.active.size_eq_zero.mpr hempty] at hsize
                omega
              obtain ⟨hnone, hheld⟩ := hphase hne
              have hidle : s.engine.Idle := by simp [Engine.Idle, hnone]
              refine ⟨(Engine.contents_rotate hidle).trans ha.contents,
                fun who hwho imm himm => ?_, rfl⟩
              cases who with
              | worker =>
                  rw [flushOf, hheld hwho] at himm
                  simp at himm
              | loader => simp [flushOf, LoadPc.flush, FlushPc.holds] at himm
          · next hsize =>
              refine ⟨ha.contents, fun who hwho imm himm => ?_, ?_⟩
              · cases who with
                | worker => exact ha.covered .worker hwho imm himm
                | loader => simp [flushOf, LoadPc.flush, FlushPc.holds] at himm
              · exact s.engine.active.size_eq_zero.mp (by omega)
  | flushing pc =>
      rw [hpc] at hphase
      have hmove := flushMove_loader hpc
      refine Agrees.flushMove hmove hs ha rfl ?_ (fun _ _ _ => trivial) (fun _ => .inl trivial)
        (fun other hne hother => ?_)
      · have hactive : (s.step .loader).engine.active.entries = [] := by
          rw [hmove.engine, flushStep_active]
          exact hphase
        simp only [Phase]
        split
        · trivial
        · exact fun hne => absurd hactive hne
        · exact hactive
      · cases other with
        | worker => exact hother
        | loader => exact absurd rfl hne

/-- Loading a snapshot replaces what is expected, whatever was there before. -/
theorem agrees_replace (s : Workers) (entries : List MemEntry) :
    { s with
      engine := s.engine.replaceState entries
      loader := .removing (s.engine.sstables.map SSTableReader.path)
      expected := .ofEntries entries
      stale := true }.Agrees := by
  refine ⟨Engine.visible_memtableOf_entries entries, fun who hwho imm himm => ?_,
    fun _ => ⟨rfl, ?_⟩⟩
  · cases who with
    | worker => exact absurd hwho (by simp [Current])
    | loader => simp [flushOf, LoadPc.flush, FlushPc.holds] at himm
  · simp

/-- A write reaches the active memtable. -/
theorem Agrees.write (ha : s.Agrees) (hloader : s.loader = .idle) {m : Memtable} {flushCh : Bool}
    {expected : Store}
    (hm : ∀ layers, visible (s.engine.active.entries :: layers) = s.expected →
      visible (m.entries :: layers) = expected) :
    { s with
      engine := { s.engine with active := m, flushCh := flushCh }
      expected := expected }.Agrees := by
  refine ⟨hm _ ha.contents, fun who hwho imm himm => ?_, ?_⟩
  · have hcovered : s.engine.Covered imm := by
      cases who with
      | worker => exact ha.covered .worker hwho imm himm
      | loader => exact ha.covered .loader hwho imm himm
    exact hcovered
  · rw [Phase]
    simp only [hloader]

/-- One step of the system. -/
theorem Agrees.step (hs : s.Sound) (ha : s.Agrees) {event : WorkerEvent}
    (hkept : s.ListKept event) (hcurrent : s.FlushCurrent event) : (s.step event).Agrees := by
  cases event with
  | put key value =>
      rcases step_put s key value with heq | ⟨flushCh, hloader, heq⟩
      · rwa [heq]
      · rw [heq]
        refine ha.write hloader fun layers hlayers => ?_
        rw [visible_put, hlayers]
  | delete key =>
      rcases step_delete s key with heq | ⟨flushCh, hloader, heq⟩
      · rwa [heq]
      · rw [heq]
        refine ha.write hloader fun layers hlayers => ?_
        rw [visible_delete, hlayers]
  | load data =>
      rcases step_load s data with heq | ⟨entries, hloader, hdecode, heq⟩
      · rwa [heq]
      · rw [heq]
        exact agrees_replace s entries
  | loader => exact ha.step_loader hs
  | flusher => exact ha.step_flusher hs hcurrent
  | compactor =>
      refine ha.quiet (hs.quiet_compactor hkept) rfl (fun who => ?_) rfl ?_
      · cases who <;> rfl
      · have hquiet := hs.quiet_compactor hkept
        have hphase := ha.phase
        unfold Phase at hphase ⊢
        rw [hquiet.active, hquiet.immutable]
        exact hphase

/-! ## Flushing and compacting between writes -/

/-- Writes, and steps of the two workers. -/
def writes : WorkerEvent → Bool
  | .load _ => false
  | _ => true

theorem agrees_resting {e : Engine} : (resting e).Agrees := by
  refine ⟨rfl, fun who _ imm himm => ?_, trivial⟩
  cases who <;> simp [resting, flushOf, LoadPc.flush, FlushPc.holds] at himm

/-- Without snapshots, no flush is ever overtaken by one. -/
theorem stale_step {event : WorkerEvent} (hwrites : writes event) (h : s.stale = false) :
    (s.step event).stale = false := by
  cases event with
  | put key value =>
      rcases step_put s key value with heq | ⟨flushCh, -, heq⟩ <;> rw [heq] <;> exact h
  | delete key =>
      rcases step_delete s key with heq | ⟨flushCh, -, heq⟩ <;> rw [heq] <;> exact h
  | load data => simp [writes] at hwrites
  | loader => exact h
  | flusher =>
      simp only [Workers.step]
      split
      · split <;> exact h
      · rfl
      · exact h
  | compactor => exact h

theorem flushCurrent_of_not_stale (h : s.stale = false) (event : WorkerEvent) :
    s.FlushCurrent event := by
  cases event with
  | flusher =>
      rw [FlushCurrent]
      cases s.flusher with
      | written imm reader => exact h
      | idle => trivial
      | rotated => trivial
      | captured imm => trivial
      | numbered imm seq => trivial
  | put key value => trivial
  | delete key => trivial
  | load data => trivial
  | loader => trivial
  | compactor => trivial

/-- The flush worker and the compaction worker never change what the store contains, as long
as every compaction publishes its table over the list that it has captured. -/
theorem contents_of_writes {e : Engine} (he : e.Sound) {s : Workers}
    (hrun : Reaches Workers.step
      (fun s event => s.Proper event ∧ writes event ∧ s.ListKept event) (resting e) s) :
    s.engine.contents = s.expected := by
  have hinv : s.Sound ∧ s.Agrees ∧ s.stale = false := by
    refine Reaches.invariant (P := fun s => s.Sound ∧ s.Agrees ∧ s.stale = false) hrun
      ⟨sound_resting he, agrees_resting, rfl⟩ ?_
    rintro s event ⟨hs, ha, hstale⟩ ⟨hproper, hwrites, hkept⟩
    exact ⟨hs.step hproper, ha.step hs hkept (flushCurrent_of_not_stale hstale event),
      stale_step hwrites hstale⟩
  exact hinv.2.1.contents

/-- Two tables are flushed, and a compaction has written their merge. -/
def compacting : List WorkerEvent :=
  .put [97] [1] :: List.replicate 5 .flusher ++ .put [98] [2] :: List.replicate 5 .flusher ++
    List.replicate 6 .compactor

/-- It publishes the merge while a third table is being written. -/
def keptFlush : List WorkerEvent :=
  compacting ++ .put [99] [3] :: List.replicate 4 .flusher ++ [.compactor, .flusher, .compactor]

/-- A third table is published before the compaction publishes its own. -/
def lostFlush : List WorkerEvent :=
  compacting ++ .put [99] [3] :: List.replicate 5 .flusher ++ [.compactor]

theorem contents_of_writes_keptFlush :
    (keptFlush.foldl step (resting .fresh)).engine.contents [99] = some [3] := by
  have hrun : Allowed step (fun s event => s.Proper event ∧ writes event ∧ s.ListKept event)
        (resting .fresh) keptFlush ∧
      (keptFlush.foldl step (resting .fresh)).expected [99] = some [3] := by
    decide +kernel
  have h := contents_of_writes Engine.sound_fresh (Reaches.foldl .refl keptFlush hrun.1)
  rw [h]
  exact hrun.2

/-- The third key is lost. -/
theorem flushed_key_lost :
    Reaches step (fun s event => s.Proper event ∧ writes event) (resting .fresh)
        (lostFlush.foldl step (resting .fresh)) ∧
      (lostFlush.foldl step (resting .fresh)).expected [99] = some [3] ∧
      (lostFlush.foldl step (resting .fresh)).engine.contents [99] = none := by
  have hrun : Allowed step (fun s event => s.Proper event ∧ writes event) (resting .fresh)
        lostFlush ∧
      (lostFlush.foldl step (resting .fresh)).expected [99] = some [3] ∧
      (lostFlush.foldl step (resting .fresh)).engine.contents [99] = none := by
    decide +kernel
  exact ⟨Reaches.foldl .refl lostFlush hrun.1, hrun.2⟩

/-! ## Loading a snapshot while the workers run -/

/-- Steps of the two workers and of `LoadSnapshot`. -/
def background : WorkerEvent → Bool
  | .loader => true
  | .flusher => true
  | .compactor => true
  | _ => false

/-- No thread is in the middle of anything. -/
def finished (s : Workers) : Bool :=
  match s.flusher, s.compactor, s.loader with
  | .idle, .idle, .idle => true
  | _, _, _ => false

instance : (pc : LoadPc) → Decidable (pc = .idle)
  | .idle => .isTrue rfl
  | .removing _ => .isFalse LoadPc.noConfusion
  | .flushing _ => .isFalse LoadPc.noConfusion

theorem expected_step {event : WorkerEvent} (hbackground : background event) :
    (s.step event).expected = s.expected := by
  cases event with
  | loader => rfl
  | flusher =>
      simp only [Workers.step]
      split
      · split <;> rfl
      · rfl
      · rfl
  | compactor => rfl
  | put key value => simp [background] at hbackground
  | delete key => simp [background] at hbackground
  | load data => simp [background] at hbackground

/-- `LoadSnapshot` replaces the contents, wherever the workers were when it started, as long
as the flush that was in progress is not published, and a compaction is published over the
list that it has captured. -/
theorem contents_of_load {e : Engine} (he : e.Sound) {s : Workers}
    (hrun : Reaches Workers.step Proper (resting e) s) (hloader : s.loader = .idle)
    {data : Bytes} {entries : List MemEntry} (hdecode : decodeSnapshot data = .ok entries)
    {s' : Workers}
    (hload : Reaches Workers.step
      (fun s event => s.Proper event ∧ background event ∧ s.ListKept event ∧ s.FlushCurrent event)
      (s.step (.load data)) s') :
    s'.engine.contents = Store.ofEntries entries := by
  have hs : s.Sound :=
    hrun.invariant (P := Sound) (sound_resting he) fun s event hs hproper => hs.step hproper
  have hstart : s.step (.load data) =
      { s with
        engine := s.engine.replaceState entries
        loader := .removing (s.engine.sstables.map SSTableReader.path)
        expected := .ofEntries entries
        stale := true } := by
    simp only [Workers.step, hloader, hdecode]
  have hinv : s'.Sound ∧ s'.Agrees ∧ s'.expected = .ofEntries entries := by
    refine Reaches.invariant (P := fun s => s.Sound ∧ s.Agrees ∧ s.expected = .ofEntries entries)
      hload ?_ ?_
    · rw [hstart]
      exact ⟨hs.replace hloader (fits_of_decodeSnapshot hdecode), agrees_replace s entries, rfl⟩
    · rintro s event ⟨hs, ha, hexpected⟩ ⟨hproper, hbackground, hkept, hcurrent⟩
      exact ⟨hs.step hproper, ha.step hs hkept hcurrent,
        (expected_step hbackground).trans hexpected⟩
  exact hinv.2.1.contents.trans hinv.2.2

/-- A snapshot with one key. -/
def oneKeySnapshot : Bytes :=
  encodeSnapshot [⟨[100], [4], kindPut⟩]

/-- Two tables are flushed, a compaction has captured them, and the next flush has begun. -/
def busy : List WorkerEvent :=
  .put [97] [1] :: List.replicate 5 .flusher ++ .put [98] [2] :: List.replicate 5 .flusher ++
    [.compactor, .put [99] [3], .flusher]

/-- The old files are removed before the compaction has read them. -/
def loading : List WorkerEvent :=
  [.loader, .loader, .compactor] ++ List.replicate 5 .loader ++ [.flusher]

theorem contents_of_load_busy :
    (loading.foldl step ((busy.foldl step (resting .fresh)).step
        (.load oneKeySnapshot))).finished = true ∧
      (loading.foldl step ((busy.foldl step (resting .fresh)).step
        (.load oneKeySnapshot))).engine.contents = Store.ofEntries [⟨[100], [4], kindPut⟩] := by
  have hrun : Allowed step Proper (resting .fresh) busy ∧
      (busy.foldl step (resting .fresh)).loader = .idle ∧
      Allowed step
        (fun s event =>
          s.Proper event ∧ background event ∧ s.ListKept event ∧ s.FlushCurrent event)
        ((busy.foldl step (resting .fresh)).step (.load oneKeySnapshot)) loading ∧
      (loading.foldl step ((busy.foldl step (resting .fresh)).step
        (.load oneKeySnapshot))).finished = true := by
    decide +kernel
  obtain ⟨hbusy, hloader, hloading, hfinished⟩ := hrun
  exact ⟨hfinished, contents_of_load Engine.sound_fresh (Reaches.foldl .refl busy hbusy) hloader
    (by decide +kernel) (Reaches.foldl .refl loading hloading)⟩

/-- A key is written, and its table is about to be published. -/
def flushing : List WorkerEvent :=
  .put [97] [1] :: List.replicate 4 .flusher

/-- The snapshot is loaded, and then the table is published. -/
def overtaken : List WorkerEvent :=
  List.replicate 5 .loader ++ [.flusher]

/-- The old key is back. -/
theorem replaced_key_resurrected :
    Reaches step Proper (resting .fresh) (flushing.foldl step (resting .fresh)) ∧
      decodeSnapshot oneKeySnapshot = .ok [⟨[100], [4], kindPut⟩] ∧
      Reaches step (fun s event => s.Proper event ∧ background event)
        ((flushing.foldl step (resting .fresh)).step (.load oneKeySnapshot))
        (overtaken.foldl step
          ((flushing.foldl step (resting .fresh)).step (.load oneKeySnapshot))) ∧
      (overtaken.foldl step
        ((flushing.foldl step (resting .fresh)).step (.load oneKeySnapshot))).finished = true ∧
      (overtaken.foldl step ((flushing.foldl step (resting .fresh)).step
        (.load oneKeySnapshot))).engine.contents [97] = some [1] ∧
      Store.ofEntries [⟨[100], [4], kindPut⟩] [97] = none := by
  have hrun : Allowed step Proper (resting .fresh) flushing ∧
      Allowed step (fun s event => s.Proper event ∧ background event)
        ((flushing.foldl step (resting .fresh)).step (.load oneKeySnapshot)) overtaken ∧
      (overtaken.foldl step
        ((flushing.foldl step (resting .fresh)).step (.load oneKeySnapshot))).finished = true ∧
      (overtaken.foldl step ((flushing.foldl step (resting .fresh)).step
        (.load oneKeySnapshot))).engine.contents [97] = some [1] := by
    decide +kernel
  obtain ⟨hflushing, hovertaken, hfinished, hback⟩ := hrun
  exact ⟨Reaches.foldl .refl flushing hflushing, by decide +kernel,
    Reaches.foldl .refl overtaken hovertaken, hfinished, hback, by decide +kernel⟩

end Workers

end RaftKV.Storage
