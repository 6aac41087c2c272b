import RaftKV.Storage.FlushSignals
import RaftKV.Storage.Operations

/-!
# Closing an engine while its worker flushes

`Close` of `storage/engine.go` step by step, next to the flush worker.  Both flush through
one slot, `e.immutable`: each moves the active memtable into it, reads it back later, and
clears it at the end, without looking whose memtable is in it.  Nothing is lost as long as
the two keep an order, and there are three places where they may not:

* `Close` puts its memtable in the place of one that the worker has rotated and not yet read;
* the worker clears the slot when `Close` has filled it and not yet read it;
* `Close` takes its number before the worker takes one for an older memtable, so that the
  older table comes out as the newer one.

`Stack` is the abstract view: the layers of records that are somewhere between the memtable
and the tables, and who holds them.  A `Move` is what a step does to it with the order kept,
and no move changes what the layers show.
-/

namespace RaftKV.Storage

/-! ## Layers that are on their way to disk -/

/-- The layer adds nothing to the layers below it. -/
def Shown (layer : List MemEntry) (layers : List (List MemEntry)) : Prop :=
  ∀ key, newest MemEntry.key key (layer :: layers) = newest MemEntry.key key layers

namespace Shown

variable {layer layer' : List MemEntry} {layers : List (List MemEntry)}

theorem nil : Shown [] layers := by
  intro key
  rw [newest_cons, lookup_nil, Option.none_or]

theorem head : Shown layer (layer :: layers) := by
  intro key
  rw [newest_cons, newest_cons, ← Option.or_assoc, Option.or_self]

theorem cons (h : Shown layer layers) (h' : Shown layer' layers) :
    Shown layer (layer' :: layers) := by
  intro key
  rw [newest_cons, h' key, ← newest_cons, h key]

/-- Such a layer can be left out. -/
theorem visible_eq (h : Shown layer layers) (upper : List (List MemEntry)) :
    visible (upper ++ layer :: layers) = visible (upper ++ layers) :=
  visible_append_congr upper fun key => by rw [h key]

/-- So can the one in the slot. -/
theorem visible_slot {slot : Option (List MemEntry)} (h : ∀ layer ∈ slot, Shown layer layers)
    (active : List MemEntry) :
    visible (active :: (slot.toList ++ layers)) = visible (active :: layers) := by
  cases slot with
  | none => rfl
  | some layer => exact (h layer rfl).visible_eq [active]

end Shown

/-- A layer that is there a second time, further down, adds nothing. -/
theorem visible_repeat (upper middle : List (List MemEntry)) (layer : List MemEntry)
    (layers : List (List MemEntry)) :
    visible (upper ++ layer :: (middle ++ layer :: layers)) =
      visible (upper ++ layer :: (middle ++ layers)) := by
  refine visible_append_congr upper fun key => ?_
  rw [newest_cons, newest_cons, newest_append, newest_append, newest_cons]
  cases lookup MemEntry.key key layer with
  | none => rw [Option.none_or, Option.none_or, Option.none_or]
  | some entry => rfl

/-- How far `Close` has come. -/
inductive Stage
  /-- It has not taken the active memtable. -/
  | before
  /-- It has, and is about to read the slot. -/
  | swapped
  /-- It has read the slot, and has no number. -/
  | holding (layer : List MemEntry)
  /-- It has a number, or nothing to flush. -/
  | past

/-- How far the worker has come. -/
inductive Hand
  | free
  /-- It has filled the slot, and is about to read it. -/
  | rotated
  | holding (layer : List MemEntry)
  | numbered (layer : List MemEntry)

/-- What a thread has read and not numbered. -/
def Stage.held : Stage → List (List MemEntry)
  | .holding layer => [layer]
  | _ => []

@[inherit_doc Stage.held]
def Hand.held : Hand → List (List MemEntry)
  | .holding layer => [layer]
  | _ => []

/-- The layers, and where they are.  With its number a layer is one of the tables, be its
file written or not. -/
structure Stack where
  active : List MemEntry
  slot : Option (List MemEntry)
  stage : Stage
  hand : Hand
  tables : List (List MemEntry)

namespace Stack

/-- All layers, the newest first. -/
def layers (s : Stack) : List (List MemEntry) :=
  s.active :: (s.slot.toList ++ (s.stage.held ++ (s.hand.held ++ s.tables)))

/-- One step of `Close` or of the worker, with the order kept. -/
inductive Move : Stack → Stack → Prop
  | rotate {active stage tables} :
      Move ⟨active, none, stage, .free, tables⟩ ⟨[], some active, stage, .rotated, tables⟩
  | skip {active slot stage tables} (empty : ∀ layer ∈ slot, layer = []) :
      Move ⟨active, slot, stage, .rotated, tables⟩ ⟨active, slot, stage, .free, tables⟩
  | capture {active layer stage tables} (filled : layer ≠ []) :
      Move ⟨active, some layer, stage, .rotated, tables⟩
        ⟨active, some layer, stage, .holding layer, tables⟩
  | number {active slot stage layer tables} :
      Move ⟨active, slot, stage, .holding layer, tables⟩
        ⟨active, slot, stage, .numbered layer, layer :: tables⟩
  | publish {active slot stage layer tables}
      (own : stage = .swapped → ∀ layer' ∈ slot, layer' = layer) :
      Move ⟨active, slot, stage, .numbered layer, tables⟩ ⟨active, none, stage, .free, tables⟩
  | swap {active slot hand tables} (filled : active ≠ [])
      (read : hand = .rotated → ∀ layer ∈ slot, layer = []) :
      Move ⟨active, slot, .before, hand, tables⟩ ⟨[], some active, .swapped, hand, tables⟩
  | pass {slot hand tables} :
      Move ⟨[], slot, .before, hand, tables⟩ ⟨[], slot, .swapped, hand, tables⟩
  | leave {active slot hand tables} (empty : ∀ layer ∈ slot, layer = []) :
      Move ⟨active, slot, .swapped, hand, tables⟩ ⟨active, slot, .past, hand, tables⟩
  | take {active layer hand tables} (filled : layer ≠ []) :
      Move ⟨active, some layer, .swapped, hand, tables⟩
        ⟨active, some layer, .holding layer, hand, tables⟩
  | closeNumber {active slot layer hand tables}
      (first : ∀ layer', hand = .holding layer' → layer' = layer) :
      Move ⟨active, slot, .holding layer, hand, tables⟩
        ⟨active, slot, .past, hand, layer :: tables⟩
  | clear {active slot hand tables} :
      Move ⟨active, slot, .past, hand, tables⟩ ⟨active, none, .past, hand, tables⟩

/-- Who may clear the slot. -/
def Ordered (s : Stack) : Prop :=
  match s.stage with
  | .before =>
      match s.hand with
      | .free => ∀ layer ∈ s.slot, layer = []
      | .rotated => True
      | .holding layer => layer ≠ [] ∧ s.slot = some layer
      | .numbered layer => layer ≠ [] ∧ s.slot = some layer ∧ Shown layer s.tables
  | .swapped =>
      s.active = [] ∧
        match s.hand with
        | .free => True
        | .rotated => True
        | .holding _ => ∃ layer', s.slot = some layer' ∧ layer' ≠ []
        | .numbered layer => (∃ layer', s.slot = some layer' ∧ layer' ≠ []) ∧ Shown layer s.tables
  | .holding layer => s.active = [] ∧ ∀ layer' ∈ s.slot, layer' = layer ∨ layer' = []
  | .past =>
      s.active = [] ∧ (∀ layer ∈ s.slot, Shown layer s.tables) ∧
        ∀ layer ∈ s.hand.held, Shown layer s.tables

variable {s s' : Stack}

theorem Move.ordered (h : Move s s') (hs : s.Ordered) : s'.Ordered := by
  cases h with
  | @rotate active stage tables =>
      cases stage <;> simp_all [Ordered, Hand.held, Shown.nil]
  | @skip active slot stage tables empty =>
      cases stage <;> simp_all [Ordered, Hand.held]
  | @capture active layer stage tables filled =>
      cases stage <;> simp_all [Ordered, Hand.held]
  | @number active slot stage layer tables =>
      cases stage with
      | before => exact ⟨hs.1, hs.2, .head⟩
      | swapped => exact ⟨hs.1, hs.2, .head⟩
      | holding layer' => exact hs
      | past =>
          obtain ⟨hactive, hslot, hheld⟩ := hs
          have hlayer : Shown layer tables := hheld layer (by simp [Hand.held])
          exact ⟨hactive, fun l hl => (hslot l hl).cons hlayer, by simp [Hand.held]⟩
  | @publish active slot stage layer tables own =>
      cases stage <;> simp_all [Ordered, Hand.held]
  | @swap active slot hand tables filled read =>
      cases hand <;> simp_all [Ordered]
  | @pass slot hand tables =>
      cases hand <;> simp_all [Ordered]
  | @leave active slot hand tables empty =>
      have hslot : ∀ layer ∈ slot, Shown layer tables := fun l hl => by
        rw [empty l hl]
        exact .nil
      refine ⟨hs.1, hslot, ?_⟩
      -- a worker that holds a layer leaves the slot filled
      cases hand with
      | free => simp [Hand.held]
      | rotated => simp [Hand.held]
      | holding layer =>
          obtain ⟨layer', hslot', hne⟩ := hs.2
          exact absurd (empty layer' hslot') hne
      | numbered layer => simp [Hand.held]
  | @take active layer hand tables filled =>
      exact ⟨hs.1, by simp⟩
  | @closeNumber active slot layer hand tables first =>
      refine ⟨hs.1, fun l hl => ?_, fun l hl => ?_⟩
      · rcases hs.2 l hl with rfl | rfl
        · exact .head
        · exact .nil
      · cases hand <;> simp_all [Hand.held, Shown.head]
  | @clear active slot hand tables =>
      exact ⟨hs.1, by simp, hs.2.2⟩

section Slot

variable {active : List MemEntry} {slot : Option (List MemEntry)} {hand : Hand}
  {tables : List (List MemEntry)}

/-- The worker clears the slot when its own layer has a number. -/
theorem Ordered.shown_of_numbered {stage : Stage} {layer : List MemEntry}
    (hs : Ordered ⟨active, slot, stage, .numbered layer, tables⟩)
    (own : stage = .swapped → ∀ layer' ∈ slot, layer' = layer) :
    ∀ layer' ∈ slot, Shown layer' (stage.held ++ tables) := by
  intro layer' hlayer'
  cases stage with
  | before =>
      obtain rfl : layer = layer' := Option.some.inj (hs.2.1.symm.trans hlayer')
      exact hs.2.2
  | swapped =>
      rw [own rfl layer' hlayer']
      exact hs.2.2
  | holding held =>
      rcases hs.2 layer' hlayer' with rfl | rfl
      · exact .head
      · exact .nil
  | past => exact hs.2.1 layer' hlayer'

/-- `Close` overwrites a slot that the worker has read. -/
theorem Ordered.shown_of_before (hs : Ordered ⟨active, slot, .before, hand, tables⟩)
    (read : hand = .rotated → ∀ layer ∈ slot, layer = []) :
    ∀ layer ∈ slot, Shown layer (hand.held ++ tables) := by
  intro layer hlayer
  cases hand with
  | free =>
      rw [hs layer hlayer]
      exact .nil
  | rotated =>
      rw [read rfl layer hlayer]
      exact .nil
  | holding held =>
      obtain rfl : held = layer := Option.some.inj (hs.2.symm.trans hlayer)
      exact .head
  | numbered held =>
      obtain rfl : held = layer := Option.some.inj (hs.2.1.symm.trans hlayer)
      exact hs.2.2

/-- `Close` clears the slot when its layer has a number. -/
theorem Ordered.shown_of_past (hs : Ordered ⟨active, slot, .past, hand, tables⟩) :
    ∀ layer ∈ slot, Shown layer (hand.held ++ tables) := by
  intro layer hlayer
  cases hand with
  | holding held => exact (hs.2.1 layer hlayer).cons (hs.2.2 held List.mem_cons_self)
  | _ => exact hs.2.1 layer hlayer

end Slot

/-- No move changes what the layers show. -/
theorem Move.visible_eq (h : Move s s') (hs : s.Ordered) :
    visible s'.layers = visible s.layers := by
  cases h with
  | @rotate active stage tables =>
      exact visible_nil_cons
  | @skip active slot stage tables empty => rfl
  | @capture active layer stage tables filled =>
      -- what the worker holds is still in the slot, above what `Close` holds
      exact visible_repeat [active] stage.held layer tables
  | @number active slot stage layer tables => rfl
  | @publish active slot stage layer tables own =>
      exact (Shown.visible_slot (hs.shown_of_numbered own) active).symm
  | @swap active slot hand tables filled read =>
      exact visible_nil_cons.trans (Shown.visible_slot (hs.shown_of_before read) active).symm
  | @pass slot hand tables => rfl
  | @leave active slot hand tables empty => rfl
  | @take active layer hand tables filled =>
      exact Shown.head.visible_eq [active]
  | @closeNumber active slot layer hand tables first =>
      -- with its number the layer passes those the worker holds, which are copies of it
      cases hand with
      | holding held => rw [first held rfl]; rfl
      | _ => rfl
  | @clear active slot hand tables =>
      exact (Shown.visible_slot hs.shown_of_past active).symm

/-- A move brings no new records. -/
theorem Move.mem_layers (h : Move s s') {layer : List MemEntry} (hlayer : layer ∈ s'.layers) :
    layer ∈ s.layers ∨ layer = [] := by
  cases h with
  | _ => simp_all [layers, Stage.held, Hand.held] <;> tauto

end Stack

/-! ## Tables that have a number -/

/-- The number that a flush has taken and the records that it has not yet written. -/
def FlushPc.owed : FlushPc → Option (ℕ × List MemEntry)
  | .numbered imm seq => some (seq, imm.entries)
  | _ => none

/-- The tables that have a number, the newest first.  What two flushes owe is not on disk
yet. -/
structure Engine.Numbered (e : Engine) (owed owed' : Option (ℕ × List MemEntry))
    (tables : List Table) : Prop where
  files : ∀ t ∈ tables, e.files.lookup t.path = some (tableBytes t.entries) ∨
    owed = some (t.seq, t.entries) ∨ owed' = some (t.seq, t.entries)
  /-- There is no other file. -/
  paths : ∀ path ∈ e.files.keys, path ∈ tables.map Table.path
  owes : ∀ n ∈ owed, ∃ t ∈ tables, (t.seq, t.entries) = n
  owes' : ∀ n ∈ owed', ∃ t ∈ tables, (t.seq, t.entries) = n
  descending : tables.Pairwise fun newer older => older.seq < newer.seq
  numbered : ∀ t ∈ tables, t.seq ≤ e.sstableSeq
  narrow : e.sstableSeq < 10 ^ 16

/-- No flush fails: there is a number for the memtable, and its table can be written. -/
def Engine.CanNumber (e : Engine) : FlushPc → Prop
  | .captured imm => e.nextSeq < 10 ^ 16 ∧ (tableBytes imm.snapshot).length < maxInt64
  | _ => True

instance (e : Engine) : (pc : FlushPc) → Decidable (e.CanNumber pc)
  | .captured _ => inferInstanceAs (Decidable (_ ∧ _))
  | .idle => isTrue trivial
  | .rotated => isTrue trivial
  | .numbered _ _ => isTrue trivial
  | .written _ _ => isTrue trivial

theorem Engine.Backed.numbered_idle {e : Engine} {tables : List Table} (h : e.Backed tables) :
    e.Numbered none none tables where
  files t ht := .inl (h.files t ht)
  paths := h.paths
  owes := by simp
  owes' := by simp
  descending := h.descending
  numbered := h.numbered
  narrow := h.narrow

namespace Engine.Numbered

variable {e : Engine} {owed owed' : Option (ℕ × List MemEntry)} {tables : List Table}

theorem symm (h : e.Numbered owed owed' tables) : e.Numbered owed' owed tables where
  files t ht := (h.files t ht).imp_right Or.symm
  paths := h.paths
  owes := h.owes'
  owes' := h.owes
  descending := h.descending
  numbered := h.numbered
  narrow := h.narrow

theorem congr (h : e.Numbered owed owed' tables) {e' : Engine} (hfiles : e'.files = e.files)
    (hseq : e'.sstableSeq = e.sstableSeq) : e'.Numbered owed owed' tables where
  files := hfiles ▸ h.files
  paths := hfiles ▸ h.paths
  owes := h.owes
  owes' := h.owes'
  descending := h.descending
  numbered := hseq ▸ h.numbered
  narrow := hseq ▸ h.narrow

/-- A flush takes a number. -/
theorem number (h : e.Numbered none owed' tables) (hnext : e.nextSeq < 10 ^ 16)
    {entries : List MemEntry} (hwritten : TableEntries entries) :
    { e with sstableSeq := e.nextSeq }.Numbered (some (e.nextSeq, entries)) owed'
      (⟨e.nextSeq, entries, hwritten⟩ :: tables) := by
  have hlt : ∀ t ∈ tables, t.seq < e.nextSeq := fun t ht => by
    have := h.numbered t ht
    rw [nextSeq_of_lt h.narrow]
    omega
  constructor
  · intro t ht
    rcases List.mem_cons.mp ht with rfl | ht
    · exact .inr (.inl rfl)
    · -- this flush owed nothing before
      exact (h.files t ht).imp_right fun howed => .inr (howed.resolve_left (by simp))
  · exact fun path hpath => List.mem_cons_of_mem _ (h.paths path hpath)
  · intro n hn
    exact ⟨_, List.mem_cons_self, Option.some.inj hn⟩
  · intro n hn
    obtain ⟨t, ht, heq⟩ := h.owes' n hn
    exact ⟨t, List.mem_cons_of_mem _ ht, heq⟩
  · exact List.pairwise_cons.mpr ⟨hlt, h.descending⟩
  · intro t ht
    rcases List.mem_cons.mp ht with rfl | ht
    · exact le_rfl
    · exact (hlt t ht).le
  · exact hnext

/-- Tables with one number are one table. -/
theorem eq_of_seq_eq (h : e.Numbered owed owed' tables) {t t' : Table} (ht : t ∈ tables)
    (ht' : t' ∈ tables) (hseq : t.seq = t'.seq) : t = t' := by
  have hnodup : (tables.map Table.seq).Nodup :=
    List.pairwise_map.mpr (h.descending.imp fun hlt => hlt.ne')
  exact List.inj_on_of_nodup_map hnodup ht ht' hseq

/-- It writes the file. -/
theorem write {seq : ℕ} {entries : List MemEntry}
    (h : e.Numbered (some (seq, entries)) owed' tables) :
    { e with files := e.files.insert (fileName seq) (tableBytes entries) }.Numbered none owed'
      tables := by
  obtain ⟨t₀, ht₀, heq⟩ := h.owes _ rfl
  obtain ⟨rfl, rfl⟩ : t₀.seq = seq ∧ t₀.entries = entries := Prod.mk.inj heq
  constructor
  · intro t ht
    by_cases hseq : t.seq = t₀.seq
    · obtain rfl := h.eq_of_seq_eq ht ht₀ hseq
      exact .inl (AList.lookup_insert _)
    · have hne : t.path ≠ t₀.path := by
        have := (h.numbered t ht).trans_lt h.narrow
        have := (h.numbered t₀ ht₀).trans_lt h.narrow
        rcases Nat.lt_or_gt_of_ne hseq with hlt | hlt
        · exact fileName_ne ‹_› hlt
        · exact (fileName_ne ‹_› hlt).symm
      -- the other flush has another number, and what it owes it still owes
      change (e.files.insert t₀.path _).lookup t.path = _ ∨ _
      rw [AList.lookup_insert_ne hne]
      exact (h.files t ht).imp_right fun howed =>
        .inr (howed.resolve_left fun h => hseq (Prod.mk.inj (Option.some.inj h)).1.symm)
  · intro path hpath
    rcases (AList.mem_insert e.files).mp hpath with rfl | hold
    · exact List.mem_map.mpr ⟨t₀, ht₀, rfl⟩
    · exact h.paths path hold
  · simp
  · exact h.owes'
  · exact h.descending
  · exact h.numbered
  · exact h.narrow

/-- With all files written, opening the directory finds the tables. -/
theorem openDir (h : e.Numbered none none tables) :
    ∃ e', Engine.openDir e.files = .ok e' ∧ e'.onDisk = visible (tables.map Table.entries) := by
  have hfiles : ∀ t ∈ tables, e.files.lookup t.path = some (tableBytes t.entries) := fun t ht =>
    (h.files t ht).resolve_right (by simp)
  have hb : { Engine.fresh with
      files := e.files, sstables := tables.map Table.reader,
      sstableSeq := e.sstableSeq }.Backed tables :=
    ⟨rfl, hfiles, h.paths, h.descending, h.numbered, h.narrow, by
      simp [memLayers, Engine.fresh, Memtable.new]⟩
  obtain ⟨e', hopen, -, -, hdisk⟩ := hb.openDir_contents
  refine ⟨e', hopen, hdisk.trans ?_⟩
  rw [onDisk, hb.diskLayers]

end Engine.Numbered

/-- What a step of a flush does, with the tables before and after it. -/
inductive FlushEffect (e : Engine) (tables : List Table) :
    FlushPc → Engine × FlushPc → List Table → Prop
  | idle : FlushEffect e tables .idle (e, .idle) tables
  | left (empty : ∀ imm ∈ e.immutable, imm.entries = []) :
      FlushEffect e tables .rotated (e, .idle) tables
  | captured (imm : Memtable) (slot : e.immutable = some imm) (filled : imm.entries ≠ []) :
      FlushEffect e tables .rotated (e, .captured imm) tables
  | numbered (imm : Memtable) (written : TableEntries imm.entries) :
      FlushEffect e tables (.captured imm)
        ({ e with sstableSeq := e.nextSeq }, .numbered imm e.nextSeq)
        (⟨e.nextSeq, imm.entries, written⟩ :: tables)
  | written (imm : Memtable) (seq : ℕ) (reader : SSTableReader) (files : Directory) :
      FlushEffect e tables (.numbered imm seq) ({ e with files }, .written imm reader) tables
  | published (imm : Memtable) (reader : SSTableReader) :
      FlushEffect e tables (.written imm reader)
        ({ e with sstables := reader :: e.sstables, immutable := none }, .idle) tables

theorem Engine.Numbered.flushStep {e : Engine} {pc : FlushPc}
    {owed' : Option (ℕ × List MemEntry)} {tables : List Table}
    (h : e.Numbered pc.owed owed' tables)
    (hfits : ∀ imm, pc = .captured imm → ∀ entry ∈ imm.entries, entry.Fits)
    (hnumber : e.CanNumber pc) :
    ∃ tables', FlushEffect e tables pc (e.flushStep pc) tables' ∧
      (e.flushStep pc).1.Numbered (e.flushStep pc).2.owed owed' tables' := by
  cases pc with
  | idle => exact ⟨tables, .idle, h⟩
  | rotated =>
      cases himm : e.immutable with
      | none =>
          have hstep : e.flushStep .rotated = (e, .idle) := by simp [Engine.flushStep, himm]
          rw [hstep]
          exact ⟨tables, .left (by simp [himm]), h⟩
      | some imm =>
          by_cases hsize : imm.size = 0
          · have hstep : e.flushStep .rotated = (e, .idle) := by
              simp [Engine.flushStep, himm, hsize]
            have hempty : imm.entries = [] := imm.size_eq_zero.mp hsize
            rw [hstep]
            exact ⟨tables, .left (by simp [himm, hempty]), h⟩
          · have hstep : e.flushStep .rotated = (e, .captured imm) := by
              simp [Engine.flushStep, himm, hsize]
            rw [hstep]
            exact ⟨tables, .captured imm himm (mt imm.size_eq_zero.mpr hsize), h⟩
  | captured imm =>
      have hwritten : TableEntries imm.entries := ⟨imm.sorted, hfits imm rfl, hnumber.2⟩
      exact ⟨_, .numbered imm hwritten, h.number hnumber.1 hwritten⟩
  | numbered imm seq =>
      obtain ⟨t, -, heq⟩ := h.owes _ rfl
      have hsize : (tableBytes imm.snapshot).length < maxInt64 := by
        change (tableBytes imm.entries).length < maxInt64
        rw [← (Prod.mk.inj heq).2]
        exact t.written.size
      have hstep : e.flushStep (.numbered imm seq) =
          ({ e with files := e.files.insert (fileName seq) (tableBytes imm.snapshot) },
            .written imm (readerOf (fileName seq) imm.snapshot)) := by
        simp only [Engine.flushStep, openSSTable_of_size hsize (AList.lookup_insert _)]
      rw [hstep]
      exact ⟨tables, .written imm seq _ _, h.write⟩
  | written imm reader => exact ⟨tables, .published imm reader, h.congr rfl rfl⟩

/-! ## Closing -/

/-- Where `Close` stands. -/
inductive ClosePc
  /-- About to mark the engine as closed. -/
  | calling
  /-- About to take the active memtable. -/
  | marked
  /-- About to look whether there is something to flush. -/
  | swapped
  | flushing (pc : FlushPc)
  /-- About to close `closeCh`. -/
  | flushed
  /-- Waiting for the worker to exit. -/
  | waiting
  | returned

namespace ClosePc

/-- Its call of `doFlush`. -/
def flush : ClosePc → FlushPc
  | .flushing pc => pc
  | _ => .idle

def isReturned : ClosePc → Bool
  | .returned => true
  | _ => false

theorem eq_returned {pc : ClosePc} (h : pc.isReturned = true) : pc = .returned := by
  cases pc <;> first | rfl | cases h

def stage : ClosePc → Stage
  | .calling => .before
  | .marked => .before
  | .swapped => .swapped
  | .flushing .rotated => .swapped
  | .flushing (.captured imm) => .holding imm.entries
  | _ => .past

end ClosePc

namespace WorkerPc

@[inherit_doc ClosePc.flush]
def flush : WorkerPc → FlushPc
  | .flushing pc => pc
  | _ => .idle

def hand : WorkerPc → Hand
  | .flushing .rotated => .rotated
  | .flushing (.captured imm) => .holding imm.entries
  | .flushing (.numbered imm _) => .numbered imm.entries
  | .flushing (.written imm _) => .numbered imm.entries
  | _ => .free

variable {pc : WorkerPc}

theorem eq_of_hand_rotated (h : pc.hand = .rotated) : pc = .flushing .rotated := by
  unfold hand at h
  split at h <;> simp_all

theorem eq_of_hand_holding {layer : List MemEntry} (h : pc.hand = .holding layer) :
    ∃ imm, pc = .flushing (.captured imm) ∧ imm.entries = layer := by
  unfold hand at h
  split at h <;> simp_all

end WorkerPc

/-- One step of `Close`. -/
def Engine.closeStep (e : Engine) : ClosePc → Engine × ClosePc
  | .calling => if e.closed then (e, .returned) else ({ e with closed := true }, .marked)
  | .marked => (if e.active.size > 0 then e.rotate else e, .swapped)
  | .swapped => (e, if e.immutable.isSome then .flushing .rotated else .flushed)
  | .flushing pc =>
      match e.flushStep pc with
      | (e, .idle) => (e, .flushed)
      | (e, pc) => (e, .flushing pc)
  | .flushed => (e, .waiting)
  | .waiting => (e, .returned)
  | .returned => (e, .returned)

namespace Engine

variable {e : Engine} {pc : ClosePc}

theorem closeStep_ne_calling : (e.closeStep pc).2 ≠ .calling := by
  unfold closeStep
  split <;> (try split) <;> simp

theorem closeStep_returned (h : (e.closeStep pc).2 = .returned) :
    pc = .calling ∨ pc = .waiting ∨ pc = .returned := by
  unfold closeStep at h
  split at h <;> (try split at h) <;> simp_all

end Engine

/-- The engine and its worker, and one call of `Close`. -/
structure Closing extends Signals where
  closer : ClosePc
  /-- The worker has returned. -/
  exited : Bool
  /-- History: the map of the writes that were accepted. -/
  expected : Store

inductive CloseEvent
  | put (key : Key) (value : Bytes)
  | delete (key : Key)
  | signal
  | worker
  /-- The worker finds `closeCh` closed. -/
  | exit
  | closer
  deriving DecidableEq

namespace Closing

/-- An engine that is in use, its worker waiting. -/
def resting (e : Engine) : Closing :=
  ⟨.resting e, .calling, false, e.contents⟩

def step (s : Closing) : CloseEvent → Closing
  | .put key value =>
      { s with
        toSignals := s.toSignals.step (.put key value)
        expected := if s.engine.closed then s.expected else s.expected.put key value }
  | .delete key =>
      { s with
        toSignals := s.toSignals.step (.delete key)
        expected := if s.engine.closed then s.expected else s.expected.delete key }
  | .signal => { s with toSignals := s.toSignals.step .signal }
  | .worker => if s.exited then s else { s with toSignals := s.toSignals.step .worker }
  | .exit =>
      match s.worker, s.closer with
      | .waiting, .waiting => { s with exited := true }
      | _, _ => s
  | .closer =>
      match s.closer, s.exited with
      | .waiting, false => s
      | pc, _ =>
          { s with engine := (s.engine.closeStep pc).1, closer := (s.engine.closeStep pc).2 }

/-- Keys and values fit the format, and no flush fails. -/
def Proper (s : Closing) : CloseEvent → Prop
  | .put key value => key.length < 2 ^ 32 ∧ value.length < 2 ^ 32
  | .delete key => key.length < 2 ^ 32
  | .worker => s.engine.CanNumber s.worker.flush
  | .closer => s.engine.CanNumber s.closer.flush
  | _ => True

instance (s : Closing) : (event : CloseEvent) → Decidable (s.Proper event)
  | .put _ _ => inferInstanceAs (Decidable (_ ∧ _))
  | .delete _ => inferInstanceAs (Decidable (_ < _))
  | .worker => inferInstanceAs (Decidable (s.engine.CanNumber _))
  | .closer => inferInstanceAs (Decidable (s.engine.CanNumber _))
  | .signal => isTrue trivial
  | .exit => isTrue trivial

/-- `Close` and the worker keep their order. -/
def inOrder (s : Closing) : CloseEvent → Bool
  | .closer =>
      match s.closer, s.worker with
      -- the worker has not read what it has rotated
      | .marked, .flushing .rotated =>
          s.engine.active.size = 0 || s.engine.immutable.all fun imm => imm.size = 0
      -- the worker has read another memtable, and has no number
      | .flushing (.captured imm), .flushing (.captured imm') => imm'.entries = imm.entries
      | _, _ => true
  | .worker =>
      match s.worker, s.closer.stage with
      -- `Close` has not read what is in the slot
      | .flushing (.written imm _), .swapped =>
          s.engine.immutable.all fun imm' => imm'.entries = imm.entries
      | _, _ => true
  | _ => true

end Closing

/-! ## The layers of a closing engine -/

/-- The abstract view of an engine, its worker and a call of `Close`. -/
def Engine.stack (e : Engine) (worker : WorkerPc) (closer : ClosePc) (tables : List Table) :
    Stack where
  active := e.active.entries
  slot := e.immutable.map Memtable.entries
  stage := closer.stage
  hand := worker.hand
  tables := tables.map Table.entries

section Steps

variable {e : Engine} {worker : WorkerPc} {closer : ClosePc} {tables : List Table}

/-- What a step of a thread is in the abstract view. -/
structure Engine.Moves (e : Engine) (worker : WorkerPc) (closer : ClosePc) (tables : List Table)
    (e' : Engine) (worker' : WorkerPc) (closer' : ClosePc) (tables' : List Table) : Prop where
  move : e'.stack worker' closer' tables' = e.stack worker closer tables ∨
    Stack.Move (e.stack worker closer tables) (e'.stack worker' closer' tables')
  files : e'.Numbered worker'.flush.owed closer'.flush.owed tables'

/-- The worker inside of its flush. -/
theorem Engine.workerStep_flushing_moves {pc : FlushPc}
    (hheld : ∀ imm, pc = .captured imm → ∀ entry ∈ imm.entries, entry.Fits)
    (hfiles : e.Numbered pc.owed closer.flush.owed tables) (hnumber : e.CanNumber pc)
    (hown : ∀ imm reader, pc = .written imm reader → closer.stage = .swapped →
      ∀ imm' ∈ e.immutable, imm'.entries = imm.entries) :
    ∃ tables', e.Moves (.flushing pc) closer tables (e.workerStep (.flushing pc)).1
      (e.workerStep (.flushing pc)).2 closer tables' ∧
        (e.workerStep (.flushing pc)).1.closed = e.closed := by
  obtain ⟨tables', heffect, hfiles'⟩ := hfiles.flushStep hheld hnumber
  refine ⟨tables', ?_⟩
  simp only [Engine.workerStep]
  generalize e.flushStep pc = after at heffect hfiles' ⊢
  cases heffect with
  | idle => exact ⟨⟨.inl rfl, hfiles'⟩, rfl⟩
  | left empty =>
      refine ⟨⟨.inr (.skip ?_), hfiles'⟩, rfl⟩
      simpa using empty
  | captured imm slot filled =>
      refine ⟨⟨.inr ?_, hfiles'⟩, rfl⟩
      simp only [Engine.stack, slot]
      exact .capture filled
  | numbered imm written => exact ⟨⟨.inr .number, hfiles'⟩, rfl⟩
  | written imm seq reader files => exact ⟨⟨.inl rfl, hfiles'⟩, rfl⟩
  | published imm reader =>
      refine ⟨⟨.inr (.publish fun hstage => ?_), hfiles'⟩, rfl⟩
      simpa using hown imm reader rfl hstage

theorem Engine.workerStep_moves
    (hfits : ∀ layer ∈ (e.stack worker closer tables).layers, ∀ entry ∈ layer, entry.Fits)
    (hfiles : e.Numbered worker.flush.owed closer.flush.owed tables)
    (hnumber : e.CanNumber worker.flush)
    (hown : ∀ imm reader, worker = .flushing (.written imm reader) → closer.stage = .swapped →
      ∀ imm' ∈ e.immutable, imm'.entries = imm.entries) :
    ∃ tables', e.Moves worker closer tables (e.workerStep worker).1 (e.workerStep worker).2 closer
      tables' ∧ (e.workerStep worker).1.closed = e.closed := by
  cases worker with
  | waiting =>
      refine ⟨tables, ?_⟩
      by_cases hsignal : e.flushCh
      · have hstep : e.workerStep .waiting = ({ e with flushCh := false }, .entered) :=
          if_pos hsignal
        rw [hstep]
        exact ⟨⟨.inl rfl, hfiles.congr rfl rfl⟩, rfl⟩
      · have hstep : e.workerStep .waiting = (e, .waiting) := if_neg hsignal
        rw [hstep]
        exact ⟨⟨.inl rfl, hfiles⟩, rfl⟩
  | entered =>
      refine ⟨tables, ?_⟩
      cases himm : e.immutable with
      | none =>
          have hstep : e.workerStep .entered = (e.rotate, .flushing .rotated) := by
            simp [Engine.workerStep, himm]
          rw [hstep]
          refine ⟨⟨.inr ?_, hfiles.congr rfl rfl⟩, rfl⟩
          simp only [Engine.stack, himm]
          exact .rotate
      | some imm =>
          have hstep : e.workerStep .entered = (e, .waiting) := by
            simp [Engine.workerStep, himm]
          rw [hstep]
          exact ⟨⟨.inl rfl, hfiles⟩, rfl⟩
  | flushing pc =>
      refine Engine.workerStep_flushing_moves ?_ hfiles hnumber ?_
      · rintro imm rfl
        exact hfits _ (by simp [Engine.stack, Stack.layers, WorkerPc.hand, Hand.held])
      · rintro imm reader rfl
        exact hown imm reader rfl
  | flushed => exact ⟨tables, ⟨.inl rfl, hfiles.congr rfl rfl⟩, rfl⟩

/-- `Close` takes the active memtable. -/
theorem Engine.closeStep_marked_moves
    (hfiles : e.Numbered worker.flush.owed none tables)
    (hread : worker = .flushing .rotated →
      e.active.size = 0 ∨ ∀ imm ∈ e.immutable, imm.size = 0) :
    e.Moves worker .marked tables (e.closeStep .marked).1 worker (e.closeStep .marked).2 tables ∧
      (e.closeStep .marked).1.closed = e.closed := by
  by_cases hsize : e.active.size > 0
  · have hstep : e.closeStep .marked = (e.rotate, .swapped) := by
      simp [Engine.closeStep, hsize]
    rw [hstep]
    have hfilled : e.active.entries ≠ [] := mt e.active.size_eq_zero.mpr hsize.ne'
    refine ⟨⟨.inr (.swap hfilled fun hhand => ?_), hfiles.congr rfl rfl⟩, rfl⟩
    have hempty := (hread (WorkerPc.eq_of_hand_rotated hhand)).resolve_left hsize.ne'
    simpa [Memtable.size_eq_zero] using hempty
  · have hstep : e.closeStep .marked = (e, .swapped) := by
      simp [Engine.closeStep, hsize]
    rw [hstep]
    have hempty : e.active.entries = [] := e.active.size_eq_zero.mp (by omega)
    refine ⟨⟨.inr ?_, hfiles⟩, rfl⟩
    simp only [Engine.stack, hempty]
    exact .pass

/-- `Close` inside of its flush. -/
theorem Engine.closeStep_flushing_moves {pc : FlushPc}
    (hheld : ∀ imm, pc = .captured imm → ∀ entry ∈ imm.entries, entry.Fits)
    (hfiles : e.Numbered pc.owed worker.flush.owed tables) (hnumber : e.CanNumber pc)
    (hfirst : ∀ imm imm', pc = .captured imm → worker = .flushing (.captured imm') →
      imm'.entries = imm.entries) :
    ∃ tables', e.Moves worker (.flushing pc) tables (e.closeStep (.flushing pc)).1 worker
      (e.closeStep (.flushing pc)).2 tables' ∧
        (e.closeStep (.flushing pc)).1.closed = e.closed := by
  obtain ⟨tables', heffect, hfiles'⟩ := hfiles.flushStep hheld hnumber
  refine ⟨tables', ?_⟩
  simp only [Engine.closeStep]
  generalize e.flushStep pc = after at heffect hfiles' ⊢
  cases heffect with
  | idle => exact ⟨⟨.inl rfl, hfiles'.symm⟩, rfl⟩
  | left empty =>
      refine ⟨⟨.inr (.leave ?_), hfiles'.symm⟩, rfl⟩
      simpa using empty
  | captured imm slot filled =>
      refine ⟨⟨.inr ?_, hfiles'.symm⟩, rfl⟩
      simp only [Engine.stack, slot]
      exact .take filled
  | numbered imm written =>
      refine ⟨⟨.inr (.closeNumber fun layer hhand => ?_), hfiles'.symm⟩, rfl⟩
      obtain ⟨imm', hworker, rfl⟩ := WorkerPc.eq_of_hand_holding hhand
      exact hfirst imm imm' rfl hworker
  | written imm seq reader files => exact ⟨⟨.inl rfl, hfiles'.symm⟩, rfl⟩
  | published imm reader => exact ⟨⟨.inr .clear, hfiles'.symm⟩, rfl⟩

theorem Engine.closeStep_moves (hcloser : closer ≠ .calling)
    (hfits : ∀ layer ∈ (e.stack worker closer tables).layers, ∀ entry ∈ layer, entry.Fits)
    (hfiles : e.Numbered worker.flush.owed closer.flush.owed tables)
    (hnumber : e.CanNumber closer.flush)
    (hread : closer = .marked → worker = .flushing .rotated →
      e.active.size = 0 ∨ ∀ imm ∈ e.immutable, imm.size = 0)
    (hfirst : ∀ imm imm', closer = .flushing (.captured imm) →
      worker = .flushing (.captured imm') → imm'.entries = imm.entries) :
    ∃ tables', e.Moves worker closer tables (e.closeStep closer).1 worker (e.closeStep closer).2
      tables' ∧ (e.closeStep closer).1.closed = e.closed := by
  cases closer with
  | calling => exact absurd rfl hcloser
  | marked => exact ⟨tables, Engine.closeStep_marked_moves hfiles (hread rfl)⟩
  | swapped =>
      refine ⟨tables, ?_⟩
      cases himm : e.immutable with
      | none =>
          have hstep : e.closeStep .swapped = (e, .flushed) := by simp [Engine.closeStep, himm]
          rw [hstep]
          refine ⟨⟨.inr (.leave ?_), hfiles⟩, rfl⟩
          simp [himm]
      | some imm =>
          have hstep : e.closeStep .swapped = (e, .flushing .rotated) := by
            simp [Engine.closeStep, himm]
          rw [hstep]
          exact ⟨⟨.inl rfl, hfiles⟩, rfl⟩
  | flushing pc =>
      refine Engine.closeStep_flushing_moves ?_ hfiles.symm hnumber ?_
      · rintro imm rfl
        exact hfits _ (by simp [Engine.stack, Stack.layers, ClosePc.stage, Stage.held])
      · rintro imm imm' rfl
        exact hfirst imm imm' rfl
  | flushed => exact ⟨tables, ⟨.inl rfl, hfiles⟩, rfl⟩
  | waiting => exact ⟨tables, ⟨.inl rfl, hfiles⟩, rfl⟩
  | returned => exact ⟨tables, ⟨.inl rfl, hfiles⟩, rfl⟩

end Steps

namespace Closing

theorem step_closer {s : Closing} (h : ¬ (s.closer = .waiting ∧ s.exited = false)) :
    s.step .closer =
      { s with
        engine := (s.engine.closeStep s.closer).1
        closer := (s.engine.closeStep s.closer).2 } := by
  obtain ⟨⟨e, worker, n⟩, closer, exited, expected⟩ := s
  cases closer <;> cases exited <;> simp_all [step]

/-- Every write that was accepted is in a layer, in its place. -/
structure Kept (s : Closing) (tables : List Table) : Prop where
  shows : visible (s.engine.stack s.worker s.closer tables).layers = s.expected
  ordered : (s.engine.stack s.worker s.closer tables).Ordered
  fits : ∀ layer ∈ (s.engine.stack s.worker s.closer tables).layers, ∀ entry ∈ layer, entry.Fits
  files : s.engine.Numbered s.worker.flush.owed s.closer.flush.owed tables
  isClosed : s.engine.closed = false ↔ s.closer = .calling
  exited : s.exited = true → s.worker = .waiting
  returned : s.closer = .returned → s.exited = true

namespace Kept

variable {s s' : Closing} {tables tables' : List Table}

theorem resting {e : Engine} (h : e.Sound) : ∃ tables, (resting e).Kept tables := by
  obtain ⟨tables, hb⟩ := h.backed
  have hlayers : (e.stack .waiting .calling tables).layers = e.memLayers ++ e.diskLayers := by
    rw [hb.diskLayers]
    rfl
  have hopen :
      (Closing.resting e).engine.closed = false ↔ (Closing.resting e).closer = .calling := by
    simp [Closing.resting, Signals.resting, h.isOpen]
  refine ⟨tables, ?_, ?_, ?_, hb.numbered_idle, hopen, by simp [Closing.resting],
    by simp [Closing.resting]⟩
  · change visible (e.stack .waiting .calling tables).layers = e.contents
    rw [hlayers]
    rfl
  · intro layer hlayer
    obtain ⟨imm, himm, rfl⟩ := Option.map_eq_some_iff.mp hlayer
    exact h.idle imm himm
  · change ∀ layer ∈ (e.stack .waiting .calling tables).layers, _
    rw [hlayers]
    intro layer hlayer
    rcases List.mem_append.mp hlayer with hlayer | hlayer
    · exact hb.fits layer hlayer
    · exact hb.fits_diskLayers layer hlayer

/-- A move of the layers keeps them. -/
theorem moves (h : s.Kept tables)
    (hmoves : s.engine.Moves s.worker s.closer tables s'.engine s'.worker s'.closer tables')
    (hexpected : s'.expected = s.expected)
    (hclosed : s'.engine.closed = false ↔ s'.closer = .calling)
    (hexited : s'.exited = true → s'.worker = .waiting)
    (hreturned : s'.closer = .returned → s'.exited = true) : s'.Kept tables' := by
  refine ⟨?_, ?_, ?_, hmoves.files, hclosed, hexited, hreturned⟩
  · rw [hexpected, ← h.shows]
    rcases hmoves.move with heq | hmove
    · rw [heq]
    · exact hmove.visible_eq h.ordered
  · rcases hmoves.move with heq | hmove
    · rw [heq]
      exact h.ordered
    · exact hmove.ordered h.ordered
  · intro layer hlayer
    rcases hmoves.move with heq | hmove
    · rw [heq] at hlayer
      exact h.fits layer hlayer
    · rcases hmove.mem_layers hlayer with hold | rfl
      · exact h.fits layer hold
      · simp

/-- Before `Close` the active memtable can be written. -/
theorem setActive (h : s.Kept tables) (hcalling : s.closer = .calling) {m : Memtable}
    {signallers : ℕ} {expected : Store} (hfits : ∀ entry ∈ m.entries, entry.Fits)
    (hshows : ∀ layers, visible (s.engine.active.entries :: layers) = s.expected →
      visible (m.entries :: layers) = expected) :
    { s with
      engine := { s.engine with active := m }
      signallers := signallers
      expected := expected }.Kept tables := by
  obtain ⟨⟨e, worker, n⟩, closer, exited, expected'⟩ := s
  obtain rfl : closer = .calling := hcalling
  refine ⟨hshows _ h.shows, h.ordered, ?_, h.files.congr rfl rfl, h.isClosed, h.exited,
    h.returned⟩
  intro layer hlayer
  rcases List.mem_cons.mp hlayer with rfl | hlayer
  · exact hfits
  · exact h.fits layer (List.mem_cons_of_mem _ hlayer)

theorem fits_active (h : s.Kept tables) : ∀ entry ∈ s.engine.active.entries, entry.Fits :=
  h.fits _ List.mem_cons_self

theorem put (h : s.Kept tables) {key : Key} {value : Bytes}
    (hproper : s.Proper (.put key value)) : (s.step (.put key value)).Kept tables := by
  cases hclosed : s.engine.closed with
  | true =>
      have hstep : s.step (.put key value) = s := by simp [step, Signals.step, hclosed]
      rw [hstep]
      exact h
  | false =>
      have hstep : s.step (.put key value) =
          { s with
            engine := { s.engine with active := s.engine.active.put key value }
            signallers := (s.toSignals.step (.put key value)).signallers
            expected := s.expected.put key value } := by
        simp [step, Signals.step, hclosed]
      rw [hstep]
      refine h.setActive (h.isClosed.mp hclosed) (fun entry hentry => ?_) fun layers hlayers => ?_
      · rcases Memtable.mem_insert hentry with rfl | hold
        · exact hproper
        · exact h.fits_active entry hold
      · rw [visible_put, hlayers]

theorem delete (h : s.Kept tables) {key : Key} (hproper : s.Proper (.delete key)) :
    (s.step (.delete key)).Kept tables := by
  cases hclosed : s.engine.closed with
  | true =>
      have hstep : s.step (.delete key) = s := by simp [step, Signals.step, hclosed]
      rw [hstep]
      exact h
  | false =>
      have hstep : s.step (.delete key) =
          { s with
            engine := { s.engine with active := s.engine.active.delete key }
            signallers := s.signallers
            expected := s.expected.delete key } := by
        simp [step, Signals.step, hclosed]
      rw [hstep]
      refine h.setActive (h.isClosed.mp hclosed) (fun entry hentry => ?_) fun layers hlayers => ?_
      · rcases Memtable.mem_insert hentry with rfl | hold
        · exact ⟨hproper, by simp⟩
        · exact h.fits_active entry hold
      · rw [visible_delete, hlayers]

theorem signal (h : s.Kept tables) : (s.step .signal).Kept tables := by
  obtain ⟨⟨e, worker, n⟩, closer, exited, expected⟩ := s
  cases n with
  | zero => exact h
  | succ n =>
      refine h.moves ⟨.inl rfl, ?_⟩ rfl h.isClosed h.exited h.returned
      exact h.files.congr rfl rfl

theorem worker (h : s.Kept tables) (hproper : s.Proper .worker) (horder : s.inOrder .worker) :
    ∃ tables', (s.step .worker).Kept tables' := by
  cases hexited : s.exited with
  | true =>
      have hstep : s.step .worker = s := by simp [step, hexited]
      rw [hstep]
      exact ⟨tables, h⟩
  | false =>
      have hown : ∀ imm reader, s.worker = .flushing (.written imm reader) →
          s.closer.stage = .swapped → ∀ imm' ∈ s.engine.immutable, imm'.entries = imm.entries := by
        intro imm reader hworker hstage imm' himm'
        have himm : s.engine.immutable = some imm' := himm'
        simpa [inOrder, hworker, hstage, himm] using horder
      obtain ⟨tables', hmoves, hclosed⟩ := Engine.workerStep_moves h.fits h.files hproper hown
      have hstep : s.step .worker = { s with toSignals := s.toSignals.step .worker } := by
        simp [step, hexited]
      rw [hstep]
      refine ⟨tables', h.moves hmoves rfl ?_ ?_ h.returned⟩
      · exact hclosed ▸ h.isClosed
      · simp [hexited]

theorem exit (h : s.Kept tables) : (s.step .exit).Kept tables := by
  obtain ⟨⟨e, worker, n⟩, closer, exited, expected⟩ := s
  simp only [step]
  split
  · exact ⟨h.shows, h.ordered, h.fits, h.files, h.isClosed, fun _ => rfl, fun _ => rfl⟩
  · exact h

theorem closer (h : s.Kept tables) (hproper : s.Proper .closer) (horder : s.inOrder .closer) :
    ∃ tables', (s.step .closer).Kept tables' := by
  by_cases hwaits : s.closer = .waiting ∧ s.exited = false
  · have hstep : s.step .closer = s := by simp [Closing.step, hwaits.1, hwaits.2]
    rw [hstep]
    exact ⟨tables, h⟩
  have hstep := step_closer hwaits
  by_cases hcalling : s.closer = .calling
  · have hmark : s.engine.closeStep s.closer = ({ s.engine with closed := true }, .marked) := by
      simp [hcalling, Engine.closeStep, h.isClosed.mpr hcalling]
    rw [hstep, hmark]
    refine ⟨tables, h.moves ⟨.inl ?_, ?_⟩ rfl (by simp) h.exited nofun⟩
    · simp only [Engine.stack, hcalling, ClosePc.stage]
    · have hfiles := h.files
      rw [hcalling] at hfiles
      exact hfiles.congr rfl rfl
  · have hread : s.closer = .marked → s.worker = .flushing .rotated →
        s.engine.active.size = 0 ∨ ∀ imm ∈ s.engine.immutable, imm.size = 0 := by
      intro hcloser hworker
      cases himm : s.engine.immutable with
      | none => simp
      | some imm => simpa [inOrder, hcloser, hworker, himm] using horder
    have hfirst : ∀ imm imm', s.closer = .flushing (.captured imm) →
        s.worker = .flushing (.captured imm') → imm'.entries = imm.entries := by
      intro imm imm' hcloser hworker
      simpa [inOrder, hcloser, hworker] using horder
    obtain ⟨tables', hmoves, hclosed⟩ :=
      Engine.closeStep_moves hcalling h.fits h.files hproper hread hfirst
    rw [hstep]
    refine ⟨tables', h.moves hmoves rfl ?_ h.exited fun hreturned => ?_⟩
    · have hopen : s.engine.closed ≠ false := mt h.isClosed.mp hcalling
      refine ⟨fun hfalse => absurd (hclosed.symm.trans hfalse) hopen, fun hc => ?_⟩
      exact absurd hc Engine.closeStep_ne_calling
    · -- `Close` returns from its wait, and it waits for the worker
      rcases Engine.closeStep_returned hreturned with hc | hc | hc
      · exact absurd hc hcalling
      · by_contra hexited
        exact hwaits ⟨hc, by simpa using hexited⟩
      · exact h.returned hc

theorem step (h : s.Kept tables) {event : CloseEvent} (hproper : s.Proper event)
    (horder : s.inOrder event) : ∃ tables', (s.step event).Kept tables' := by
  cases event with
  | put key value => exact ⟨tables, h.put hproper⟩
  | delete key => exact ⟨tables, h.delete hproper⟩
  | signal => exact ⟨tables, h.signal⟩
  | worker => exact h.worker hproper horder
  | exit => exact ⟨tables, h.exit⟩
  | closer => exact h.closer hproper horder

end Kept

/-- Closing keeps every write.  From a sound engine, in every run of writes, signals, steps of
the worker and steps of `Close` in which `Close` and the worker keep their order: when `Close`
has returned, the tables that opening the directory finds, merged with the newest first, are
the map of all writes that were accepted. -/
theorem close_keeps_writes (e : Engine) (hsound : e.Sound) (s : Closing)
    (hrun : Reaches step (fun s event => s.Proper event ∧ s.inOrder event) (resting e) s)
    (hreturned : s.closer = .returned) :
    ∃ e', Engine.openDir s.engine.files = .ok e' ∧ e'.onDisk = s.expected := by
  have hkept : ∃ tables, s.Kept tables := by
    refine hrun.invariant (P := fun s => ∃ tables, s.Kept tables) (Kept.resting hsound) ?_
    rintro s event ⟨tables, h⟩ ⟨hproper, horder⟩
    exact h.step hproper horder
  obtain ⟨tables, h⟩ := hkept
  have hworker := h.exited (h.returned hreturned)
  have hfiles := h.files
  have hordered := h.ordered
  have hshows := h.shows
  rw [hworker, hreturned] at hfiles hordered hshows
  obtain ⟨e', hopen, hdisk⟩ := hfiles.openDir
  refine ⟨e', hopen, hdisk.trans ?_⟩
  obtain ⟨hactive, hslot, -⟩ := hordered
  -- what is left in memory is in the tables as well
  calc visible (tables.map Table.entries)
      = visible ([] :: tables.map Table.entries) := visible_nil_cons.symm
    _ = visible ([] :: ((s.engine.immutable.map Memtable.entries).toList ++
          tables.map Table.entries)) := (Shown.visible_slot hslot []).symm
    _ = s.expected := by
        rw [← hshows, ← hactive]
        rfl

/-- The worker is told to flush, and has taken the number of its table when `Close` comes. -/
def numberedThenClosed : List CloseEvent :=
  [.worker, .worker, .worker, .worker, .put [2] [4], .closer, .closer, .closer, .closer, .worker,
    .closer, .worker, .worker, .closer, .closer, .closer, .exit, .closer]

/-- The end of a run from an engine with one key in memory. -/
def after (events : List CloseEvent) : Closing :=
  events.foldl step (resting Signals.signalled)

theorem close_keeps_writes_numbered :
    ∃ e', Engine.openDir (after numberedThenClosed).engine.files = .ok e' ∧
      e'.onDisk = (after numberedThenClosed).expected := by
  have hsound : Signals.signalled.Sound := Engine.sound_fresh.setActive _ true (by decide)
  have hevents : Allowed step (fun s event => s.Proper event ∧ s.inOrder event)
      (resting Signals.signalled) numberedThenClosed ∧
        (after numberedThenClosed).closer.isReturned = true := by
    decide +kernel
  exact close_keeps_writes _ hsound _ (Reaches.foldl .refl _ hevents.1)
    (ClosePc.eq_returned hevents.2)

/-- The value of a key when the directory is opened again. -/
def reopened (s : Closing) (key : Key) : Option Bytes :=
  (Engine.openDir s.engine.files).toOption.bind fun e => e.onDisk key

/-- `Close` takes the slot before the worker has read it. -/
def closedBeforeRead : List CloseEvent :=
  [.worker, .worker, .put [2] [4], .closer, .closer, .closer, .closer, .closer, .closer, .closer,
    .worker, .worker, .closer, .exit, .closer]

/-- The worker clears the slot before `Close` has read it. -/
def clearedBeforeRead : List CloseEvent :=
  [.worker, .worker, .worker, .worker, .worker, .put [2] [4], .closer, .closer, .worker, .worker,
    .closer, .closer, .exit, .closer]

/-- `Close` takes its number before the worker does. -/
def numberedBefore : List CloseEvent :=
  [.worker, .worker, .worker, .put [1] [4], .closer, .closer, .closer, .closer, .closer, .closer,
    .closer, .worker, .worker, .worker, .worker, .closer, .exit, .closer]

/-- Each part of the order is needed: the rotated memtable is lost, the one of `Close` is lost,
or an older value comes back. -/
theorem close_loses_writes :
    (Allowed step Proper (resting Signals.signalled) closedBeforeRead ∧
      (after closedBeforeRead).closer = .returned ∧
      (after closedBeforeRead).expected [1] = some [2] ∧
      reopened (after closedBeforeRead) [1] = none) ∧
    (Allowed step Proper (resting Signals.signalled) clearedBeforeRead ∧
      (after clearedBeforeRead).closer = .returned ∧
      (after clearedBeforeRead).expected [2] = some [4] ∧
      reopened (after clearedBeforeRead) [2] = none) ∧
    Allowed step Proper (resting Signals.signalled) numberedBefore ∧
      (after numberedBefore).closer = .returned ∧
      (after numberedBefore).expected [1] = some [4] ∧
      reopened (after numberedBefore) [1] = some [2] := by
  refine ⟨⟨?_, ClosePc.eq_returned ?_, ?_⟩, ⟨?_, ClosePc.eq_returned ?_, ?_⟩,
    ?_, ClosePc.eq_returned ?_, ?_⟩ <;> decide +kernel

end Closing

end RaftKV.Storage
