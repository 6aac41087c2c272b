import RaftKV.Storage.ReadBack

/-!
# Keys with records of one kind

The records that the layers of an engine hold.  Flushing, compacting and opening the
directory bring no new ones.  So a key that was only put, or only deleted, has puts or
tombstones only, in whatever layers they are, and then a read does not fall through a
tombstone to something older.
-/

namespace RaftKV.Storage.Engine

/-- The records of all layers. -/
def records (e : Engine) : Set MemEntry :=
  { entry | ∃ layer ∈ e.memLayers ++ e.diskLayers, entry ∈ layer }

/-- Every record of the key is a put, or every one is a tombstone. -/
def Uniform (key : Key) (live : Bool) (e : Engine) : Prop :=
  ∀ entry ∈ e.records, entry.key = key → entry.live = live

variable {e e' : Engine} {key : Key} {live : Bool} {tables : List Table}

theorem Uniform.of_subset (h : e.Uniform key live) (hsub : e'.records ⊆ e.records) :
    e'.Uniform key live :=
  fun entry hentry => h entry (hsub hentry)

theorem uniform_fresh (key : Key) (live : Bool) : fresh.Uniform key live := by
  rintro entry ⟨layer, hlayer, hentry⟩
  rw [List.mem_singleton.mp hlayer] at hentry
  exact absurd hentry List.not_mem_nil

/-! ## Writes -/

/-- One more record. -/
theorem Uniform.insert (h : e.Uniform key live) {new : MemEntry} {bytes : ℕ}
    (hactive : e'.active = e.active.insert new bytes) (himm : e'.immutable = e.immutable)
    (hdisk : e'.diskLayers = e.diskLayers) (hnew : new.key = key → new.live = live) :
    e'.Uniform key live := by
  rintro entry ⟨layer, hlayer, hentry⟩ hkey
  rw [memLayers, hactive, himm, hdisk, List.cons_append] at hlayer
  rcases List.mem_cons.mp hlayer with rfl | hlayer
  · rcases Memtable.mem_insert hentry with rfl | hold
    · exact hnew hkey
    · exact h entry ⟨_, List.mem_cons_self, hold⟩ hkey
  · exact h entry ⟨layer, List.mem_cons_of_mem _ hlayer, hentry⟩ hkey

theorem Uniform.put (h : e.Uniform key live) {key' : Key} {value : Bytes}
    (hput : e.put key' value = .ok e') (hkey : key' = key → live = true) :
    e'.Uniform key live := by
  unfold Engine.put at hput
  split at hput
  · cases hput
  · cases hput
    exact h.insert rfl rfl rfl fun heq => (hkey heq).symm

theorem Uniform.delete (h : e.Uniform key live) {key' : Key}
    (hdelete : e.delete key' = .ok e') (hkey : key' = key → live = false) :
    e'.Uniform key live := by
  unfold Engine.delete at hdelete
  split at hdelete
  · cases hdelete
  · cases hdelete
    exact h.insert rfl rfl rfl fun heq => (hkey heq).symm

/-! ## Background work and restarts -/

theorem records_rotate (e : Engine) (hnone : e.immutable = none) :
    e.rotate.records ⊆ e.records := by
  rintro entry ⟨layer, hlayer, hentry⟩
  change layer ∈ [] :: e.active.entries :: e.diskLayers at hlayer
  rcases List.mem_cons.mp hlayer with rfl | hlayer
  · exact absurd hentry List.not_mem_nil
  · refine ⟨layer, ?_, hentry⟩
    rw [memLayers, hnone]
    exact hlayer

theorem Sound.records_rotateAndFlush (h : e.Sound) (hw : e.rotateAndFlush.Writable) :
    e.rotateAndFlush.records ⊆ e.records := by
  obtain ⟨tables, hb⟩ := h.backed
  unfold Engine.rotateAndFlush at hw ⊢
  split
  · exact subset_rfl
  next hnone =>
  rw [if_neg hnone] at hw
  have hnone : e.immutable = none := by simpa using hnone
  refine Set.Subset.trans ?_ (records_rotate e hnone)
  by_cases hempty : e.active.entries = []
  · rw [doFlush_of_empty]
    · exact subset_rfl
    · intro imm himm
      obtain rfl : e.active = imm := by simpa [Engine.rotate] using himm
      exact hempty
  · -- the memtable has become a table
    obtain ⟨t, hentries, hb', hactive, himm, -⟩ := hb.rotate.doFlush rfl hempty hw
    rintro entry ⟨layer, hlayer, hentry⟩
    refine ⟨layer, ?_, hentry⟩
    change layer ∈ [] :: e.active.entries :: e.rotate.diskLayers
    change layer ∈ e.rotate.doFlush.memLayers ++ e.rotate.doFlush.diskLayers at hlayer
    rw [memLayers, hactive, himm, hb'.diskLayers, List.map_cons, hentries, ← hb.rotate.diskLayers]
      at hlayer
    exact hlayer

theorem Sound.records_doCompaction (h : e.Sound) (hw : e.doCompaction.Writable) :
    e.doCompaction.records ⊆ e.records := by
  obtain ⟨tables, hb⟩ := h.backed
  by_cases hlen : e.sstables.length < 2
  · rw [Engine.doCompaction, if_pos hlen]
  · obtain ⟨t, hentries, hb', hactive, himm, -⟩ := hb.doCompaction hlen hw
    have hsorted : ∀ input ∈ e.diskLayers.reverse, SortedEntries input := fun input hinput =>
      hb.sorted_diskLayers input (List.mem_reverse.mp hinput)
    rintro entry ⟨layer, hlayer, hentry⟩
    rw [memLayers, hactive, himm, hb'.diskLayers, List.map_singleton, hentries] at hlayer
    rcases List.mem_append.mp hlayer with hmem | hdisk
    · exact ⟨layer, List.mem_append_left _ hmem, hentry⟩
    · rw [List.mem_singleton.mp hdisk] at hentry
      obtain ⟨input, hinput, hentry⟩ := mem_mergeEntries hsorted hentry
      exact ⟨input, List.mem_append_right _ (List.mem_reverse.mp hinput), hentry⟩

theorem Sound.records_openDir (h : e.Sound) (hopen : openDir e.files = .ok e') :
    e'.Sound ∧ e'.records ⊆ e.records := by
  obtain ⟨tables, hb⟩ := h.backed
  obtain ⟨e'', hopen', hb', -, hactive, himm, hclosed⟩ := hb.openDir
  obtain rfl : e'' = e' := Except.ok.inj (hopen'.symm.trans hopen)
  refine ⟨⟨⟨tables, hb'⟩, by simp [Idle, himm], hclosed⟩, ?_⟩
  rintro entry ⟨layer, hlayer, hentry⟩
  rw [memLayers, hactive, himm, hb'.diskLayers, ← hb.diskLayers] at hlayer
  rcases List.mem_cons.mp hlayer with rfl | hdisk
  · exact absurd hentry List.not_mem_nil
  · exact ⟨layer, List.mem_append_right _ hdisk, hentry⟩

/-! ## Reading -/

/-- Where a key has tombstones only, it has no value. -/
theorem visible_eq_none {layers : List (List MemEntry)}
    (h : ∀ layer ∈ layers, ∀ entry ∈ layer, entry.key = key → entry.live = false) :
    visible layers key = none := by
  unfold visible
  cases hnewest : newest MemEntry.key key layers with
  | none => rfl
  | some entry =>
      obtain ⟨hkey, layer, hlayer, hentry⟩ := mem_of_newest hnewest
      have hdead := h layer hlayer entry hentry hkey
      rw [Option.filter_some, if_neg (by simp [hdead]), Option.map_none]

theorem Uniform.contents_eq_none (h : e.Uniform key false) : e.contents key = none :=
  visible_eq_none fun layer hlayer entry hentry => h entry ⟨layer, hlayer, hentry⟩

/-- Tombstones shadow nothing but tombstones. -/
theorem Uniform.unshadowed (h : e.Uniform key live) : e.Unshadowed key := by
  intro entry hentry hkind
  have hactive := h entry ⟨e.active.entries, List.mem_cons_self, mem_of_lookup hentry⟩
    (key_of_lookup hentry)
  have hdead : live = false := by
    rw [← hactive]
    simp [MemEntry.live, hkind]
  subst hdead
  exact visible_eq_none fun layer hlayer older holder =>
    h older ⟨layer, List.mem_cons_of_mem _ hlayer, holder⟩

/-- A key that has records of one kind is read as the map has it. -/
theorem Sound.get_of_uniform (h : e.Sound) (huniform : e.Uniform key live)
    (hsilent : e.SilentTables key) : e.get key = e.contents key :=
  h.get_eq_contents huniform.unshadowed hsilent

end RaftKV.Storage.Engine
