import RaftKV.Raft.Promises
import RaftKV.Server.WalState

/-!
# A process that dies over its files

The process of a node may die at any point of a storage call: the temporary file of a hard
state or a snapshot holds some of its bytes and is not renamed, an append has written
some of its entries and part of the next record, a truncation has removed some segments
or rewritten some of the entries.  The operating system lives on and keeps what was
written.

Two things follow.  The hard state and the snapshot are atomic registers: along every run
of calls, deaths and new processes they are what the last completed call saved.  And
election safety holds for a cluster on these files.
-/

namespace RaftKV.Server

open RaftKV.Raft RaftKV.Wal

/-! ## Calls -/

/-- Where a process dies inside a call: an append behind so many entries; with so many
bytes of the file that is written on disk; a truncation at a point of its own. -/
structure Cut where
  written : ℕ
  bytes : ℕ
  point : Point

end RaftKV.Server

namespace RaftKV.Raft.StorageCall

open RaftKV.Wal RaftKV.Server

variable {codec : EntryCodec} {json : HardStateCodec}

/-- The directory that a process leaves which dies inside the call. -/
def interrupt (s : WalState codec json) (cut : Cut) : StorageCall → Directory
  | save term votedFor => s.dir.insert hardStateTmp ((json.marshal term votedFor).take cut.bytes)
  | append entries => s.w.appendInterrupted codec entries cut.written cut.bytes
  | cutSuffix keepIndex => s.w.interrupted codec (.suffix keepIndex) cut.point
  | snapshot data index term =>
      s.dir.insert snapshotTmp ((snapshotBytes data index term).take cut.bytes)
  | cutFront discardIndex => s.w.interrupted codec (.front discardIndex) cut.point

/-- The hard state behind the call, if it completes. -/
def hardState (hard : ℕ × NodeId) : StorageCall → ℕ × NodeId
  | save term votedFor => (term, votedFor)
  | _ => hard

/-- The snapshot behind the call; the file has 64 bits for its index and its term. -/
def snapshotOf (last : Bytes × ℕ × ℕ) : StorageCall → Bytes × ℕ × ℕ
  | snapshot data index term => (data, index % 2 ^ 64, term % 2 ^ 64)
  | _ => last

variable {s : WalState codec json}

theorem loadHardState_perform {hard : ℕ × NodeId}
    (h : WalState.loadHardState json s.dir = .ok hard) (call : StorageCall) :
    WalState.loadHardState json (call.perform s).2.dir = .ok (call.hardState hard) := by
  cases call with
  | save term votedFor => exact LawfulHardState.load_save term votedFor s
  | append entries => exact (LawfulHardState.load_appendEntries entries s).trans h
  | cutSuffix keepIndex => exact (LawfulHardState.load_truncateSuffix keepIndex s).trans h
  | snapshot data index term => exact (LawfulHardState.load_saveSnapshot data index term s).trans h
  | cutFront discardIndex => exact (LawfulHardState.load_truncatePrefix discardIndex s).trans h

theorem loadSnapshot_perform {last : Bytes × ℕ × ℕ} (h : WalState.loadSnapshot s.dir = .ok last)
    (call : StorageCall) :
    WalState.loadSnapshot (call.perform s).2.dir = .ok (call.snapshotOf last) := by
  have hlog : ∀ dir', SameOthers s.dir dir' → WalState.loadSnapshot dir' = .ok last :=
    fun _ hsame => (WalState.load_sameOthers json hsame).2.trans h
  cases call with
  | save term votedFor =>
      exact (WalState.loadSnapshot_saveHardState term votedFor s).trans h
  | append entries => exact hlog _ (WAL.spares_appendBatch s.owns entries).others
  | cutSuffix keepIndex => exact hlog _ (WAL.spares_truncate s.owns _ _ _).others
  | snapshot data index term =>
      exact WalState.loadSnapshot_eq (WalState.lookup_saveSnapshot data index term s)
  | cutFront discardIndex => exact hlog _ (WAL.spares_truncate s.owns _ _ _).others

/-- A call that is interrupted, wherever that is, has not changed the two files. -/
theorem load_interrupt (call : StorageCall) (s : WalState codec json) (cut : Cut) :
    WalState.loadHardState json (call.interrupt s cut) = WalState.loadHardState json s.dir ∧
      WalState.loadSnapshot (call.interrupt s cut) = WalState.loadSnapshot s.dir := by
  have htmp : ∀ name content, hardStateFile ≠ name → snapshotFile ≠ name →
      WalState.loadHardState json (s.dir.insert name content) =
          WalState.loadHardState json s.dir ∧
        WalState.loadSnapshot (s.dir.insert name content) = WalState.loadSnapshot s.dir :=
    fun _ _ hhard hsnapshot =>
      WalState.load_congr json (AList.lookup_insert_ne hhard) (AList.lookup_insert_ne hsnapshot)
  have hlog : ∀ dir', SameOthers s.dir dir' →
      WalState.loadHardState json dir' = WalState.loadHardState json s.dir ∧
        WalState.loadSnapshot dir' = WalState.loadSnapshot s.dir :=
    fun _ hsame => WalState.load_sameOthers json hsame
  cases call with
  | save term votedFor => exact htmp _ _ (by decide) (by decide)
  | append entries => exact hlog _ (WAL.sameOthers_appendInterrupted s.owns entries _ _)
  | cutSuffix keepIndex => exact hlog _ (WAL.sameOthers_interrupted s.owns _ _)
  | snapshot data index term => exact htmp _ _ (by decide) (by decide)
  | cutFront discardIndex => exact hlog _ (WAL.sameOthers_interrupted s.owns _ _)

/-- Nor has a new process on the directory. -/
theorem load_reopen {dir : Directory} (hopen : WalState.newWALState codec json dir = .ok s) :
    WalState.loadHardState json s.dir = WalState.loadHardState json dir ∧
      WalState.loadSnapshot s.dir = WalState.loadSnapshot dir := by
  unfold WalState.newWALState at hopen
  split at hopen
  · next w hw =>
      obtain rfl := Except.ok.inj hopen
      exact WalState.load_sameOthers json (WAL.owns_openDir hw).2
  · cases hopen

end RaftKV.Raft.StorageCall

namespace RaftKV.Server

open RaftKV.Raft RaftKV.Wal

variable {codec : EntryCodec} {json : HardStateCodec}

/-! ## Runs of the storage -/

/-- The storage of a node over the lives of its processes. -/
inductive Disk (codec : EntryCodec) (json : HardStateCodec)
  | up (storage : WalState codec json)
  | down (dir : Directory)

def Disk.dir : Disk codec json → Directory
  | up storage => storage.dir
  | down dir => dir

/-- A directory, the process on it, and the calls that have been completed. -/
structure Lifetime (codec : EntryCodec) (json : HardStateCodec) where
  disk : Disk codec json
  completed : List StorageCall

/-- A call is made, the process dies inside a call, it ends, or a new one is started. -/
inductive DiskEvent
  | call (call : StorageCall)
  | die (call : StorageCall) (cut : Cut)
  | stop
  | start

namespace Lifetime

def initial : Lifetime codec json :=
  ⟨.down ∅, []⟩

def step (h : Lifetime codec json) : DiskEvent → Lifetime codec json
  | .call call =>
      match h.disk with
      | .up storage => ⟨.up (call.perform storage).2, h.completed ++ [call]⟩
      | .down _ => h
  | .die call cut =>
      match h.disk with
      | .up storage => ⟨.down (call.interrupt storage cut), h.completed⟩
      | .down _ => h
  | .stop => ⟨.down h.disk.dir, h.completed⟩
  | .start =>
      match h.disk with
      | .up _ => h
      | .down dir =>
          match WalState.newWALState codec json dir with
          | .ok storage => ⟨.up storage, h.completed⟩
          | .error _ => h

/-- The directory holds the hard state and the snapshot of the calls completed so far. -/
structure Held (h : Lifetime codec json) : Prop where
  hardState : WalState.loadHardState json h.disk.dir =
    .ok (h.completed.foldl StorageCall.hardState (0, ""))
  snapshot : WalState.loadSnapshot h.disk.dir =
    .ok (h.completed.foldl StorageCall.snapshotOf ([], 0, 0))

/-- The two files are as they were, and no call was completed. -/
theorem Held.keep {h : Lifetime codec json} (hheld : h.Held) {disk : Disk codec json}
    (hload : WalState.loadHardState json disk.dir = WalState.loadHardState json h.disk.dir ∧
      WalState.loadSnapshot disk.dir = WalState.loadSnapshot h.disk.dir) :
    Held ⟨disk, h.completed⟩ :=
  ⟨hload.1.trans hheld.hardState, hload.2.trans hheld.snapshot⟩

theorem Held.step {h : Lifetime codec json} (hheld : h.Held) (event : DiskEvent) :
    (h.step event).Held := by
  obtain ⟨disk, completed⟩ := h
  cases event with
  | call call =>
      cases disk with
      | up storage =>
          refine ⟨?_, ?_⟩
          · simp only [Lifetime.step, List.foldl_append]
            exact StorageCall.loadHardState_perform hheld.hardState call
          · simp only [Lifetime.step, List.foldl_append]
            exact StorageCall.loadSnapshot_perform hheld.snapshot call
      | down dir => exact hheld
  | die call cut =>
      cases disk with
      | up storage => exact hheld.keep (call.load_interrupt storage cut)
      | down dir => exact hheld
  | stop => exact hheld.keep ⟨rfl, rfl⟩
  | start =>
      cases disk with
      | up storage => exact hheld
      | down dir =>
          simp only [Lifetime.step]
          split
          · next storage hopen => exact hheld.keep (StorageCall.load_reopen hopen)
          · exact hheld

end Lifetime

/-- **The hard state and the snapshot are atomic.**  Along every run of calls, deaths
inside calls and new processes, both files can be read, and they hold what the last
completed call saved; the header of the snapshot is that of its file. -/
theorem registers_atomic (h : Lifetime codec json)
    (hrun : Reaches Lifetime.step (fun _ _ => True) Lifetime.initial h) :
    WalState.loadHardState json h.disk.dir =
        .ok (h.completed.foldl StorageCall.hardState (0, "")) ∧
      WalState.loadSnapshot h.disk.dir =
        .ok (h.completed.foldl StorageCall.snapshotOf ([], 0, 0)) ∧
      WalState.loadSnapshotMeta h.disk.dir =
        .ok (h.completed.foldl StorageCall.snapshotOf ([], 0, 0)).2 := by
  have hheld : h.Held := hrun.invariant ⟨rfl, rfl⟩ fun h event hheld _ => hheld.step event
  exact ⟨hheld.hardState, hheld.snapshot, WalState.loadSnapshotMeta_ok hheld.snapshot⟩

/-- A process dies inside the second of two saves, and a new one saves a snapshot. -/
def savesCutShort : List DiskEvent :=
  [.start, .call (.save 1 "a"), .die (.save 2 "b") ⟨0, 1, .removing 0⟩, .start,
    .call (.snapshot [7] 3 1), .stop]

theorem registers_atomic_savesCutShort :
    WalState.loadHardState runeCodec (savesCutShort.foldl Lifetime.step
        (Lifetime.initial : Lifetime wireCodec runeCodec)).disk.dir = .ok (1, "a") ∧
      WalState.loadSnapshot (savesCutShort.foldl Lifetime.step
        (Lifetime.initial : Lifetime wireCodec runeCodec)).disk.dir = .ok ([7], 3, 1) := by
  obtain ⟨hhard, hsnapshot, -⟩ := registers_atomic
    (savesCutShort.foldl Lifetime.step (Lifetime.initial : Lifetime wireCodec runeCodec))
    (Reaches.foldl .refl _ (by decide))
  have hcompleted : (savesCutShort.foldl Lifetime.step
      (Lifetime.initial : Lifetime wireCodec runeCodec)).completed =
        [.save 1 "a", .snapshot [7] 3 1] := by
    rfl
  rw [hcompleted] at hhard hsnapshot
  exact ⟨hhard, hsnapshot⟩

/-! ## A node whose process dies -/

/-- Storage under a process that dies inside the writing call behind `callsLeft` more, or
in front of it. -/
inductive Dying (codec : EntryCodec) (json : HardStateCodec)
  | alive (storage : WalState codec json) (callsLeft : ℕ) (cut : Option Cut)
  | dead (dir : Directory)

namespace Dying

def dir : Dying codec json → Directory
  | alive storage _ _ => storage.dir
  | dead dir => dir

/-- The log over the directory. -/
def log : Dying codec json → WAL
  | alive storage _ _ => storage.w
  | dead dir => ⟨dir, none, [], 0, 0⟩

def write (call : StorageCall) : Dying codec json → Except String Unit × Dying codec json
  | alive storage (n + 1) cut => ((call.perform storage).1, alive (call.perform storage).2 n cut)
  | alive storage 0 none => (.ok (), dead storage.dir)
  | alive storage 0 (some cut) => (.ok (), dead (call.interrupt storage cut))
  | dead dir => (.ok (), dead dir)

instance : PersistentState (Dying codec json) where
  fresh := alive PersistentState.fresh 0 none
  saveHardState term votedFor := write (.save term votedFor)
  loadHardState s := WalState.loadHardState json s.dir
  appendEntries entries := write (.append entries)
  loadEntries s := (s.log.readAll codec).mapError walErrorText
  truncateSuffix keepIndex := write (.cutSuffix keepIndex)
  saveSnapshot data index term := write (.snapshot data index term)
  loadSnapshot s := WalState.loadSnapshot s.dir
  loadSnapshotMeta s := WalState.loadSnapshotMeta s.dir
  truncatePrefix discardIndex := write (.cutFront discardIndex)

/-- A property of directories that every call keeps, completed or not, is kept while the
process dies. -/
theorem write_dir {P : Directory → Prop} {call : StorageCall}
    (hrun : ∀ s : WalState codec json, P s.dir → P (call.perform s).2.dir)
    (hcut : ∀ (s : WalState codec json) cut, P s.dir → P (call.interrupt s cut))
    {s : Dying codec json} (h : P s.dir) : P (write call s).2.dir := by
  unfold write
  split
  · exact hrun _ h
  · exact h
  · exact hcut _ _ h
  · exact h

end Dying

/-- The hard state on the directory is not behind `old`. -/
def Ahead (json : HardStateCodec) (old : ℕ × NodeId) (dir : Directory) : Prop :=
  ∃ hard, WalState.loadHardState json dir = .ok hard ∧ HardLe old hard

/-- Neither memory nor the files under a dying process are behind `old`. -/
def AheadBoth (old hard : ℕ × NodeId) (s : Dying codec json) : Prop :=
  HardLe old hard ∧ Ahead json old s.dir

theorem Ahead.write {old : ℕ × NodeId} {s : Dying codec json} (h : Ahead json old s.dir)
    {call : StorageCall} (hcall : ∀ hard, HardLe old hard → HardLe old (call.hardState hard)) :
    Ahead json old (Dying.write call s).2.dir := by
  refine Dying.write_dir (P := Ahead json old) ?_ ?_ h
  · rintro s ⟨hard, hload, hle⟩
    exact ⟨_, StorageCall.loadHardState_perform hload call, hcall hard hle⟩
  · rintro s cut ⟨hard, hload, hle⟩
    exact ⟨hard, (call.load_interrupt s cut).1.trans hload, hle⟩

theorem persists_aheadBoth (old : ℕ × NodeId) :
    Persists (AheadBoth old : ℕ × NodeId → Dying codec json → Prop) where
  save h hle := ⟨h.1.trans hle, h.2.write fun _ _ => h.1.trans hle⟩
  append _ h := ⟨h.1, h.2.write fun _ hle => hle⟩
  cutSuffix _ h := ⟨h.1, h.2.write fun _ hle => hle⟩
  snapshot _ _ _ h := ⟨h.1, h.2.write fun _ hle => hle⟩
  cutFront _ h := ⟨h.1, h.2.write fun _ hle => hle⟩

/-- The directory that a process leaves which dies inside a critical section. -/
def leftBehind (n : Node (WalState codec json)) (inside : Section) (calls : ℕ)
    (cut : Option Cut) : Directory :=
  (inside.run { n with storage := Dying.alive n.storage calls cut }).storage.dir

theorem leftBehind_ahead {n : Node (WalState codec json)} (hn : n.Backed Synced)
    (inside : Section) (calls : ℕ) (cut : Option Cut) :
    Ahead json n.hardState (leftBehind n inside calls cut) := by
  have hstart : Node.Backed (AheadBoth n.hardState)
      { n with storage := Dying.alive n.storage calls cut } :=
    ⟨.refl _, n.hardState, hn, .refl _⟩
  exact (Section.backed (persists_aheadBoth n.hardState) hstart inside).2

/-! ## A cluster on files -/

/-- What happens in a cluster: an action of a running process, the end of a process and
its restart, or a death inside a critical section and the restart. -/
inductive DiskAction
  | act (a : Action)
  | restart (i : NodeId)
  | crash (i : NodeId) (inside : Section) (calls : ℕ) (cut : Option Cut)

/-- The action replaces a process. -/
def boots : Action → Bool
  | .resume _ | .restart _ | .crash .. => true
  | _ => false

/-- `NewKVServer` and `Start` on the directory that the last process has left. -/
def reopenOn (c : Cluster (WalState codec json)) (i : NodeId) (dir : Directory) :
    Cluster (WalState codec json) :=
  match WalState.newWALState codec json dir with
  | .error _ => c
  | .ok storage => c.restartOn i storage

def diskStep (M : Members) (c : Cluster (WalState codec json)) :
    DiskAction → Cluster (WalState codec json)
  | .act a => if boots a then c else c.step M a
  | .restart i => if i ∈ M.ids then reopenOn c i (c.nodes i).storage.dir else c
  | .crash i inside calls cut =>
      if i ∈ M.ids then reopenOn c i (leftBehind (c.nodes i) inside calls cut) else c

/-- What election safety rests on. -/
structure Elects (M : Members) (c : Cluster (WalState codec json)) : Prop where
  inv : ElectionInv M c
  synced : ∀ i, (c.nodes i).Backed Synced

theorem Elects.reopenOn {M : Members} {c : Cluster (WalState codec json)} (h : Elects M c)
    {i : NodeId} {dir : Directory} (hdir : Ahead json (c.nodes i).hardState dir) :
    Elects M (reopenOn c i dir) := by
  unfold Server.reopenOn
  split
  · exact h
  · next storage hopen =>
      unfold Cluster.restartOn
      split
      · exact h
      · next n hstart =>
          obtain ⟨hard, hload, hle⟩ := hdir
          have hdisk : WalState.loadHardState json storage.dir = .ok hard :=
            (StorageCall.load_reopen hopen).1.trans hload
          refine ⟨h.inv.reboot (Node.restart_quiet hstart fun hard' hload' => ?_), ?_⟩
          · have heq : hard' = hard := Except.ok.inj (hload'.symm.trans hdisk)
            exact heq ▸ hle
          · exact Cluster.setNode_forall (P := fun _ n => n.Backed Synced)
              (Node.restart_synced hstart) fun j _ => h.synced j

theorem Elects.step {M : Members} {c : Cluster (WalState codec json)} (h : Elects M c)
    (a : DiskAction) : Elects M (diskStep M c a) := by
  cases a with
  | act a =>
      simp only [diskStep]
      split
      · exact h
      · next hboots =>
          refine ⟨h.inv.step a ?_ ?_, synced_step h.synced a⟩
          · rintro i rfl
            exact absurd rfl hboots
          · rintro i inside calls rfl
            exact absurd rfl hboots
  | restart i =>
      simp only [diskStep]
      split
      · exact h.reopenOn ⟨_, h.synced i, .refl _⟩
      · exact h
  | crash i inside calls cut =>
      simp only [diskStep]
      split
      · exact h.reopenOn (leftBehind_ahead (h.synced i) inside calls cut)
      · exact h

/-- **Election safety on files.**  However the processes of a cluster die over their
files, and however often they are started again, no two nodes execute `becomeLeader` in
the same term. -/
theorem election_safety_on_disk (M : Members) (c : Cluster (WalState codec json))
    (h : Reaches (diskStep M) (fun _ _ => True) (Cluster.initial M) c) (i j : NodeId) (t : ℕ)
    (hi : (c.nodes i).Led t) (hj : (c.nodes j).Led t) : i = j := by
  have helects : Elects M c := by
    refine h.invariant ⟨.initial M, fun i => LawfulHardState.load_fresh⟩ ?_
    exact fun c a helects _ => helects.step a
  exact helects.inv.unique hi hj

/-- `a` wins term 1 and is restarted; `c` dies with half of its vote for `b` on disk, votes
again behind the restart, and `b` leads term 2. -/
def cutVote : List DiskAction :=
  [.act (.electionTimeout "a"), .act (.deliverVote 0), .act (.replyVote 0 0), .restart "a",
    .act (.electionTimeout "b"),
    .crash "c" (.requestVote ⟨2, "b", 0, 0⟩) 1 (some ⟨0, 2, .removing 0⟩),
    .act (.deliverVote 3), .act (.replyVote 3 0)]

theorem election_safety_cutVote :
    ((cutVote.foldl (diskStep .trio)
      (Cluster.initial .trio : Cluster (WalState wireCodec runeCodec))).nodes "a").Led 1 ∧
    ((cutVote.foldl (diskStep .trio)
      (Cluster.initial .trio : Cluster (WalState wireCodec runeCodec))).nodes "b").Led 2 ∧
    "b" = "b" := by
  have ha : ((cutVote.foldl (diskStep .trio)
      (Cluster.initial .trio : Cluster (WalState wireCodec runeCodec))).nodes "a").Led 1 :=
    ⟨0, [LogEntry.sentinel 0 0], by decide +kernel⟩
  have hb : ((cutVote.foldl (diskStep .trio)
      (Cluster.initial .trio : Cluster (WalState wireCodec runeCodec))).nodes "b").Led 2 :=
    ⟨0, [LogEntry.sentinel 0 0], by decide +kernel⟩
  exact ⟨ha, hb, election_safety_on_disk .trio _ (Reaches.foldl .refl _ (by decide)) "b" "b" 2
    hb hb⟩

end RaftKV.Server
