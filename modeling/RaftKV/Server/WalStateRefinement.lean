import RaftKV.Raft.StorageSimulation
import RaftKV.Server.WalState
import RaftKV.Wal.Kept

/-!
# A node on files is a node in memory

`Filed` relates the files of a node to a `MemState`: the two files hold its hard state and
its snapshot, and the write-ahead log its entries.  Calls that continue the log with
records that fit into a segment keep the two related and succeed on both
(`mirrors_filed`).

Those are the calls of a durable node whose requests are in step (`Section.InStep`).  So
through critical sections and restarts a node on files is the node in memory, none of its
storage calls fails, and what a new process reads from the files is the log and the hard state
of the old one.
-/

namespace RaftKV.Raft

open RaftKV.Wal

/-! ## What a durable node writes -/

/-- The index behind which the stored log goes on. -/
def MemState.last (m : MemState) : ℕ :=
  WAL.lastOf m.entries m.lastIncludedIndex

/-- An append continues the log with small records; a snapshot is not behind the last one,
and its index and term have 64 bits; the log is cut in front of it. -/
def Ordinary (codec : EntryCodec) (m : MemState) : StorageCall → Prop
  | .append entries => Consecutive (m.last + 1) entries ∧ ∀ entry ∈ entries, Small codec entry
  | .snapshot _ index term => m.lastIncludedIndex ≤ index ∧ index < 2 ^ 64 ∧ term < 2 ^ 64
  | .cutFront discardIndex => discardIndex = m.lastIncludedIndex
  | _ => True

/-- What a critical section writes has a bounded size. -/
def Section.Sized {σ : Type} (codec : EntryCodec) (n : Node σ) : Section → Prop
  | .appendEntries req => ∀ entry ∈ req.entries, Small codec entry
  | .installSnapshot req => req.lastIncludedIndex < 2 ^ 64 ∧
      ∀ recv ∈ n.receiving req, recv.lastIncludedTerm < 2 ^ 64
  | .compactLog _ index term => index < 2 ^ 64 ∧ term < 2 ^ 64
  | .propose data => Small codec (n.nextEntry data)
  | _ => True

theorem Consecutive.lastOf {b : ℕ} {es : List LogEntry} (h : Consecutive (b + 1) es) :
    WAL.lastOf es b = b + es.length := by
  induction es generalizing b with
  | nil => rfl
  | cons e rest ih =>
      have hrest := h.2
      rw [← h.1] at hrest
      rw [WAL.lastOf_cons, ih hrest, List.length_cons, h.1]
      omega

namespace Node.Durable

variable {n : Node MemState} {codec : EntryCodec}

/-- The storage begins at the node's baseline and ends with its log. -/
theorem stored (h : n.Durable) : n.storage.lastIncludedIndex = n.lastIncludedIndex ∧
    n.storage.last + 1 = n.lastIncludedIndex + n.log.length := by
  obtain ⟨first, es, hlog, -, hload⟩ := h.entries
  have hentries : n.storage.entries = es := Except.ok.inj hload
  have hbase : n.storage.lastIncludedIndex = n.lastIncludedIndex :=
    (Prod.mk.inj (Except.ok.inj h.baseline)).1
  have hconsecutive := h.consecutive
  rw [hlog] at hconsecutive
  refine ⟨hbase, ?_⟩
  unfold MemState.last
  rw [hentries, hbase, hconsecutive.2.lastOf, hlog, List.length_cons]
  omega

/-- The append loop has cut the storage where the request goes on. -/
theorem appendNew_last (h : n.Durable) {req : AppendEntriesRequest}
    (hcheck : n.conflict req.prevLogIndex req.prevLogTerm = none) (hwhole : n.TakesWhole req)
    (hpos : req.entries.length > 0) :
    (n.appendNew (req.prevLogIndex + 1) req.entries).storage.last = req.prevLogIndex := by
  obtain ⟨first, old, hlog, -⟩ := h.entries
  obtain ⟨entry, rest, hes⟩ := List.exists_cons_of_length_pos hpos
  obtain ⟨habove, hnew⟩ := hwhole entry (by rw [hes]; rfl)
  rw [hes]
  cases hpos : n.logPos (req.prevLogIndex + 1) with
  | none =>
      have hidx : req.prevLogIndex + 1 = n.lastIncludedIndex + n.log.length := by
        have hle := Node.le_lastLogIndex_of_conflict hcheck
        have hend := Node.end_le_of_logPos hpos habove.le
        have hlast : n.lastLogIndex + 1 = n.lastIncludedIndex + n.log.length :=
          Node.lastLogIndex_succ (by simp [hlog])
        omega
      rw [Node.appendNew_beyond (by simp [hlog]) hidx]
      have := h.stored.2
      simp only
      omega
  | some pos =>
      obtain ⟨hcut, hidx⟩ := h.cut hpos habove
      have hloop : (n.appendNew (req.prevLogIndex + 1) (entry :: rest)).storage =
          (truncateSuffix req.prevLogIndex n.storage).2 := by
        rw [Node.appendNew, if_neg (by omega), hpos]
        simp only
        rw [if_pos (hnew pos hpos), Node.appendNew_beyond (by simp) (by
          change req.prevLogIndex + 1 + 1 =
            n.lastIncludedIndex + (n.log.take pos ++ [entry]).length
          rw [List.length_append, List.length_singleton]
          omega)]
        rfl
      have hstored := hcut.stored.2
      simp only [Nat.add_sub_cancel] at hstored
      rw [hloop]
      omega

/-- The calls of a critical section that is in step are ordinary. -/
theorem writes (h : n.Durable) {call : Section} (hshape : call.Shaped n) (hstep : call.InStep n)
    (hsized : call.Sized codec n) : call.Writes (Ordinary codec) n := by
  have hsnapshot : ∀ (m : Node MemState) (data : Bytes) (index term : ℕ), m.Durable →
      m.lastIncludedIndex < index → index < 2 ^ 64 → term < 2 ^ 64 →
      StoresSnapshot (Ordinary codec) m.storage data index term := by
    intro m data index term hm hnew hindex hterm
    exact ⟨⟨hm.stored.1 ▸ hnew.le, hindex, hterm⟩, rfl⟩
  have hfollow : ∀ term leaderId, (n.followLeader term leaderId).Durable :=
    fun term leaderId => h.congr (n.followLeader_logState term leaderId)
  cases call with
  | appendEntries req =>
      intro hsuccess hpos
      refine ⟨?_, hsized⟩
      have hsame := n.followLeader_conflict req.term req.leaderId req.prevLogIndex req.prevLogTerm
      obtain ⟨term, vote, storage, heq⟩ := n.followLeader_frame req.term req.leaderId
      have hdurable := hfollow req.term req.leaderId
      unfold Node.handleAppendEntries at hsuccess
      split at hsuccess
      · cases hsuccess
      · next hfresh =>
          unfold Node.checkAndAccept at hsuccess
          split at hsuccess
          · cases hsuccess
          · next hcheck =>
              have hwhole := hstep ⟨not_lt.mp hfresh, hsame.mp hcheck⟩
              rw [heq] at hdurable hcheck ⊢
              rw [hdurable.appendNew_last hcheck hwhole hpos]
              exact hshape
  | installSnapshot req =>
      intro hnew recv hrecv hfits
      refine hsnapshot _ _ _ _ (hfollow req.term req.leaderId) ?_ ?_ (hsized.2 recv hrecv)
      · rw [Node.followLeader_base, hfits]
        exact hnew
      · rw [hfits]
        exact hsized.1
  | compactLog data index term =>
      intro hnew _
      exact hsnapshot n data index term h hnew hsized.1 hsized.2
  | propose data =>
      intro _
      refine ⟨⟨?_, trivial⟩, List.forall_mem_singleton.mpr hsized⟩
      obtain ⟨first, old, hlog, -⟩ := h.entries
      have hlast : n.lastLogIndex + 1 = n.lastIncludedIndex + n.log.length :=
        Node.lastLogIndex_succ (by simp [hlog])
      exact hlast.trans h.stored.2.symm
  | electionTimeout => trivial
  | voteReply req resp => trivial
  | requestVote req => trivial
  | appendReply peer req resp => trivial
  | snapshotReply peer t resp => trivial

end Node.Durable

end RaftKV.Raft

namespace RaftKV.Server

open RaftKV.Raft RaftKV.Wal

variable {codec : EntryCodec} {json : HardStateCodec}

/-! ## Files and memory -/

/-- The files hold what the memory holds. -/
structure Filed (s : WalState codec json) (m : MemState) : Prop where
  hardState : WalState.loadHardState json s.dir = .ok (m.term, m.voted)
  snapshot : WalState.loadSnapshot s.dir =
    .ok (m.snapshot, m.lastIncludedIndex, m.lastIncludedTerm)
  log : ∃ last ≤ m.last, s.w.Kept codec ⟨m.entries, last⟩

theorem sameSegments_replaceFile {tmp name : FileName} (htmp : isSegment tmp = false)
    (hname : isSegment name = false) (content : Bytes) (dir : Directory) :
    SameSegments dir (replaceFile tmp name content dir) := by
  intro path hpath
  refine lookup_replaceFile_of_ne ?_ ?_ content dir
  · rintro rfl
    rw [htmp] at hpath
    cases hpath
  · rintro rfl
    rw [hname] at hpath
    cases hpath

/-- Entries that continue the list are admitted. -/
theorem allowed_of_consecutive {entries : List LogEntry} {s : LogList} {b : ℕ}
    (hentries : Consecutive b entries) (hlast : s.last < b)
    (hsmall : ∀ entry ∈ entries, Small codec entry) :
    Allowed LogList.append (LogList.Admits codec) s entries := by
  induction entries generalizing s b with
  | nil => trivial
  | cons entry rest ih =>
      obtain ⟨hentry, hrest⟩ := List.forall_mem_cons.mp hsmall
      refine ⟨⟨?_, hentry.1, hentry.fits⟩, ih hentries.2 ?_ hrest⟩
      · rw [hentries.1]
        exact hlast
      · change entry.index < b + 1
        rw [hentries.1]
        exact Nat.lt_succ_self b

theorem foldl_append_last (entries : List LogEntry) (s : LogList) :
    (entries.foldl LogList.append s).last = WAL.lastOf entries s.last := by
  induction entries generalizing s with
  | nil => rfl
  | cons entry rest ih =>
      rw [List.foldl_cons, ih, WAL.lastOf_cons]
      rfl

namespace Filed

variable {s : WalState codec json} {m : MemState}

/-- A call of the log. -/
theorem logCall (h : Filed s m) {call : WAL → Except Failure WAL}
    {hcall : ∀ w : WAL, w.Owns → w.Spares (WAL.left (call w))} {m' : MemState} {w : WAL}
    {last : ℕ} (hok : call s.w = .ok w) (hkept : w.Kept codec ⟨m'.entries, last⟩)
    (hlast : last ≤ m'.last) (hrest : m' = { m with entries := m'.entries }) :
    (s.logCall call hcall).1 = .ok () ∧ Filed (s.logCall call hcall).2 m' := by
  obtain ⟨hhard, hsnapshot⟩ :=
    WalState.load_sameOthers json (WalState.sameOthers_logCall hcall s)
  have hleft : (s.logCall call hcall).2.w = w := by
    change WAL.left (call s.w) = w
    rw [hok]
    rfl
  refine ⟨?_, ?_, ?_, last, hlast, ?_⟩
  · simp only [WalState.logCall, hok]
  · rw [hhard, h.hardState, hrest]
  · rw [hsnapshot, h.snapshot, hrest]
  · rw [hleft]
    exact hkept

theorem append (h : Filed s m) {entries : List LogEntry}
    (hok : Ordinary codec m (.append entries)) :
    (appendEntries entries s).1 = .ok () ∧
      Filed (appendEntries entries s).2 { m with entries := m.entries ++ entries } := by
  obtain ⟨last, hle, hkept⟩ := h.log
  have hadmits : Allowed LogList.append (LogList.Admits codec) ⟨m.entries, last⟩ entries :=
    allowed_of_consecutive hok.1 (Nat.lt_succ_of_le hle) hok.2
  obtain ⟨w, hw, hkept'⟩ := hkept.appendBatch hadmits hok.2
  have hlist : entries.foldl LogList.append ⟨m.entries, last⟩ =
      ⟨m.entries ++ entries, WAL.lastOf entries last⟩ := by
    have hentries := LogList.foldl_append_entries entries ⟨m.entries, last⟩
    have hlast := foldl_append_last entries ⟨m.entries, last⟩
    exact congrArg₂ LogList.mk hentries hlast
  rw [hlist] at hkept'
  refine h.logCall hw hkept' ?_ rfl
  unfold MemState.last WAL.lastOf at hle ⊢
  simp only [List.getLast?_append]
  cases entries.getLast? with
  | none => exact hle
  | some entry => exact le_rfl

theorem cutSuffix (h : Filed s m) (keepIndex : ℕ) :
    (truncateSuffix keepIndex s).1 = .ok () ∧ Filed (truncateSuffix keepIndex s).2
      { m with entries := m.entries.filter fun e => e.index ≤ keepIndex } := by
  obtain ⟨last, hle, hkept⟩ := h.log
  obtain ⟨w, hw, hkept'⟩ := hkept.truncateSuffix keepIndex
  refine h.logCall hw hkept' ?_ rfl
  unfold MemState.last WAL.lastOf
  simp only
  cases (m.entries.filter fun e => e.index ≤ keepIndex).getLast? with
  | none => exact Nat.zero_le _
  | some entry => exact le_rfl

theorem cutFront (h : Filed s m) :
    ( truncatePrefix m.lastIncludedIndex s).1 = .ok () ∧
      Filed ( truncatePrefix m.lastIncludedIndex s).2
        { m with entries := m.entries.filter fun e => m.lastIncludedIndex < e.index } := by
  obtain ⟨last, hle, hkept⟩ := h.log
  obtain ⟨w, hw, hkept'⟩ := WAL.Kept.truncatePrefix hkept m.lastIncludedIndex
  exact h.logCall hw hkept' le_rfl rfl

theorem saveHardState (h : Filed s m) (term : ℕ) (votedFor : NodeId) :
    Filed (s.saveHardState term votedFor) { m with term := term, voted := votedFor } := by
  obtain ⟨last, hle, hkept⟩ := h.log
  refine ⟨WalState.loadHardState_saveHardState term votedFor s, ?_, last, hle, ?_⟩
  · exact (WalState.loadSnapshot_saveHardState term votedFor s).trans h.snapshot
  · exact hkept.congr (sameSegments_replaceFile WalState.others_not_segment.2.1
      WalState.others_not_segment.1 _ _)

theorem saveSnapshot (h : Filed s m) (data : Bytes) {index term : ℕ}
    (hok : Ordinary codec m (.snapshot data index term)) :
    Filed (s.saveSnapshot data index term) { m with
      snapshot := data
      lastIncludedIndex := index
      lastIncludedTerm := term } := by
  obtain ⟨last, hle, hkept⟩ := h.log
  obtain ⟨hindex, hlt, hterm⟩ := hok
  refine ⟨?_, ?_, last, ?_, ?_⟩
  · exact (WalState.loadHardState_saveSnapshot data index term s).trans h.hardState
  · have hload := WalState.loadSnapshot_eq (WalState.lookup_saveSnapshot data index term s)
    rwa [Nat.mod_eq_of_lt hlt, Nat.mod_eq_of_lt hterm] at hload
  · unfold MemState.last WAL.lastOf at hle ⊢
    simp only at hle ⊢
    cases hlast : m.entries.getLast? with
    | none =>
        rw [hlast] at hle
        exact le_trans hle hindex
    | some entry =>
        rw [hlast] at hle
        exact hle
  · exact hkept.congr (sameSegments_replaceFile WalState.others_not_segment.2.2.2
      WalState.others_not_segment.2.2.1 _ _)

/-- A new process on the files. -/
theorem reopen (h : Filed s m) :
    ∃ s', WalState.newWALState codec json s.dir = .ok s' ∧ Filed s' m := by
  obtain ⟨last, hle, hkept⟩ := h.log
  obtain ⟨w, hopen, hkept'⟩ := hkept.openDir
  have hsame := (WAL.owns_openDir hopen).2
  obtain ⟨hhard, hsnapshot⟩ := WalState.load_sameOthers json hsame
  refine ⟨⟨w, (WAL.owns_openDir hopen).1⟩, ?_, ?_⟩
  · unfold WalState.newWALState
    split
    · next w' hopen' =>
        obtain rfl := Except.ok.inj (hopen.symm.trans hopen')
        rfl
    · next err hopen' => cases hopen.symm.trans hopen'
  · exact ⟨hhard.trans h.hardState, hsnapshot.trans h.snapshot, last, hle, hkept'⟩

end Filed

theorem mirrors_filed :
    Mirrors (Filed : WalState codec json → MemState → Prop) (Ordinary codec) where
  perform {s m} call h hok := by
    cases call with
    | save term votedFor => exact ⟨rfl, h.saveHardState term votedFor⟩
    | append entries => exact h.append hok
    | cutSuffix keepIndex => exact h.cutSuffix keepIndex
    | snapshot data index term => exact ⟨rfl, h.saveSnapshot data hok⟩
    | cutFront discardIndex =>
        obtain rfl : discardIndex = m.lastIncludedIndex := hok
        exact h.cutFront
  save _ _ _ := trivial
  cutSuffix _ _ := trivial

theorem Filed.loads {s : WalState codec json} {m : MemState} (h : Filed s m) :
    loadSnapshotMeta s = loadSnapshotMeta m ∧ loadHardState s = loadHardState m ∧
      loadEntries s = loadEntries m := by
  obtain ⟨last, -, hkept⟩ := h.log
  refine ⟨WalState.loadSnapshotMeta_ok h.snapshot, h.hardState, ?_⟩
  change (s.w.readAll codec).mapError walErrorText = _
  rw [hkept.readAll]
  rfl

theorem filed_fresh : Filed (WalState.fresh : WalState codec json) PersistentState.fresh := by
  refine ⟨rfl, rfl, 0, le_rfl, ?_⟩
  have hopen : WAL.openDir codec ∅ = .ok (WalState.fresh : WalState codec json).w := rfl
  exact WAL.kept_openDir rfl hopen

/-! ## Lives of a node -/

/-- A critical section, or the end of the process and a new one. -/
inductive NodeStep
  | run (call : Section)
  | restart

/-- A step in the life of a node; `reopen` is what a new process makes of the storage that
the last one has left. -/
def live {σ : Type} [PersistentState σ] (reopen : σ → Except String σ) (n : Node σ) :
    NodeStep → Node σ
  | .run call => call.run n
  | .restart =>
      match reopen n.storage >>= n.restart with
      | .ok n' => n'
      | .error _ => n

/-- The critical section is shaped as those that occur, writes to storage what it writes to
the log, and writes records of a bounded size. -/
def NodeStep.InStep {σ : Type} (codec : EntryCodec) (n : Node σ) : NodeStep → Prop
  | .run call => call.Shaped n ∧ call.InStep n ∧ call.Sized codec n
  | .restart => True

instance {σ : Type} (n : Node σ) : ∀ call, Decidable (Section.Sized codec n call)
  | .appendEntries req => inferInstanceAs (Decidable (∀ entry ∈ req.entries, _))
  | .installSnapshot req =>
      inferInstanceAs (Decidable (_ ∧ ∀ recv ∈ n.receiving req, _))
  | .compactLog .. => inferInstanceAs (Decidable (_ ∧ _))
  | .propose data => inferInstanceAs (Decidable (Small codec (n.nextEntry data)))
  | .electionTimeout | .voteReply .. | .requestVote _ | .appendReply .. | .snapshotReply .. =>
      inferInstanceAs (Decidable True)

instance {σ : Type} (n : Node σ) : ∀ a : NodeStep, Decidable (a.InStep codec n)
  | .run call => inferInstanceAs (Decidable (call.Shaped n ∧ call.InStep n ∧ call.Sized codec n))
  | .restart => inferInstanceAs (Decidable True)

/-- The node over its files. -/
def onFiles : Node (WalState codec json) → NodeStep → Node (WalState codec json) :=
  live fun s => WalState.newWALState codec json s.dir

/-- The node in memory. -/
def inMemory : Node MemState → NodeStep → Node MemState :=
  live Except.ok

end RaftKV.Server

namespace RaftKV.Raft

variable {σ : Type} [PersistentState σ] {n : Node σ}

/-- The process of a durable node ends, and a new one is the same node up to what is not
stored. -/
theorem Node.Durable.restart (h : n.Durable) (hhard : n.Backed Synced) :
    ∃ n', n.restart n.storage = .ok n' ∧ n'.Durable ∧ n'.Backed Synced := by
  obtain ⟨first, es, hlog, hterm, hload⟩ := h.entries
  have hconsecutive := h.consecutive
  rw [hlog] at hconsecutive
  have hrebuilt : Node.Durable { n with
      log := LogEntry.sentinel n.lastIncludedIndex n.lastIncludedTerm :: es } :=
    ⟨⟨rfl, hconsecutive.2⟩, ⟨_, es, rfl, rfl, hload⟩, h.baseline, h.zero⟩
  have hstart := Node.restart_eq (n := n) h.baseline hhard hload
  refine ⟨_, hstart, hrebuilt.congr ?_, Node.restart_synced hstart⟩
  unfold Node.seed
  split
  · rfl
  · next hzero =>
      have hzero : n.lastIncludedIndex = 0 := by omega
      simp [Node.logState, Node.recover, Node.newNode, hzero, h.zero hzero]

end RaftKV.Raft

namespace RaftKV.Server

open RaftKV.Raft RaftKV.Wal

variable {codec : EntryCodec} {json : HardStateCodec}

/-- A node over its files, and the same node in memory. -/
structure Paired (n : Node (WalState codec json)) (m : Node MemState) : Prop where
  twin : Twin Filed n m
  durable : m.Durable
  synced : m.Backed Synced

namespace Paired

variable {n : Node (WalState codec json)} {m : Node MemState}

/-- What is in step on files is in step in memory. -/
theorem inStep (h : Paired n m) {call : Section} (hshape : call.Shaped n)
    (hstep : call.InStep n) (hsized : call.Sized codec n) :
    call.Shaped m ∧ call.InStep m ∧ call.Sized codec m := by
  obtain ⟨s, hs, rfl⟩ := h.twin
  cases call with
  | appendEntries req =>
      refine ⟨hshape, fun hadmits => hstep ⟨hadmits.1, ?_⟩, hsized⟩
      rw [Node.conflict_on]
      exact hadmits.2
  | installSnapshot req => exact ⟨hshape, hstep, hsized⟩
  | compactLog data index term => exact ⟨hshape, hstep, hsized⟩
  | propose data => exact ⟨hshape, hstep, hsized⟩
  | electionTimeout => exact ⟨hshape, hstep, hsized⟩
  | voteReply req resp => exact ⟨hshape, hstep, hsized⟩
  | requestVote req => exact ⟨hshape, hstep, hsized⟩
  | appendReply peer req resp => exact ⟨hshape, hstep, hsized⟩
  | snapshotReply peer t resp => exact ⟨hshape, hstep, hsized⟩

/-- A new process on the files is one on the memory. -/
theorem restart (h : Paired n m) :
    ∃ s' n' m', WalState.newWALState codec json n.storage.dir = .ok s' ∧ n.restart s' = .ok n' ∧
      m.restart m.storage = .ok m' ∧ Paired n' m' := by
  obtain ⟨m', hstart, hdurable, hsynced⟩ := h.durable.restart h.synced
  obtain ⟨s, hs, rfl⟩ := h.twin
  obtain ⟨s', hopen, hs'⟩ := hs.reopen
  obtain ⟨hmeta, hhard, hentries⟩ := hs'.loads
  have hfiles := Node.restart_eq (n := m.on s) hmeta hhard hentries
  have hmemory : m.restart m.storage = .ok _ := Node.restart_eq rfl rfl rfl
  obtain rfl := Except.ok.inj (hmemory.symm.trans hstart)
  refine ⟨s', _, _, hopen, hfiles, hmemory, ⟨s', ?_, ?_⟩, hdurable, hsynced⟩
  · obtain ⟨-, -, hstorage, -⟩ := (Node.newNode m.cfg m.storage).seed_frame
      m.storage.lastIncludedIndex m.storage.lastIncludedTerm
    change Filed s' ((Node.newNode m.cfg m.storage).seed m.storage.lastIncludedIndex
      m.storage.lastIncludedTerm).storage
    rw [hstorage]
    exact hs'
  · unfold Node.seed
    split
    · rfl
    · rfl

/-- What the new process has read. -/
theorem start (h : Paired n m) :
    ∃ s' n', WalState.newWALState codec json n.storage.dir = .ok s' ∧
      (Node.newNode n.cfg s').start = .ok n' ∧ n'.SameLog n ∧ n'.hardState = n.hardState := by
  obtain ⟨m', hstart, hsame⟩ := h.durable.start h.synced
  have hhardState : (m.storage.term, m.storage.voted) = m.hardState := Except.ok.inj h.synced
  obtain ⟨s, hs, rfl⟩ := h.twin
  obtain ⟨s', hopen, hs'⟩ := hs.reopen
  obtain ⟨hmeta, hhard, hentries⟩ := hs'.loads
  have hfiles := Node.start_eq (n := Node.newNode m.cfg s') hmeta hhard hentries
  have hmemory : (Node.newNode m.cfg m.storage).start =
      .ok (((Node.newNode m.cfg m.storage).seed m.storage.lastIncludedIndex
        m.storage.lastIncludedTerm).recover (m.storage.term, m.storage.voted)
          m.storage.entries) :=
    Node.start_eq (show loadSnapshotMeta (Node.newNode m.cfg m.storage).storage =
      .ok (m.storage.lastIncludedIndex, m.storage.lastIncludedTerm) from rfl) rfl rfl
  obtain rfl := Except.ok.inj (hmemory.symm.trans hstart)
  refine ⟨s', _, hopen, hfiles, ?_, hhardState⟩
  unfold Node.seed at hsame ⊢
  split at hsame
  · next hpos =>
      rw [if_pos hpos]
      exact hsame
  · next hzero =>
      rw [if_neg hzero]
      exact hsame

theorem step (h : Paired n m) {a : NodeStep} (ha : a.InStep codec n) :
    Paired (onFiles n a) (inMemory m a) := by
  cases a with
  | run call =>
      obtain ⟨hshape, hstep, hsized⟩ := h.inStep ha.1 ha.2.1 ha.2.2
      exact ⟨h.twin.run mirrors_filed (h.durable.writes hshape hstep hsized),
        h.durable.run hshape hstep, Section.backed persists_synced h.synced call⟩
  | restart =>
      obtain ⟨s', n', m', hopen, hfiles, hmemory, hpaired⟩ := h.restart
      have hn : onFiles n .restart = n' := by
        simp only [onFiles, live, hopen, bind, Except.bind, hfiles]
      have hm : inMemory m .restart = m' := by
        simp only [inMemory, live, bind, Except.bind, hmemory]
      rw [hn, hm]
      exact hpaired

/-- Memory never fails, and so the files do not. -/
theorem errors_eq_nil (h : Paired n m) {call : Section}
    (hcall : (NodeStep.run call).InStep codec n) : call.errors n = [] := by
  obtain ⟨hshape, hstep, hsized⟩ := h.inStep hcall.1 hcall.2.1 hcall.2.2
  refine h.twin.errors_eq_nil mirrors_filed (fun t write _ => ?_)
    (h.durable.writes hshape hstep hsized)
  cases write with
  | _ => rfl

theorem run (h : Paired n m) {steps : List NodeStep}
    (hsteps : Allowed onFiles (fun n a => a.InStep codec n) n steps) :
    Paired (steps.foldl onFiles n) (steps.foldl inMemory m) := by
  induction steps generalizing n m with
  | nil => exact h
  | cons a rest ih => exact ih (h.step hsteps.1) hsteps.2

theorem initial (cfg : Config) : Paired
    (Node.newNode cfg PersistentState.fresh : Node (WalState codec json))
    (Node.newNode cfg PersistentState.fresh) where
  twin := ⟨PersistentState.fresh, filed_fresh, rfl⟩
  durable := ⟨⟨rfl, trivial⟩, ⟨_, [], rfl, rfl, LawfulLog.entries_fresh⟩, LawfulLog.base_fresh,
    fun _ => rfl⟩
  synced := LawfulHardState.load_fresh

end Paired

/-- **Files refine memory.**  Through critical sections that are in step and any number of
restarts, a node over its files is the same node as one in memory: they differ in their
storage only, the files hold what the memory holds, and no storage call of the next critical
section that is in step fails. -/
theorem files_refine_memory (cfg : Config) (steps : List NodeStep)
    (hsteps : Allowed onFiles (fun n a => a.InStep codec n)
      (Node.newNode cfg PersistentState.fresh : Node (WalState codec json)) steps) :
    let n := steps.foldl onFiles
      (Node.newNode cfg PersistentState.fresh : Node (WalState codec json))
    Twin Filed n (steps.foldl inMemory (Node.newNode cfg PersistentState.fresh)) ∧
      ∀ call, (NodeStep.run call).InStep codec n → call.errors n = [] := by
  have hpaired := (Paired.initial cfg).run hsteps
  exact ⟨hpaired.twin, fun _ => hpaired.errors_eq_nil⟩

/-- A follower takes two entries, compacts the first of them, and is restarted; then it has
the second replaced by the leader of term 2. -/
def replacedOnFiles : List NodeStep :=
  [.run (.appendEntries ⟨1, "b", 0, 0, [⟨1, 1, [7]⟩, ⟨2, 1, [8]⟩], 1⟩),
    .run (.compactLog [1] 1 1), .restart,
    .run (.appendEntries ⟨2, "c", 1, 1, [⟨2, 2, [9]⟩], 1⟩)]

theorem replacedOnFiles_inStep : Allowed onFiles (fun n a => a.InStep wireCodec n)
    (Node.newNode (Members.trio.config "a") PersistentState.fresh :
      Node (WalState wireCodec runeCodec)) replacedOnFiles := by
  decide +kernel

/-- The node at the end of this life. -/
def replacedOnFilesEnd : Node (WalState wireCodec runeCodec) :=
  replacedOnFiles.foldl onFiles (Node.newNode (Members.trio.config "a") PersistentState.fresh)

theorem files_refine_memory_replacedOnFiles :
    Twin Filed replacedOnFilesEnd (replacedOnFiles.foldl inMemory
        (Node.newNode (Members.trio.config "a") PersistentState.fresh)) ∧
      (Section.appendEntries ⟨2, "c", 2, 2, [⟨3, 2, [5]⟩], 2⟩).errors replacedOnFilesEnd = [] := by
  obtain ⟨htwin, hnone⟩ :=
    files_refine_memory (Members.trio.config "a") replacedOnFiles replacedOnFiles_inStep
  exact ⟨htwin, hnone _ (by decide +kernel)⟩

/-- **Restart from files.**  At any time in such a life a new process can open the files and
start, and it has the log, the term and the vote of the process before. -/
theorem restart_from_files (cfg : Config) (n : Node (WalState codec json))
    (h : Reaches onFiles (fun n a => a.InStep codec n) (Node.newNode cfg PersistentState.fresh) n) :
    ∃ s m, WalState.newWALState codec json n.storage.dir = .ok s ∧
      (Node.newNode n.cfg s).start = .ok m ∧ m.SameLog n ∧ m.hardState = n.hardState := by
  have hpaired : ∃ m, Paired n m := by
    refine h.invariant (P := fun n => ∃ m, Paired n m) ⟨_, Paired.initial cfg⟩ ?_
    rintro n a ⟨m, hpaired⟩ ha
    exact ⟨_, hpaired.step ha⟩
  obtain ⟨m, hpaired⟩ := hpaired
  exact hpaired.start

theorem restart_from_files_replacedOnFiles :
    ∃ s m, WalState.newWALState wireCodec runeCodec replacedOnFilesEnd.storage.dir = .ok s ∧
      (Node.newNode replacedOnFilesEnd.cfg s).start = .ok m ∧ m.SameLog replacedOnFilesEnd ∧
      m.hardState = replacedOnFilesEnd.hardState :=
  restart_from_files (Members.trio.config "a") replacedOnFilesEnd
    (.foldl .refl replacedOnFiles replacedOnFiles_inStep)

end RaftKV.Server
