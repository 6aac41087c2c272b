import RaftKV.Raft.ApplyStream

/-!
# Promises over storage that refuses calls

A node that answers `VoteGranted` promises not to vote for another candidate in that term, and
one that answers `Success` promises to hold the entries of the request.  The handlers log an
error of the storage and answer all the same, so a promise may be made that no restart keeps.

`Flaky` storage performs or refuses each of its calls.  `Promises` is a node over such storage
together with what it has promised, through calls, crashes inside them, and restarts.

* A promise is `Recorded` if the call that writes it is performed, or if it was on disk before.
  Then it is kept: no vote that was given is ahead of memory or of the disk (`NoneBehind`), and
  what a disk held it holds until a call that is performed cuts it off (`Keeps`).
* `Start` puts the entries it loads one behind the other, so an entry is found at its index only
  if those on disk are numbered without a gap from the baseline on (`Aligned`).  Calls keep it so
  if what they perform is `Ordered`: an append goes on where the disk ends, and a snapshot that is
  saved has the log cut in front of it.

Both conditions are about the node and the disk before a call and about the outcomes of the
storage calls in it.
-/

namespace RaftKV.Raft

variable {σ : Type}

/-! ## Storage that refuses calls -/

/-- The calls that write. -/
inductive StorageCall
  | save (term : ℕ) (votedFor : NodeId)
  | append (entries : List LogEntry)
  | cutSuffix (keepIndex : ℕ)
  | snapshot (data : Bytes) (lastIncludedIndex lastIncludedTerm : ℕ)
  | cutFront (discardIndex : ℕ)
  deriving DecidableEq, Repr

namespace StorageCall

def perform [PersistentState σ] : StorageCall → σ → Except String Unit × σ
  | save term votedFor => saveHardState term votedFor
  | append entries => appendEntries entries
  | cutSuffix keepIndex => truncateSuffix keepIndex
  | snapshot data index term => saveSnapshot data index term
  | cutFront discardIndex => truncatePrefix discardIndex

/-- What the call makes of the entries on disk. -/
def onEntries : StorageCall → List LogEntry → List LogEntry
  | append entries, es => es ++ entries
  | cutSuffix keepIndex, es => es.filter fun e => e.index ≤ keepIndex
  | cutFront discardIndex, es => es.filter fun e => discardIndex < e.index
  | _, es => es

/-- What it makes of the snapshot's index and term. -/
def onBase : StorageCall → ℕ × ℕ → ℕ × ℕ
  | snapshot _ index term, _ => (index, term)
  | _, base => base

/-- The call takes an entry off the disk. -/
def Cuts (e : LogEntry) : StorageCall → Prop
  | cutSuffix keepIndex => keepIndex < e.index
  | cutFront discardIndex => e.index ≤ discardIndex
  | _ => False

instance decidableCuts (e : LogEntry) : (call : StorageCall) → Decidable (call.Cuts e)
  | cutSuffix _ => inferInstanceAs (Decidable (_ < _))
  | cutFront _ => inferInstanceAs (Decidable (_ ≤ _))
  | save _ _ => inferInstanceAs (Decidable False)
  | append _ => inferInstanceAs (Decidable False)
  | snapshot _ _ _ => inferInstanceAs (Decidable False)

end StorageCall

/-- Storage that performs or refuses each call as `outcomes` says, and performs them all when
that has run out.  `calls` are the calls made so far, and whether they were performed. -/
structure Flaky (σ : Type) where
  durable : σ
  outcomes : List Bool
  calls : List (StorageCall × Bool)

namespace Flaky

/-- The storage performs the call that comes behind `k` others. -/
def performs (s : Flaky σ) (k : ℕ) : Bool :=
  s.outcomes.getD k true

variable [PersistentState σ]

/-- A refused call leaves the storage as it is. -/
def write (call : StorageCall) (s : Flaky σ) : Except String Unit × Flaky σ :=
  if s.performs 0 then
    ((call.perform s.durable).1,
      ⟨(call.perform s.durable).2, s.outcomes.tail, s.calls ++ [(call, true)]⟩)
  else (.error "refused", ⟨s.durable, s.outcomes.tail, s.calls ++ [(call, false)]⟩)

instance : PersistentState (Flaky σ) where
  fresh := ⟨PersistentState.fresh, [], []⟩
  saveHardState term votedFor := write (.save term votedFor)
  loadHardState s := loadHardState s.durable
  appendEntries entries := write (.append entries)
  loadEntries s := loadEntries s.durable
  truncateSuffix keepIndex := write (.cutSuffix keepIndex)
  saveSnapshot data index term := write (.snapshot data index term)
  loadSnapshot s := loadSnapshot s.durable
  loadSnapshotMeta s := loadSnapshotMeta s.durable
  truncatePrefix discardIndex := write (.cutFront discardIndex)

theorem write_cases (call : StorageCall) (s : Flaky σ) :
    ((write call s).2.durable = (call.perform s.durable).2 ∧
        (write call s).2.calls = s.calls ++ [(call, true)]) ∨
      ((write call s).2.durable = s.durable ∧
        (write call s).2.calls = s.calls ++ [(call, false)]) := by
  unfold write
  split
  · exact .inl ⟨rfl, rfl⟩
  · exact .inr ⟨rfl, rfl⟩

theorem write_fst (call : StorageCall) (s : Flaky σ) :
    (write call s).1 =
      if s.performs 0 then (call.perform s.durable).1 else .error "refused" := by
  unfold write
  split
  · rfl
  · rfl

theorem durable_write (call : StorageCall) (s : Flaky σ) :
    (write call s).2.durable = if s.performs 0 then (call.perform s.durable).2 else s.durable := by
  unfold write
  split
  · rfl
  · rfl

theorem performs_write (call : StorageCall) (s : Flaky σ) (k : ℕ) :
    (write call s).2.performs k = s.performs (k + 1) := by
  have htail : (write call s).2.outcomes = s.outcomes.tail := by
    unfold write
    split
    · rfl
    · rfl
  unfold performs
  rw [htail]
  cases s.outcomes with
  | nil => rfl
  | cons outcome rest => rfl

/-- The entries on disk. -/
def entries (s : Flaky σ) : List LogEntry :=
  match loadEntries s.durable with
  | .ok es => es
  | .error _ => []

/-- The index of the snapshot on disk. -/
def base (s : Flaky σ) : ℕ :=
  match loadSnapshotMeta s.durable with
  | .ok base => base.1
  | .error _ => 0

/-- The disk holds this vote. -/
def holdsVote (s : Flaky σ) (vote : ℕ × NodeId) : Bool :=
  match loadHardState s.durable with
  | .ok hard => hard = vote
  | .error _ => false

end Flaky

/-- None of the calls that were performed cuts the entry off. -/
def Kept (calls : List (StorageCall × Bool)) (e : LogEntry) : Prop :=
  ∀ c ∈ calls, c.2 = true → ¬ c.1.Cuts e

instance decidableKept (calls : List (StorageCall × Bool)) (e : LogEntry) :
    Decidable (Kept calls e) :=
  inferInstanceAs (Decidable (∀ c ∈ calls, c.2 = true → ¬ c.1.Cuts e))

/-! ## What is promised -/

/-- Where the append loop finds an entry of another term, and cuts the log. -/
def firstConflict (lastIncludedIndex : ℕ) (log : List LogEntry) (idx : ℕ) :
    List LogEntry → Option ℕ
  | [] => none
  | entry :: rest =>
      if idx ≤ lastIncludedIndex then firstConflict lastIncludedIndex log (idx + 1) rest
      else match entryAt lastIncludedIndex log idx with
        | none => none
        | some held =>
            if held.term ≠ entry.term then some idx
            else firstConflict lastIncludedIndex log (idx + 1) rest

namespace Node

/-- The candidate gets the vote. -/
def Grants (n : Node σ) (req : RequestVoteRequest) : Prop :=
  n.currentTerm ≤ req.term ∧
    (n.currentTerm < req.term ∨ n.votedFor = "" ∨ n.votedFor = req.candidateId) ∧
    n.candidateLogUpToDate req.lastLogIndex req.lastLogTerm

instance decidableGrants (n : Node σ) (req : RequestVoteRequest) : Decidable (n.Grants req) :=
  inferInstanceAs (Decidable (_ ∧ _ ∧ _))

/-- Where the log is cut for a request that is accepted. -/
def cutAt (n : Node σ) (req : AppendEntriesRequest) : Option ℕ :=
  firstConflict n.lastIncludedIndex n.log (req.prevLogIndex + 1) req.entries

/-- The storage calls in front of `AppendEntries`. -/
def callsBefore (n : Node σ) (req : AppendEntriesRequest) : ℕ :=
  n.termCalls req.term + if (n.cutAt req).isSome then 1 else 0

/-- The entries on disk when the request is appended: the cut may be refused. -/
def remaining [PersistentState σ] (n : Node (Flaky σ)) (req : AppendEntriesRequest) :
    List LogEntry :=
  match n.cutAt req with
  | none => n.storage.entries
  | some idx =>
      if n.storage.performs (n.termCalls req.term) then
        n.storage.entries.filter fun e => e.index ≤ idx - 1
      else n.storage.entries

end Node

namespace Section

variable [PersistentState σ]

/-- The vote that a critical section gives away. -/
def grants (n : Node σ) : Section → List (ℕ × NodeId)
  | .requestVote req =>
      if (n.handleRequestVote req).1.voteGranted then
        [((n.handleRequestVote req).1.term, req.candidateId)]
      else []
  | _ => []

/-- The entries that a critical section acknowledges. -/
def accepts (n : Node σ) : Section → List LogEntry
  | .appendEntries req =>
      if (n.handleAppendEntries req).1.success then req.entries else []
  | _ => []

/-- The call that writes down what is promised is performed, or the disk holds it already. -/
def Recorded (n : Node (Flaky σ)) : Section → Prop
  | .requestVote req => n.Grants req → req.candidateId ≠ "" ∧
      (n.storage.performs (n.termCalls req.term) ∨
        n.storage.holdsVote (req.term, req.candidateId))
  | .appendEntries req => n.Admits req → ¬ n.storage.performs (n.callsBefore req) →
      ∀ e ∈ req.entries, e ∈ n.remaining req
  | _ => True

/-- What is performed keeps the disk in order: entries go on where it ends, and a snapshot is
not saved without cutting the log. -/
def Ordered (n : Node (Flaky σ)) : Section → Prop
  | .appendEntries req => n.Admits req → n.storage.performs (n.callsBefore req) →
      Consecutive (n.storage.base + 1 + (n.remaining req).length) req.entries
  | .propose _ => n.role = .leader → n.storage.performs 0 →
      n.lastLogIndex = n.storage.base + n.storage.entries.length
  | .installSnapshot req => n.Installs req → n.storage.performs (n.termCalls req.term) →
      n.storage.performs (n.termCalls req.term + 1)
  | .compactLog _ index _ => n.lastIncludedIndex < index → index ≤ n.commitIndex →
      n.storage.performs 0 → n.storage.performs 1
  | _ => True

instance decidableRecorded (n : Node (Flaky σ)) : (inside : Section) →
    Decidable (inside.Recorded n)
  | .requestVote _ => inferInstanceAs (Decidable (_ → _ ∧ (_ ∨ _)))
  | .appendEntries req =>
      inferInstanceAs (Decidable (_ → _ → ∀ e ∈ req.entries, e ∈ n.remaining req))
  | .electionTimeout | .voteReply .. | .installSnapshot _ | .compactLog .. | .propose _
  | .appendReply .. | .snapshotReply .. => inferInstanceAs (Decidable True)

instance decidableOrdered (n : Node (Flaky σ)) : (inside : Section) → Decidable (inside.Ordered n)
  | .appendEntries _ => inferInstanceAs (Decidable (_ → _ → Consecutive _ _))
  | .propose _ => inferInstanceAs (Decidable (_ → _ → _ = _))
  | .installSnapshot req => inferInstanceAs (Decidable (n.Installs req → _ → _))
  | .compactLog .. => inferInstanceAs (Decidable (_ → _ → _ → _))
  | .electionTimeout | .voteReply .. | .requestVote _ | .appendReply .. | .snapshotReply .. =>
      inferInstanceAs (Decidable True)

end Section

/-- A node over flaky storage, the votes it has given, and the entries it has acknowledged that
no performed call has cut off since. -/
structure Promises (σ : Type) where
  node : Node (Flaky σ)
  votes : List (ℕ × NodeId)
  entries : List LogEntry

inductive PromiseEvent
  /-- A critical section, with the outcomes of its storage calls. -/
  | call (inside : Section) (outcomes : List Bool)
  /-- The process dies inside a critical section, and starts again.  Calls that it does not
  reach are refused. -/
  | crash (inside : Section) (outcomes : List Bool)
  | restart

namespace Promises

variable [PersistentState σ]

def initial (cfg : Config) : Promises σ :=
  ⟨.newNode cfg PersistentState.fresh, [], []⟩

/-- The node in front of a critical section whose calls will have these outcomes. -/
def facing (w : Promises σ) (outcomes : List Bool) : Node (Flaky σ) :=
  { w.node with storage := ⟨w.node.storage.durable, outcomes, []⟩ }

/-- A new process on the storage that `n` leaves, if it starts. -/
def reboot (w : Promises σ) (n : Node (Flaky σ)) (entries : List LogEntry) : Promises σ :=
  match (Node.newNode n.cfg n.storage).start with
  | .ok node => ⟨node, w.votes, entries⟩
  | .error _ => w

def step (w : Promises σ) : PromiseEvent → Promises σ
  | .call inside outcomes =>
      { node := inside.run (w.facing outcomes)
        votes := w.votes ++ inside.grants (w.facing outcomes)
        entries :=
          w.entries.filter (fun e => Kept (inside.run (w.facing outcomes)).storage.calls e) ++
            inside.accepts (w.facing outcomes) }
  | .crash inside outcomes =>
      w.reboot (inside.run (w.facing outcomes))
        (w.entries.filter fun e => Kept (inside.run (w.facing outcomes)).storage.calls e)
  | .restart => w.reboot w.node w.entries

/-- The disk is kept in order, and what a call promises is on it when the call answers. -/
def Recorded (w : Promises σ) : PromiseEvent → Prop
  | .call inside outcomes =>
      inside.Ordered (w.facing outcomes) ∧ inside.Recorded (w.facing outcomes)
  | .crash inside outcomes => inside.Ordered (w.facing outcomes)
  | .restart => True

instance decidableRecorded (w : Promises σ) : (event : PromiseEvent) →
    Decidable (w.Recorded event)
  | .call inside _ => inferInstanceAs (Decidable (inside.Ordered _ ∧ inside.Recorded _))
  | .crash inside _ => inferInstanceAs (Decidable (inside.Ordered _))
  | .restart => inferInstanceAs (Decidable True)

end Promises

/-! ## What the disk keeps -/

section

variable [PersistentState σ]

/-- None of the votes is ahead of memory or of the disk, nor the disk of memory. -/
def NoneBehind (votes : List (ℕ × NodeId)) (hard : ℕ × NodeId) (s : Flaky σ) : Prop :=
  (∀ v ∈ votes, HardLe v hard) ∧
    ∃ durable, Synced durable s.durable ∧ HardLe durable hard ∧ ∀ v ∈ votes, HardLe v durable

/-- What `Start` would read. -/
def Loads (s : Flaky σ) (es : List LogEntry) (base : ℕ × ℕ) : Prop :=
  loadEntries s.durable = .ok es ∧ loadSnapshotMeta s.durable = .ok base

/-- The disk can be read, and holds those of the entries that were not cut off. -/
def Keeps (old : List LogEntry) (s : Flaky σ) : Prop :=
  ∃ es base, Loads s es base ∧ ∀ e ∈ old, Kept s.calls e → e ∈ es

variable {votes : List (ℕ × NodeId)} {v hard : ℕ × NodeId} {s : Flaky σ}

/-- What is on disk is not ahead of the disk. -/
theorem NoneBehind.single (hsynced : Synced v s.durable) (hle : HardLe v hard) :
    NoneBehind [v] hard s := by
  refine ⟨fun v' hv' => ?_, v, hsynced, hle, fun v' hv' => ?_⟩
  · rw [List.mem_singleton.mp hv']
    exact hle
  · rw [List.mem_singleton.mp hv']
    exact .refl v

theorem NoneBehind.append {new : List (ℕ × NodeId)} (h : NoneBehind votes hard s)
    (hnew : ∀ v ∈ new, NoneBehind [v] hard s) : NoneBehind (votes ++ new) hard s := by
  obtain ⟨hmem, durable, hsynced, hle, hdisk⟩ := h
  refine ⟨fun v hv => ?_, durable, hsynced, hle, fun v hv => ?_⟩
  · rcases List.mem_append.mp hv with hv | hv
    · exact hmem v hv
    · exact (hnew v hv).1 v (List.mem_singleton_self v)
  · rcases List.mem_append.mp hv with hv | hv
    · exact hdisk v hv
    · obtain ⟨-, durable', hsynced', -, hdisk'⟩ := hnew v hv
      rw [Except.ok.inj (hsynced.symm.trans hsynced')]
      exact hdisk' v (List.mem_singleton_self v)

/-- A call that leaves the hard state alone, performed or refused. -/
theorem NoneBehind.write (h : NoneBehind votes hard s) {call : StorageCall}
    (hcall : ∀ s : σ, loadHardState (call.perform s).2 = loadHardState s) :
    NoneBehind votes hard (Flaky.write call s).2 := by
  obtain ⟨hmem, durable, hsynced, hle, hdisk⟩ := h
  refine ⟨hmem, durable, ?_, hle, hdisk⟩
  rcases Flaky.write_cases call s with ⟨heq, -⟩ | ⟨heq, -⟩
  · rw [heq]
    exact (hcall _).trans hsynced
  · rw [heq]
    exact hsynced

theorem persists_noneBehind [LawfulHardState σ] (votes : List (ℕ × NodeId)) :
    Persists (NoneBehind votes : ℕ × NodeId → Flaky σ → Prop) where
  save {h h' s} hs hle := by
    obtain ⟨hmem, durable, hsynced, hbehind, hdisk⟩ := hs
    have hmem' : ∀ v ∈ votes, HardLe v h' := fun v hv => (hmem v hv).trans hle
    refine ⟨hmem', ?_⟩
    rcases Flaky.write_cases (.save h'.1 h'.2) s with ⟨heq, -⟩ | ⟨heq, -⟩
    · refine ⟨h', ?_, .refl h', hmem'⟩
      change Synced h' (Flaky.write (.save h'.1 h'.2) s).2.durable
      rw [heq]
      exact LawfulHardState.load_save h'.1 h'.2 _
    · refine ⟨durable, ?_, hbehind.trans hle, hdisk⟩
      change Synced durable (Flaky.write (.save h'.1 h'.2) s).2.durable
      rw [heq]
      exact hsynced
  append entries h := h.write (LawfulHardState.load_appendEntries entries)
  cutSuffix keepIndex h := h.write (LawfulHardState.load_truncateSuffix keepIndex)
  snapshot data index term h := h.write (LawfulHardState.load_saveSnapshot data index term)
  cutFront discardIndex h := h.write (LawfulHardState.load_truncatePrefix discardIndex)

variable [LawfulLog σ] {es : List LogEntry} {base : ℕ × ℕ}

/-- What one call that is performed leaves of the entries. -/
theorem StorageCall.entries_perform (call : StorageCall) {s : σ} (hload : loadEntries s = .ok es) :
    loadEntries (call.perform s).2 = .ok (call.onEntries es) := by
  cases call with
  | save term votedFor => exact (LawfulLog.entries_saveHardState term votedFor s).trans hload
  | append entries => exact (LawfulLog.entries_appendEntries entries s).trans (by rw [hload]; rfl)
  | cutSuffix keepIndex =>
      exact (LawfulLog.entries_truncateSuffix keepIndex s).trans (by rw [hload]; rfl)
  | snapshot data index term =>
      exact (LawfulLog.entries_saveSnapshot data index term s).trans hload
  | cutFront discardIndex =>
      exact (LawfulLog.entries_truncatePrefix discardIndex s).trans (by rw [hload]; rfl)

theorem StorageCall.base_perform (call : StorageCall) {s : σ}
    (hload : loadSnapshotMeta s = .ok base) :
    loadSnapshotMeta (call.perform s).2 = .ok (call.onBase base) := by
  cases call with
  | save term votedFor => exact (LawfulLog.base_saveHardState term votedFor s).trans hload
  | append entries => exact (LawfulLog.base_appendEntries entries s).trans hload
  | cutSuffix keepIndex => exact (LawfulLog.base_truncateSuffix keepIndex s).trans hload
  | snapshot data index term => exact LawfulLog.base_saveSnapshot data index term s
  | cutFront discardIndex => exact (LawfulLog.base_truncatePrefix discardIndex s).trans hload

omit [PersistentState σ] [LawfulLog σ] in
theorem StorageCall.mem_onEntries {call : StorageCall} {e : LogEntry} (he : e ∈ es)
    (hcut : ¬ call.Cuts e) : e ∈ call.onEntries es := by
  cases call with
  | save term votedFor => exact he
  | append entries => exact List.mem_append_left _ he
  | cutSuffix keepIndex => exact List.mem_filter.mpr ⟨he, decide_eq_true (not_lt.mp hcut)⟩
  | snapshot data index term => exact he
  | cutFront discardIndex => exact List.mem_filter.mpr ⟨he, decide_eq_true (not_le.mp hcut)⟩

theorem Loads.write (h : Loads s es base) (call : StorageCall) :
    Loads (Flaky.write call s).2 (if s.performs 0 then call.onEntries es else es)
      (if s.performs 0 then call.onBase base else base) := by
  unfold Loads
  rw [Flaky.durable_write]
  split
  · exact ⟨call.entries_perform h.1, call.base_perform h.2⟩
  · exact h

omit [LawfulLog σ] in
theorem Loads.unique {es' : List LogEntry} {base' : ℕ × ℕ} (h : Loads s es base)
    (h' : Loads s es' base') : es' = es ∧ base' = base :=
  ⟨Except.ok.inj (h'.1.symm.trans h.1), Except.ok.inj (h'.2.symm.trans h.2)⟩

omit [LawfulLog σ] in
theorem Loads.entries_eq (h : Loads s es base) : s.entries = es := by
  rw [Flaky.entries, h.1]

omit [LawfulLog σ] in
theorem Loads.base_eq (h : Loads s es base) : s.base = base.1 := by
  rw [Flaky.base, h.2]

instance : SeparateHardState (Flaky σ) where
  entries_save t v s := by
    change loadEntries (Flaky.write (.save t v) s).2.durable = loadEntries s.durable
    rw [Flaky.durable_write]
    split
    · exact LawfulLog.entries_saveHardState t v s.durable
    · rfl
  base_save t v s := by
    change loadSnapshotMeta (Flaky.write (.save t v) s).2.durable = loadSnapshotMeta s.durable
    rw [Flaky.durable_write]
    split
    · exact LawfulLog.base_saveHardState t v s.durable
    · rfl

theorem Keeps.write {old : List LogEntry} (h : Keeps old s) (call : StorageCall) :
    Keeps old (Flaky.write call s).2 := by
  obtain ⟨es, base, hloads, hold⟩ := h
  refine ⟨_, _, hloads.write call, fun e he hkept => ?_⟩
  unfold Flaky.write at hkept
  split at hkept
  · next hperforms =>
      rw [if_pos hperforms]
      have hcut := hkept (call, true) (List.mem_append_right _ (List.mem_singleton_self _)) rfl
      exact StorageCall.mem_onEntries
        (hold e he fun c hc => hkept c (List.mem_append_left _ hc)) hcut
  · next hrefused =>
      rw [if_neg hrefused]
      exact hold e he fun c hc => hkept c (List.mem_append_left _ hc)

theorem persists_keeps (old : List LogEntry) :
    Persists (fun _ => Keeps old : ℕ × NodeId → Flaky σ → Prop) where
  save hs _ := hs.write _
  append _ hs := hs.write _
  cutSuffix _ hs := hs.write _
  snapshot _ _ _ hs := hs.write _
  cutFront _ hs := hs.write _

end

/-! ## The disk in order -/

section

variable [PersistentState σ]

/-- The entries on disk are numbered from its snapshot on, which is where memory begins. -/
def Node.Aligned (n : Node (Flaky σ)) : Prop :=
  ∃ es base, Loads n.storage es base ∧ Consecutive (base.1 + 1) es ∧ n.lastIncludedIndex = base.1

theorem Node.Aligned.congr {n n' : Node (Flaky σ)} (h : n.Aligned)
    (heq : n'.logState = n.logState) : n'.Aligned := by
  simp only [Node.logState, Prod.mk.injEq] at heq
  obtain ⟨⟨hbase, -, -⟩, hentries, hmeta⟩ := heq
  obtain ⟨es, base, hloads, hconsecutive, hmemory⟩ := h
  exact ⟨es, base, ⟨hentries.trans hloads.1, hmeta.trans hloads.2⟩, hconsecutive,
    hbase.trans hmemory⟩

omit [PersistentState σ] in
theorem entryAt_eq_logPos (n : Node σ) (idx : ℕ) :
    entryAt n.lastIncludedIndex n.log idx = (n.logPos idx).map n.log.get := by
  unfold entryAt Node.logPos
  split
  · rfl
  · split
    · next hlt => simp [List.getElem?_eq_getElem hlt]
    · next hge => simp [List.getElem?_eq_none (not_lt.mp hge)]

namespace Node

/-- From the end of the log on nothing is cut. -/
theorem appendNew_past (n : Node σ) {idx : ℕ} (hidx : n.lastIncludedIndex + n.log.length ≤ idx)
    (es : List LogEntry) : (n.appendNew idx es).storage = n.storage := by
  induction es generalizing n idx with
  | nil => rfl
  | cons entry rest ih =>
      rw [appendNew]
      split
      · exact ih n (by omega)
      · have hpos : n.logPos idx = none := by
          unfold logPos
          rw [if_neg (by omega), dif_neg (by omega)]
        rw [hpos]
        refine ih { n with log := n.log ++ [entry] } ?_
        simp only [List.length_append, List.length_singleton]
        omega

/-- The append loop makes one storage call at most. -/
theorem appendNew_storage (n : Node σ) (idx : ℕ) (es : List LogEntry) :
    (n.appendNew idx es).storage =
      match firstConflict n.lastIncludedIndex n.log idx es with
      | none => n.storage
      | some k => (truncateSuffix (k - 1) n.storage).2 := by
  induction es generalizing idx with
  | nil => rfl
  | cons entry rest ih =>
      rw [appendNew, firstConflict, entryAt_eq_logPos]
      split
      · exact ih (idx + 1)
      next habove =>
      cases hpos : n.logPos idx with
      | none =>
          refine appendNew_past { n with log := n.log ++ [entry] } ?_ rest
          have hend := end_le_of_logPos hpos (by omega)
          simp only [List.length_append, List.length_singleton]
          omega
      | some pos =>
          simp only [Option.map_some]
          split
          · have hidx := (logPos_bounds hpos).2.2
            have hlt := pos.isLt
            refine appendNew_past _ ?_ rest
            simp only [List.length_append, List.length_singleton, List.length_take]
            omega
          · exact ih (idx + 1)

theorem performs_observeTerm (n : Node (Flaky σ)) (term : ℕ) (k : ℕ) :
    (n.observeTerm term).storage.performs k = n.storage.performs (k + n.termCalls term) := by
  unfold observeTerm becomeFollower termCalls
  split
  · exact Flaky.performs_write _ _ k
  · rfl

theorem performs_followLeader (n : Node (Flaky σ)) (term : ℕ) (leaderId : NodeId) (k : ℕ) :
    (n.followLeader term leaderId).storage.performs k =
      n.storage.performs (k + n.termCalls term) := by
  -- the storage sees of a leader's request only its term
  have hstorage : (n.followLeader term leaderId).storage = (n.observeTerm term).storage := by
    unfold followLeader observeTerm
    split <;> rfl
  rw [hstorage]
  exact n.performs_observeTerm term k

theorem admits_of_success {n : Node σ} {req : AppendEntriesRequest}
    (hsuccess : (n.handleAppendEntries req).1.success) : n.Admits req := by
  unfold handleAppendEntries checkAndAccept at hsuccess
  split at hsuccess
  · cases hsuccess
  · next hfresh =>
      split at hsuccess
      · cases hsuccess
      · next hcheck =>
          exact ⟨not_lt.mp hfresh, (n.followLeader_conflict _ _ _ _).mp hcheck⟩

/-- The handler of a request that is accepted. -/
theorem handleAppendEntries_of_admits {n : Node σ} {req : AppendEntriesRequest}
    (h : n.Admits req) : (n.handleAppendEntries req).2 =
      (n.followLeader req.term req.leaderId).acceptEntries req := by
  have hcheck := (n.followLeader_conflict req.term req.leaderId _ _).mpr h.2
  rw [handleAppendEntries, if_neg (not_lt.mpr h.1), checkAndAccept, hcheck]

variable [LawfulLog σ] {n : Node (Flaky σ)} {es : List LogEntry} {base : ℕ × ℕ}

theorem loads_followLeader (h : Loads n.storage es base) (term : ℕ) (leaderId : NodeId) :
    Loads (n.followLeader term leaderId).storage es base := by
  have heq := n.followLeader_logState term leaderId
  simp only [logState, Prod.mk.injEq] at heq
  exact ⟨heq.2.1.trans h.1, heq.2.2.trans h.2⟩

/-- What the append loop leaves on disk. -/
theorem loads_appendNew (h : Loads n.storage es base) (req : AppendEntriesRequest) :
    let m := (n.followLeader req.term req.leaderId).appendNew (req.prevLogIndex + 1) req.entries
    Loads m.storage (n.remaining req) base ∧
      ∀ k, m.storage.performs k = n.storage.performs (k + n.callsBefore req) := by
  intro m
  have hfollow := loads_followLeader h req.term req.leaderId
  have hperforms := n.performs_followLeader req.term req.leaderId
  have hstorage : m.storage = match n.cutAt req with
      | none => (n.followLeader req.term req.leaderId).storage
      | some k => (truncateSuffix (k - 1) (n.followLeader req.term req.leaderId).storage).2 := by
    obtain ⟨_, _, _, heq⟩ := n.followLeader_frame req.term req.leaderId
    refine (appendNew_storage _ _ _).trans ?_
    rw [heq]
    rfl
  unfold remaining callsBefore
  rw [hstorage, h.entries_eq]
  cases n.cutAt req with
  | none => exact ⟨hfollow, fun k => hperforms k⟩
  | some idx =>
      have hcut := hfollow.write (.cutSuffix (idx - 1))
      rw [hperforms, Nat.zero_add] at hcut
      refine ⟨?_, fun k => ?_⟩
      · simp only
        split at hcut
        · next hyes =>
            rw [if_pos hyes]
            exact hcut
        · next hno =>
            rw [if_neg hno]
            exact hcut
      · change (Flaky.write _ _).2.performs k = _
        rw [Flaky.performs_write, hperforms]
        congr 1
        simp only [Option.isSome_some, if_true]
        omega

/-- What an accepted request leaves on disk. -/
theorem loads_handleAppendEntries (h : Loads n.storage es base) {req : AppendEntriesRequest}
    (hadmits : n.Admits req) : Loads (n.handleAppendEntries req).2.storage
      (n.remaining req ++ if n.storage.performs (n.callsBefore req) then req.entries else [])
      base := by
  obtain ⟨hloop, hperforms⟩ := loads_appendNew h req
  have hstorage : (n.handleAppendEntries req).2.storage =
      (((n.followLeader req.term req.leaderId).appendNew (req.prevLogIndex + 1)
        req.entries).persistRequest req.entries).storage := by
    rw [handleAppendEntries_of_admits hadmits, acceptEntries]
    unfold learnCommit
    split
    · rfl
    · rfl
  rw [hstorage]
  unfold persistRequest
  split
  · have happend := hloop.write (.append req.entries)
    rw [hperforms, Nat.zero_add] at happend
    split at happend
    · next hyes =>
        rw [if_pos hyes]
        exact happend
    · next hno =>
        rw [if_neg hno, List.append_nil]
        exact happend
  · next hempty =>
      have hnil : req.entries = [] := List.length_eq_zero_iff.mp (by omega)
      rw [show (if n.storage.performs (n.callsBefore req) then req.entries else []) = [] by
        rw [hnil, ite_self], List.append_nil]
      exact hloop

omit [LawfulLog σ] in
theorem remaining_consecutive (h : Loads n.storage es base) (hes : Consecutive (base.1 + 1) es)
    (req : AppendEntriesRequest) : Consecutive (base.1 + 1) (n.remaining req) := by
  unfold remaining
  rw [h.entries_eq]
  cases n.cutAt req with
  | none => exact hes
  | some idx =>
      simp only
      split
      · rw [hes.filter_le]
        exact hes.take _
      · exact hes

namespace Aligned

theorem handleAppendEntries (h : n.Aligned) {req : AppendEntriesRequest}
    (hordered : (Section.appendEntries req).Ordered n) : (n.handleAppendEntries req).2.Aligned := by
  by_cases hadmits : n.Admits req
  · obtain ⟨es, base, hloads, hes, hmemory⟩ := h
    refine ⟨_, base, loads_handleAppendEntries hloads hadmits, ?_, ?_⟩
    · have hremaining := remaining_consecutive hloads hes req
      split
      · next hyes =>
          have hnext := hordered hadmits hyes
          rw [hloads.base_eq] at hnext
          exact hremaining.append hnext
      · rw [List.append_nil]
        exact hremaining
    · rw [handleAppendEntries_of_admits hadmits]
      obtain ⟨storage, heq⟩ := (n.followLeader req.term req.leaderId).acceptEntries_eq req
      rw [heq, ← hmemory, ← n.followLeader_base req.term req.leaderId]
      unfold learnCommit
      split
      · rfl
      · rfl
  · unfold Node.handleAppendEntries
    split
    · exact h
    · next hfresh =>
        unfold checkAndAccept
        split
        · exact h.congr (n.followLeader_logState req.term req.leaderId)
        · next hcheck =>
            have hpass := (n.followLeader_conflict _ _ _ _).mp hcheck
            exact absurd ⟨not_lt.mp hfresh, hpass⟩ hadmits

theorem propose (h : n.Aligned) {data : Bytes} (hordered : (Section.propose data).Ordered n) :
    (n.propose data).2.Aligned := by
  unfold Node.propose
  split
  · exact h
  next hrole =>
  refine Aligned.congr ?_ (maybeAdvanceCommit_logState _)
  obtain ⟨es, base, hloads, hes, hmemory⟩ := h
  refine ⟨_, _, hloads.write (.append [n.nextEntry data]), ?_, ?_⟩
  · split
    · next hyes =>
        have hend := hordered (not_not.mp hrole) hyes
        rw [hloads.base_eq, hloads.entries_eq] at hend
        refine hes.append ⟨?_, trivial⟩
        change n.lastLogIndex + 1 = _
        omega
    · exact hes
  · split
    · exact hmemory
    · exact hmemory

/-- The snapshot is saved and the log cut in front of it, or neither. -/
theorem rebase (hloads : Loads n.storage es base) (hes : Consecutive (base.1 + 1) es)
    (data : Bytes) {index : ℕ} (term : ℕ) (hnew : base.1 < index)
    (hboth : n.storage.performs 0 → n.storage.performs 1) :
    (∃ saved cut es', saveSnapshot data index term n.storage = (.ok (), saved) ∧
        truncatePrefix index saved = (.ok (), cut) ∧ Loads cut es' (index, term) ∧
        Consecutive (index + 1) es') ∨
      ∃ err refused, saveSnapshot data index term n.storage = (.error err, refused) ∧
        Loads refused es base := by
  have hsaved := hloads.write (.snapshot data index term)
  have hsave := Flaky.write_fst (.snapshot data index term) n.storage
  by_cases hyes : n.storage.performs 0
  · set saved := (Flaky.write (.snapshot data index term) n.storage).2
    have hnext : saved.performs 0 := (Flaky.performs_write _ _ 0).trans (hboth hyes)
    have hcut := hsaved.write (.cutFront index)
    have hcutOk := Flaky.write_fst (.cutFront index) saved
    rw [if_pos hnext] at hcutOk
    rw [if_pos hyes] at hsave
    rw [if_pos hnext, if_pos hnext, if_pos hyes, if_pos hyes] at hcut
    refine .inl ⟨saved, _, _, Prod.ext (hsave.trans (LawfulLog.saveSnapshot_ok ..)) rfl,
      Prod.ext (hcutOk.trans (LawfulLog.truncatePrefix_ok ..)) rfl, hcut, ?_⟩
    change Consecutive (index + 1) (es.filter fun e => index < e.index)
    rw [hes.filter_gt]
    have hdrop := hes.drop (index + 1 - (base.1 + 1))
    rwa [show base.1 + 1 + (index + 1 - (base.1 + 1)) = index + 1 by omega] at hdrop
  · rw [if_neg hyes] at hsave
    rw [if_neg hyes, if_neg hyes] at hsaved
    exact .inr ⟨_, _, Prod.ext hsave rfl, hsaved⟩

theorem installSnapshot (h : n.Aligned) {recv : SnapshotRecvState}
    (hnew : n.lastIncludedIndex < recv.lastIncludedIndex)
    (hboth : n.storage.performs 0 → n.storage.performs 1) :
    (n.installSnapshot recv).2.Aligned := by
  obtain ⟨es, base, hloads, hes, hmemory⟩ := h
  unfold Node.installSnapshot
  rcases rebase hloads hes recv.data recv.lastIncludedTerm (hmemory ▸ hnew) hboth with
    ⟨saved, cut, es', hsave, hcut, hloads', hes'⟩ | ⟨err, refused, hsave, hloads'⟩
  · rw [hsave]
    simp only
    rw [hcut]
    exact ⟨es', _, hloads', hes', rfl⟩
  · rw [hsave]
    exact ⟨es, base, hloads', hes, hmemory⟩

theorem handleInstallSnapshot (h : n.Aligned) {req : InstallSnapshotRequest}
    (hordered : (Section.installSnapshot req).Ordered n) :
    (n.handleInstallSnapshot req).2.Aligned := by
  have hfollow := h.congr (n.followLeader_logState req.term req.leaderId)
  have hperforms := n.performs_followLeader req.term req.leaderId
  obtain ⟨term, vote, storage, heq⟩ := n.followLeader_frame req.term req.leaderId
  unfold Node.handleInstallSnapshot
  rw [heq] at hfollow hperforms ⊢
  split
  · exact h
  next hfresh =>
  unfold Node.takeChunk
  split
  · exact hfollow
  next hnew =>
  change ¬ req.lastIncludedIndex ≤ n.lastIncludedIndex at hnew
  unfold Node.receiveChunk
  split
  · exact hfollow.congr rfl
  next recv hrecv =>
  split
  · exact hfollow.congr rfl
  next hfits =>
  rw [not_or, not_not, not_not] at hfits
  split
  · next hdone =>
      refine hfollow.installSnapshot ?_ ?_
      · change n.lastIncludedIndex < recv.lastIncludedIndex
        omega
      · rw [hperforms, hperforms, Nat.zero_add, Nat.add_comm 1]
        exact hordered ⟨not_lt.mp hfresh, not_le.mp hnew, hdone, recv, hrecv, hfits⟩
  · exact hfollow.congr rfl

theorem compactLog (h : n.Aligned) {data : Bytes} {index term : ℕ}
    (hordered : (Section.compactLog data index term).Ordered n) :
    (n.compactLog data index term).2.Aligned := by
  unfold Node.compactLog
  split
  · exact h
  next hnew =>
  split
  · exact h
  next hcommit =>
  have hboth := hordered (not_le.mp hnew) (not_lt.mp hcommit)
  obtain ⟨es, base, hloads, hes, hmemory⟩ := h
  rcases rebase hloads hes data term (hmemory ▸ not_le.mp hnew) hboth with
    ⟨saved, cut, es', hsave, hcut, hloads', hes'⟩ | ⟨err, refused, hsave, hloads'⟩
  · rw [hsave]
    simp only
    rw [hcut]
    exact ⟨es', _, hloads', hes', rfl⟩
  · rw [hsave]
    exact ⟨es, base, hloads', hes, hmemory⟩

theorem run (h : n.Aligned) {inside : Section} (hordered : inside.Ordered n) :
    (inside.run n).Aligned := by
  cases inside with
  | electionTimeout => exact h.congr n.electionTimeout_logState
  | voteReply req resp => exact h.congr (n.handleVoteReply_logState req resp)
  | requestVote req => exact h.congr (n.handleRequestVote_logState req)
  | appendEntries req => exact h.handleAppendEntries hordered
  | installSnapshot req => exact h.handleInstallSnapshot hordered
  | compactLog data index term => exact h.compactLog hordered
  | propose data => exact h.propose hordered
  | appendReply peer req resp => exact h.congr (n.handleAppendReply_logState peer req resp)
  | snapshotReply peer t resp => exact h.congr (n.handleSnapshotReply_logState peer t resp)

end Aligned

end Node

/-- An entry of a disk in order, behind the first entry of the log. -/
theorem Consecutive.entryAt_cons {b : ℕ} {es : List LogEntry} (hes : Consecutive (b + 1) es)
    (first : LogEntry) {e : LogEntry} (he : e ∈ es) : entryAt b (first :: es) e.index = some e := by
  obtain ⟨k, hk⟩ := List.mem_iff_getElem?.mp he
  have hindex := hes.index_eq hk
  unfold entryAt
  rw [if_neg (by omega), show e.index - b = k + 1 by omega, List.getElem?_cons_succ]
  exact hk

end

/-! ## What is promised is on disk -/

namespace Node

variable [PersistentState σ]

theorem grants_of_voteGranted {n : Node σ} {req : RequestVoteRequest}
    (h : (n.handleRequestVote req).1.voteGranted) : n.Grants req := by
  rcases n.handleRequestVote_cases req with ⟨hno, -⟩ | ⟨hterm, hfree, hlog, -⟩
  · rw [hno] at h
    cases h
  · unfold observeTerm becomeFollower at hterm hfree hlog
    split at hterm
    · next hnewer =>
        rw [if_pos hnewer, if_pos hnewer] at hlog
        exact ⟨hnewer.le, .inl hnewer, hlog⟩
    · next hsame =>
        rw [if_neg hsame] at hfree hlog
        exact ⟨hterm.le, .inr (by tauto), hlog⟩

end Node

namespace Section

variable [PersistentState σ] {n : Node (Flaky σ)} {inside : Section}

/-- The vote that is given away is the one in memory, and the disk is not behind it. -/
theorem grants_noneBehind [LawfulHardState σ] {votes : List (ℕ × NodeId)}
    (hn : n.Backed (NoneBehind votes)) (hrecorded : inside.Recorded n) {v : ℕ × NodeId}
    (hv : v ∈ inside.grants n) :
    v.2 ≠ "" ∧ (inside.run n).hardState = v ∧ (inside.run n).Backed (NoneBehind [v]) := by
  cases inside with
  | requestVote req =>
      rcases n.handleRequestVote_cases req with ⟨hno, -⟩ | ⟨hterm, -, -, heq⟩
      · simp [grants, hno] at hv
      · obtain rfl : v = (req.term, req.candidateId) := by simpa [grants, heq] using hv
        obtain ⟨hnamed, hdisk⟩ := hrecorded (Node.grants_of_voteGranted (by rw [heq]))
        have hrun : (requestVote req).run n = (n.observeTerm req.term).grantVote req := by
          rw [run, heq]
        have hhard : ((n.observeTerm req.term).grantVote req).hardState
            = (req.term, req.candidateId) := Prod.ext hterm rfl
        refine ⟨hnamed, by rw [hrun, hhard], ?_⟩
        rcases hdisk with hperforms | hheld
        · -- the vote has just been written
          have hsynced : Synced (req.term, req.candidateId)
              ((n.observeTerm req.term).grantVote req).storage.durable := by
            have hsaved := Flaky.durable_write
              (.save (n.observeTerm req.term).currentTerm req.candidateId)
              (n.observeTerm req.term).storage
            rw [n.performs_observeTerm, Nat.zero_add, if_pos hperforms] at hsaved
            refine (congrArg loadHardState hsaved).trans ?_
            rw [hterm]
            exact LawfulHardState.load_save _ _ _
          rw [hrun]
          exact NoneBehind.single hsynced (hhard ▸ .refl _)
        · -- it was on disk before, and the disk does not fall back
          obtain ⟨-, durable, hsynced, hle, -⟩ := hn
          have hdurable : durable = (req.term, req.candidateId) := by
            unfold Flaky.holdsVote at hheld
            rw [hsynced] at hheld
            exact of_decide_eq_true hheld
          subst hdurable
          exact Section.backed (persists_noneBehind _) (NoneBehind.single hsynced hle) _
  | _ => simp [grants] at hv

/-- The entries that are acknowledged are on disk. -/
theorem accepts_held [LawfulLog σ] {es : List LogEntry} {base : ℕ × ℕ}
    (hn : Loads n.storage es base) (hrecorded : inside.Recorded n) {e : LogEntry}
    (he : e ∈ inside.accepts n) : ∃ es', Loads (inside.run n).storage es' base ∧ e ∈ es' := by
  cases inside with
  | appendEntries req =>
      have haccepts : e ∈ if (n.handleAppendEntries req).1.success then req.entries else [] := he
      split at haccepts
      · next hsuccess =>
          have hadmits := Node.admits_of_success hsuccess
          refine ⟨_, Node.loads_handleAppendEntries hn hadmits, ?_⟩
          by_cases hperforms : n.storage.performs (n.callsBefore req)
          · rw [if_pos hperforms]
            exact List.mem_append_right _ haccepts
          · exact List.mem_append_left _ (hrecorded hadmits hperforms e haccepts)
      · simp at haccepts
  | _ => simp [accepts] at he

end Section

/-! ## Every run -/

namespace Promises

variable [PersistentState σ] {w : Promises σ}

/-- What has been promised is on disk, which is in order, and no two votes of a term differ. -/
structure Sound (w : Promises σ) : Prop where
  votes : w.node.Backed (NoneBehind w.votes)
  entries : Keeps w.entries ⟨w.node.storage.durable, [], []⟩
  aligned : w.node.Aligned
  named : ∀ v ∈ w.votes, v.2 ≠ ""
  unique : ∀ v ∈ w.votes, ∀ v' ∈ w.votes, v.1 = v'.1 → v = v'

/-- The entries that were not cut off in a critical section are on the disk it leaves. -/
theorem keeps_filter {old : List LogEntry} {s : Flaky σ} (h : Keeps old s) :
    Keeps (old.filter fun e => Kept s.calls e) ⟨s.durable, [], []⟩ := by
  obtain ⟨es, base, hloads, hold⟩ := h
  refine ⟨es, base, hloads, fun e he _ => ?_⟩
  obtain ⟨hmem, hkept⟩ := List.mem_filter.mp he
  exact hold e hmem (of_decide_eq_true hkept)

/-- A vote stands against every other one of its term. -/
theorem eq_of_hardLe {v v' : ℕ × NodeId} (hle : HardLe v v') (hterm : v.1 = v'.1)
    (hnamed : v.2 ≠ "") : v = v' := by
  rcases hle with hlt | ⟨-, hnone | hsame⟩
  · omega
  · exact absurd hnone hnamed
  · exact Prod.ext hterm hsame

/-- A disk in order starts a process, which finds each entry under its index. -/
theorem exists_start {votes : List (ℕ × NodeId)} {entries : List LogEntry} {n : Node (Flaky σ)}
    (hvotes : n.Backed (NoneBehind votes)) (haligned : n.Aligned)
    (hentries : Keeps entries ⟨n.storage.durable, [], []⟩) :
    ∃ n', (Node.newNode n.cfg n.storage).start = .ok n' ∧ n'.storage = n.storage ∧
      n'.Backed (NoneBehind votes) ∧ n'.Aligned ∧
      ∀ e ∈ entries, entryAt n'.lastIncludedIndex n'.log e.index = some e := by
  obtain ⟨-, durable, hsynced, -, hdisk⟩ := hvotes
  obtain ⟨es, base, hloads, hes, -⟩ := haligned
  obtain ⟨es', base', hloads', hold⟩ := hentries
  obtain ⟨rfl, rfl⟩ := hloads.unique hloads'
  obtain ⟨-, -, hstorage, -⟩ := (Node.newNode n.cfg n.storage).seed_frame base'.1 base'.2
  obtain ⟨hbase, -, first, -, hlog⟩ := Node.seed_fresh n.cfg n.storage base'.1 base'.2
  refine ⟨_, Node.start_eq hloads.2 hsynced hloads.1, hstorage, ?_, ?_, fun e he => ?_⟩
  · refine ⟨hdisk, durable, ?_, .refl durable, hdisk⟩
    change Synced durable ((Node.newNode n.cfg n.storage).seed base'.1 base'.2).storage.durable
    rw [hstorage]
    exact hsynced
  · refine ⟨es', base', ?_, hes, hbase⟩
    change Loads ((Node.newNode n.cfg n.storage).seed base'.1 base'.2).storage es' base'
    rw [hstorage]
    exact hloads
  · change entryAt ((Node.newNode n.cfg n.storage).seed base'.1 base'.2).lastIncludedIndex
      (((Node.newNode n.cfg n.storage).seed base'.1 base'.2).log ++ es') e.index = some e
    rw [hbase, hlog]
    exact hes.entryAt_cons first (hold e he fun _ h => absurd h List.not_mem_nil)

theorem Sound.reboot (h : w.Sound) {n : Node (Flaky σ)} {entries : List LogEntry}
    (hvotes : n.Backed (NoneBehind w.votes)) (haligned : n.Aligned)
    (hentries : Keeps entries ⟨n.storage.durable, [], []⟩) : (w.reboot n entries).Sound := by
  obtain ⟨n', hstart, hstorage, hvotes', haligned', -⟩ := exists_start hvotes haligned hentries
  rw [Promises.reboot, hstart]
  exact ⟨hvotes', hstorage ▸ hentries, haligned', h.named, h.unique⟩

variable [LawfulHardState σ] [LawfulLog σ]

theorem sound_initial (cfg : Config) : (initial cfg : Promises σ).Sound where
  votes := by
    refine ⟨by simp [initial], (0, ""), LawfulHardState.load_fresh, .refl _, by simp [initial]⟩
  entries := ⟨[], (0, 0), ⟨LawfulLog.entries_fresh, LawfulLog.base_fresh⟩, by simp [initial]⟩
  aligned := ⟨[], (0, 0), ⟨LawfulLog.entries_fresh, LawfulLog.base_fresh⟩, trivial, rfl⟩
  named := by simp [initial]
  unique := by simp [initial]

/-- A critical section whose promises are recorded. -/
theorem Sound.call (h : w.Sound) {inside : Section} {outcomes : List Bool}
    (hordered : inside.Ordered (w.facing outcomes))
    (hrecorded : inside.Recorded (w.facing outcomes)) :
    (w.step (.call inside outcomes)).Sound := by
  have hrun := Section.backed (persists_noneBehind w.votes) (n := w.facing outcomes)
    h.votes inside
  have hkeeps := Section.backed (persists_keeps w.entries) (n := w.facing outcomes)
    h.entries inside
  have hgrants := fun v => Section.grants_noneBehind (n := w.facing outcomes) (v := v)
    h.votes hrecorded
  have hvotes : NoneBehind (w.votes ++ inside.grants (w.facing outcomes))
      (inside.run (w.facing outcomes)).hardState (inside.run (w.facing outcomes)).storage :=
    hrun.append fun v hv => (hgrants v hv).2.2
  have hnamed : ∀ v ∈ w.votes ++ inside.grants (w.facing outcomes), v.2 ≠ "" := by
    intro v hv
    rcases List.mem_append.mp hv with hold | hnew
    · exact h.named v hold
    · exact (hgrants v hnew).1
  have haligned : (w.facing outcomes).Aligned := h.aligned
  refine ⟨hvotes, ?_, haligned.run hordered, hnamed, fun v hv v' hv' hterm => ?_⟩
  · obtain ⟨es, base, hloads, hold⟩ := keeps_filter hkeeps
    refine ⟨es, base, hloads, fun e he hkept => ?_⟩
    rcases List.mem_append.mp he with hmem | hnew
    · exact hold e hmem hkept
    · obtain ⟨_, _, hbefore, -⟩ := haligned
      obtain ⟨es', hloads', hmem⟩ := Section.accepts_held hbefore hrecorded hnew
      rwa [Except.ok.inj (hloads.1.symm.trans hloads'.1)]
  · -- a new vote is the hard state, which no vote is ahead of
    rcases List.mem_append.mp hv with hold | hnew
    · rcases List.mem_append.mp hv' with hold' | hnew'
      · exact h.unique v hold v' hold' hterm
      · have hle := hvotes.1 v hv
        rw [(hgrants v' hnew').2.1] at hle
        exact eq_of_hardLe hle hterm (hnamed v hv)
    · have hle := hvotes.1 v' hv'
      rw [(hgrants v hnew).2.1] at hle
      exact (eq_of_hardLe hle hterm.symm (hnamed v' hv')).symm

theorem Sound.step (h : w.Sound) {event : PromiseEvent} (hrecorded : w.Recorded event) :
    (w.step event).Sound := by
  cases event with
  | call inside outcomes => exact h.call hrecorded.1 hrecorded.2
  | crash inside outcomes =>
      have hrun := Section.backed (persists_noneBehind w.votes) (n := w.facing outcomes)
        h.votes inside
      have hkeeps := Section.backed (persists_keeps w.entries) (n := w.facing outcomes)
        h.entries inside
      have haligned : (w.facing outcomes).Aligned := h.aligned
      exact h.reboot hrun (haligned.run hrecorded) (keeps_filter hkeeps)
  | restart => exact h.reboot h.votes h.aligned h.entries

/-- **Promises over flaky storage.**  In every run whose calls keep the disk in order and write
down what they promise, no two votes given in one term differ, and a restart finds every entry
that was acknowledged and not cut off since, under its index. -/
theorem promises_kept (cfg : Config) (w : Promises σ)
    (h : Reaches Promises.step Promises.Recorded (initial cfg) w) :
    (∀ t c c', (t, c) ∈ w.votes → (t, c') ∈ w.votes → c = c') ∧
      ∃ n, (Node.newNode w.node.cfg w.node.storage).start = .ok n ∧
        ∀ e ∈ w.entries, entryAt n.lastIncludedIndex n.log e.index = some e := by
  have hsound : w.Sound := h.invariant (sound_initial cfg) fun _ _ hs => hs.step
  refine ⟨fun t c c' hc hc' => ?_, ?_⟩
  · exact (Prod.mk.inj (hsound.unique _ hc _ hc' rfl)).2
  · obtain ⟨n, hstart, -, -, -, hlog⟩ :=
      exists_start hsound.votes hsound.aligned hsound.entries
    exact ⟨n, hstart, hlog⟩

/-- A follower grants a vote whose first storage call is refused and whose second is performed,
takes two entries, dies inside a request that has cut the second of them off, is asked for a
vote in the same term again, and takes the request in its second try. -/
def recordedRun : List PromiseEvent :=
  [.call (.requestVote ⟨1, "b", 0, 0⟩) [false, true],
    .call (.appendEntries ⟨1, "b", 0, 0, [⟨1, 1, [7]⟩, ⟨2, 1, [8]⟩], 0⟩) [],
    .crash (.appendEntries ⟨2, "c", 1, 1, [⟨2, 2, [9]⟩], 0⟩) [false, true, false],
    .call (.requestVote ⟨1, "c", 5, 5⟩) [],
    .call (.appendEntries ⟨2, "c", 1, 1, [⟨2, 2, [9]⟩], 0⟩) []]

theorem promises_kept_recordedRun :
    let w : Promises MemState := recordedRun.foldl step (initial ⟨"a", ["b", "c"]⟩)
    w.votes = [(1, "b")] ∧ w.entries = [⟨1, 1, [7]⟩, ⟨2, 2, [9]⟩] ∧
      ∃ n, (Node.newNode w.node.cfg w.node.storage).start = .ok n ∧
        ∀ e ∈ w.entries, entryAt n.lastIncludedIndex n.log e.index = some e := by
  intro w
  have hrun : Allowed step Promises.Recorded (initial ⟨"a", ["b", "c"]⟩ : Promises MemState)
      recordedRun ∧ w.votes = [(1, "b")] ∧ w.entries = [⟨1, 1, [7]⟩, ⟨2, 2, [9]⟩] := by
    decide +kernel
  exact ⟨hrun.2.1, hrun.2.2,
    (promises_kept ⟨"a", ["b", "c"]⟩ w (Reaches.foldl .refl _ hrun.1)).2⟩

/-- A vote and an acknowledgement whose storage calls are refused, and an acknowledgement
behind a refused `TruncateSuffix`.  The restarted node votes for another candidate in the term,
does not hold the first entry, and has the second one shifted by the entry it replaced. -/
theorem refused_promises_broken :
    let voted : Promises MemState := [.call (.requestVote ⟨1, "b", 0, 0⟩) [true, false],
      .restart, .call (.requestVote ⟨1, "c", 0, 0⟩) []].foldl step (initial ⟨"a", ["b", "c"]⟩)
    let accepted : Promises MemState :=
      [.call (.appendEntries ⟨1, "b", 0, 0, [⟨1, 1, [7]⟩], 0⟩) [true, false]].foldl step
        (initial ⟨"a", ["b", "c"]⟩)
    let replaced : Promises MemState :=
      [.call (.appendEntries ⟨1, "b", 0, 0, [⟨1, 1, [7]⟩, ⟨2, 1, [8]⟩], 0⟩) [],
        .call (.appendEntries ⟨2, "c", 1, 1, [⟨2, 2, [9]⟩], 0⟩) [true, false, true]].foldl step
        (initial ⟨"a", ["b", "c"]⟩)
    voted.votes = [(1, "b"), (1, "c")] ∧ accepted.entries = [⟨1, 1, [7]⟩] ∧
      (∃ n, (Node.newNode accepted.node.cfg accepted.node.storage).start = .ok n ∧
        ⟨1, 1, [7]⟩ ∉ n.log) ∧
      ⟨2, 2, [9]⟩ ∈ replaced.entries ∧
      ∃ n, (Node.newNode replaced.node.cfg replaced.node.storage).start = .ok n ∧
        entryAt n.lastIncludedIndex n.log 2 = some ⟨2, 1, [8]⟩ ∧
        entryAt n.lastIncludedIndex n.log 3 = some ⟨2, 2, [9]⟩ := by
  refine ⟨by decide +kernel, by decide +kernel, ⟨_, rfl, by decide +kernel⟩,
    by decide +kernel, _, rfl, by decide +kernel, by decide +kernel⟩

end Promises

end RaftKV.Raft
