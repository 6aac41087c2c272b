import RaftKV.Server.Convergence
import RaftKV.Server.Execution

/-!
# Deduplication and replay

Two facts about sequences of entries that a state machine applies on an open engine,
with any clients, retries, malformed payloads and unknown operations among them.

* The sequence numbers of a client whose put or delete is executed increase strictly,
  since the table keeps the last one and a smaller or equal one is skipped.  If the
  client's writes come in order, the table always holds the largest number seen, so
  that exactly the first occurrences are executed (`Dedups`).
* What is executed depends on the table alone and not on the map.  A machine that
  starts over with an empty table therefore executes the same commands again, and ends
  with the same map whatever prefix of them the map had at first.
-/

namespace RaftKV.Server

open RaftKV.Raft RaftKV.Storage

/-! ## The table and the history -/

/-- The table has the client at `seq` or above. -/
def Reached (table : GoMap String ℕ) (client : String) (seq : ℕ) : Prop :=
  ∃ last, table.lookup client = some last ∧ seq ≤ last

namespace StateMachine

variable {codec : Codec} {sm : StateMachine} {entry : LogEntry} {cmd : Command}

theorem isDuplicate_anonymous {table : GoMap String ℕ} (h : cmd.clientId = "") :
    isDuplicate table cmd = false := by
  simp [isDuplicate, h]

theorem isDuplicate_eq_false_iff {table : GoMap String ℕ} (hclient : cmd.clientId ≠ "") :
    isDuplicate table cmd = false ↔ ¬ Reached table cmd.clientId cmd.seqNum := by
  unfold isDuplicate Reached
  cases hlookup : table.lookup cmd.clientId with
  | none => simp
  | some last => simp [hclient]

theorem recordSeq_lookup (table : GoMap String ℕ) (cmd : Command) {client : String}
    (hclient : client ≠ "") : (recordSeq table cmd).lookup client =
      if cmd.clientId = client then some cmd.seqNum else table.lookup client := by
  unfold recordSeq
  split
  · split
    · next heq =>
        subst heq
        rw [AList.lookup_insert]
    · next hne => rw [AList.lookup_insert_ne (Ne.symm hne)]
  · next hempty =>
      rw [not_not] at hempty
      rw [hempty, if_neg (Ne.symm hclient)]

/-- What the table has reached once it has recorded a command. -/
theorem reached_recordSeq {table : GoMap String ℕ} {client : String} (hclient : client ≠ "")
    {seq : ℕ} : Reached (recordSeq table cmd) client seq ↔
      if cmd.clientId = client then seq ≤ cmd.seqNum else Reached table client seq := by
  unfold Reached
  rw [recordSeq_lookup _ _ hclient]
  split
  · simp
  · rfl

/-- A command that is no retry is beyond what the table had of its client. -/
theorem lt_of_not_duplicate {table : GoMap String ℕ} (hdup : isDuplicate table cmd = false)
    (hclient : cmd.clientId ≠ "") {seq : ℕ} (hreached : Reached table cmd.clientId seq) :
    seq < cmd.seqNum := by
  rw [isDuplicate_eq_false_iff hclient] at hdup
  obtain ⟨last, hlast, hle⟩ := hreached
  by_contra hge
  exact hdup ⟨last, hlast, by omega⟩

/-- Recording such a command moves the table forward. -/
theorem reached_of_recordSeq {table : GoMap String ℕ} {client : String} (hclient : client ≠ "")
    (hdup : isDuplicate table cmd = false) {seq : ℕ} (h : Reached table client seq) :
    Reached (recordSeq table cmd) client seq := by
  rw [reached_recordSeq hclient]
  split
  · next heq =>
      subst heq
      exact (lt_of_not_duplicate hdup hclient h).le
  · exact h

theorem isDuplicate_of_execution (hopen : sm.engine.closed = false)
    (hexec : sm.execution codec entry = some cmd) : isDuplicate sm.lastSeq cmd = false := by
  have hnew : sm.lastApplied < entry.index := by
    by_contra hold
    rw [execution_old codec (not_lt.mp hold)] at hexec
    cases hexec
  exact ((execution_eq_some_iff hopen hnew).mp hexec).2.2

theorem lt_of_execution (hopen : sm.engine.closed = false)
    (hexec : sm.execution codec entry = some cmd) (hclient : cmd.clientId ≠ "") {seq : ℕ}
    (hreached : Reached sm.lastSeq cmd.clientId seq) : seq < cmd.seqNum :=
  lt_of_not_duplicate (isDuplicate_of_execution hopen hexec) hclient hreached

/-- The table moves forward only. -/
theorem reached_apply (codec : Codec) (hopen : sm.engine.closed = false) (entry : LogEntry)
    {client : String} (hclient : client ≠ "") {seq : ℕ}
    (h : Reached sm.lastSeq client seq) : Reached (sm.apply codec entry).lastSeq client seq := by
  rw [apply_lastSeq codec hopen]
  cases hexec : sm.execution codec entry with
  | none => exact h
  | some cmd => exact reached_of_recordSeq hclient (isDuplicate_of_execution hopen hexec) h

/-- Once executed, a sequence number has been reached for good. -/
theorem reached_of_executedAt (hopen : sm.engine.closed = false) {entries : List LogEntry}
    {i : ℕ} (hexec : sm.executedAt codec entries i = some cmd) (hclient : cmd.clientId ≠ "")
    {j : ℕ} (hij : i < j) :
    Reached (sm.applyAll codec (entries.take j)).lastSeq cmd.clientId cmd.seqNum := by
  obtain ⟨entry, hentry, hexec⟩ := Option.bind_eq_some_iff.mp hexec
  induction j with
  | zero => exact absurd hij (Nat.not_lt_zero i)
  | succ j ih =>
      have hopen' := applyAll_isOpen codec hopen (entries.take j)
      rw [List.take_add_one]
      rcases Nat.lt_succ_iff_lt_or_eq.mp hij with hlt | rfl
      · cases hnext : entries[j]? with
        | none =>
            rw [Option.toList_none, List.append_nil]
            exact ih hlt
        | some next =>
            rw [Option.toList_some, applyAll_concat]
            exact reached_apply codec hopen' next hclient (ih hlt)
      · rw [hentry, Option.toList_some, applyAll_concat, apply_lastSeq codec hopen', hexec]
        simp only
        rw [reached_recordSeq hclient, if_pos rfl]

end StateMachine

/-! ## Writes in order -/

section InOrder

variable (codec : Codec) (entries : List LogEntry)

/-- The entry at position `i` is a put or delete. -/
def WriteAt (i : ℕ) (cmd : Command) : Prop :=
  ∃ entry, entries[i]? = some entry ∧ codec.unmarshal entry.data = some cmd ∧ cmd.isWrite = true

/-- It is the first one with its client and sequence number. -/
def FirstAt (i : ℕ) (cmd : Command) : Prop :=
  WriteAt codec entries i cmd ∧ ∀ j < i, ∀ cmd', WriteAt codec entries j cmd' →
    cmd'.clientId = cmd.clientId → cmd'.seqNum ≠ cmd.seqNum

/-- The client's writes first appear in the order of their sequence numbers. -/
def InOrder (client : String) : Prop :=
  ∀ i j cmd cmd', i < j → FirstAt codec entries i cmd → FirstAt codec entries j cmd' →
    cmd.clientId = client → cmd'.clientId = client → cmd.seqNum < cmd'.seqNum

/-- The table behind the first `i` entries has the largest sequence number of the
client's writes among them. -/
structure Dedups (client : String) (i : ℕ) (table : GoMap String ℕ) : Prop where
  reached : ∀ j < i, ∀ cmd, WriteAt codec entries j cmd → cmd.clientId = client →
    Reached table client cmd.seqNum
  attained : ∀ seq, table.lookup client = some seq →
    ∃ j < i, ∃ cmd, FirstAt codec entries j cmd ∧ cmd.clientId = client ∧ cmd.seqNum = seq

end InOrder

section

variable {codec : Codec} {entries : List LogEntry} {client : String} {i : ℕ}
  {sm : StateMachine} {entry : LogEntry} {cmd : Command}

/-- The first occurrences are the ones that the table does not have. -/
theorem Dedups.firstAt_iff (h : Dedups codec entries client i sm.lastSeq)
    (horder : InOrder codec entries client) (hclient : client ≠ "")
    (hwrite : WriteAt codec entries i cmd) (hcmd : cmd.clientId = client) :
    FirstAt codec entries i cmd ↔ StateMachine.isDuplicate sm.lastSeq cmd = false := by
  subst hcmd
  rw [StateMachine.isDuplicate_eq_false_iff hclient]
  constructor
  · rintro hfirst ⟨last, hlast, hle⟩
    obtain ⟨j, hj, cmd', hfirst', hclient', rfl⟩ := h.attained last hlast
    exact absurd (horder j i cmd' cmd hj hfirst' hfirst hclient' rfl) (not_lt.mpr hle)
  · intro hnot
    refine ⟨hwrite, fun j hj cmd' hwrite' hclient' heq => hnot ?_⟩
    rw [← heq]
    exact h.reached j hj cmd' hwrite' hclient'

theorem WriteAt.unique {cmd' : Command} (h : WriteAt codec entries i cmd)
    (hentry : entries[i]? = some entry) (hcmd : codec.unmarshal entry.data = some cmd') :
    cmd = cmd' := by
  obtain ⟨entry', hentry', hcmd', -⟩ := h
  rw [hentry, Option.some.injEq] at hentry'
  subst hentry'
  rw [hcmd, Option.some.injEq] at hcmd'
  exact hcmd'.symm

/-- One more entry. -/
theorem Dedups.step (h : Dedups codec entries client i sm.lastSeq)
    (horder : InOrder codec entries client) (hclient : client ≠ "")
    (hopen : sm.engine.closed = false) (hentry : entries[i]? = some entry)
    (hnew : sm.lastApplied < entry.index) :
    Dedups codec entries client (i + 1) (sm.apply codec entry).lastSeq := by
  rw [StateMachine.apply_lastSeq codec hopen]
  cases hexec : sm.execution codec entry with
  | none =>
      refine ⟨fun j hj cmd hwrite hcmd => ?_, fun seq hseq => ?_⟩
      · rcases Nat.lt_succ_iff_lt_or_eq.mp hj with hlt | rfl
        · exact h.reached j hlt cmd hwrite hcmd
        · -- the entry itself was a write, so the table had it
          obtain ⟨entry', hentry', hdecoded, hiswrite⟩ := hwrite
          rw [hentry, Option.some.injEq] at hentry'
          subst hentry' hcmd
          by_contra hnot
          have hdup := (StateMachine.isDuplicate_eq_false_iff hclient).mpr hnot
          have hsome := (StateMachine.execution_eq_some_iff hopen hnew).mpr
            ⟨hdecoded, hiswrite, hdup⟩
          rw [hexec] at hsome
          cases hsome
      · obtain ⟨j, hj, hrest⟩ := h.attained seq hseq
        exact ⟨j, Nat.lt_succ_of_lt hj, hrest⟩
  | some cmd =>
      obtain ⟨hdecoded, hiswrite, hdup⟩ := (StateMachine.execution_eq_some_iff hopen hnew).mp hexec
      have hwriteAt : WriteAt codec entries i cmd := ⟨entry, hentry, hdecoded, hiswrite⟩
      have hlookup := StateMachine.recordSeq_lookup sm.lastSeq cmd hclient
      by_cases hcmd : cmd.clientId = client
      · rw [if_pos hcmd] at hlookup
        refine ⟨fun j hj cmd' hwrite hcmd' => ⟨_, hlookup, ?_⟩, fun seq hseq => ?_⟩
        · rcases Nat.lt_succ_iff_lt_or_eq.mp hj with hlt | rfl
          · have hreached := h.reached j hlt cmd' hwrite hcmd'
            exact (StateMachine.lt_of_execution hopen hexec (hcmd ▸ hclient) (hcmd ▸ hreached)).le
          · rw [hwrite.unique hentry hdecoded]
        · simp only at hseq
          rw [hlookup, Option.some.injEq] at hseq
          exact ⟨i, Nat.lt_succ_self i, cmd, (h.firstAt_iff horder hclient hwriteAt hcmd).mpr hdup,
            hcmd, hseq⟩
      · rw [if_neg hcmd] at hlookup
        refine ⟨fun j hj cmd' hwrite hcmd' => ?_, fun seq hseq => ?_⟩
        · unfold Reached
          simp only
          rw [hlookup]
          rcases Nat.lt_succ_iff_lt_or_eq.mp hj with hlt | rfl
          · exact h.reached j hlt cmd' hwrite hcmd'
          · rw [hwrite.unique hentry hdecoded] at hcmd'
            exact absurd hcmd' hcmd
        · simp only at hseq
          rw [hlookup] at hseq
          obtain ⟨j, hj, hrest⟩ := h.attained seq hseq
          exact ⟨j, Nat.lt_succ_of_lt hj, hrest⟩

/-- With increasing indices every entry is new when its turn comes. -/
theorem lastApplied_lt (codec : Codec) (hopen : sm.engine.closed = false)
    (hsorted : entries.Pairwise fun e e' => e.index < e'.index)
    (habove : ∀ e ∈ entries, sm.lastApplied < e.index) (i : ℕ)
    (hentry : entries[i]? = some entry) :
    (sm.applyAll codec (entries.take i)).lastApplied < entry.index := by
  induction i generalizing entry with
  | zero => exact habove entry (List.mem_of_getElem? hentry)
  | succ i ih =>
      obtain ⟨hlt, rfl⟩ := List.getElem?_eq_some_iff.mp hentry
      have hprevious : entries[i]? = some (entries.get ⟨i, by omega⟩) :=
        List.getElem?_eq_getElem (by omega)
      have hopen' := StateMachine.applyAll_isOpen codec hopen (entries.take i)
      rw [List.take_add_one, hprevious, Option.toList_some, StateMachine.applyAll_concat,
        (StateMachine.apply_open codec hopen' (ih hprevious)).2.2]
      exact List.pairwise_iff_getElem.mp hsorted i (i + 1) (by omega) hlt (Nat.lt_succ_self i)

/-- All the way through the entries. -/
theorem Dedups.run (hopen : sm.engine.closed = false)
    (hsorted : entries.Pairwise fun e e' => e.index < e'.index)
    (habove : ∀ e ∈ entries, sm.lastApplied < e.index)
    (hfresh : sm.lastSeq.lookup client = none) (horder : InOrder codec entries client)
    (hclient : client ≠ "") (i : ℕ) (hi : i ≤ entries.length) :
    Dedups codec entries client i (sm.applyAll codec (entries.take i)).lastSeq := by
  induction i with
  | zero =>
      refine ⟨fun j hj => absurd hj (Nat.not_lt_zero j), fun seq hseq => ?_⟩
      change sm.lastSeq.lookup client = some seq at hseq
      rw [hfresh] at hseq
      cases hseq
  | succ i ih =>
      have hentry : entries[i]? = some (entries.get ⟨i, hi⟩) := List.getElem?_eq_getElem hi
      have hopen' := StateMachine.applyAll_isOpen codec hopen (entries.take i)
      rw [List.take_add_one, hentry, Option.toList_some, StateMachine.applyAll_concat]
      exact (ih (Nat.le_of_succ_le hi)).step horder hclient hopen' hentry
        (lastApplied_lt codec hopen hsorted habove i hentry)

/-- Whatever is applied to an open engine: the writes that are executed are those that reach
the engine, those of one client have strictly increasing sequence numbers, and if its writes
first appear in order, exactly their first occurrences are executed. -/
theorem dedup_executes_once (codec : Codec) (sm : StateMachine)
    (hopen : sm.engine.closed = false) (entries : List LogEntry)
    (hsorted : entries.Pairwise fun e e' => e.index < e'.index) (client : String)
    (hclient : client ≠ "") :
    (∀ i, match sm.executedAt codec entries i with
      | some cmd => StateMachine.execute (sm.applyAll codec (entries.take i)).engine cmd =
          .ok (sm.applyAll codec (entries.take (i + 1))).engine
      | none => (sm.applyAll codec (entries.take (i + 1))).engine =
          (sm.applyAll codec (entries.take i)).engine) ∧
    (∀ i j cmd cmd', i < j → sm.executedAt codec entries i = some cmd →
      sm.executedAt codec entries j = some cmd' → cmd.clientId = client →
      cmd'.clientId = client → cmd.seqNum < cmd'.seqNum) ∧
    ((∀ e ∈ entries, sm.lastApplied < e.index) → sm.lastSeq.lookup client = none →
      InOrder codec entries client → ∀ i cmd, cmd.clientId = client →
      (sm.executedAt codec entries i = some cmd ↔ FirstAt codec entries i cmd)) := by
  refine ⟨StateMachine.executedAt_engine codec hopen entries,
    fun i j cmd cmd' hij hi hj hcmd hcmd' => ?_, fun habove hfresh horder i cmd hcmd => ?_⟩
  · have hreached := StateMachine.reached_of_executedAt hopen hi (hcmd ▸ hclient) hij
    obtain ⟨entry, -, hexec⟩ := Option.bind_eq_some_iff.mp hj
    have hopen' := StateMachine.applyAll_isOpen codec hopen (entries.take j)
    rw [hcmd, ← hcmd'] at hreached
    exact StateMachine.lt_of_execution hopen' hexec (hcmd' ▸ hclient) hreached
  · unfold StateMachine.executedAt
    rw [Option.bind_eq_some_iff]
    have hopen' := StateMachine.applyAll_isOpen codec hopen (entries.take i)
    constructor
    · rintro ⟨entry, hentry, hexec⟩
      have hi := (List.getElem?_eq_some_iff.mp hentry).1
      obtain ⟨hdecoded, hiswrite, hdup⟩ := (StateMachine.execution_eq_some_iff hopen'
        (lastApplied_lt codec hopen hsorted habove i hentry)).mp hexec
      exact ((Dedups.run hopen hsorted habove hfresh horder hclient i hi.le).firstAt_iff horder
        hclient ⟨entry, hentry, hdecoded, hiswrite⟩ hcmd).mpr hdup
    · intro hfirst
      obtain ⟨entry, hentry, hdecoded, hiswrite⟩ := hfirst.1
      have hi := (List.getElem?_eq_some_iff.mp hentry).1
      have hdup := ((Dedups.run hopen hsorted habove hfresh horder hclient i hi.le).firstAt_iff
        horder hclient hfirst.1 hcmd).mp hfirst
      exact ⟨entry, hentry, (StateMachine.execution_eq_some_iff hopen'
        (lastApplied_lt codec hopen hsorted habove i hentry)).mpr ⟨hdecoded, hiswrite, hdup⟩⟩

end

/-- A client writes 10, tries that again, and writes 30. -/
def retriedEntries : List LogEntry :=
  [⟨1, 1, [1, 1, 10]⟩, ⟨2, 1, [1, 1, 10]⟩, ⟨3, 1, [1, 2, 30]⟩]

theorem dedup_executes_once_retriedEntries :
    InOrder Replica.sessionCodec retriedEntries "c" ∧
      (StateMachine.new .fresh 0).executedAt Replica.sessionCodec retriedEntries 1 = none ∧
      (StateMachine.new .fresh 0).executedAt Replica.sessionCodec retriedEntries 2 =
        some ⟨.put, [107], [30], "c", 2⟩ := by
  have hdecoded : Replica.sessionCodec.unmarshal [1, 1, 10] = some ⟨.put, [107], [10], "c", 1⟩ ∧
      Replica.sessionCodec.unmarshal [1, 2, 30] = some ⟨.put, [107], [30], "c", 2⟩ := by
    decide
  have hat : ∀ i cmd, WriteAt Replica.sessionCodec retriedEntries i cmd →
      (i = 0 ∨ i = 1) ∧ cmd = ⟨.put, [107], [10], "c", 1⟩ ∨
        i = 2 ∧ cmd = ⟨.put, [107], [30], "c", 2⟩ := by
    rintro i cmd ⟨entry, hentry, hcmd, -⟩
    match i with
    | 0 =>
        cases hentry
        exact .inl ⟨.inl rfl, Option.some.inj (hcmd.symm.trans hdecoded.1)⟩
    | 1 =>
        cases hentry
        exact .inl ⟨.inr rfl, Option.some.inj (hcmd.symm.trans hdecoded.1)⟩
    | 2 =>
        cases hentry
        exact .inr ⟨rfl, Option.some.inj (hcmd.symm.trans hdecoded.2)⟩
  have hfirst : FirstAt Replica.sessionCodec retriedEntries 2 ⟨.put, [107], [30], "c", 2⟩ := by
    refine ⟨⟨_, rfl, hdecoded.2, rfl⟩, fun j hj cmd hwrite _ => ?_⟩
    rcases hat j cmd hwrite with ⟨-, rfl⟩ | ⟨rfl, -⟩
    · decide
    · exact absurd hj (lt_irrefl 2)
  have hretry : ∀ cmd, ¬ FirstAt Replica.sessionCodec retriedEntries 1 cmd := by
    rintro cmd ⟨hwrite, hnone⟩
    rcases hat 1 cmd hwrite with ⟨-, rfl⟩ | ⟨heq, -⟩
    · exact hnone 0 (by decide) _ ⟨_, rfl, hdecoded.1, rfl⟩ rfl rfl
    · cases heq
  have horder : InOrder Replica.sessionCodec retriedEntries "c" := by
    intro i j cmd cmd' hij hi hj _ _
    rcases hat i cmd hi.1 with ⟨hlow, rfl⟩ | ⟨rfl, -⟩
    · rcases hat j cmd' hj.1 with ⟨hlow', rfl⟩ | ⟨-, rfl⟩
      · have hone : j = 1 := by omega
        exact absurd (hone ▸ hj) (hretry _)
      · decide
    · rcases hat j cmd' hj.1 with ⟨hlow', -⟩ | ⟨rfl, -⟩
      · omega
      · exact absurd hij (lt_irrefl 2)
  have hexecuted := (dedup_executes_once Replica.sessionCodec (.new .fresh 0) rfl retriedEntries
    (by decide) "c" (by decide)).2.2 (by decide) rfl horder
  refine ⟨horder, ?_, (hexecuted 2 _ rfl).mpr hfirst⟩
  decide +kernel

/-! ## Replay from the beginning -/

section Replay

variable {codec : Codec} {log : CommittedLog}

/-- A machine that applies a log from its first entry builds the state of the log over
what it started with. -/
theorem applyAll_take (codec : Codec) (log : CommittedLog) (sm : StateMachine)
    (hopen : sm.engine.closed = false) (hfresh : sm.lastApplied = 0) (i : ℕ)
    (hi : i ≤ log.entries.length) :
    (sm.applyAll codec (log.entries.take i)).logState =
        (log.entries.take i).foldl (LogState.apply codec) sm.logState ∧
      (sm.applyAll codec (log.entries.take i)).lastApplied = i := by
  induction i with
  | zero => exact ⟨rfl, hfresh⟩
  | succ i ih =>
      obtain ⟨hstate, hlast⟩ := ih (Nat.le_of_succ_le hi)
      have hentry : log.entries[i]? = some (log.entries.get ⟨i, hi⟩) := List.getElem?_eq_getElem hi
      have hindex := CommittedLog.index_eq hentry
      have hopen' := StateMachine.applyAll_isOpen codec hopen (log.entries.take i)
      have hnew : (sm.applyAll codec (log.entries.take i)).lastApplied <
          (log.entries.get ⟨i, hi⟩).index := by omega
      obtain ⟨happly, -, hlast'⟩ := StateMachine.apply_open codec hopen' hnew
      rw [List.take_add_one, hentry, Option.toList_some, StateMachine.applyAll_concat,
        List.foldl_concat, happly, hstate]
      exact ⟨rfl, hlast'.trans hindex⟩

/-- The table does not depend on the map. -/
theorem foldl_lastSeq (codec : Codec) (entries : List LogEntry) {st st' : LogState}
    (h : st.lastSeq = st'.lastSeq) : (entries.foldl (LogState.apply codec) st).lastSeq =
      (entries.foldl (LogState.apply codec) st').lastSeq := by
  induction entries generalizing st st' with
  | nil => exact h
  | cons entry rest ih =>
      refine ih ?_
      unfold LogState.apply
      cases codec.unmarshal entry.data with
      | none => exact h
      | some cmd =>
          simp only
          unfold LogState.applyCommand
          rw [h]
          split
          · exact h
          · cases hwrite : cmd.write st.store with
            | none =>
                rw [Command.write_eq_none_iff.mp hwrite st'.store]
                exact h
            | some store =>
                obtain ⟨store', hwrite', -⟩ := Command.write_apply hwrite st'.store
                rw [hwrite']

/-- The entries of a log on a state that lags behind it from its beginning. -/
theorem lags_take {st : LogState} {ahead : ℕ} (h : st.Lags codec log 0 ahead) (i : ℕ)
    (hi : i ≤ log.entries.length) :
    ((log.entries.take i).foldl (LogState.apply codec) st).Lags codec log i (max ahead i) := by
  induction i with
  | zero => exact h.mono (le_max_left _ _)
  | succ i ih =>
      have hentry : log.entries[i]? = some (log.entries.get ⟨i, hi⟩) := List.getElem?_eq_getElem hi
      rw [List.take_add_one, hentry, Option.toList_some, List.foldl_concat]
      exact ((ih (Nat.le_of_succ_le hi)).apply hentry).mono (by omega)

/-- A new machine that applies a whole log on top of the map that the first `p` entries
have left ends like one that applies it on an empty map. -/
theorem replay_converges (codec : Codec) (log : CommittedLog) {p : ℕ}
    (hp : p ≤ log.entries.length) {empty engine : Engine} (hempty : empty.contents = Store.empty)
    (hopen : empty.closed = false) (hopen' : engine.closed = false) (interval interval' : ℕ)
    (hcontents : engine.contents =
      ((StateMachine.new empty interval).applyAll codec (log.entries.take p)).engine.contents) :
    let uncrashed := (StateMachine.new empty interval).applyAll codec log.entries
    let restarted := (StateMachine.new engine interval').applyAll codec log.entries
    restarted.engine.contents = uncrashed.engine.contents ∧
      restarted.lastSeq = uncrashed.lastSeq ∧ restarted.lastApplied = uncrashed.lastApplied := by
  intro uncrashed restarted
  have hstart : (StateMachine.new empty interval).logState = LogState.empty := by
    rw [StateMachine.logState, LogState.empty, ← hempty]
    rfl
  have hbase : ∀ i ≤ log.entries.length,
      ((StateMachine.new empty interval).applyAll codec (log.entries.take i)).logState =
        log.stateAt codec i := by
    intro i hi
    rw [(applyAll_take codec log _ hopen rfl i hi).1, hstart]
    rfl
  have hview : engine.contents = log.storeAt codec p :=
    hcontents.trans (congrArg LogState.store (hbase p hp))
  have hlags : (StateMachine.new engine interval').logState.Lags codec log 0 p := by
    refine .restarted ?_ CommittedLog.noRetryAfter_zero
    change Within _ 0 p engine.contents
    rw [hview]
    exact (Within.refl (log.storeAt codec) p).mono (Nat.zero_le p) le_rfl
  have hreplayed := lags_take hlags log.entries.length le_rfl
  rw [max_eq_right hp] at hreplayed
  obtain ⟨hstate, hlast⟩ := applyAll_take codec log (.new empty interval) hopen rfl
    log.entries.length le_rfl
  obtain ⟨hstate', hlast'⟩ := applyAll_take codec log (.new engine interval') hopen' rfl
    log.entries.length le_rfl
  have hbase := hbase log.entries.length le_rfl
  rw [List.take_length] at hstate hstate' hlast hlast' hreplayed hbase
  refine ⟨?_, ?_, hlast'.trans hlast.symm⟩
  · calc restarted.engine.contents
        = (log.entries.foldl (LogState.apply codec)
            (StateMachine.new engine interval').logState).store := congrArg LogState.store hstate'
      _ = log.storeAt codec log.entries.length := hreplayed.store_eq
      _ = uncrashed.engine.contents := (congrArg LogState.store hbase).symm
  · calc restarted.lastSeq
        = (log.entries.foldl (LogState.apply codec)
            (StateMachine.new engine interval').logState).lastSeq :=
          congrArg LogState.lastSeq hstate'
      _ = (log.entries.foldl (LogState.apply codec)
            (StateMachine.new empty interval).logState).lastSeq := foldl_lastSeq codec _ rfl
      _ = uncrashed.lastSeq := (congrArg LogState.lastSeq hstate).symm

/-- The log of a client that tries its first write again, replayed over the map of all
but the last entry. -/
theorem replay_converges_retriedLog :
    let engine := (Replica.applying Replica.retriedLog 2).engine
    engine.contents [107] = some [20] ∧
      ((StateMachine.new engine 0).applyAll Replica.sessionCodec
          Replica.retriedLog.entries).engine.contents =
        ((StateMachine.new .fresh 0).applyAll Replica.sessionCodec
          Replica.retriedLog.entries).engine.contents := by
  intro engine
  have hstate : engine.contents [107] = some [20] ∧ engine.closed = false ∧
      2 ≤ Replica.retriedLog.entries.length := by
    decide +kernel
  refine ⟨hstate.1, ?_⟩
  exact (replay_converges Replica.sessionCodec Replica.retriedLog hstate.2.2
    Engine.contents_fresh rfl hstate.2.1 0 0 rfl).1

end Replay

end RaftKV.Server
