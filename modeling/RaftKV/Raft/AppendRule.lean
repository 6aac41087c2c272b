import RaftKV.Raft.ApplyStream
import RaftKV.Raft.Rollback

/-!
# The rule for appending

`HandleAppendEntries` on a log whose front was compacted away, entry by entry.  An entry
of the request is at one of three places:

```text
at or below the baseline          skipped, whatever its term
above it, held with its term      skipped
above it, missing or other term   the log is cut there; this entry and all behind it are added
```

`Node.Lacks` is the third case.  In front of the first entry that the log lacks the loop
changes nothing (`appendNew_skip`); from it on the log no longer reaches any index that is
asked for, and every entry is added (`appendNew_of_lacks`).  Whatever was added is held
with its term, so the same request finds nothing more to do.
-/

namespace RaftKV.Raft

variable {σ : Type}

namespace Node

/-- The log has to take this entry of a request: it is above the baseline, and not there or
there with another term. -/
def Lacks (n : Node σ) (entry : LogEntry) : Prop :=
  n.lastIncludedIndex < entry.index ∧ n.termHeld entry.index ≠ some entry.term

instance (n : Node σ) (entry : LogEntry) : Decidable (n.Lacks entry) :=
  inferInstanceAs (Decidable (_ ∧ _))

theorem lacks_congr {n n' : Node σ} (hbase : n'.lastIncludedIndex = n.lastIncludedIndex)
    (hlog : n'.log = n.log) (entry : LogEntry) : n'.Lacks entry ↔ n.Lacks entry := by
  unfold Lacks
  rw [hbase, termHeld_congr hbase hlog]

/-! ## The loop -/

section Loop

variable [PersistentState σ]

/-- Entries that the log does not lack are passed over. -/
theorem appendNew_skip {n : Node σ} {idx : ℕ} {old : List LogEntry} (hold : Consecutive idx old)
    (hheld : ∀ entry ∈ old, ¬ n.Lacks entry) (rest : List LogEntry) :
    n.appendNew idx (old ++ rest) = n.appendNew (idx + old.length) rest := by
  induction old generalizing idx with
  | nil => rfl
  | cons entry old ih =>
      have hnext := ih hold.2 fun e he => hheld e (List.mem_cons_of_mem _ he)
      have hentry := hheld entry List.mem_cons_self
      unfold Lacks at hentry
      rw [hold.1] at hentry
      rw [List.length_cons, Nat.add_comm old.length 1, ← Nat.add_assoc, ← hnext, List.cons_append,
        appendNew]
      split
      · rfl
      · next habove =>
          have hterm : n.termHeld idx = some entry.term := by
            by_contra hne
            exact hentry ⟨not_le.mp habove, hne⟩
          obtain ⟨pos, hpos, heq⟩ := logPos_of_termHeld hterm
          rw [hpos]
          exact if_neg (not_not.mpr heq)

/-- From an entry on that the log lacks, everything is added. -/
theorem appendNew_of_lacks {n : Node σ} (hne : n.log ≠ []) {entry : LogEntry}
    (hidx : entry.index ≤ n.lastLogIndex + 1) (hlacks : n.Lacks entry) (rest : List LogEntry) :
    (n.appendNew entry.index (entry :: rest)).log =
      n.log.take (entry.index - n.lastIncludedIndex) ++ entry :: rest := by
  have hlast := lastLogIndex_succ hne
  obtain ⟨habove, hterm⟩ := hlacks
  cases hpos : n.logPos entry.index with
  | none =>
      -- right behind the end
      have hend : entry.index = n.lastIncludedIndex + n.log.length := by
        have := end_le_of_logPos hpos habove.le
        omega
      rw [appendNew_beyond hne hend, hend, Nat.add_sub_cancel_left, List.take_length]
  | some pos =>
      obtain ⟨-, -, hval⟩ := logPos_bounds hpos
      rw [termHeld_of_logPos hpos] at hterm
      have hdiffers : (n.log.get pos).term ≠ entry.term := fun heq => hterm (congrArg some heq)
      have hcut : (n.log.take pos).length = pos := by
        rw [List.length_take, Nat.min_eq_left pos.isLt.le]
      -- the log is cut here, and then ends where the rest of the request begins
      rw [appendNew, if_neg (not_le.mpr habove), hpos]
      simp only
      rw [if_pos hdiffers, appendNew_beyond (by simp) (by
        simp only [List.length_append, List.length_singleton, hcut]
        omega)]
      simp only [List.append_assoc, List.singleton_append, hval]

/-! ## The whole handler -/

variable {n : Node σ} {req : AppendEntriesRequest}

theorem acceptEntries_frame (n : Node σ) (req : AppendEntriesRequest) :
    (n.acceptEntries req).log = (n.appendNew (req.prevLogIndex + 1) req.entries).log ∧
      (n.acceptEntries req).lastIncludedIndex = n.lastIncludedIndex ∧
      (n.acceptEntries req).currentTerm = n.currentTerm ∧
      (n.acceptEntries req).commitIndex =
        if n.commitIndex < req.leaderCommit then
          min (n.acceptEntries req).lastLogIndex req.leaderCommit
        else n.commitIndex := by
  obtain ⟨storage, heq⟩ := n.acceptEntries_eq req
  rw [heq]
  generalize (n.appendNew (req.prevLogIndex + 1) req.entries).log = log
  unfold learnCommit
  simp only [gt_iff_lt]
  split
  · next hlt =>
      refine ⟨rfl, rfl, rfl, ?_⟩
      have hlast : ∀ m, ({ n with log := log, storage := storage } : Node σ).lastLogIndex =
          (advanceCommitTo { n with log := log, storage := storage } m).lastLogIndex :=
        fun _ => rfl
      rw [← hlast]
      simp only [advanceCommitTo, send]
      rw [min_def]
      split <;> split <;> omega
  · exact ⟨rfl, rfl, rfl, rfl⟩

omit [PersistentState σ] in
theorem conflict_eq_none (hle : req.prevLogIndex ≤ n.lastLogIndex)
    (hterm : req.prevLogIndex = 0 ∨
      ∀ t, n.termHeld req.prevLogIndex = some t → t = req.prevLogTerm) :
    n.conflict req.prevLogIndex req.prevLogTerm = none := by
  cases h : n.conflict req.prevLogIndex req.prevLogTerm with
  | none => rfl
  | some hint =>
      rcases conflict_some_cases h with ⟨hlt, -⟩ | ⟨hheld, hne, hpos, -⟩
      · omega
      · rcases hterm with hzero | hall
        · omega
        · exact absurd (hall _ hheld) hne

omit [PersistentState σ] in
/-- Entries that start inside the log and are not lacking end inside it. -/
theorem index_le_of_not_lacks (hne : n.log ≠ []) {idx : ℕ} (hidx : idx ≤ n.lastLogIndex + 1)
    {old : List LogEntry} (hold : Consecutive idx old) (hheld : ∀ e ∈ old, ¬ n.Lacks e) :
    idx + old.length ≤ n.lastLogIndex + 1 := by
  rcases List.eq_nil_or_concat old with rfl | ⟨init, last, rfl⟩
  · exact hidx
  · rw [List.concat_eq_append] at hold hheld ⊢
    have hindex : last.index = idx + init.length :=
      hold.index_eq (by rw [List.getElem?_append_right le_rfl, Nat.sub_self]; rfl)
    have hbase := base_le_lastLogIndex hne
    have hlast := hheld last (by simp)
    unfold Lacks at hlast
    rw [List.length_append, List.length_singleton]
    rcases Nat.lt_or_ge n.lastIncludedIndex last.index with habove | hbelow
    · have hterm : n.termHeld last.index = some last.term := by
        by_contra hmissing
        exact hlast ⟨habove, hmissing⟩
      have := (termHeld_bounds hterm).2
      omega
    · omega

/-- If nothing is lacking, nothing is written. -/
theorem log_acceptEntries_of_held (hentries : Consecutive (req.prevLogIndex + 1) req.entries)
    (hall : ∀ entry ∈ req.entries, ¬ n.Lacks entry) : (n.acceptEntries req).log = n.log := by
  have hskip := n.appendNew_skip hentries hall []
  rw [List.append_nil] at hskip
  rw [(n.acceptEntries_frame req).1, hskip]
  rfl

/-- The log is cut at the first entry that is lacking, and goes on with the request. -/
theorem log_acceptEntries_of_lacks (hne : n.log ≠ [])
    (hidx : req.prevLogIndex + 1 ≤ n.lastLogIndex + 1)
    (hentries : Consecutive (req.prevLogIndex + 1) req.entries) {old rest : List LogEntry}
    {entry : LogEntry} (hsplit : req.entries = old ++ entry :: rest)
    (hold : ∀ e ∈ old, ¬ n.Lacks e) (hlacks : n.Lacks entry) :
    (n.acceptEntries req).log =
      n.log.take (entry.index - n.lastIncludedIndex) ++ entry :: rest := by
  rw [hsplit] at hentries
  have hfront := hentries.take old.length
  have hback := hentries.drop old.length
  rw [List.take_left] at hfront
  rw [List.drop_left] at hback
  have hend := index_le_of_not_lacks hne hidx hfront hold
  rw [← hback.1] at hend
  rw [(n.acceptEntries_frame req).1, hsplit, appendNew_skip hfront hold, ← hback.1]
  exact appendNew_of_lacks hne hend hlacks rest

/-- The entry for the baseline stays. -/
theorem head_log_acceptEntries (hne : n.log ≠ [])
    (hidx : req.prevLogIndex + 1 ≤ n.lastLogIndex + 1)
    (hentries : Consecutive (req.prevLogIndex + 1) req.entries) :
    (n.acceptEntries req).log.head? = n.log.head? := by
  cases hfirst : req.entries.find? (fun entry => n.Lacks entry) with
  | none => rw [log_acceptEntries_of_held hentries (by simpa using hfirst)]
  | some entry =>
      obtain ⟨hlacks, old, rest, hsplit, hold⟩ := List.find?_eq_some_iff_append.mp hfirst
      have hlacks : n.Lacks entry := by simpa using hlacks
      have hold : ∀ e ∈ old, ¬ n.Lacks e := by simpa using hold
      obtain ⟨first, log, hcons⟩ := List.exists_cons_of_ne_nil hne
      obtain ⟨k, hk⟩ : ∃ k, entry.index - n.lastIncludedIndex = k + 1 :=
        ⟨entry.index - n.lastIncludedIndex - 1, by have := hlacks.1; omega⟩
      rw [log_acceptEntries_of_lacks hne hidx hentries hsplit hold hlacks, hk, hcons]
      rfl

/-- What the part behind the consistency check makes of the log. -/
structure Accepts (n n' : Node σ) (req : AppendEntriesRequest) : Prop where
  same : (∀ entry ∈ req.entries, ¬ n.Lacks entry) → n'.log = n.log
  spliced : ∀ old entry rest, req.entries = old ++ entry :: rest →
    (∀ e ∈ old, ¬ n.Lacks e) → n.Lacks entry →
      n'.log = n.log.take (entry.index - n.lastIncludedIndex) ++ entry :: rest
  base : n'.lastIncludedIndex = n.lastIncludedIndex
  aligned : n'.log ≠ [] ∧ Consecutive n'.lastIncludedIndex n'.log
  first : n'.log.head? = n.log.head?
  /-- The request has nothing more to bring. -/
  held : ∀ entry ∈ req.entries, ¬ n'.Lacks entry
  /-- It would pass the consistency check again. -/
  passes : n'.conflict req.prevLogIndex req.prevLogTerm = none

theorem accepts_acceptEntries (hne : n.log ≠ []) (haligned : Consecutive n.lastIncludedIndex n.log)
    (hentries : Consecutive (req.prevLogIndex + 1) req.entries)
    (hpass : n.conflict req.prevLogIndex req.prevLogTerm = none) :
    n.Accepts (n.acceptEntries req) req := by
  obtain ⟨hlog, hbase, -, -⟩ := n.acceptEntries_frame req
  obtain ⟨hle, hheld⟩ := conflict_none_cases hpass
  have hidx : req.prevLogIndex + 1 ≤ n.lastLogIndex + 1 := by omega
  obtain ⟨hne', haligned', hend⟩ := appendNew_consecutive hne haligned hidx hentries
  obtain ⟨hlow, hhigh⟩ := n.appendNew_held hne (req.prevLogIndex + 1) hidx req.entries
  have happended : (n.appendNew (req.prevLogIndex + 1) req.entries).lastIncludedIndex =
      n.lastIncludedIndex := by
    obtain ⟨_, _, heq⟩ := n.appendNew_frame (req.prevLogIndex + 1) req.entries
    rw [heq]
  have hterms : ∀ i, (n.acceptEntries req).termHeld i =
      (n.appendNew (req.prevLogIndex + 1) req.entries).termHeld i :=
    termHeld_congr (hbase.trans happended.symm) hlog
  refine ⟨log_acceptEntries_of_held hentries, ?_, hbase, ?_,
    head_log_acceptEntries hne hidx hentries, ?_, ?_⟩
  · intro old entry rest hsplit hold hlacks
    exact log_acceptEntries_of_lacks hne hidx hentries hsplit hold hlacks
  · rw [hbase, hlog]
    exact ⟨hne', haligned'⟩
  · rintro entry hentry ⟨habove, hmissing⟩
    obtain ⟨k, hk, rfl⟩ := List.mem_iff_getElem.mp hentry
    have hindex := hentries.index_eq (List.getElem?_eq_getElem hk)
    rw [hbase, hindex] at habove
    rw [hterms, hindex] at hmissing
    exact hmissing (hhigh k hk habove)
  · refine conflict_eq_none ?_ ?_
    · unfold lastLogIndex at hend ⊢
      rw [hbase, hlog]
      omega
    · rw [hterms, hlow _ (.inl (Nat.lt_succ_self _))]
      exact hheld

omit [PersistentState σ] in
theorem Accepts.congr {m n' : Node σ} (h : m.Accepts n' req)
    (hbase : m.lastIncludedIndex = n.lastIncludedIndex) (hlog : m.log = n.log) :
    n.Accepts n' req := by
  have hlacks := lacks_congr hbase hlog
  refine { h with
    same := fun hall => ?_
    spliced := fun old entry rest hsplit hold hentry => ?_
    base := h.base.trans hbase
    first := by rw [h.first, hlog] }
  · rw [h.same fun entry hentry => (hlacks entry).not.mpr (hall entry hentry), hlog]
  · rw [h.spliced old entry rest hsplit (fun e he => (hlacks e).not.mpr (hold e he))
      ((hlacks entry).mpr hentry), hbase, hlog]

/-- A request that is not stale and passes the consistency check. -/
theorem accepts_handleAppendEntries (hne : n.log ≠ [])
    (haligned : Consecutive n.lastIncludedIndex n.log)
    (hentries : Consecutive (req.prevLogIndex + 1) req.entries) (hterm : n.currentTerm ≤ req.term)
    (hpass : n.conflict req.prevLogIndex req.prevLogTerm = none) :
    n.Accepts (n.handleAppendEntries req).2 req ∧
      (n.handleAppendEntries req).2.currentTerm = req.term ∧
      (n.handleAppendEntries req).2.commitIndex =
        if n.commitIndex < req.leaderCommit then
          min (n.handleAppendEntries req).2.lastLogIndex req.leaderCommit
        else n.commitIndex := by
  have hcurrent := n.followLeader_currentTerm (not_lt.mpr hterm) req.leaderId
  obtain ⟨hbase, hlog, hcommit⟩ : (n.followLeader req.term req.leaderId).lastIncludedIndex =
        n.lastIncludedIndex ∧ (n.followLeader req.term req.leaderId).log = n.log ∧
      (n.followLeader req.term req.leaderId).commitIndex = n.commitIndex := by
    obtain ⟨_, _, _, hfollow⟩ := n.followLeader_frame req.term req.leaderId
    rw [hfollow]
    exact ⟨rfl, rfl, rfl⟩
  have hcheck : (n.followLeader req.term req.leaderId).conflict req.prevLogIndex
      req.prevLogTerm = none := by
    obtain ⟨hle, hheld⟩ := conflict_none_cases hpass
    refine conflict_eq_none ?_ ?_
    · unfold lastLogIndex at hle ⊢
      rw [hbase, hlog]
      exact hle
    · rw [termHeld_congr hbase hlog]
      exact hheld
  have hhandle : (n.handleAppendEntries req).2 =
      (n.followLeader req.term req.leaderId).acceptEntries req := by
    unfold handleAppendEntries
    rw [if_neg (not_lt.mpr hterm)]
    unfold checkAndAccept
    rw [hcheck]
  obtain ⟨-, -, hterm', hcommit'⟩ := (n.followLeader req.term req.leaderId).acceptEntries_frame req
  rw [hhandle, hterm', hcurrent, hcommit', hcommit]
  refine ⟨?_, rfl, rfl⟩
  have haccepts : (n.followLeader req.term req.leaderId).Accepts
      ((n.followLeader req.term req.leaderId).acceptEntries req) req :=
    accepts_acceptEntries (hlog ▸ hne) (by rw [hbase, hlog]; exact haligned) hentries hcheck
  exact haccepts.congr hbase hlog

/-- The rule for `AppendEntries` under compaction.  Let the log be numbered from the
baseline on, and a request that is not stale pass the consistency check.  If the log lacks
no entry of the request, it stays as it is.  If `entry` is the first that it lacks, the log
keeps what is below that index and goes on with `entry` and all behind it.  In any case the
numbering and the entry of the baseline stay, and handling the request again changes
neither the log nor the commit index. -/
theorem handleAppendEntries_rule (hne : n.log ≠ [])
    (haligned : Consecutive n.lastIncludedIndex n.log)
    (hentries : Consecutive (req.prevLogIndex + 1) req.entries)
    (hterm : n.currentTerm ≤ req.term)
    (hpass : n.conflict req.prevLogIndex req.prevLogTerm = none) :
    ((∀ entry ∈ req.entries, ¬ n.Lacks entry) → (n.handleAppendEntries req).2.log = n.log) ∧
    (∀ old entry rest, req.entries = old ++ entry :: rest → (∀ e ∈ old, ¬ n.Lacks e) →
      n.Lacks entry → (n.handleAppendEntries req).2.log =
        n.log.take (entry.index - n.lastIncludedIndex) ++ entry :: rest) ∧
    (n.handleAppendEntries req).2.lastIncludedIndex = n.lastIncludedIndex ∧
    Consecutive n.lastIncludedIndex (n.handleAppendEntries req).2.log ∧
    (n.handleAppendEntries req).2.log.head? = n.log.head? ∧
    ((n.handleAppendEntries req).2.handleAppendEntries req).2.log =
      (n.handleAppendEntries req).2.log ∧
    ((n.handleAppendEntries req).2.handleAppendEntries req).2.commitIndex =
      (n.handleAppendEntries req).2.commitIndex := by
  obtain ⟨haccepts, hcurrent, hcommit⟩ :=
    accepts_handleAppendEntries hne haligned hentries hterm hpass
  obtain ⟨hne', haligned'⟩ := haccepts.aligned
  obtain ⟨hagain, -, hcommit'⟩ :=
    accepts_handleAppendEntries hne' haligned' hentries hcurrent.le haccepts.passes
  have hlog := hagain.same haccepts.held
  refine ⟨haccepts.same, haccepts.spliced, haccepts.base, haccepts.base ▸ haligned',
    haccepts.first, hlog, ?_⟩
  -- the second time the commit index is where the first put it, or not below the leader's
  have hlast : ((n.handleAppendEntries req).2.handleAppendEntries req).2.lastLogIndex =
      (n.handleAppendEntries req).2.lastLogIndex := by
    unfold lastLogIndex
    rw [hlog, hagain.base]
  rw [hcommit', hlast]
  split
  · next hbehind =>
      split at hcommit
      · exact hcommit.symm
      · omega
  · rfl

end Loop

/-- A log with its front compacted away. -/
def compactedNode : Node MemState :=
  { newNode ⟨"b", ["a", "c"]⟩ PersistentState.fresh with
    currentTerm := 1
    log := [⟨5, 1, []⟩, ⟨6, 1, [6]⟩, ⟨7, 1, [7]⟩, ⟨8, 1, [8]⟩]
    lastIncludedIndex := 5
    lastIncludedTerm := 1
    commitIndex := 6 }

/-- It starts below the baseline, agrees up to index 6 and differs from there on. -/
def overlappingRequest : AppendEntriesRequest :=
  ⟨2, "a", 3, 1, [⟨4, 1, [4]⟩, ⟨5, 1, [5]⟩, ⟨6, 1, [6]⟩, ⟨7, 2, [70]⟩], 7⟩

theorem handleAppendEntries_rule_overlapping :
    (compactedNode.handleAppendEntries overlappingRequest).2.log =
        [⟨5, 1, []⟩, ⟨6, 1, [6]⟩, ⟨7, 2, [70]⟩] ∧
      ((compactedNode.handleAppendEntries overlappingRequest).2.handleAppendEntries
          overlappingRequest).2.log =
        (compactedNode.handleAppendEntries overlappingRequest).2.log := by
  obtain ⟨-, hspliced, -, -, -, hagain, -⟩ :=
    @handleAppendEntries_rule MemState _ compactedNode overlappingRequest (by decide) (by decide)
      (by decide) (by decide) (by decide)
  refine ⟨?_, hagain⟩
  exact hspliced [⟨4, 1, [4]⟩, ⟨5, 1, [5]⟩, ⟨6, 1, [6]⟩] ⟨7, 2, [70]⟩ [] rfl (by decide) (by decide)

end Node

end RaftKV.Raft
