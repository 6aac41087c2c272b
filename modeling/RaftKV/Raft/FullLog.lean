import RaftKV.Raft.HardState
import RaftKV.Consensus.Protocol

/-!
# The full log behind a compacted one

A node keeps the entries above its baseline, behind one entry that stands for the
baseline itself.  `Node.Holds n l` says that `l` is the log the node would have
had it never compacted, entry `i` at position `i - 1`.  The lemmas of this module
say what the functions of the node compute in terms of `l`; nothing after them
reads a position of `log` again.
-/

namespace RaftKV.Raft

open Consensus (overwrite)

/-- The term at Raft index `i` of a full log, `0` at index `0`. -/
def termAt (l : List LogEntry) (i : ℕ) : ℕ :=
  ((l.take i).getLast?.map LogEntry.term).getD 0

@[simp] theorem termAt_zero (l : List LogEntry) : termAt l 0 = 0 := rfl

theorem termAt_succ {l : List LogEntry} {i : ℕ} {e : LogEntry} (h : l[i]? = some e) :
    termAt l (i + 1) = e.term := by
  rw [termAt, List.take_add_one, h]
  simp

theorem termAt_take {l l' : List LogEntry} {i : ℕ} (h : l.take i = l'.take i) :
    termAt l i = termAt l' i := by
  rw [termAt, h]
  rfl

theorem termAt_append {l : List LogEntry} {i : ℕ} (hi : i ≤ l.length) (es : List LogEntry) :
    termAt (l ++ es) i = termAt l i :=
  termAt_take (List.take_append_of_le_length hi)

theorem termAt_of_take {i j : ℕ} (hij : i ≤ j) (l : List LogEntry) :
    termAt (l.take j) i = termAt l i :=
  termAt_take (by rw [List.take_take, Nat.min_eq_left hij])

/-- Taking from a common part. -/
theorem take_eq_of_le {l l' : List LogEntry} {i j : ℕ} (h : l.take j = l'.take j) (hij : i ≤ j) :
    l.take i = l'.take i := by
  have := congrArg (List.take i) h
  rwa [List.take_take, List.take_take, Nat.min_eq_left hij] at this

/-- `log`, with baseline `b`, is what is left of the full log `l`. -/
structure TailOf (l : List LogEntry) (b : ℕ) (log : List LogEntry) : Prop where
  le : b ≤ l.length
  shape : ∃ first : LogEntry, log = first :: l.drop b ∧ first.index = b ∧
    first.term = termAt l b ∧ (b = 0 → first = LogEntry.sentinel 0 0)

namespace TailOf

variable {l log : List LogEntry} {b : ℕ}

theorem length (h : TailOf l b log) : log.length = l.length - b + 1 := by
  obtain ⟨first, rfl, -⟩ := h.shape
  simp

/-- Above the baseline the log holds the entries of the full log. -/
theorem getElem?_above (h : TailOf l b log) {i : ℕ} (hi : b < i) :
    log[i - b]? = l[i - 1]? := by
  obtain ⟨first, rfl, -⟩ := h.shape
  obtain ⟨j, rfl⟩ : ∃ j, i = b + j + 1 := ⟨i - b - 1, by omega⟩
  have hpos : b + j + 1 - b = j + 1 := by omega
  rw [hpos, List.getElem?_cons_succ, List.getElem?_drop]
  rfl

theorem term_eq (h : TailOf l b log) {i : ℕ} (hi : b ≤ i) {e : LogEntry}
    (he : log[i - b]? = some e) : e.term = termAt l i := by
  rcases Nat.eq_or_lt_of_le hi with rfl | hlt
  · obtain ⟨first, rfl, -, hterm, -⟩ := h.shape
    rw [Nat.sub_self, List.getElem?_cons_zero, Option.some.injEq] at he
    exact he ▸ hterm
  · rw [h.getElem?_above hlt] at he
    obtain ⟨j, rfl⟩ : ∃ j, i = j + 1 := ⟨i - 1, by omega⟩
    exact (termAt_succ he).symm

theorem append (h : TailOf l b log) (es : List LogEntry) : TailOf (l ++ es) b (log ++ es) := by
  obtain ⟨first, rfl, hindex, hterm, hzero⟩ := h.shape
  refine ⟨by rw [List.length_append]; exact le_trans h.le (Nat.le_add_right _ _), first, ?_, hindex,
    ?_, hzero⟩
  · rw [List.drop_append_of_le_length h.le, List.cons_append]
  · rw [hterm, termAt_append h.le]

/-- Cutting the log above the baseline cuts the full log. -/
theorem take (h : TailOf l b log) {i : ℕ} (hi : b < i) :
    TailOf (l.take (i - 1)) b (log.take (i - b)) := by
  obtain ⟨first, rfl, hindex, hterm, hzero⟩ := h.shape
  obtain ⟨j, rfl⟩ : ∃ j, i = b + j + 1 := ⟨i - b - 1, by omega⟩
  have hpos : b + j + 1 - b = j + 1 := by omega
  have hlen : b ≤ (l.take (b + j + 1 - 1)).length := by
    rw [List.length_take]
    have := h.le
    omega
  refine ⟨hlen, first, ?_, hindex, ?_, hzero⟩
  · rw [hpos, List.take_succ_cons, List.drop_take]
    congr 2
    omega
  · rw [hterm, termAt_of_take (by omega)]

/-- Raising the baseline of a log that holds the new baseline entry. -/
theorem drop (h : TailOf l b log) {i : ℕ} (hi : b < i) {e : LogEntry} (he : l[i - 1]? = some e)
    (hindex : e.index = i) : TailOf l i (log.drop (i - b)) := by
  have hlt : i - 1 < l.length := (List.getElem?_eq_some_iff.mp he).1
  have hget := h.getElem?_above hi
  rw [he] at hget
  obtain ⟨first, rfl, -⟩ := h.shape
  obtain ⟨hpos, hget⟩ := List.getElem?_eq_some_iff.mp hget
  refine ⟨by omega, e, ?_, hindex, ?_, fun h0 => by omega⟩
  · rw [List.drop_eq_getElem_cons hpos, hget]
    congr 1
    rw [List.drop_succ_cons, List.drop_drop]
    congr 1
    omega
  · obtain ⟨j, rfl⟩ : ∃ j, i = j + 1 := ⟨i - 1, by omega⟩
    exact (termAt_succ he).symm

/-- A log that ends at its baseline. -/
theorem sentinel (hl : 0 < l.length) :
    TailOf l l.length [LogEntry.sentinel l.length (termAt l l.length)] := by
  refine ⟨le_rfl, LogEntry.sentinel l.length (termAt l l.length), ?_, rfl, rfl,
    fun h0 => by omega⟩
  rw [List.drop_length]

end TailOf

variable {σ : Type}

/-- The node holds the full log `l` above its baseline, and knows the baseline's
term. -/
structure Node.Holds (n : Node σ) (l : List LogEntry) : Prop where
  tail : TailOf l n.lastIncludedIndex n.log
  baseTerm : n.lastIncludedTerm = termAt l n.lastIncludedIndex

namespace Node.Holds

variable {n : Node σ} {l : List LogEntry}

theorem congr {n' : Node σ} (h : n.Holds l) (hbase : n'.lastIncludedIndex = n.lastIncludedIndex)
    (hterm : n'.lastIncludedTerm = n.lastIncludedTerm) (hlog : n'.log = n.log) : n'.Holds l := by
  refine ⟨?_, ?_⟩
  · rw [hbase, hlog]
    exact h.tail
  · rw [hterm, hbase]
    exact h.baseTerm

theorem lastLogIndex_eq (h : n.Holds l) : n.lastLogIndex = l.length := by
  have := h.tail.le
  unfold lastLogIndex
  rw [h.tail.length]
  omega

theorem lastLogTerm_eq (h : n.Holds l) : n.lastLogTerm = termAt l l.length := by
  unfold lastLogTerm
  obtain ⟨first, hlog, -, hterm, -⟩ := h.tail.shape
  rcases List.eq_nil_or_concat (l.drop n.lastIncludedIndex) with hnil | ⟨front, e, hconcat⟩
  · have hle := List.drop_eq_nil_iff.mp hnil
    have := h.tail.le
    have heq : n.lastIncludedIndex = l.length := by omega
    rw [hlog, hnil]
    simp only [List.getLast?_singleton]
    rw [hterm, heq]
  · rw [List.concat_eq_append] at hconcat
    have hl : l = l.take n.lastIncludedIndex ++ front ++ [e] := by
      rw [List.append_assoc, ← hconcat, List.take_append_drop]
    have hlast : l.getLast? = some e := by
      rw [hl]
      simp
    rw [hlog, hconcat, ← List.cons_append]
    simp only [List.getLast?_append, List.getLast?_singleton, Option.some_or]
    rw [termAt, List.take_length, hlast]
    rfl

theorem logPos_eq (h : n.Holds l) {i : ℕ} (hle : n.lastIncludedIndex ≤ i) (hi : i ≤ l.length) :
    ∃ pos : Fin n.log.length, n.logPos i = some pos := by
  have hlt : i - n.lastIncludedIndex < n.log.length := by
    rw [h.tail.length]
    omega
  refine ⟨⟨_, hlt⟩, ?_⟩
  unfold logPos
  rw [if_neg (by omega), dif_pos hlt]

/-- What a successful `logPos` says. -/
theorem logPos_some (h : n.Holds l) {i : ℕ} {pos : Fin n.log.length}
    (hpos : n.logPos i = some pos) : n.lastIncludedIndex ≤ i ∧ i ≤ l.length ∧
      (pos : ℕ) = i - n.lastIncludedIndex ∧ (n.log.get pos).term = termAt l i ∧
      (n.lastIncludedIndex < i → l[i - 1]? = some (n.log.get pos)) := by
  obtain ⟨hle, hlast, hval⟩ := logPos_bounds hpos
  have hget : n.log[i - n.lastIncludedIndex]? = some (n.log.get pos) := by
    rw [← hval, List.getElem?_eq_getElem pos.isLt]
    rfl
  refine ⟨hle, ?_, hval, h.tail.term_eq hle hget, fun hlt => ?_⟩
  · rwa [h.lastLogIndex_eq] at hlast
  · rw [← h.tail.getElem?_above hlt, hget]

theorem logPos_none (h : n.Holds l) {i : ℕ} (hpos : n.logPos i = none) :
    i < n.lastIncludedIndex ∨ l.length < i := by
  by_contra hne
  rw [not_or, not_lt, not_lt] at hne
  obtain ⟨pos, hsome⟩ := h.logPos_eq hne.1 hne.2
  rw [hsome] at hpos
  simp at hpos

/-! ## Delivering entries -/

/-- The entries `advanceCommitTo` looks up are those between the two commit
points. -/
theorem notified (h : n.Holds l) {m : ℕ} (hm : m ≤ l.length)
    (hle : n.lastIncludedIndex ≤ n.commitIndex) :
    (List.range' (n.commitIndex + 1) (m - n.commitIndex)).filterMap
      (fun i => (n.logPos i).map n.log.get) = (l.take m).drop n.commitIndex := by
  have hget : ∀ i, n.commitIndex < i → i ≤ m →
      (n.logPos i).map n.log.get = l[i - 1]? := by
    intro i hlt hi
    obtain ⟨pos, hpos⟩ := h.logPos_eq (i := i) (by omega) (by omega)
    rw [hpos, (h.logPos_some hpos).2.2.2.2 (by omega)]
    rfl
  generalize hc : n.commitIndex = k at hget hle
  -- induction on the number of entries, from the front
  obtain ⟨count, hcount⟩ : ∃ count, m - k = count := ⟨_, rfl⟩
  rw [hcount]
  clear hc hle
  induction count generalizing k with
  | zero =>
      have hnil : (l.take m).drop k = [] := by
        rw [List.drop_eq_nil_iff, List.length_take]
        omega
      rw [hnil]
      rfl
  | succ count ih =>
      have hlt : k < (l.take m).length := by
        rw [List.length_take]
        omega
      have hfirst : l[k]? = some (l.take m)[k] := by
        rw [List.getElem_take]
        exact List.getElem?_eq_getElem _
      rw [List.range'_succ, List.filterMap_cons, hget (k + 1) (by omega) (by omega),
        Nat.add_sub_cancel, hfirst, List.drop_eq_getElem_cons hlt]
      simp only
      rw [ih (k + 1) (fun i hi => hget i (by omega)) (by omega)]

theorem advanceCommitTo_eq (h : n.Holds l) {m : ℕ} (hm : m ≤ l.length)
    (hle : n.lastIncludedIndex ≤ n.commitIndex) :
    n.advanceCommitTo m = { n with
      commitIndex := m
      applyCh := n.applyCh ++ ((l.take m).drop n.commitIndex).map .command
      events := n.events ++
        (((l.take m).drop n.commitIndex).map .command).map Event.applied } := by
  unfold advanceCommitTo
  simp only [h.notified hm hle]
  rfl

end Node.Holds

/-! ## The append loop -/

/-- The append loop on a full log with baseline `b`. -/
def merge (b : ℕ) (l : List LogEntry) (idx : ℕ) : List LogEntry → List LogEntry
  | [] => l
  | entry :: rest =>
      if idx ≤ b then merge b l (idx + 1) rest
      else if l.length < idx then merge b (l ++ [entry]) (idx + 1) rest
      else if termAt l idx ≠ entry.term then merge b (l.take (idx - 1) ++ [entry]) (idx + 1) rest
      else merge b l (idx + 1) rest

/-- From its end on, a log just grows. -/
theorem merge_append {b k : ℕ} {l : List LogEntry} (hb : b ≤ k) (hk : l.length = k)
    (es : List LogEntry) : merge b l (k + 1) es = l ++ es := by
  induction es generalizing l k with
  | nil => simp [merge]
  | cons entry rest ih =>
      rw [merge, if_neg (by omega), if_pos (by omega), ih (by omega) (by simp [hk])]
      simp

/-- Where logs with one index and term in common agree up to it, merging a part
`P.drop k` into a log that agrees with `P` up to `k` is taking over `P`. -/
theorem merge_eq_overwrite {b k : ℕ} {l P : List LogEntry} (hk : k ≤ l.length)
    (hagree : l.take k = P.take k) (hbase : ∀ j ≤ b, j ≤ P.length → l.take j = P.take j)
    (hmatch : ∀ j, j ≤ l.length → j ≤ P.length → termAt l j = termAt P j → l.take j = P.take j) :
    merge b l (k + 1) (P.drop k) = overwrite l P := by
  obtain ⟨es, hes⟩ : ∃ es, P.drop k = es := ⟨_, rfl⟩
  rw [hes]
  -- induction on the remaining entries; the log is unchanged as long as they are skipped
  induction es generalizing k with
  | nil =>
      have hle : P.length ≤ k := List.drop_eq_nil_iff.mp hes
      rw [List.take_of_length_le hle] at hagree
      exact (Consensus.overwrite_of_extends (hagree ▸ List.take_prefix _ _)).symm
  | cons entry rest ih =>
      have hlt : k < P.length := by
        by_contra hge
        rw [List.drop_eq_nil_of_le (not_lt.mp hge)] at hes
        simp at hes
      rw [List.drop_eq_getElem_cons hlt] at hes
      obtain ⟨hentry, hrest⟩ := List.cons.inj hes
      have hget : P[k]? = some entry := by rw [List.getElem?_eq_getElem hlt, hentry]
      have hterm : termAt P (k + 1) = entry.term := termAt_succ hget
      -- the log that ends with the first entry that is not skipped
      have hgrow : ∀ front : List LogEntry, b ≤ k → front = l.take k → ¬ P <+: l →
          merge b (front ++ [entry]) (k + 1 + 1) rest = overwrite l P := by
        intro front hb hfront hnot
        have hlen : (front ++ [entry]).length = k + 1 := by
          rw [hfront, List.length_append, List.length_take, Nat.min_eq_left hk]
          rfl
        rw [merge_append (by omega) hlen, Consensus.overwrite_of_not_extends hnot, hfront, hagree,
          ← hrest, List.append_assoc, ← hentry, List.singleton_append,
          ← List.drop_eq_getElem_cons hlt, List.take_append_drop]
      rw [merge]
      split
      · next hle => -- at or below the baseline
          have hnext := hbase (k + 1) hle hlt
          refine ih ?_ hnext hrest
          have := congrArg List.length hnext
          rw [List.length_take, List.length_take] at this
          omega
      · next hgt =>
          split
          · next hshort => -- beyond the end of the log
              refine hgrow l (by omega) (List.take_of_length_le (by omega)).symm fun hpre => ?_
              have := hpre.length_le
              omega
          · next hin =>
              split
              · next hne => -- conflict
                  rw [Nat.add_sub_cancel]
                  refine hgrow _ (by omega) rfl fun hpre => hne ?_
                  rw [← hterm]
                  apply termAt_take
                  rw [List.prefix_iff_eq_take.mp hpre, List.take_take, Nat.min_eq_left hlt]
              · next heq => -- already there
                  have hnext := hmatch (k + 1) (by omega) hlt (by rw [hterm]; exact not_not.mp heq)
                  exact ih (by omega) hnext hrest

namespace Node

variable [PersistentState σ]

/-- The append loop is `merge` on the full log. -/
theorem Holds.appendNew {n : Node σ} {l : List LogEntry} (h : n.Holds l) {idx : ℕ}
    (hidx : idx ≤ l.length + 1) (es : List LogEntry) :
    (n.appendNew idx es).Holds (merge n.lastIncludedIndex l idx es) := by
  induction es generalizing n l idx with
  | nil => exact h
  | cons entry rest ih =>
      rw [Node.appendNew, merge]
      split
      · next hle =>
          have := h.tail.le
          exact ih h (by omega)
      · next hgt =>
          split
          · next hpos =>
              have hlong := (h.logPos_none hpos).resolve_left (by omega)
              rw [if_pos hlong]
              refine ih (n := { n with log := n.log ++ [entry] })
                ⟨h.tail.append [entry], ?_⟩ (by simp; omega)
              exact h.baseTerm.trans (termAt_append h.tail.le _).symm
          · next pos hpos =>
              obtain ⟨-, hle, hval, hterm, -⟩ := h.logPos_some hpos
              rw [if_neg (not_lt.mpr hle)]
              split
              · next hne =>
                  have hcut := h.tail.take (i := idx) (by omega)
                  rw [← hval] at hcut
                  rw [if_pos (hterm ▸ hne)]
                  refine ih (n := { n with
                    log := n.log.take pos ++ [entry]
                    storage := (truncateSuffix (idx - 1) n.storage).2 })
                    ⟨hcut.append [entry], ?_⟩ (by simp; omega)
                  rw [termAt_append hcut.le, termAt_of_take (by omega)]
                  exact h.baseTerm
              · next heq =>
                  rw [if_neg (hterm ▸ heq)]
                  exact ih h (by omega)

omit [PersistentState σ] in
theorem firstIndexOfTerm_le (n : Node σ) (conflictTerm k : ℕ) :
    n.firstIndexOfTerm conflictTerm k ≤ k := by
  fun_induction firstIndexOfTerm n conflictTerm k with
  | case1 => exact le_rfl
  | case2 => exact le_rfl
  | case3 => exact le_rfl
  | case4 k _ _ _ _ ih => exact Nat.le_succ_of_le ih
  | case5 => exact le_rfl

omit [PersistentState σ] in
/-- The conflict index never lies above the index that was asked about. -/
theorem Holds.conflict_some {n : Node σ} {l : List LogEntry} (h : n.Holds l)
    {prev prevTerm i t : ℕ} (hc : n.conflict prev prevTerm = some (i, t)) : i ≤ prev := by
  unfold conflict at hc
  split at hc
  · split at hc
    · next hlong =>
        rw [h.lastLogIndex_eq] at hlong hc
        simp only [Option.some.injEq, Prod.mk.injEq] at hc
        omega
    · split at hc
      · simp at hc
      · split at hc
        · simp only [Option.some.injEq, Prod.mk.injEq] at hc
          exact hc.1 ▸ n.firstIndexOfTerm_le _ _
        · simp at hc
  · simp at hc

omit [PersistentState σ] in
/-- What passes the consistency check: an index below the baseline, or one where
the log has the given term. -/
theorem Holds.conflict_none {n : Node σ} {l : List LogEntry} (h : n.Holds l)
    {prev prevTerm : ℕ} (hc : n.conflict prev prevTerm = none) : prev ≤ l.length ∧
      (prev < n.lastIncludedIndex ∨ prev = 0 ∨ termAt l prev = prevTerm) := by
  unfold conflict at hc
  split at hc
  · split at hc
    · simp at hc
    · next hle =>
        rw [h.lastLogIndex_eq] at hle
        split at hc
        · next hpos => exact ⟨by omega, .inl ((h.logPos_none hpos).resolve_right (by omega))⟩
        · next pos hpos =>
            split at hc
            · simp at hc
            · next hterm =>
                rw [(h.logPos_some hpos).2.2.2.1] at hterm
                exact ⟨by omega, .inr (.inr (not_not.mp hterm))⟩
  · next hzero => exact ⟨by omega, .inr (.inl (by omega))⟩

/-! ## The leader's side -/

omit [PersistentState σ] in
theorem Holds.drop_log {n : Node σ} {l : List LogEntry} (h : n.Holds l) {i : ℕ}
    (hi : n.lastIncludedIndex < i) :
    n.log.drop (i - n.lastIncludedIndex) = l.drop (i - 1) := by
  obtain ⟨first, hlog, -⟩ := h.tail.shape
  obtain ⟨j, rfl⟩ : ∃ j, i = n.lastIncludedIndex + j + 1 := ⟨i - n.lastIncludedIndex - 1, by omega⟩
  have hpos : n.lastIncludedIndex + j + 1 - n.lastIncludedIndex = j + 1 := by omega
  rw [hlog, hpos, List.drop_succ_cons, List.drop_drop]
  rfl

omit [PersistentState σ] in
theorem Holds.entriesFrom_eq {n : Node σ} {l : List LogEntry} (h : n.Holds l) {i : ℕ}
    (hi : n.lastIncludedIndex < i) : n.entriesFrom i = l.drop (i - 1) := by
  unfold entriesFrom
  rw [h.lastLogIndex_eq]
  split
  · next hle =>
      obtain ⟨pos, hpos⟩ := h.logPos_eq hi.le hle
      rw [hpos]
      simp only
      rw [(h.logPos_some hpos).2.2.1, h.drop_log hi]
  · rw [List.drop_eq_nil_of_le (by omega)]

omit [PersistentState σ] in
theorem Holds.termBefore_eq {n : Node σ} {l : List LogEntry} (h : n.Holds l) {i : ℕ}
    (hi : n.lastIncludedIndex ≤ i) (hle : i ≤ l.length) : n.termBefore i = termAt l i := by
  unfold termBefore
  split
  · obtain ⟨pos, hpos⟩ := h.logPos_eq hi hle
    rw [hpos]
    exact (h.logPos_some hpos).2.2.2.1
  · next hzero => rw [Nat.eq_zero_of_not_pos hzero, termAt_zero]

omit [PersistentState σ] in
/-- The request `replicateToPeer` builds: everything from `nextIndex` on. -/
theorem Holds.replicateToPeer_append {n : Node σ} {l : List LogEntry} (h : n.Holds l)
    {peer : NodeId} {req : AppendEntriesRequest}
    (hnext : n.nextIndex.get peer ≤ l.length + 1)
    (hreq : n.replicateToPeer peer = .appendEntries req) : n.role = .leader ∧
      req.prevLogIndex ≤ l.length ∧
      req = ⟨n.currentTerm, n.cfg.id, req.prevLogIndex, termAt l req.prevLogIndex,
        l.drop req.prevLogIndex, n.commitIndex⟩ := by
  obtain ⟨hleader, habove, heq⟩ := replicateToPeer_appendEntries hreq
  have hle : n.nextIndex.get peer - 1 ≤ l.length := by omega
  rw [h.entriesFrom_eq (by omega), h.termBefore_eq (by omega) hle] at heq
  subst heq
  exact ⟨hleader, hle, rfl⟩

omit [PersistentState σ] in
theorem nextAfterTerm_le {n : Node σ} {conflictTerm newNext bound : ℕ}
    (hnew : newNext ≤ bound + 1) (k : ℕ) (hk : k ≤ bound) :
    n.nextAfterTerm conflictTerm newNext k ≤ bound + 1 := by
  fun_induction nextAfterTerm n conflictTerm newNext k with
  | case1 => exact hnew
  | case2 i _ _ ih => exact ih (by omega)
  | case3 i _ _ _ _ => omega
  | case4 i _ _ _ _ ih => exact ih (by omega)
  | case5 => exact hnew

omit [PersistentState σ] in
/-- After a rejection `nextIndex` stays within the leader's log. -/
theorem Holds.backUp_bounds {n : Node σ} {l : List LogEntry} (h : n.Holds l)
    {resp : AppendEntriesResponse} (hresp : resp.conflictIndex ≤ l.length + 1) :
    1 ≤ n.backUp resp ∧ n.backUp resp ≤ l.length + 1 := by
  have hbase := h.tail.le
  have hnext : n.hintedNext resp ≤ l.length + 1 := by
    unfold hintedNext
    split
    · exact nextAfterTerm_le hresp _ (h.lastLogIndex_eq ▸ le_rfl)
    · exact hresp
  unfold backUp
  split
  · omega
  · omega

/-! ## Snapshots -/

/-- `CompactLog` changes the storage only, or moves the baseline up to a committed
index. -/
theorem compactLog_cases (n : Node σ) (data : Bytes) (index term : ℕ) :
    ∃ storage, (n.compactLog data index term).2 = { n with storage := storage } ∨
      (n.lastIncludedIndex < index ∧ index ≤ n.commitIndex ∧
        (n.compactLog data index term).2 = { n with
          storage := storage
          log := n.compacted index term
          lastIncludedIndex := index
          lastIncludedTerm := term }) := by
  unfold compactLog
  split
  · exact ⟨n.storage, .inl rfl⟩
  · next hnew =>
      split
      · exact ⟨n.storage, .inl rfl⟩
      · next hcommitted =>
          split
          · next storage _ => exact ⟨storage, .inl rfl⟩
          · split
            · next storage _ => exact ⟨storage, .inl rfl⟩
            · next storage _ => exact ⟨storage, .inr ⟨by omega, by omega, rfl⟩⟩

omit [PersistentState σ] in
/-- Compaction at an index the log holds, with that entry's term. -/
theorem Holds.compacted {n : Node σ} {l : List LogEntry} (h : n.Holds l) {index : ℕ}
    (hindex : n.lastIncludedIndex < index) {e : LogEntry} (he : l[index - 1]? = some e)
    (heindex : e.index = index) : TailOf l index (n.compacted index e.term) := by
  have hlt : index - 1 < l.length := (List.getElem?_eq_some_iff.mp he).1
  obtain ⟨pos, hpos⟩ := h.logPos_eq hindex.le (by omega)
  unfold Node.compacted
  rw [hpos]
  simp only
  rw [(h.logPos_some hpos).2.2.1]
  exact h.tail.drop hindex he heindex

end Node

end RaftKV.Raft
