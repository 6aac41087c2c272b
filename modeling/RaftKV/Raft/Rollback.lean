import RaftKV.Raft.Durability
import Mathlib.Logic.Relation

/-!
# Backing up `nextIndex`

One leader and one follower, alone: `replicateToPeer` builds a request, the
follower's `HandleAppendEntries` answers it, the leader processes the answer and
retries at once if it was a rejection.  `Exchange.round` is one such round,
`Exchange.rounds` the recursion.

What a log holds is read through `Node.termHeld`, the term at an index that
`logPos` finds; the entry that stands for the baseline counts as held.

* A rejected round moves `nextIndex` down as long as the follower reaches the
  leader's baseline (`Rollback.retry_lt`).  The follower's hint is its own first
  index of the conflicting term, and the leader's last index of that term is below
  the index that was asked about, because entries of one term come from one leader.
* An accepted round brings the follower's terms in line with the leader's
  (`Rollback.accepted`): above the index that was asked about by the append loop
  (`appendNew_held`), up to it by Log Matching.
* Where the follower ends below the leader's baseline the clamp of `backUp` keeps
  `nextIndex` one above the baseline, and the snapshot branch asks for an index at
  or below it (`Exchange.stuck`).
-/

namespace RaftKV.Raft

variable {σ : Type}

namespace Node

/-! ## The terms a log holds -/

/-- The term at Raft index `i`, if the log holds that index. -/
def termHeld (n : Node σ) (i : ℕ) : Option ℕ :=
  (n.logPos i).map fun pos => (n.log.get pos).term

theorem termHeld_eq (n : Node σ) (i : ℕ) : n.termHeld i =
    if i < n.lastIncludedIndex then none
    else n.log[i - n.lastIncludedIndex]?.map LogEntry.term := by
  unfold termHeld logPos
  split
  · rfl
  · split
    · next hlt => simp [List.getElem?_eq_getElem hlt]
    · next hge => simp [List.getElem?_eq_none (not_lt.mp hge)]

theorem termHeld_of_le {n : Node σ} {i : ℕ} (h : n.lastIncludedIndex ≤ i) :
    n.termHeld i = n.log[i - n.lastIncludedIndex]?.map LogEntry.term := by
  rw [termHeld_eq, if_neg (not_lt.mpr h)]

/-- Reading the term at a position that `logPos` found. -/
theorem termHeld_of_logPos {n : Node σ} {i : ℕ} {pos : Fin n.log.length}
    (h : n.logPos i = some pos) : n.termHeld i = some (n.log.get pos).term := by
  rw [termHeld, h]
  rfl

theorem logPos_of_termHeld {n : Node σ} {i t : ℕ} (h : n.termHeld i = some t) :
    ∃ pos, n.logPos i = some pos ∧ (n.log.get pos).term = t := by
  unfold termHeld at h
  exact Option.map_eq_some_iff.mp h

/-- A log with an entry for its baseline holds everything from there to its end. -/
theorem exists_termHeld {n : Node σ} (hne : n.log ≠ []) {i : ℕ} (hle : n.lastIncludedIndex ≤ i)
    (hi : i ≤ n.lastLogIndex) : ∃ t, n.termHeld i = some t := by
  have hlast := lastLogIndex_succ hne
  have hlt : i - n.lastIncludedIndex < n.log.length := by omega
  rw [termHeld_of_le hle, List.getElem?_eq_getElem hlt]
  exact ⟨_, rfl⟩

theorem termHeld_bounds {n : Node σ} {i t : ℕ} (h : n.termHeld i = some t) :
    n.lastIncludedIndex ≤ i ∧ i ≤ n.lastLogIndex := by
  obtain ⟨pos, hpos, -⟩ := logPos_of_termHeld h
  exact ⟨(logPos_bounds hpos).1, (logPos_bounds hpos).2.1⟩

theorem termHeld_congr {n n' : Node σ} (hbase : n'.lastIncludedIndex = n.lastIncludedIndex)
    (hlog : n'.log = n.log) (i : ℕ) : n'.termHeld i = n.termHeld i := by
  rw [termHeld_eq, termHeld_eq, hbase, hlog]

/-- A log that was cut behind its first `k` entries and then got one more. -/
theorem termHeld_of_cut (n n' : Node σ) (k : ℕ) (entry : LogEntry)
    (hbase : n'.lastIncludedIndex = n.lastIncludedIndex)
    (hlog : n'.log = n.log.take k ++ [entry]) (hk : k ≤ n.log.length) :
    n'.lastLogIndex = n.lastIncludedIndex + k ∧
      (∀ i < n.lastIncludedIndex + k, n'.termHeld i = n.termHeld i) ∧
      n'.termHeld (n.lastIncludedIndex + k) = some entry.term := by
  have hcut : (n.log.take k).length = k := by
    rw [List.length_take]
    omega
  refine ⟨?_, fun i hi => ?_, ?_⟩
  · unfold lastLogIndex
    rw [hbase, hlog, List.length_append, hcut]
    rfl
  · rw [termHeld_eq, termHeld_eq, hbase]
    split
    · rfl
    · have hlt : i - n.lastIncludedIndex < k := by omega
      rw [hlog, List.getElem?_append_left (by omega), List.getElem?_take_of_lt hlt]
  · rw [termHeld_of_le (by omega), hbase, Nat.add_sub_cancel_left, hlog,
      List.getElem?_append_right (by omega), hcut, Nat.sub_self]
    rfl

/-! ## The append loop -/

variable [PersistentState σ]

/-- One entry of the append loop: the indices below it are left alone, and above
the baseline the log then holds the entry's term at its index. -/
theorem appendNew_cons (n : Node σ) (hne : n.log ≠ []) {idx : ℕ} (hidx : idx ≤ n.lastLogIndex + 1)
    (entry : LogEntry) (rest : List LogEntry) :
    ∃ n' : Node σ, n.appendNew idx (entry :: rest) = n'.appendNew (idx + 1) rest ∧
      n'.log ≠ [] ∧ n'.lastIncludedIndex = n.lastIncludedIndex ∧ idx ≤ n'.lastLogIndex ∧
      (∀ i, i < idx ∨ i ≤ n.lastIncludedIndex → n'.termHeld i = n.termHeld i) ∧
      (n.lastIncludedIndex < idx → n'.termHeld idx = some entry.term) := by
  have hlast := lastLogIndex_succ hne
  have hbase := base_le_lastLogIndex hne
  rw [appendNew]
  split
  · next hle =>
      exact ⟨n, rfl, hne, rfl, by omega, fun _ _ => rfl, fun hlt => absurd hlt (by omega)⟩
  next hgt =>
  split
  · next hpos => -- the entry lies right behind the end of the log
      have hend : idx = n.lastIncludedIndex + n.log.length := by
        have := end_le_of_logPos hpos (by omega)
        omega
      obtain ⟨hlast', hkeep, hset⟩ := n.termHeld_of_cut
        { n with log := n.log ++ [entry] } n.log.length entry rfl (by rw [List.take_length]) le_rfl
      rw [← hend] at hlast' hkeep hset
      exact ⟨_, rfl, by simp, rfl, hlast'.ge, fun i hi => hkeep i (by omega), fun _ => hset⟩
  · next pos hpos =>
      obtain ⟨-, hle, hval⟩ := logPos_bounds hpos
      split
      · -- conflict: the log is cut in front of the index
        have hidx' : idx = n.lastIncludedIndex + pos := by omega
        obtain ⟨hlast', hkeep, hset⟩ := n.termHeld_of_cut
          { n with
            log := n.log.take pos ++ [entry]
            storage := (truncateSuffix (idx - 1) n.storage).2 } pos entry rfl rfl pos.isLt.le
        rw [← hidx'] at hlast' hkeep hset
        exact ⟨_, rfl, by simp, rfl, hlast'.ge, fun i hi => hkeep i (by omega), fun _ => hset⟩
      · next heq => -- already there
          refine ⟨n, rfl, hne, rfl, hle, fun _ _ => rfl, fun _ => ?_⟩
          rw [termHeld_of_logPos hpos, not_not.mp heq]

/-- The append loop: from its first index on the log holds the terms of the
entries, and nothing else has changed below their end. -/
theorem appendNew_held (n : Node σ) (hne : n.log ≠ []) (idx : ℕ) (hidx : idx ≤ n.lastLogIndex + 1)
    (es : List LogEntry) :
    (∀ i, i < idx ∨ i ≤ n.lastIncludedIndex → (n.appendNew idx es).termHeld i = n.termHeld i) ∧
    ∀ k (hk : k < es.length), n.lastIncludedIndex < idx + k →
      (n.appendNew idx es).termHeld (idx + k) = some (es.get ⟨k, hk⟩).term := by
  induction es generalizing n idx with
  | nil => exact ⟨fun _ _ => rfl, fun k hk => absurd hk (Nat.not_lt_zero k)⟩
  | cons entry rest ih =>
      obtain ⟨n', heq, hne', hbase, hlast, hkeep, hset⟩ := n.appendNew_cons hne hidx entry rest
      obtain ⟨hlow, hhigh⟩ := ih n' hne' (idx + 1) (by omega)
      rw [heq]
      refine ⟨fun i hi => ?_, fun k hk habove => ?_⟩
      · rw [hlow i (by omega), hkeep i hi]
      · cases k with
        | zero =>
            rw [hlow _ (by omega), Nat.add_zero, hset habove]
            rfl
        | succ k =>
            have hstep := hhigh k (by simpa using hk) (by omega)
            rw [show idx + (k + 1) = idx + 1 + k by omega, hstep]
            rfl

/-! ## The consistency check -/

omit [PersistentState σ]

/-- The two ways in which the consistency check fails. -/
theorem conflict_some_cases {n : Node σ} {prev prevTerm index term : ℕ}
    (h : n.conflict prev prevTerm = some (index, term)) :
    (n.lastLogIndex < prev ∧ index = n.lastLogIndex + 1 ∧ term = 0) ∨
    (n.termHeld prev = some term ∧ term ≠ prevTerm ∧ 0 < prev ∧ index ≤ prev) := by
  unfold conflict at h
  split at h
  · next hpos =>
      split at h
      · next hlong =>
          simp only [Option.some.injEq, Prod.mk.injEq] at h
          exact .inl ⟨hlong, h.1.symm, h.2.symm⟩
      · split at h
        · simp at h
        · next pos hfound =>
            split at h
            · next hne =>
                simp only [Option.some.injEq, Prod.mk.injEq] at h
                obtain ⟨hindex, hterm⟩ := h
                refine .inr ⟨by rw [termHeld_of_logPos hfound, hterm], hterm ▸ hne, hpos, ?_⟩
                rw [← hindex]
                exact n.firstIndexOfTerm_le _ _
            · simp at h
  · simp at h

/-- What the consistency check lets pass. -/
theorem conflict_none_cases {n : Node σ} {prev prevTerm : ℕ}
    (h : n.conflict prev prevTerm = none) : prev ≤ n.lastLogIndex ∧
      (prev = 0 ∨ ∀ t, n.termHeld prev = some t → t = prevTerm) := by
  unfold conflict at h
  split at h
  · split at h
    · simp at h
    · next hle =>
        refine ⟨not_lt.mp hle, .inr fun t ht => ?_⟩
        obtain ⟨pos, hpos, hterm⟩ := logPos_of_termHeld ht
        rw [hpos] at h
        simp only at h
        split at h
        · simp at h
        · next heq => exact hterm ▸ not_not.mp heq
  · exact ⟨by omega, .inl (by omega)⟩

/-! ## The leader's side -/

/-- The scan for the conflicting term keeps the hint or stops behind an entry of
that term. -/
theorem nextAfterTerm_cases (n : Node σ) (conflictTerm newNext k : ℕ) :
    n.nextAfterTerm conflictTerm newNext k = newNext ∨
    ∃ i, n.termHeld i = some conflictTerm ∧
      n.nextAfterTerm conflictTerm newNext k = i + 1 := by
  fun_induction nextAfterTerm n conflictTerm newNext k with
  | case1 => exact .inl rfl
  | case2 _ _ _ ih => exact ih
  | case3 i _ pos hpos hterm => exact .inr ⟨i + 1, hterm ▸ termHeld_of_logPos hpos, rfl⟩
  | case4 _ _ _ _ _ ih => exact ih
  | case5 => exact .inl rfl

theorem termBefore_of_held {n : Node σ} {i t : ℕ} (h : n.termHeld i = some t) (hi : 0 < i) :
    n.termBefore i = t := by
  obtain ⟨pos, hpos, hterm⟩ := logPos_of_termHeld h
  rw [termBefore, if_pos hi, hpos]
  exact hterm

theorem entriesFrom_length {n : Node σ} (hne : n.log ≠ []) {i : ℕ}
    (hbase : n.lastIncludedIndex < i) (hle : i ≤ n.lastLogIndex + 1) :
    i + (n.entriesFrom i).length = n.lastLogIndex + 1 := by
  have hlast := lastLogIndex_succ hne
  unfold entriesFrom
  split
  · next hin =>
      obtain ⟨t, ht⟩ := exists_termHeld hne hbase.le hin
      obtain ⟨pos, hpos, -⟩ := logPos_of_termHeld ht
      have hval := (logPos_bounds hpos).2.2
      have hlt := pos.isLt
      rw [hpos]
      simp only [List.length_drop]
      omega
  · simp only [List.length_nil]
    omega

/-- The entries that are sent carry the terms of the leader's log. -/
theorem entriesFrom_term {n : Node σ} {i k : ℕ} (hbase : n.lastIncludedIndex < i)
    (hk : k < (n.entriesFrom i).length) :
    n.termHeld (i + k) = some ((n.entriesFrom i).get ⟨k, hk⟩).term := by
  have hget : (n.entriesFrom i)[k]? = some ((n.entriesFrom i).get ⟨k, hk⟩) := by
    rw [List.getElem?_eq_getElem hk]
    rfl
  rw [termHeld_of_le (by omega)]
  generalize (n.entriesFrom i).get ⟨k, hk⟩ = entry at hget ⊢
  unfold entriesFrom at hget
  split at hget
  · split at hget
    · next pos hpos =>
        have hval := (logPos_bounds hpos).2.2
        rw [List.getElem?_drop, hval] at hget
        rw [show i + k - n.lastIncludedIndex = i - n.lastIncludedIndex + k by omega, hget]
        rfl
    · simp at hget
  · simp at hget

end Node

/-! ## The exchange -/

/-- A leader and one of its followers. -/
structure Exchange (σ : Type) where
  leader : Node σ
  follower : Node σ

/-- How a call of `replicateToPeer` ends. -/
inductive Round (σ : Type)
  /-- the node is no leader -/
  | nothing
  /-- `sendSnapshotToPeer` is called -/
  | snapshot
  /-- the answer has a higher term -/
  | steppedDown (ex : Exchange σ)
  | success (ex : Exchange σ)
  /-- the answer is a rejection, and `replicateToPeer` is called again -/
  | retry (ex : Exchange σ)

namespace Exchange

variable [PersistentState σ]

omit [PersistentState σ] in
/-- `nextIndex[peerID]` of the leader. -/
def next (ex : Exchange σ) (peer : NodeId) : ℕ :=
  ex.leader.nextIndex.get peer

/-- One call of `replicateToPeer`, answered by the follower.  Nothing happens
between the request and its answer, so the leader finds itself leader of the
request's term when the answer arrives. -/
def round (ex : Exchange σ) (peer : NodeId) : Round σ :=
  match ex.leader.replicateToPeer peer with
  | .nothing => .nothing
  | .sendSnapshot => .snapshot
  | .appendEntries req =>
      let answer := ex.follower.handleAppendEntries req
      let ex' : Exchange σ := ⟨ex.leader.handleAppendReply peer req answer.1, answer.2⟩
      if answer.1.term > ex.leader.currentTerm then .steppedDown ex'
      else if answer.1.success then .success ex'
      else .retry ex'

/-- At most `k` rounds, as long as the leader retries. -/
def rounds (ex : Exchange σ) (peer : NodeId) : ℕ → Round σ
  | 0 => .retry ex
  | k + 1 =>
      match ex.round peer with
      | .retry ex' => ex'.rounds peer k
      | ended => ended

/-- The states that rejected rounds lead to. -/
def Retries (peer : NodeId) : Exchange σ → Exchange σ → Prop :=
  Relation.ReflTransGen fun ex ex' => ex.round peer = .retry ex'

omit [PersistentState σ] in
/-- What `replicateToPeer` sends above the leader's baseline. -/
def request (ex : Exchange σ) (peer : NodeId) : AppendEntriesRequest where
  term := ex.leader.currentTerm
  leaderId := ex.leader.cfg.id
  prevLogIndex := ex.next peer - 1
  prevLogTerm := ex.leader.termBefore (ex.next peer - 1)
  entries := ex.leader.entriesFrom (ex.next peer)
  leaderCommit := ex.leader.commitIndex

omit [PersistentState σ] in
/-- The follower as it goes into the consistency check. -/
def following (ex : Exchange σ) : Node σ :=
  { ex.follower with role := .follower, leaderID := ex.leader.cfg.id }

/-- The two nodes are leader and follower of one term, and `nextIndex` lies above
the leader's baseline. -/
structure Above (ex : Exchange σ) (peer : NodeId) : Prop where
  role : ex.leader.role = .leader
  term : ex.follower.currentTerm = ex.leader.currentTerm
  next : ex.leader.lastIncludedIndex < ex.next peer

namespace Above

variable {ex : Exchange σ} {peer : NodeId}

omit [PersistentState σ] in
theorem replicateToPeer_eq (h : ex.Above peer) :
    ex.leader.replicateToPeer peer = .appendEntries (ex.request peer) := by
  have hnext : ¬ ex.leader.nextIndex.get peer ≤ ex.leader.lastIncludedIndex := not_le.mpr h.next
  unfold Node.replicateToPeer
  rw [if_neg (not_not.mpr h.role), if_neg hnext]
  rfl

theorem handleAppendEntries_eq (h : ex.Above peer) :
    ex.follower.handleAppendEntries (ex.request peer) =
      ex.following.checkAndAccept (ex.request peer) := by
  have hterm : (ex.request peer).term = ex.follower.currentTerm := h.term.symm
  unfold Node.handleAppendEntries Node.followLeader
  rw [if_neg (by omega), if_neg (by omega)]
  rfl

/-- The leader with the answer of the follower. -/
theorem round_of_answer (h : ex.Above peer) {resp : AppendEntriesResponse} {f : Node σ}
    (hanswer : ex.following.checkAndAccept (ex.request peer) = (resp, f))
    (hresp : resp.term = ex.follower.currentTerm) :
    ex.round peer = if resp.success then
      .success ⟨(ex.leader.recordMatch peer
        (ex.next peer - 1 + (ex.leader.entriesFrom (ex.next peer)).length)).maybeAdvanceCommit, f⟩
    else .retry ⟨{ ex.leader with
      nextIndex := ex.leader.nextIndex.insert peer (ex.leader.backUp resp) }, f⟩ := by
  have hstay : ¬ (ex.leader.role ≠ .leader ∨
      ex.leader.currentTerm ≠ (ex.request peer).term) := by
    simp [h.role, request]
  have hnew : ¬ resp.term > ex.leader.currentTerm := by
    rw [hresp, h.term]
    exact lt_irrefl _
  unfold round
  rw [h.replicateToPeer_eq]
  simp only [h.handleAppendEntries_eq, hanswer, Node.handleAppendReply]
  rw [if_neg hnew, if_neg hnew, if_neg hstay]
  split
  · rfl
  · rfl

/-- The follower rejects. -/
theorem round_of_conflict (h : ex.Above peer) {index term : ℕ}
    (hc : ex.following.conflict (ex.next peer - 1) (ex.leader.termBefore (ex.next peer - 1)) =
      some (index, term)) :
    ex.round peer = .retry ⟨{ ex.leader with
      nextIndex := ex.leader.nextIndex.insert peer
        (ex.leader.backUp ⟨ex.follower.currentTerm, false, 0, term, index⟩) }, ex.following⟩ := by
  have hanswer : ex.following.checkAndAccept (ex.request peer) =
      (⟨ex.follower.currentTerm, false, 0, term, index⟩, ex.following) := by
    rw [Node.checkAndAccept]
    simp only [request, hc]
    rfl
  rw [h.round_of_answer hanswer rfl]
  rfl

/-- The follower accepts. -/
theorem round_of_pass (h : ex.Above peer)
    (hc : ex.following.conflict (ex.next peer - 1) (ex.leader.termBefore (ex.next peer - 1)) =
      none) :
    ex.round peer = .success ⟨(ex.leader.recordMatch peer
      (ex.next peer - 1 + (ex.leader.entriesFrom (ex.next peer)).length)).maybeAdvanceCommit,
      ex.following.acceptEntries (ex.request peer)⟩ := by
  have hpass : ex.following.conflict (ex.request peer).prevLogIndex
      (ex.request peer).prevLogTerm = none := hc
  have hanswer : ex.following.checkAndAccept (ex.request peer) =
      (⟨ex.follower.currentTerm, true,
        (ex.following.acceptEntries (ex.request peer)).lastLogIndex, 0, 0⟩,
        ex.following.acceptEntries (ex.request peer)) := by
    rw [Node.checkAndAccept, hpass]
    rfl
  rw [h.round_of_answer hanswer rfl]
  rfl

end Above

/-! ## Below the baseline -/

/-- A follower that ends below the leader's baseline rejects, and `nextIndex` is
clamped one above the baseline, where it was or where it stays. -/
theorem stuck_round {ex : Exchange σ} {peer : NodeId} (h : ex.Above peer)
    (hshort : ex.follower.lastLogIndex < ex.leader.lastIncludedIndex) :
    ∃ ex', ex.round peer = .retry ex' ∧ ex'.Above peer ∧
      ex'.follower.lastLogIndex < ex'.leader.lastIncludedIndex := by
  have hlong : ex.next peer - 1 > ex.following.lastLogIndex := by
    have : ex.following.lastLogIndex = ex.follower.lastLogIndex := rfl
    have := h.next
    omega
  have hc : ex.following.conflict (ex.next peer - 1)
      (ex.leader.termBefore (ex.next peer - 1)) = some (ex.following.lastLogIndex + 1, 0) := by
    unfold Node.conflict
    rw [if_pos (by omega), if_pos hlong]
  have hback : ex.leader.backUp ⟨ex.follower.currentTerm, false, 0, 0,
      ex.following.lastLogIndex + 1⟩ = ex.leader.lastIncludedIndex + 1 :=
    if_pos (Nat.succ_lt_succ hshort)
  refine ⟨_, h.round_of_conflict hc, ⟨h.role, h.term, ?_⟩, hshort⟩
  change _ < GoMap.get (ex.leader.nextIndex.insert peer _) peer
  rw [hback, GoMap.get_insert, if_pos rfl]
  exact Nat.lt_succ_self _

/-- Such an exchange goes on for ever. -/
theorem stuck {ex : Exchange σ} {peer : NodeId} (h : ex.Above peer)
    (hshort : ex.follower.lastLogIndex < ex.leader.lastIncludedIndex) (k : ℕ) :
    ∃ ex', ex.rounds peer k = .retry ex' := by
  induction k generalizing ex with
  | zero => exact ⟨ex, rfl⟩
  | succ k ih =>
      obtain ⟨ex', hround, habove, hshort'⟩ := stuck_round h hshort
      rw [rounds, hround]
      exact ih habove hshort'

/-- A follower that ends below the leader's baseline is sent the snapshot exactly
if `nextIndex` is at or below the baseline from the start. -/
theorem snapshot_branch_iff (ex : Exchange σ) (peer : NodeId)
    (hrole : ex.leader.role = .leader)
    (hterm : ex.follower.currentTerm = ex.leader.currentTerm)
    (hshort : ex.follower.lastLogIndex < ex.leader.lastIncludedIndex) :
    (∃ k, ex.rounds peer k = .snapshot) ↔ ex.next peer ≤ ex.leader.lastIncludedIndex := by
  constructor
  · rintro ⟨k, hk⟩
    by_contra hnot
    obtain ⟨ex', hretry⟩ := stuck ⟨hrole, hterm, not_le.mp hnot⟩ hshort k
    rw [hretry] at hk
    cases hk
  · intro hle
    refine ⟨1, ?_⟩
    have hsend : ex.leader.replicateToPeer peer = .sendSnapshot := by
      unfold Node.replicateToPeer
      rw [if_neg (not_not.mpr hrole)]
      exact if_pos hle
    rw [rounds, round, hsend]

/-- `a` wins the election of `term` with the vote of `b`. -/
def elected (a : Node MemState) (term : ℕ) : Node MemState :=
  (a.electionTimeout.2).handleVoteReply ⟨term, "a", 0, 0⟩ ⟨term, true⟩

/-- `a` is elected in term 1, replicates one entry to `b`, commits it and compacts
its log; `c` has heard nothing but the vote request. -/
def compacting : Exchange MemState where
  leader :=
    let leader := (elected (Node.newNode ⟨"a", ["b", "c"]⟩ PersistentState.fresh) 1).propose [7]
    let acked := leader.2.handleAppendReply "b" ⟨1, "a", 0, 0, [⟨1, 1, [7]⟩], 0⟩ ⟨1, true, 1, 0, 0⟩
    (acked.compactLog [] 1 1).2
  follower := ((Node.newNode ⟨"c", ["a", "b"]⟩ PersistentState.fresh).handleRequestVote
    ⟨1, "a", 0, 0⟩).2

/-- Then `a` loses its leadership to a term 2 in which nothing is won, and is
elected again in term 3: `becomeLeader` sets every `nextIndex` behind its log. -/
def reelected : Exchange MemState where
  leader := elected (compacting.leader.observeTerm 2) 3
  follower := (compacting.follower.handleRequestVote ⟨3, "a", 1, 1⟩).2

theorem snapshot_branch_iff_compacting :
    compacting.next "c" = 1 ∧ compacting.leader.lastIncludedIndex = 1 ∧
      ∃ k, compacting.rounds "c" k = .snapshot := by
  have hstate : compacting.leader.role = .leader ∧
      compacting.follower.currentTerm = compacting.leader.currentTerm ∧
      compacting.follower.lastLogIndex < compacting.leader.lastIncludedIndex ∧
      compacting.next "c" = 1 ∧ compacting.leader.lastIncludedIndex = 1 := by
    decide +kernel
  obtain ⟨hrole, hterm, hshort, hnext, hbase⟩ := hstate
  exact ⟨hnext, hbase,
    (snapshot_branch_iff compacting "c" hrole hterm hshort).mpr (by rw [hnext, hbase])⟩

/-- After the second election the exchange with `c` never gets to the snapshot. -/
theorem reelected_never_snapshot :
    reelected.leader.role = .leader ∧
      reelected.follower.currentTerm = reelected.leader.currentTerm ∧
      reelected.leader.lastIncludedIndex = 1 ∧ reelected.follower.lastLogIndex = 0 ∧
      reelected.next "c" = 2 ∧ ¬ ∃ k, reelected.rounds "c" k = .snapshot := by
  have hstate : reelected.leader.role = .leader ∧
      reelected.follower.currentTerm = reelected.leader.currentTerm ∧
      reelected.leader.lastIncludedIndex = 1 ∧ reelected.follower.lastLogIndex = 0 ∧
      reelected.next "c" = 2 := by
    decide +kernel
  obtain ⟨hrole, hterm, hbase, hlast, hnext⟩ := hstate
  refine ⟨hrole, hterm, hbase, hlast, hnext, ?_⟩
  rintro ⟨k, hk⟩
  have habove : reelected.Above "c" := ⟨hrole, hterm, by omega⟩
  obtain ⟨ex', hretry⟩ := stuck habove (by omega) k
  rw [hretry] at hk
  cases hk

/-! ## Above the baseline -/

omit [PersistentState σ] in
theorem next_insert (ex : Exchange σ) (peer : NodeId) (next : ℕ) (f : Node σ) :
    (Exchange.mk { ex.leader with nextIndex := ex.leader.nextIndex.insert peer next } f).next peer
      = next := by
  change GoMap.get (ex.leader.nextIndex.insert peer next) peer = next
  rw [GoMap.get_insert, if_pos rfl]

/-- The two logs as the protocol keeps them.  `leaderBase` and `followerBase` say
that a log begins with the entry of its baseline, and of the rule that entries of
one term come from one leader only the half with the leader's log is needed. -/
structure Rollback (ex : Exchange σ) (peer : NodeId) : Prop extends ex.Above peer where
  leaderBase : ex.leader.termHeld ex.leader.lastIncludedIndex = some ex.leader.lastIncludedTerm
  followerBase :
    ex.follower.termHeld ex.follower.lastIncludedIndex = some ex.follower.lastIncludedTerm
  logMatching : ∀ i t, ex.leader.termHeld i = some t → ex.follower.termHeld i = some t →
    ∀ j ≤ i, ∀ u v, ex.leader.termHeld j = some u → ex.follower.termHeld j = some v → u = v
  oneLeader : ∀ i c, ex.leader.termHeld i = some c → ∀ j ≤ i, ex.follower.termHeld j = some c →
    ∀ u, ex.leader.termHeld j = some u → u = c
  leaderBaseline : ∀ t, ex.follower.termHeld ex.leader.lastIncludedIndex = some t →
    t = ex.leader.lastIncludedTerm
  followerBaseline : ∀ t, ex.leader.termHeld ex.follower.lastIncludedIndex = some t →
    t = ex.follower.lastIncludedTerm
  followerBase_le : ex.follower.lastIncludedIndex ≤ ex.leader.lastLogIndex
  leaderBase_le : ex.leader.lastIncludedIndex ≤ ex.follower.lastLogIndex
  matchIndex_le : ex.leader.matchIndex.get peer ≤ ex.leader.lastLogIndex
  next_le : ex.next peer ≤ ex.leader.lastLogIndex + 1

namespace Rollback

variable {ex : Exchange σ} {peer : NodeId}

omit [PersistentState σ] in
theorem leader_log (h : ex.Rollback peer) : ex.leader.log ≠ [] := by
  intro hnil
  have hbase := h.leaderBase
  rw [Node.termHeld_of_le le_rfl, hnil] at hbase
  simp at hbase

omit [PersistentState σ] in
theorem follower_log (h : ex.Rollback peer) : ex.follower.log ≠ [] := by
  intro hnil
  have hbase := h.followerBase
  rw [Node.termHeld_of_le le_rfl, hnil] at hbase
  simp at hbase

omit [PersistentState σ] in
theorem following_held (ex : Exchange σ) (i : ℕ) :
    ex.following.termHeld i = ex.follower.termHeld i :=
  Node.termHeld_congr rfl rfl i

omit [PersistentState σ] in
/-- The leader holds the index that it asks about. -/
theorem exists_prev (h : ex.Rollback peer) :
    ∃ t, ex.leader.termHeld (ex.next peer - 1) = some t := by
  have := h.next
  have := h.next_le
  exact Node.exists_termHeld h.leader_log (by omega) (by omega)

omit [PersistentState σ] in
/-- The hint of a rejection, and the clamp, lie below `nextIndex`. -/
theorem backUp_bounds (h : ex.Rollback peer) {index term : ℕ}
    (hc : ex.following.conflict (ex.next peer - 1) (ex.leader.termBefore (ex.next peer - 1)) =
      some (index, term)) (t : ℕ) :
    ex.leader.lastIncludedIndex < ex.leader.backUp ⟨t, false, 0, term, index⟩ ∧
      ex.leader.backUp ⟨t, false, 0, term, index⟩ < ex.next peer := by
  have habove := h.next
  suffices hbound : ex.leader.lastIncludedIndex + 1 < ex.next peer ∧
      ex.leader.hintedNext ⟨t, false, 0, term, index⟩ < ex.next peer by
    unfold Node.backUp
    split
    · exact ⟨by omega, hbound.1⟩
    · exact ⟨by omega, hbound.2⟩
  rcases Node.conflict_some_cases hc with ⟨hlong, rfl, rfl⟩ | ⟨hheld, hne, hpos, hindex⟩
  · -- the follower's log is too short
    have hlast : ex.following.lastLogIndex = ex.follower.lastLogIndex := rfl
    have := h.leaderBase_le
    refine ⟨by omega, ?_⟩
    unfold Node.hintedNext
    rw [if_neg (by simp)]
    change ex.following.lastLogIndex + 1 < _
    omega
  · -- another term at the index: it is not the leader's baseline, and the leader's
    -- entries of that term lie below it
    rw [following_held] at hheld
    obtain ⟨own, hown⟩ := h.exists_prev
    have hbefore := Node.termBefore_of_held hown hpos
    have hbase : ex.next peer - 1 ≠ ex.leader.lastIncludedIndex := by
      intro heq
      rw [heq] at hheld hown
      rw [h.leaderBase, Option.some.injEq] at hown
      exact hne (by rw [h.leaderBaseline _ hheld, hbefore, ← hown])
    refine ⟨by omega, ?_⟩
    unfold Node.hintedNext
    split
    · rcases ex.leader.nextAfterTerm_cases term index ex.leader.lastLogIndex with
        hkept | ⟨i, hi, hstop⟩
      · rw [hkept]
        omega
      · rw [hstop]
        by_contra hge
        have hsame := h.oneLeader i term hi (ex.next peer - 1) (by omega) hheld own hown
        exact hne (by rw [hbefore, hsame])
    · change index < _
      omega

/-- A rejected round moves `nextIndex` down and leaves the two logs as they are. -/
theorem retry_lt (h : ex.Rollback peer) {ex' : Exchange σ} (hround : ex.round peer = .retry ex') :
    ex'.next peer < ex.next peer ∧ ex'.Rollback peer ∧
      ex'.leader = { ex.leader with nextIndex := ex'.leader.nextIndex } ∧
      ex'.follower = ex.following := by
  cases hc : ex.following.conflict (ex.next peer - 1)
      (ex.leader.termBefore (ex.next peer - 1)) with
  | none =>
      rw [h.round_of_pass hc] at hround
      cases hround
  | some hint =>
      obtain ⟨index, term⟩ := hint
      obtain ⟨hlow, hhigh⟩ := h.backUp_bounds hc ex.follower.currentTerm
      rw [h.round_of_conflict hc] at hround
      cases hround
      have hnext := ex.next_insert peer
        (ex.leader.backUp ⟨ex.follower.currentTerm, false, 0, term, index⟩) ex.following
      have hle := h.next_le
      refine ⟨hnext.trans_lt hhigh, ?_, rfl, rfl⟩
      exact {
        role := h.role
        term := h.term
        next := hlow.trans_eq hnext.symm
        leaderBase := h.leaderBase
        followerBase := h.followerBase
        logMatching := h.logMatching
        oneLeader := h.oneLeader
        leaderBaseline := h.leaderBaseline
        followerBaseline := h.followerBaseline
        followerBase_le := h.followerBase_le
        leaderBase_le := h.leaderBase_le
        matchIndex_le := h.matchIndex_le
        next_le := by
          rw [hnext]
          change _ ≤ ex.leader.lastLogIndex + 1
          omega }

omit [PersistentState σ] in
/-- Where the two logs agree at the index that was asked about they agree below it
too. -/
theorem agree_of_pass (h : ex.Rollback peer)
    (hc : ex.following.conflict (ex.next peer - 1) (ex.leader.termBefore (ex.next peer - 1)) =
      none) {i : ℕ} (hi : i ≤ ex.next peer - 1) (hleader : ex.leader.lastIncludedIndex ≤ i)
    (hfollower : ex.follower.lastIncludedIndex ≤ i) :
    ex.follower.termHeld i = ex.leader.termHeld i := by
  obtain ⟨hle, hpass⟩ := Node.conflict_none_cases hc
  have hend : ex.following.lastLogIndex = ex.follower.lastLogIndex := rfl
  have hnext := h.next_le
  obtain ⟨u, hu⟩ := Node.exists_termHeld h.leader_log hleader (by omega)
  obtain ⟨v, hv⟩ := Node.exists_termHeld h.follower_log hfollower (by omega)
  rw [hu, hv, Option.some.injEq]
  by_cases hzero : ex.next peer - 1 = 0
  · -- index `0`, the baseline of both
    have hbase : i = ex.leader.lastIncludedIndex := by omega
    rw [hbase] at hu hv
    rw [h.leaderBase, Option.some.injEq] at hu
    rw [h.leaderBaseline v hv, hu]
  · obtain ⟨own, hown⟩ := h.exists_prev
    obtain ⟨t, ht⟩ := Node.exists_termHeld h.follower_log (i := ex.next peer - 1) (by omega)
      (by omega)
    have hsame := hpass.resolve_left hzero t (by rw [following_held, ht])
    rw [Node.termBefore_of_held hown (by omega)] at hsame
    subst hsame
    exact (h.logMatching _ t hown ht i hi u v hu hv).symm

/-- The log of an accepted request is what the append loop leaves. -/
theorem acceptEntries_held (n : Node σ) (req : AppendEntriesRequest) (i : ℕ) :
    (n.acceptEntries req).termHeld i =
      (n.appendNew (req.prevLogIndex + 1) req.entries).termHeld i := by
  unfold Node.acceptEntries Node.learnCommit Node.persistRequest
  split
  · split
    · exact Node.termHeld_congr rfl rfl i
    · exact Node.termHeld_congr rfl rfl i
  · split
    · exact Node.termHeld_congr rfl rfl i
    · rfl

omit [PersistentState σ] in
theorem recordMatch_get (h : ex.Rollback peer) : (ex.leader.recordMatch peer
    ex.leader.lastLogIndex).matchIndex.get peer = ex.leader.lastLogIndex := by
  have := h.matchIndex_le
  unfold Node.recordMatch
  split
  · change GoMap.get (ex.leader.matchIndex.insert peer _) peer = _
    rw [GoMap.get_insert, if_pos rfl]
  · omega

omit [PersistentState σ] in
/-- The leader behind an accepted round: its log is the same, and it knows that
the follower holds all of it. -/
theorem accepted_leader (h : ex.Rollback peer) {l : Node σ} (hl : l = (ex.leader.recordMatch peer
      (ex.next peer - 1 + (ex.leader.entriesFrom (ex.next peer)).length)).maybeAdvanceCommit) :
    l.matchIndex.get peer = ex.leader.lastLogIndex ∧
      ∀ i, l.termHeld i = ex.leader.termHeld i := by
  have hsent : ex.next peer - 1 + (ex.leader.entriesFrom (ex.next peer)).length =
      ex.leader.lastLogIndex := by
    have hlength := Node.entriesFrom_length h.leader_log h.next h.next_le
    have habove := h.next
    omega
  rw [hsent] at hl
  subst hl
  refine ⟨?_, fun i => ?_⟩
  · calc (ex.leader.recordMatch peer ex.leader.lastLogIndex).maybeAdvanceCommit.matchIndex.get peer
        = (ex.leader.recordMatch peer ex.leader.lastLogIndex).matchIndex.get peer :=
          Node.maybeAdvanceCommit_frame (fun n => n.matchIndex.get peer) (fun _ _ => rfl) _
      _ = ex.leader.lastLogIndex := h.recordMatch_get
  · calc (ex.leader.recordMatch peer ex.leader.lastLogIndex).maybeAdvanceCommit.termHeld i
        = (ex.leader.recordMatch peer ex.leader.lastLogIndex).termHeld i :=
          Node.maybeAdvanceCommit_frame (fun n => n.termHeld i)
            (fun _ _ => Node.termHeld_congr rfl rfl i) _
      _ = ex.leader.termHeld i := by
          unfold Node.recordMatch
          split
          · exact Node.termHeld_congr rfl rfl i
          · rfl

/-- The follower behind an accepted round holds the leader's terms from the higher
of the two baselines on. -/
theorem accepted_follower (h : ex.Rollback peer)
    (hc : ex.following.conflict (ex.next peer - 1) (ex.leader.termBefore (ex.next peer - 1)) =
      none) {i : ℕ} (hleader : ex.leader.lastIncludedIndex ≤ i)
    (hfollower : ex.follower.lastIncludedIndex ≤ i) (hi : i ≤ ex.leader.lastLogIndex) :
    (ex.following.acceptEntries (ex.request peer)).termHeld i = ex.leader.termHeld i := by
  have habove := h.next
  have hprev : (ex.request peer).prevLogIndex + 1 = ex.next peer := by
    change ex.next peer - 1 + 1 = ex.next peer
    omega
  have hend := (Node.conflict_none_cases hc).1
  obtain ⟨hkeep, hset⟩ := ex.following.appendNew_held h.follower_log (ex.next peer)
    (by omega) (ex.leader.entriesFrom (ex.next peer))
  rw [acceptEntries_held, hprev]
  change (ex.following.appendNew (ex.next peer) (ex.leader.entriesFrom (ex.next peer))).termHeld i
    = _
  by_cases hlow : i < ex.next peer
  · -- not touched by the loop, and agreed on before
    rw [hkeep i (.inl hlow), following_held,
      h.agree_of_pass hc (by omega) hleader hfollower]
  by_cases hbase : i = ex.follower.lastIncludedIndex
  · -- the follower's baseline
    obtain ⟨t, ht⟩ := Node.exists_termHeld h.leader_log hleader hi
    rw [hbase] at ht
    rw [hkeep i (.inr hbase.le), following_held, hbase, h.followerBase, ht,
      h.followerBaseline t ht]
  · -- one of the entries that were sent
    have hlength := Node.entriesFrom_length h.leader_log h.next h.next_le
    obtain ⟨k, rfl⟩ : ∃ k, i = ex.next peer + k := ⟨i - ex.next peer, by omega⟩
    have hk : k < (ex.leader.entriesFrom (ex.next peer)).length := by omega
    have hnew : ex.following.lastIncludedIndex < ex.next peer + k :=
      lt_of_le_of_ne hfollower (Ne.symm hbase)
    rw [hset k hk hnew, Node.entriesFrom_term h.next hk]

/-- A round between two such nodes is rejected, or accepted and leaves the
follower with the leader's terms. -/
theorem round_cases (h : ex.Rollback peer) :
    (∃ ex', ex.round peer = .retry ex') ∨
    ∃ ex', ex.round peer = .success ex' ∧
      ex'.leader.matchIndex.get peer = ex.leader.lastLogIndex ∧
      ∀ i, ex.leader.lastIncludedIndex ≤ i → ex.follower.lastIncludedIndex ≤ i →
        i ≤ ex.leader.lastLogIndex →
        ∃ t, ex'.leader.termHeld i = some t ∧ ex'.follower.termHeld i = some t := by
  cases hc : ex.following.conflict (ex.next peer - 1)
      (ex.leader.termBefore (ex.next peer - 1)) with
  | some hint => exact .inl ⟨_, h.round_of_conflict hc⟩
  | none =>
      obtain ⟨hmatch, hheld⟩ := h.accepted_leader rfl
      refine .inr ⟨_, h.round_of_pass hc, hmatch, fun i hleader hfollower hi => ?_⟩
      obtain ⟨t, ht⟩ := Node.exists_termHeld h.leader_log hleader hi
      exact ⟨t, (hheld i).trans ht, (h.accepted_follower hc hleader hfollower hi).trans ht⟩

/-- Rejected rounds keep the two logs as they are. -/
theorem retries (h : ex.Rollback peer) {ex' : Exchange σ} (hretries : Retries peer ex ex') :
    ex'.Rollback peer := by
  induction hretries with
  | refl => exact h
  | tail _ hround ih => exact (ih.retry_lt hround).2.1

/-- The exchange ends: `nextIndex` cannot move down for ever. -/
theorem exists_success (h : ex.Rollback peer) : ∃ k ex', ex.rounds peer k = .success ex' ∧
    ex'.leader.matchIndex.get peer = ex.leader.lastLogIndex ∧
    ∀ i, ex.leader.lastIncludedIndex ≤ i → ex.follower.lastIncludedIndex ≤ i →
      i ≤ ex.leader.lastLogIndex →
      ∃ t, ex'.leader.termHeld i = some t ∧ ex'.follower.termHeld i = some t := by
  induction hn : ex.next peer using Nat.strongRecOn generalizing ex with
  | ind n ih =>
      rcases h.round_cases with ⟨ex', hround⟩ | ⟨ex', hround, hrest⟩
      · obtain ⟨hlt, hkept, hleader, hfollower⟩ := h.retry_lt hround
        obtain ⟨k, last, hlast, hmatch, hterms⟩ := ih _ (hn ▸ hlt) hkept rfl
        refine ⟨k + 1, last, ?_, ?_, ?_⟩
        · rw [rounds, hround]
          exact hlast
        · rw [hmatch, hleader]
          rfl
        · rw [hleader, hfollower] at hterms
          exact hterms
      · refine ⟨1, ex', ?_, hrest⟩
        rw [rounds, hround]

end Rollback

/-- The exchange of a leader with a follower that reaches its baseline: every
rejection moves `nextIndex` down, so that the exchange ends in success, and then
the two logs have the same term at every index that both can hold. -/
theorem rollback_converges (ex : Exchange σ) (peer : NodeId) (h : ex.Rollback peer) :
    (∀ ex₁ ex₂, Retries peer ex ex₁ → ex₁.round peer = .retry ex₂ →
      ex₂.next peer < ex₁.next peer) ∧
    ∃ k ex', ex.rounds peer k = .success ex' ∧
      ex'.leader.matchIndex.get peer = ex.leader.lastLogIndex ∧
      ∀ i, ex.leader.lastIncludedIndex ≤ i → ex.follower.lastIncludedIndex ≤ i →
        i ≤ ex.leader.lastLogIndex →
        ∃ t, ex'.leader.termHeld i = some t ∧ ex'.follower.termHeld i = some t := by
  refine ⟨fun ex₁ ex₂ hretries hround => ?_, h.exists_success⟩
  exact ((h.retries hretries).retry_lt hround).1

/-- A leader of term 5 whose log is compacted through index 1, and a follower whose
entries 3 and 4 are of a term the leader never saw. -/
def diverged : Exchange MemState where
  leader := { Node.newNode ⟨"a", ["b"]⟩ PersistentState.fresh with
    currentTerm := 5
    role := .leader
    lastIncludedIndex := 1
    lastIncludedTerm := 1
    log := [⟨1, 1, [1]⟩, ⟨2, 1, [2]⟩, ⟨3, 4, [3]⟩, ⟨4, 5, [4]⟩]
    nextIndex := (∅ : GoMap NodeId ℕ).insert "b" 5 }
  follower := { Node.newNode ⟨"b", ["a"]⟩ PersistentState.fresh with
    currentTerm := 5
    log := [LogEntry.sentinel 0 0, ⟨1, 1, [1]⟩, ⟨2, 1, [2]⟩, ⟨3, 2, [8]⟩, ⟨4, 2, [9]⟩] }

theorem rollback_converges_diverged : ∃ k ex', diverged.rounds "b" k = .success ex' ∧
    ex'.leader.matchIndex.get "b" = 4 ∧ ∀ i, 1 ≤ i → i ≤ 4 →
      ∃ t, ex'.leader.termHeld i = some t ∧ ex'.follower.termHeld i = some t := by
  have hlast : diverged.leader.lastLogIndex = 4 := rfl
  have hmatching : ∀ i ≤ 4, (diverged.leader.termHeld i).isSome →
      diverged.leader.termHeld i = diverged.follower.termHeld i →
      ∀ j ≤ i, (diverged.leader.termHeld j).isSome →
        diverged.leader.termHeld j = diverged.follower.termHeld j := by
    decide
  have hone : ∀ i ≤ 4, ∀ j ≤ i, (diverged.leader.termHeld j).isSome →
      diverged.leader.termHeld i = diverged.follower.termHeld j →
      diverged.leader.termHeld i = diverged.leader.termHeld j := by
    decide
  have hlogs : diverged.Rollback "b" := {
    role := rfl
    term := rfl
    next := by decide
    leaderBase := rfl
    followerBase := rfl
    logMatching := by
      intro i t hi hi' j hj u v hu hv
      have hle := (Node.termHeld_bounds hi).2
      have := hmatching i hle (by rw [hi]; rfl) (by rw [hi, hi']) j hj (by rw [hu]; rfl)
      rw [hu, hv] at this
      exact Option.some.inj this
    oneLeader := by
      intro i c hi j hj hj' u hu
      have hle := (Node.termHeld_bounds hi).2
      have := hone i hle j hj (by rw [hu]; rfl) (by rw [hi, hj'])
      rw [hi, hu] at this
      exact (Option.some.inj this).symm
    leaderBaseline := by
      intro t ht
      exact (Option.some.inj ht).symm
    followerBaseline := by
      intro t ht
      cases ht
    followerBase_le := by decide
    leaderBase_le := by decide
    matchIndex_le := by decide
    next_le := by decide }
  obtain ⟨k, ex', hk, hmatch, hterms⟩ := (rollback_converges diverged "b" hlogs).2
  exact ⟨k, ex', hk, hmatch, fun i hi hle => hterms i hi (Nat.zero_le i) hle⟩

end Exchange

end RaftKV.Raft
