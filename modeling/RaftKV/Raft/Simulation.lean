import RaftKV.Raft.Refinement

/-!
# Simulating the critical sections of one node

`Moves M s s' i n n'` is what a critical section of node `i` has to show: the
abstract protocol can follow it, only node `i` is touched, and a leader log
changes only if its term had no leader or node `i` leads it.  Moves compose.  The
lemmas of this module are one per kind of thing a node does: reach a term, vote,
win, take over a part of a leader log, propose, record an acknowledgement,
commit, compact, install.
-/

namespace RaftKV.Raft

open Consensus (Inv Later Decided Committed Voted Step Steps)
open Function

variable {σ : Type} {M : Members} {s s' s'' : Abstract} {i : NodeId} {n n' n'' : Node σ}

/-- Node `i` goes from `n` to `n'` while the abstract state goes from `s` to
`s'`. -/
structure Moves (M : Members) (s s' : Abstract) (i : NodeId) (n n' : Node σ) : Prop where
  steps : Steps M.rules s s'
  term_of : ∀ j, j ≠ i → s'.term j = s.term j
  log_of : ∀ j, j ≠ i → s'.log j = s.log j
  chains : ∀ t, s'.chain t = s.chain t ∨ s.base t = none ∨
    (n.role = .leader ∧ t = n.currentTerm)
  indexed : (∀ t, Indexed (s.chain t)) → ∀ t, Indexed (s'.chain t)
  node : NodeRel M s' i n'
  stays : n'.role = .candidate → s'.log i = s.log i
  grows : ∀ e ∈ n.events, e ∈ n'.events
  events : ∀ e ∈ n'.events, e ∈ n.events ∨ EventRel M s' i e
  elected : ∀ t, (s'.base t).isSome → (s.base t).isSome ∨ n'.Led t

namespace Moves

theorem later (h : Moves M s s' i n n') (hI : Inv M.rules s) : Inv M.rules s' ∧ Later s s' :=
  hI.steps h.steps

theorem trans (h : Moves M s s' i n n') (h' : Moves M s' s'' i n' n'') (hI : Inv M.rules s)
    (hrole : n'.role = .leader → n.role = .leader ∧ n'.currentTerm = n.currentTerm)
    (hstays : s'.log i = s.log i ∨ n''.role ≠ .candidate) :
    Moves M s s'' i n n'' := by
  obtain ⟨hI', hlater⟩ := h.later hI
  obtain ⟨-, hlater'⟩ := h'.later hI'
  refine ⟨h.steps.trans h'.steps, fun j hj => (h'.term_of j hj).trans (h.term_of j hj),
    fun j hj => (h'.log_of j hj).trans (h.log_of j hj), ?_, fun hx => h'.indexed (h.indexed hx),
    h'.node, ?_, fun e he => h'.grows e (h.grows e he), ?_, ?_⟩
  · intro t
    rcases h'.chains t with heq | hnone | ⟨hleader, rfl⟩
    · rcases h.chains t with heq' | hrest
      · exact .inl (heq.trans heq')
      · exact .inr hrest
    · refine .inr (.inl ?_)
      by_contra hsome
      have := leads_later hlater (Option.isSome_iff_ne_none.mpr hsome)
      rw [hnone] at this
      simp at this
    · obtain ⟨hleader', hterm⟩ := hrole hleader
      exact .inr (.inr ⟨hleader', hterm⟩)
  · intro hcandidate
    rcases hstays with heq | hne
    · exact (h'.stays hcandidate).trans heq
    · exact absurd hcandidate hne
  · intro e he
    rcases h'.events e he with he | hrel
    · rcases h.events e he with he | hrel
      · exact .inl he
      · exact .inr (hrel.later hI' hlater')
    · exact .inr hrel
  · intro t ht
    rcases h'.elected t ht with ht | hled
    · rcases h.elected t ht with ht | ⟨b, log, hmem⟩
      · exact .inl ht
      · exact .inr ⟨b, log, h'.grows _ hmem⟩
    · exact .inr hled

/-- The abstract state does not move. -/
theorem same (hnode : NodeRel M s i n') (hgrows : ∀ e ∈ n.events, e ∈ n'.events)
    (hevents : ∀ e ∈ n'.events, e ∈ n.events ∨ EventRel M s i e) : Moves M s s i n n' :=
  ⟨.refl, fun _ _ => rfl, fun _ _ => rfl, fun _ => .inl rfl, id, hnode, fun _ => rfl, hgrows,
    hevents, fun _ ht => .inl ht⟩

end Moves

/-! ## Reaching a term -/

/-- What a node knows about logs. -/
def Node.logView (n : Node σ) :
    (ℕ × ℕ × List LogEntry) × ℕ × Option SnapshotRecvState × GoMap NodeId ℕ :=
  ((n.lastIncludedIndex, n.lastIncludedTerm, n.log), n.commitIndex, n.recvSnapshot, n.matchIndex)

/-- The relation of a node that is not a leader depends on its term and logs
only. -/
theorem NodeRel.of_logView (h : NodeRel M s i n) (hview : n'.logView = n.logView)
    (hterm : s'.term i = n'.currentTerm) (hle : n.currentTerm ≤ n'.currentTerm)
    (hlog : s'.log i = s.log i) (hI : Inv M.rules s) (hlater : Later s s')
    (hrole : n'.role ≠ .leader) : NodeRel M s' i n' := by
  simp only [Node.logView, Prod.mk.injEq] at hview
  obtain ⟨⟨hbase, hbaseTerm, hlogs⟩, hcommit, hrecv, hmatch⟩ := hview
  refine ⟨hterm, ?_, ?_, ?_, ?_, ?_, ?_, fun h => absurd h hrole⟩
  · rw [hlog]
    exact h.holds.congr hbase hbaseTerm hlogs
  · rw [hbase, hcommit]
    exact h.base_le
  · rw [hcommit, hlog]
    exact h.commit_le
  · rw [hcommit, hlog]
    exact (h.decided.mono List.prefix_rfl hle).later hI hlater
  · rw [hmatch]
    exact h.tracked
  · intro r hr
    obtain ⟨t, ht, hcovers⟩ := h.receiving r (hrecv ▸ hr)
    exact ⟨t, ht.trans hle, hcovers.later hI hlater⟩

/-- The same at the same abstract state, for a leader too as long as it keeps
`nextIndex`. -/
theorem NodeRel.congr (h : NodeRel M s i n) (hview : n'.logView = n.logView)
    (hterm : n'.currentTerm = n.currentTerm)
    (hrole : n'.role = .leader → n.role = .leader ∧ n'.nextIndex = n.nextIndex) :
    NodeRel M s i n' := by
  simp only [Node.logView, Prod.mk.injEq] at hview
  obtain ⟨⟨hbase, hbaseTerm, hlogs⟩, hcommit, hrecv, hmatch⟩ := hview
  refine ⟨hterm ▸ h.term, h.holds.congr hbase hbaseTerm hlogs, ?_, ?_, ?_, ?_, ?_, ?_⟩
  · rw [hbase, hcommit]
    exact h.base_le
  · rw [hcommit]
    exact h.commit_le
  · rw [hcommit, hterm]
    exact h.decided
  · rw [hmatch]
    exact h.tracked
  · rw [hrecv, hterm]
    exact h.receiving
  · intro hleader
    obtain ⟨hleader', hnext⟩ := hrole hleader
    have hl := h.leading hleader'
    exact ⟨hterm ▸ hl.leads, hterm ▸ hl.whole, hterm ▸ hl.own, hnext ▸ hl.next,
      by rw [hmatch, hterm]; exact hl.acked⟩

/-- Rooted logs inherit their positions from the leader logs. -/
theorem indexed_of_rooted (hindexed : ∀ t, Indexed (s.chain t)) {l : List LogEntry}
    (hl : Consensus.Rooted M.rules s l) : Indexed l := by
  intro k e he
  have hlt : k < l.length := (List.getElem?_eq_some_iff.mp he).1
  have htake : l.take (k + 1) = l.take k ++ [e] := by
    rw [List.take_add_one, he]
    rfl
  have hfront := hl (l.take k) e (htake ▸ List.take_prefix _ _)
  apply hindexed (M.rules.termOf e) k e
  obtain ⟨rest, hrest⟩ := hfront
  have hlen : (l.take k).length = k := by
    rw [List.length_take]
    omega
  rw [← hrest, List.append_assoc, List.getElem?_append_right hlen.le, hlen, Nat.sub_self]
  rfl

theorem Inv.advance_later (hI : Inv M.rules s) {t : ℕ} (h : s.term i ≤ t) :
    Inv M.rules (s.advance i t) ∧ Later s (s.advance i t) :=
  hI.step (.advance h)

/-- A node that is no leader afterwards reaches a term. -/
theorem moves_advance (h : NodeRel M s i n) (hI : Inv M.rules s)
    (hview : n'.logView = n.logView) (hle : n.currentTerm ≤ n'.currentTerm)
    (hrole : n'.role ≠ .leader) (hgrows : ∀ e ∈ n.events, e ∈ n'.events)
    (hevents : ∀ e ∈ n'.events, e ∈ n.events ∨
      EventRel M (s.advance i n'.currentTerm) i e) :
    Moves M s (s.advance i n'.currentTerm) i n n' := by
  have hterm : s.term i ≤ n'.currentTerm := h.term ▸ hle
  obtain ⟨-, hlater⟩ := Inv.advance_later hI hterm
  refine ⟨.single (.advance hterm), fun j hj => update_of_ne hj .., fun _ _ => rfl,
    fun _ => .inl rfl, id, ?_, fun _ => rfl, hgrows, hevents, fun _ ht => .inl ht⟩
  exact h.of_logView hview (update_self ..) hle rfl hI hlater hrole

section Handlers

variable [PersistentState σ]

theorem Node.becomeFollower_logView (n : Node σ) (term : ℕ) :
    (n.becomeFollower term).logView = n.logView ∧ (n.becomeFollower term).events = n.events := by
  unfold becomeFollower
  split
  · exact ⟨rfl, rfl⟩
  · exact ⟨rfl, rfl⟩

theorem moves_becomeFollower (h : NodeRel M s i n) (hI : Inv M.rules s) (term : ℕ) :
    ∃ s', Moves M s s' i n (n.becomeFollower term) := by
  obtain ⟨hview, hevents⟩ := n.becomeFollower_logView term
  refine ⟨_, moves_advance h hI hview (n.becomeFollower_hardLe term).term_le ?_ ?_ ?_⟩
  · simp [Node.becomeFollower_role]
  · exact fun e he => hevents ▸ he
  · exact fun e he => .inl (hevents ▸ he)

theorem moves_observeTerm (h : NodeRel M s i n) (hI : Inv M.rules s) (term : ℕ) :
    ∃ s', Moves M s s' i n (n.observeTerm term) := by
  unfold Node.observeTerm
  split
  · exact moves_becomeFollower h hI term
  · exact ⟨s, .same h (fun _ he => he) fun _ he => .inl he⟩

/-- Following the sender of a request that is not stale. -/
theorem moves_followLeader (h : NodeRel M s i n) (hI : Inv M.rules s) {term : ℕ}
    (hterm : ¬ term < n.currentTerm) (leaderId : NodeId) :
    (n.followLeader term leaderId).currentTerm = term ∧
      (n.followLeader term leaderId).role = .follower ∧
      (n.followLeader term leaderId).logView = n.logView ∧
      Moves M s (s.advance i term) i n (n.followLeader term leaderId) := by
  have hfacts : (n.followLeader term leaderId).currentTerm = term ∧
      (n.followLeader term leaderId).role = .follower ∧
      (n.followLeader term leaderId).logView = n.logView ∧
      (n.followLeader term leaderId).events = n.events := by
    unfold Node.followLeader
    split
    · next hgt =>
        refine ⟨?_, n.becomeFollower_role term, n.becomeFollower_logView term⟩
        change (n.becomeFollower term).currentTerm = term
        unfold Node.becomeFollower
        rw [if_pos hgt]
        rfl
    · next hle => exact ⟨by change n.currentTerm = term; omega, rfl, rfl, rfl⟩
  obtain ⟨hcurrent, hrole, hview, hevents⟩ := hfacts
  have hmove := moves_advance h hI hview (n.followLeader_hardLe term leaderId).term_le
    (by simp [hrole]) (fun e he => hevents ▸ he) (fun e he => .inl (hevents ▸ he))
  rw [hcurrent] at hmove
  exact ⟨hcurrent, hrole, hview, hmove⟩

/-! ## Voting and winning -/

theorem moves_campaign (h : NodeRel M s i n) (hI : Inv M.rules s) :
    Moves M s (s.advance i (n.currentTerm + 1)) i n n.campaign := by
  have hterm : s.term i ≤ n.currentTerm + 1 := h.term ▸ Nat.le_succ _
  obtain ⟨hI', -⟩ := Inv.advance_later hI hterm
  refine moves_advance h hI (show n.campaign.logView = n.logView from rfl) (Nat.le_succ _) ?_ ?_ ?_
  · simp [Node.campaign, Node.persistHardState]
  · exact fun e he => List.mem_append_left _ he
  · intro e he
    rcases List.mem_append.mp he with he | he
    · exact .inl he
    · rw [List.mem_singleton.mp he]
      have hreached : (s.advance i (n.currentTerm + 1)).term i = n.currentTerm + 1 :=
        update_self ..
      have hvoted := Voted.of_current hI' i
      rw [hreached] at hvoted
      refine .inr ⟨s.log i, hvoted, .inr ⟨?_, ?_⟩⟩
      · exact h.holds.lastLogTerm_eq.symm
      · exact h.holds.lastLogIndex_eq.ge

theorem moves_grantVote (h : NodeRel M s i n) (hI : Inv M.rules s) {req : RequestVoteRequest}
    (hlog : n.candidateLogUpToDate req.lastLogIndex req.lastLogTerm) :
    Moves M s s i n (n.grantVote req) := by
  refine .same (h.congr rfl rfl fun hrole => ⟨hrole, rfl⟩)
    (fun e he => List.mem_append_left _ he) fun e he => ?_
  rcases List.mem_append.mp he with he | he
  · exact .inl he
  · rw [List.mem_singleton.mp he]
    have hvoted := Voted.of_current hI i
    rw [h.term] at hvoted
    refine .inr ⟨s.log i, hvoted, ?_⟩
    unfold Node.candidateLogUpToDate at hlog
    rw [h.holds.lastLogTerm_eq, h.holds.lastLogIndex_eq] at hlog
    split at hlog
    · exact .inl (of_decide_eq_true hlog)
    · next heq => exact .inr ⟨(not_not.mp heq).symm, of_decide_eq_true hlog⟩

omit [PersistentState σ] in
/-- A candidate with a quorum of votes for the log it holds becomes leader. -/
theorem moves_becomeLeader (h : NodeRel M s i n) (hI : Inv M.rules s) (hcfg : n.cfg = M.config i)
    {Q : Finset NodeId} (hQ : M.Quorum Q) (hfresh : s.base n.currentTerm = none)
    (hvotes : ∀ v ∈ Q, ∃ l, Voted M.rules s v n.currentTerm l ∧
      Consensus.UpToDate M.rules l (s.log i)) :
    Moves M s (s.elect i n.currentTerm) i n n.becomeLeader := by
  have hstep : Step M.rules s (s.elect i n.currentTerm) := .elect hfresh h.term hQ hvotes
  have hbase : (s.elect i n.currentTerm).base n.currentTerm = some (s.log i) := update_self ..
  have hchain : (s.elect i n.currentTerm).chain n.currentTerm = s.log i := update_self ..
  have hother : ∀ t, t ≠ n.currentTerm →
      (s.elect i n.currentTerm).chain t = s.chain t ∧
      (s.elect i n.currentTerm).base t = s.base t :=
    fun t ht => ⟨update_of_ne ht .., update_of_ne ht ..⟩
  obtain ⟨-, hlater⟩ := hI.step hstep
  have hled : n.becomeLeader.Led n.currentTerm :=
    ⟨n.lastIncludedIndex, n.log, by simp [Node.becomeLeader]⟩
  refine ⟨.single hstep, fun _ _ => rfl, fun _ _ => rfl, ?_, ?_, ?_, fun _ => rfl, ?_, ?_, ?_⟩
  · intro t
    by_cases ht : t = n.currentTerm
    · exact .inr (.inl (ht ▸ hfresh))
    · exact .inl (hother t ht).1
  · intro hindexed t
    by_cases ht : t = n.currentTerm
    · rw [ht, hchain]
      exact indexed_of_rooted hindexed (hI.log_rooted i)
    · rw [(hother t ht).1]
      exact hindexed t
  · refine ⟨h.term, h.holds.congr rfl rfl rfl, h.base_le, h.commit_le, h.decided.later hI hlater,
      ?_, ?_, fun _ => ?_⟩
    · intro p hp
      rcases GoMap.mem_keys_foldl_insert hp with hp | hp
      · exact hcfg ▸ hp
      · exact h.tracked p hp
    · intro r hr
      obtain ⟨t, ht, hcovers⟩ := h.receiving r hr
      exact ⟨t, ht, hcovers.later hI hlater⟩
    · refine ⟨?_, hchain.symm, .inl ?_, ?_, ?_⟩
      · exact Option.isSome_iff_exists.mpr ⟨_, hbase⟩
      · exact hbase.trans (congrArg some hchain.symm)
      · intro p hp
        have hget : n.becomeLeader.nextIndex.get p = n.lastLogIndex + 1 :=
          GoMap.get_foldl_insert _ _ _ (hcfg ▸ hp)
        rw [hget, h.holds.lastLogIndex_eq]
        exact ⟨Nat.le_add_left _ _, le_rfl⟩
      · intro p hp
        have hget : n.becomeLeader.matchIndex.get p = 0 :=
          GoMap.get_foldl_insert _ _ _ (hcfg ▸ hp)
        rw [hget]
        exact Nat.zero_le _
  · exact fun e he => List.mem_append_left _ he
  · intro e he
    rcases List.mem_append.mp he with he | he
    · exact .inl he
    · rw [List.mem_singleton.mp he]
      exact .inr ⟨s.log i, hbase, h.holds.tail⟩
  · intro t ht
    by_cases heq : t = n.currentTerm
    · exact .inr (heq ▸ hled)
    · rw [(hother t heq).2] at ht
      exact .inl ht

omit [PersistentState σ] in
/-- Log matching: rooted logs that have one index and term in common agree up to
it. -/
theorem take_eq_of_termAt_eq {l l' : List LogEntry} (hl : Consensus.Rooted M.rules s l)
    (hl' : Consensus.Rooted M.rules s l') {j : ℕ} (hj : j ≤ l.length) (hj' : j ≤ l'.length)
    (hterm : termAt l j = termAt l' j) : l.take j = l'.take j := by
  cases j with
  | zero => rfl
  | succ k =>
      have hget : l[k]? = some l[k] := List.getElem?_eq_getElem hj
      have hget' : l'[k]? = some l'[k] := List.getElem?_eq_getElem hj'
      have htake : l.take (k + 1) = l.take k ++ [l[k]] := by
        rw [List.take_add_one, hget]
        rfl
      have htake' : l'.take (k + 1) = l'.take k ++ [l'[k]] := by
        rw [List.take_add_one, hget']
        rfl
      rw [termAt_succ hget, termAt_succ hget'] at hterm
      have hroot := hl (l.take k) l[k] (htake ▸ List.take_prefix _ _)
      have hroot' := hl' (l'.take k) l'[k] (htake' ▸ List.take_prefix _ _)
      rw [← htake] at hroot
      rw [← htake'] at hroot'
      have hchain : s.chain (M.rules.termOf l[k]) = s.chain (M.rules.termOf l'[k]) :=
        congrArg s.chain hterm
      rw [hchain] at hroot
      have hlen : (l.take (k + 1)).length = (l'.take (k + 1)).length := by
        rw [List.length_take, List.length_take]
        omega
      exact List.IsPrefix.eq_of_length
        (List.prefix_of_prefix_length_le hroot hroot' hlen.le) hlen

/-! ## Committing -/

omit [PersistentState σ] in
/-- Delivering what is decided. -/
theorem moves_advanceCommitTo (h : NodeRel M s i n) (hlog : Indexed (s.log i)) {m : ℕ}
    (hm : m ≤ (s.log i).length) (hle : n.commitIndex ≤ m)
    (hdecided : Decided M.rules s n.currentTerm ((s.log i).take m)) :
    Moves M s s i n (n.advanceCommitTo m) := by
  rw [h.holds.advanceCommitTo_eq hm h.base_le]
  refine .same ?_ (fun e he => List.mem_append_left _ he) fun e he => ?_
  · exact ⟨h.term, h.holds.congr rfl rfl rfl, h.base_le.trans hle, hm, hdecided, h.tracked,
      h.receiving, fun hrole => ⟨(h.leading hrole).leads, (h.leading hrole).whole,
        (h.leading hrole).own, (h.leading hrole).next, (h.leading hrole).acked⟩⟩
  · rcases List.mem_append.mp he with he | he
    · exact .inl he
    · simp only [List.map_map, List.mem_map, comp_apply] at he
      obtain ⟨entry, hentry, rfl⟩ := he
      obtain ⟨k, hk, hget⟩ := List.mem_iff_getElem.mp hentry
      have hget : ((s.log i).take m)[n.commitIndex + k]? = some entry := by
        rw [← List.getElem?_drop, List.getElem?_eq_getElem hk, hget]
      have hindex : entry.index = n.commitIndex + k + 1 := by
        refine hlog _ _ ?_
        rw [List.getElem?_take] at hget
        split at hget
        · exact hget
        · simp at hget
      refine .inr ⟨(s.log i).take m, n.currentTerm, hdecided, by omega, ?_⟩
      rw [hindex]
      exact hget

omit [PersistentState σ] in
/-- The nodes `maybeAdvanceCommit` counts for an index are a quorum. -/
theorem quorum_of_replications (hi : i ∈ M.ids) (hcfg : n.cfg = M.config i)
    (htracked : ∀ p ∈ n.matchIndex.keys, p ∈ (M.config i).peers) {idx : ℕ}
    (hquorum : n.quorum ≤ n.replications idx) :
    ∃ Q, M.Quorum Q ∧ ∀ v ∈ Q, v = i ∨
      (v ∈ (M.config i).peers ∧ idx ≤ n.matchIndex.get v) := by
  set acked := n.matchIndex.entries.filter fun peer => peer.1 ≠ n.cfg.id ∧ idx ≤ peer.2 with hacked
  have hnodup : (acked.map Sigma.fst).Nodup :=
    n.matchIndex.nodupKeys.sublist List.filter_sublist
  have hmem : ∀ v ∈ (acked.map Sigma.fst).toFinset,
      v ∈ (M.config i).peers ∧ idx ≤ n.matchIndex.get v := by
    intro v hv
    obtain ⟨⟨p, ack⟩, hp, rfl⟩ := List.mem_map.mp (List.mem_toFinset.mp hv)
    obtain ⟨hentry, hpred⟩ := List.mem_filter.mp hp
    refine ⟨htracked p (List.mem_map.mpr ⟨_, hentry, rfl⟩), ?_⟩
    have hlookup : n.matchIndex.lookup p = some ack := AList.mem_lookup_iff.mpr hentry
    rw [GoMap.get, hlookup]
    exact (of_decide_eq_true hpred).2
  refine ⟨insert i (acked.map Sigma.fst).toFinset, Members.quorum_insert hi
    (fun v hv => (hmem v hv).1) ?_, ?_⟩
  · rw [List.toFinset_card_of_nodup hnodup, List.length_map, hacked, ← List.countP_eq_length_filter,
      ← hcfg]
    have hcount := hquorum
    unfold Node.quorum Node.replications at hcount
    omega
  · intro v hv
    rcases Finset.mem_insert.mp hv with rfl | hv
    · exact .inl rfl
    · exact .inr (hmem v hv)

omit [PersistentState σ] in
/-- A leader commits an index of its own term that a quorum has acknowledged. -/
theorem moves_maybeAdvanceCommit (h : NodeRel M s i n) (hI : Inv M.rules s)
    (hindexed : ∀ t, Indexed (s.chain t)) (hi : i ∈ M.ids) (hcfg : n.cfg = M.config i)
    (hrole : n.role = .leader) : Moves M s s i n n.maybeAdvanceCommit := by
  have hl := h.leading hrole
  unfold Node.maybeAdvanceCommit
  rcases n.advanceCommitFrom_cases n.lastLogIndex with
    heq | ⟨idx, pos, hlt, hle, hpos, hterm, hquorum, heq⟩
  · rw [heq]
    exact .same h (fun _ he => he) fun _ he => .inl he
  rw [heq]
  rw [h.holds.lastLogIndex_eq] at hle
  obtain ⟨k, rfl⟩ : ∃ k, idx = k + 1 := ⟨idx - 1, by omega⟩
  have hget : (s.log i)[k]? = some (n.log.get pos) :=
    (h.holds.logPos_some hpos).2.2.2.2 (by have := h.base_le; omega)
  have hmem : n.log.get pos ∈ s.chain n.currentTerm := hl.whole ▸ List.mem_of_getElem? hget
  -- the leader itself has acknowledged everything: the entry is one of its own
  have hself : k + 1 ≤ s.acks i n.currentTerm := by
    rcases hl.own with hbase | hacks
    · have hnot := hI.base_lt _ _ hbase _ hmem
      exact absurd hterm (Nat.ne_of_lt hnot)
    · rw [hl.whole] at hle
      exact hle.trans hacks
  have hcommitted : Committed M.rules s n.currentTerm (k + 1) := by
    refine ⟨⟨(s.log i).take k, n.log.get pos, ?_, hterm⟩, ?_⟩
    · rw [← hl.whole, List.take_add_one, hget]
      rfl
    · obtain ⟨Q, hQ, hacks⟩ := quorum_of_replications hi hcfg h.tracked hquorum
      refine ⟨Q, hQ, fun v hv => ?_⟩
      rcases hacks v hv with rfl | ⟨hpeer, hack⟩
      · exact hself
      · exact hack.trans (hl.acked v hpeer)
  have hdecided : Decided M.rules s n.currentTerm ((s.log i).take (k + 1)) := by
    rw [hl.whole]
    exact .of_committed hcommitted le_rfl
  set m : Node σ := { n with events := n.events ++
    [Event.committed n.currentTerm (k + 1) n.lastIncludedIndex n.log] } with hm
  have hfirst : Moves M s s i n m := by
    refine .same (h.congr rfl rfl fun hrole => ⟨hrole, rfl⟩)
      (fun e he => List.mem_append_left _ he) fun e he => ?_
    rcases List.mem_append.mp he with he | he
    · exact .inl he
    · rw [List.mem_singleton.mp he]
      exact .inr ⟨hcommitted, s.log i, hl.whole ▸ List.prefix_rfl, hle, h.holds.tail⟩
  exact hfirst.trans (moves_advanceCommitTo hfirst.node
    (indexed_of_rooted hindexed (hI.log_rooted i)) hle hlt.le hdecided) hI
    (fun _ => ⟨hrole, rfl⟩) (.inl rfl)

/-! ## Proposing -/

/-- The leader appends an entry of its own and may commit it at once. -/
theorem moves_propose (h : NodeRel M s i n) (hI : Inv M.rules s)
    (hindexed : ∀ t, Indexed (s.chain t)) (hi : i ∈ M.ids) (hcfg : n.cfg = M.config i)
    (data : Bytes) : ∃ s', Moves M s s' i n (n.propose data).2 := by
  unfold Node.propose
  split
  · exact ⟨s, .same h (fun _ he => he) fun _ he => .inl he⟩
  next hnot =>
  have hrole : n.role = .leader := not_not.mp hnot
  have hl := h.leading hrole
  set e := n.nextEntry data with he
  have hindex : e.index = (s.log i).length + 1 := by
    rw [he, Node.nextEntry, h.holds.lastLogIndex_eq]
  have hstep : Step M.rules s (s.append i n.currentTerm e) :=
    .append hl.leads h.term hl.whole rfl
  obtain ⟨hI', hlater⟩ := hI.step hstep
  have hlog : (s.append i n.currentTerm e).log i = s.log i ++ [e] := update_self ..
  have hchain : (s.append i n.currentTerm e).chain n.currentTerm = s.log i ++ [e] :=
    update_self ..
  have hother : ∀ t, t ≠ n.currentTerm → (s.append i n.currentTerm e).chain t = s.chain t :=
    fun t ht => update_of_ne ht ..
  have hack : (s.append i n.currentTerm e).acks i n.currentTerm = (s.log i).length + 1 := by
    simp [Consensus.State.append]
  have hindexed' : ∀ t, Indexed ((s.append i n.currentTerm e).chain t) := by
    intro t
    by_cases ht : t = n.currentTerm
    · rw [ht, hchain]
      intro k x hx
      rcases Nat.lt_or_ge k (s.log i).length with hk | hk
      · rw [List.getElem?_append_left hk] at hx
        exact hindexed n.currentTerm k x (hl.whole ▸ hx)
      · rw [List.getElem?_append_right hk] at hx
        have hzero : k - (s.log i).length = 0 := by
          by_contra hne
          rw [List.getElem?_eq_none (by simp; omega)] at hx
          simp at hx
        rw [hzero, List.getElem?_cons_zero, Option.some.injEq] at hx
        rw [← hx, hindex]
        omega
    · rw [hother t ht]
      exact hindexed t
  have happend : Moves M s (s.append i n.currentTerm e) i n (n.appendOwn e) := by
    refine ⟨.single hstep, fun _ _ => rfl, fun j hj => update_of_ne hj .., ?_,
      fun _ => hindexed', ?_, ?_, fun _ he => he, fun _ he => .inl he, fun _ ht => .inl ht⟩
    · intro t
      by_cases ht : t = n.currentTerm
      · exact .inr (.inr ⟨hrole, ht⟩)
      · exact .inl (hother t ht)
    · refine ⟨h.term, ?_, h.base_le, ?_, ?_, h.tracked, ?_, fun _ => ?_⟩
      · rw [hlog]
        refine ⟨h.holds.tail.append [e], ?_⟩
        exact h.holds.baseTerm.trans (termAt_append h.holds.tail.le _).symm
      · rw [hlog, List.length_append]
        exact h.commit_le.trans (Nat.le_add_right _ _)
      · have hcommit : (n.appendOwn e).commitIndex = n.commitIndex := rfl
        rw [hlog, hcommit, List.take_append_of_le_length h.commit_le]
        exact h.decided.later hI hlater
      · intro r hr
        obtain ⟨t, ht, hcovers⟩ := h.receiving r hr
        exact ⟨t, ht, hcovers.later hI hlater⟩
      · refine ⟨leads_later hlater hl.leads, hlog.trans hchain.symm, .inr ?_, ?_, ?_⟩
        · change ((s.append i n.currentTerm e).chain n.currentTerm).length ≤ _
          rw [hchain, List.length_append]
          exact hack.ge
        · intro p hp
          rw [hlog, List.length_append]
          obtain ⟨hpos, hle⟩ := hl.next p hp
          exact ⟨hpos, hle.trans (Nat.le_succ _)⟩
        · exact fun p hp => (hl.acked p hp).trans (hlater.acks _ _)
    · intro hcandidate
      have hcandidate : n.role = .candidate := hcandidate
      simp [hrole] at hcandidate
  refine ⟨_, happend.trans (moves_maybeAdvanceCommit happend.node hI' hindexed' hi hcfg hrole) hI
    (fun _ => ⟨hrole, rfl⟩) (.inr ?_)⟩
  rw [Node.maybeAdvanceCommit_frame Node.role fun _ _ => rfl]
  change n.role ≠ .candidate
  simp [hrole]

end Handlers

end RaftKV.Raft
