import RaftKV.Raft.Campaign
import RaftKV.Raft.Rollback

/-!
# The cluster can always go on

No state that a cluster without compaction reaches is a dead end: election timers and votes
can bring it to a state with a leader, and whatever is then proposed to that leader can be
brought to every member by rounds of replication alone, on the way of which no apply channel
holds more messages than the index of the new entry (`progress_possible`).  Whatever has
happened before, by way of lost messages, restarts, stale leaders and logs that have diverged,
has left nothing behind that would be in the way.

The leader of `Delivery.exists_leader` has its term in common with its peers.  With each
of them it makes rounds of `replicateToPeer` until one is accepted, which `Rollback`
guarantees for logs such as the protocol keeps them.  When all have the new entry, the
leader commits it; a second pass over the peers tells them so.
-/

namespace RaftKV.Raft

open Function

variable {σ : Type} [PersistentState σ] {M : Members} {reader : NodeId → ℕ} {c c' : Cluster σ}
  {s : Abstract} {i p : NodeId}

/-! ## Logs of one run -/

omit [PersistentState σ] in
/-- The beginning of a rooted log is in the leader log of its last term. -/
theorem take_extends_chain {l : List LogEntry} (hl : Consensus.Rooted M.rules s l) {k : ℕ}
    (hk : k + 1 ≤ l.length) : l.take (k + 1) <+: s.chain (termAt l (k + 1)) := by
  have hget : l[k]? = some l[k] := List.getElem?_eq_getElem hk
  have htake : l.take (k + 1) = l.take k ++ [l[k]] := by
    rw [List.take_add_one, hget]
    rfl
  rw [termAt_succ hget, htake]
  exact hl _ _ (htake ▸ List.take_prefix _ _)

omit [PersistentState σ] in
/-- Entries of one term come from one leader: a log that has some at `k` has one wherever
another log has one below. -/
theorem termAt_of_one_leader {l l' : List LogEntry} (hl : Consensus.Rooted M.rules s l)
    (hl' : Consensus.Rooted M.rules s l') {j k : ℕ} (hjk : j ≤ k) (hk : k ≤ l.length)
    (hj : j ≤ l'.length) (hterm : termAt l k = termAt l' j) : termAt l j = termAt l k := by
  cases j with
  | zero => exact hterm.symm
  | succ m =>
      obtain ⟨n, rfl⟩ : ∃ n, k = n + 1 := ⟨k - 1, by omega⟩
      have hchain := (List.take_prefix_take_left hjk).trans (take_extends_chain hl hk)
      have hchain' := take_extends_chain hl' hj
      rw [← hterm] at hchain'
      have hlength : (l.take (m + 1)).length = (l'.take (m + 1)).length := by
        rw [List.length_take, List.length_take]
        omega
      rw [hterm]
      exact termAt_take ((List.prefix_of_prefix_length_le hchain hchain' hlength.le).eq_of_length
        hlength)

omit [PersistentState σ] in
/-- A log without a baseline holds the terms of the full log. -/
theorem Rel.termHeld_iff (hR : Rel M c s) (hU : Uncompacted c) (i : NodeId) {k t : ℕ} :
    (c.nodes i).termHeld k = some t ↔ k ≤ (s.log i).length ∧ termAt (s.log i) k = t := by
  rw [Node.termHeld_of_le (by rw [(hU.node i).node]; exact Nat.zero_le k), (hU.node i).node,
    hR.log_eq hU i, Nat.sub_zero]
  cases k with
  | zero => simp [LogEntry.sentinel]
  | succ m =>
      rw [List.getElem?_cons_succ]
      by_cases hm : m < (s.log i).length
      · have hget := List.getElem?_eq_getElem hm
        rw [hget, termAt_succ hget]
        simp [Nat.succ_le_of_lt hm]
      · rw [List.getElem?_eq_none (not_lt.mp hm)]
        simp only [Option.map_none, reduceCtorEq, false_iff, not_and]
        omega

omit [PersistentState σ] in
/-- The logs of a leader and of a peer in its term are as `Rollback` asks for. -/
theorem Delivery.rollback (h : Delivery M reader c) (hleader : (c.nodes i).role = .leader)
    (hp : p ∈ (M.config i).peers) (hterm : (c.nodes p).currentTerm = (c.nodes i).currentTerm) :
    (Exchange.mk (c.nodes i) (c.nodes p)).Rollback p := by
  obtain ⟨s, hR⟩ := h.refines
  have hU := h.uncompacted
  have hleading := (hR.node i).leading hleader
  have hlast := (hR.node i).holds.lastLogIndex_eq
  have hbase := (hU.node i).node
  have hbase' := (hU.node p).node
  have hzero := (hR.node i).holds.baseTerm
  have hzero' := (hR.node p).holds.baseTerm
  rw [hbase] at hzero
  rw [hbase'] at hzero'
  have hheld := fun k t => hR.termHeld_iff hU i (k := k) (t := t)
  have hheld' := fun k t => hR.termHeld_iff hU p (k := k) (t := t)
  have hrooted := hR.inv.log_rooted i
  have hrooted' := hR.inv.log_rooted p
  exact {
    role := hleader
    term := hterm
    next := by
      change (c.nodes i).lastIncludedIndex < (c.nodes i).nextIndex.get p
      have := (hleading.next p hp).1
      omega
    leaderBase := by
      change (c.nodes i).termHeld (c.nodes i).lastIncludedIndex = some (c.nodes i).lastIncludedTerm
      rw [hbase, hheld]
      exact ⟨Nat.zero_le _, hzero.symm⟩
    followerBase := by
      change (c.nodes p).termHeld (c.nodes p).lastIncludedIndex = some (c.nodes p).lastIncludedTerm
      rw [hbase', hheld']
      exact ⟨Nat.zero_le _, hzero'.symm⟩
    logMatching := by
      intro k t hk hk' j hj u v hu hv
      obtain ⟨hle, ht⟩ := (hheld k t).mp hk
      obtain ⟨hle', ht'⟩ := (hheld' k t).mp hk'
      rw [← ((hheld j u).mp hu).2, ← ((hheld' j v).mp hv).2]
      have htake := take_eq_of_termAt_eq hrooted hrooted' hle hle' (ht.trans ht'.symm)
      exact termAt_take (take_eq_of_le htake hj)
    oneLeader := by
      intro k t hk j hj hj' u hu
      obtain ⟨hle, ht⟩ := (hheld k t).mp hk
      obtain ⟨hle', ht'⟩ := (hheld' j t).mp hj'
      rw [← ((hheld j u).mp hu).2, ← ht]
      exact termAt_of_one_leader hrooted hrooted' hj hle hle' (ht.trans ht'.symm)
    leaderBaseline := by
      intro t ht
      change (c.nodes p).termHeld (c.nodes i).lastIncludedIndex = some t at ht
      rw [hbase, hheld'] at ht
      exact ht.2.symm.trans hzero.symm
    followerBaseline := by
      intro t ht
      change (c.nodes i).termHeld (c.nodes p).lastIncludedIndex = some t at ht
      rw [hbase', hheld] at ht
      exact ht.2.symm.trans hzero'.symm
    followerBase_le := by
      change (c.nodes p).lastIncludedIndex ≤ _
      rw [hbase']
      exact Nat.zero_le _
    leaderBase_le := by
      change (c.nodes i).lastIncludedIndex ≤ _
      rw [hbase]
      exact Nat.zero_le _
    matchIndex_le := by
      change (c.nodes i).matchIndex.get p ≤ (c.nodes i).lastLogIndex
      rw [hlast, hleading.whole]
      exact (hleading.acked p hp).trans (hR.inv.ack_le p _)
    next_le := by
      change (c.nodes i).nextIndex.get p ≤ (c.nodes i).lastLogIndex + 1
      rw [hlast]
      exact (hleading.next p hp).2 }

/-! ## Rounds -/

/-- Rounds of replication can bring one state to the other. -/
abbrev Cluster.Replicates (M : Members) : Cluster σ → Cluster σ → Prop :=
  Reaches (Cluster.step M) fun _ a => a.replicating

theorem Cluster.replicates_step (c : Cluster σ) {a : Action} (ha : a.replicating) :
    Cluster.Replicates M c (c.step M a) :=
  .next .refl ha

theorem Delivery.replicates (h : Delivery M reader c) (hrounds : Cluster.Replicates M c c') :
    Delivery M reader c' :=
  h.goes (hrounds.mono fun _ _ ha => Bool.or_eq_true_iff.mpr (.inr ha))

/-- A request is sent, delivered and its answer taken. -/
theorem Cluster.exchange (c : Cluster σ) (hi : i ∈ M.ids) (hp : p ∈ (M.config i).peers)
    {req : AppendEntriesRequest}
    (hbuilt : (c.nodes i).replicateToPeer p = .appendEntries req) :
    ∃ c', Cluster.Replicates M c c' ∧
      c'.nodes i = (c.nodes i).handleAppendReply p req
        ((c.nodes p).handleAppendEntries req).1 ∧
      c'.nodes p = ((c.nodes p).handleAppendEntries req).2 ∧
      ∀ j, j ≠ i → j ≠ p → c'.nodes j = c.nodes j := by
  have hne : p ≠ i := (Members.mem_peers.mp hp).1
  let out := (c.nodes p).handleAppendEntries req
  let k := c.appends.length
  let c₁ : Cluster σ := { c with appends := c.appends ++ [.call i p req] }
  have hsend : c.step M (.replicate i p) = c₁ := by
    simp only [Cluster.step, if_pos (And.intro hi hp), Cluster.replicate, hbuilt]
    rfl
  have hcall : c₁.appends[k]? = some (.call i p req) := List.getElem?_concat_length ..
  let c₂ : Cluster σ := { c₁.setNode p out.2 with appends := c₁.appends.modify k (.answer out.1) }
  have hdeliver : c₁.step M (.deliverAppend k) = c₂ := by
    simp only [Cluster.step, Cluster.deliverAppend, hcall]
    rfl
  have hcall₂ : c₂.appends[k]? = some ⟨i, p, req, [out.1], true⟩ := by
    change (c₁.appends.modify k _)[k]? = _
    rw [List.getElem?_modify_eq, hcall]
    rfl
  let c₃ : Cluster σ := { c₂.setNode i ((c₂.nodes i).handleAppendReply p req out.1) with
    appends := c₂.appends.modify k .consume }
  have hreply : c₂.step M (.replyAppend k 0) = c₃ := by
    simp only [Cluster.step, Cluster.replyAppend, hcall₂]
    rfl
  refine ⟨c₃, ?_, ?_, ?_, fun j hji hjp => ?_⟩
  · have h₁ := c.replicates_step (M := M) (a := .replicate i p) rfl
    have h₂ := c₁.replicates_step (M := M) (a := .deliverAppend k) rfl
    have h₃ := c₂.replicates_step (M := M) (a := .replyAppend k 0) rfl
    rw [hsend] at h₁
    rw [hdeliver] at h₂
    rw [hreply] at h₃
    exact (h₁.trans h₂).trans h₃
  · change update (update c.nodes p out.2) i ((update c.nodes p out.2 i).handleAppendReply
      p req out.1) i = _
    rw [update_self, update_of_ne hne.symm]
  · change update (update c.nodes p out.2) i _ p = _
    rw [update_of_ne hne, update_self]
  · change update (update c.nodes p out.2) i _ j = _
    rw [update_of_ne hji, update_of_ne hjp]

/-- A round of the exchange, in the cluster. -/
theorem Cluster.round (c : Cluster σ) (hi : i ∈ M.ids) (hp : p ∈ (M.config i).peers)
    (habove : (Exchange.mk (c.nodes i) (c.nodes p)).Above p) {ex : Exchange σ}
    (hround : (Exchange.mk (c.nodes i) (c.nodes p)).round p = .retry ex ∨
      (Exchange.mk (c.nodes i) (c.nodes p)).round p = .success ex) :
    ∃ c', Cluster.Replicates M c c' ∧ c'.nodes i = ex.leader ∧ c'.nodes p = ex.follower ∧
      ∀ j, j ≠ i → j ≠ p → c'.nodes j = c.nodes j := by
  obtain ⟨c', hrounds, hleader, hfollower, hothers⟩ := c.exchange hi hp habove.replicateToPeer_eq
  unfold Exchange.round at hround
  rw [habove.replicateToPeer_eq] at hround
  simp only at hround
  have hex : ⟨c'.nodes i, c'.nodes p⟩ = ex := by
    rw [hleader, hfollower]
    split at hround
    · simp at hround
    · split at hround
      · simpa using hround
      · simpa using hround
  exact ⟨c', hrounds, by rw [← hex], by rw [← hex], hothers⟩

/-! ## Committing -/

namespace Node

omit [PersistentState σ]

variable {n : Node σ}

/-- The last entry is of the node's own term. -/
def OwnLast (n : Node σ) : Prop :=
  n.log.getLast?.map LogEntry.term = some n.currentTerm

/-- If a majority has the last entry, it is committed. -/
def Decides (n : Node σ) : Prop :=
  n.quorum ≤ n.replications n.lastLogIndex → n.lastLogIndex ≤ n.commitIndex

theorem maybeAdvanceCommit_le (n : Node σ) : n.commitIndex ≤ n.maybeAdvanceCommit.commitIndex := by
  unfold maybeAdvanceCommit
  rcases n.advanceCommitFrom_cases n.lastLogIndex with heq | ⟨idx, -, hlt, -, -, -, -, heq⟩
  · rw [heq]
  · rw [heq]
    exact hlt.le

/-- `maybeAdvanceCommit` commits the last entry if it may. -/
theorem maybeAdvanceCommit_decides (h : n.OwnLast) : n.maybeAdvanceCommit.Decides := by
  intro hquorum
  have hlast := maybeAdvanceCommit_frame lastLogIndex (fun _ _ => rfl) n
  have hreplications := maybeAdvanceCommit_frame (fun m => m.replications n.lastLogIndex)
    (fun _ _ => rfl) n
  have hsize := maybeAdvanceCommit_frame quorum (fun _ _ => rfl) n
  rw [hlast, hsize] at hquorum
  rw [hlast]
  by_cases hdone : n.lastLogIndex ≤ n.commitIndex
  · exact hdone.trans n.maybeAdvanceCommit_le
  · obtain ⟨last, hget, hterm⟩ := Option.map_eq_some_iff.mp h
    have hne : n.log ≠ [] := by
      rintro hnil
      rw [hnil] at hget
      cases hget
    have hlen := List.length_pos_of_ne_nil hne
    have hend := lastLogIndex_succ hne
    have hpos : n.logPos n.lastLogIndex = some ⟨n.log.length - 1, by omega⟩ := by
      unfold logPos
      rw [if_neg (by omega), dif_pos (by omega)]
      congr 2
      omega
    have hown : (n.log.get ⟨n.log.length - 1, by omega⟩).term = n.currentTerm := by
      rw [← hterm, List.get_eq_getElem, ← List.getLast_eq_getElem hne]
      rw [List.getLast?_eq_getLast_of_ne_nil hne, Option.some.injEq] at hget
      rw [hget]
    have hcommits : n.maybeAdvanceCommit = n.commitThrough n.lastLogIndex := by
      obtain ⟨k, hk⟩ : ∃ k, n.lastLogIndex = k + 1 := ⟨n.lastLogIndex - 1, by omega⟩
      unfold maybeAdvanceCommit
      rw [hk] at hpos hdone hquorum hreplications ⊢
      rw [advanceCommitFrom, if_pos (by omega), hpos]
      simp only
      rw [if_neg (not_not.mpr hown), if_pos]
      exact hreplications ▸ hquorum
    rw [hcommits]
    exact le_rfl

theorem learnCommit_le (n : Node σ) {leaderCommit : ℕ} (hle : leaderCommit ≤ n.lastLogIndex) :
    leaderCommit ≤ (n.learnCommit leaderCommit).commitIndex := by
  unfold learnCommit
  split
  · rw [if_neg (by omega)]
    exact le_rfl
  · next hdone => exact not_lt.mp hdone

/-- What no commit changes is unchanged by `learnCommit`. -/
theorem learnCommit_frame {β : Type*} (f : Node σ → β)
    (hf : ∀ (n : Node σ) idx, f (n.advanceCommitTo idx) = f n) (n : Node σ) (leaderCommit : ℕ) :
    f (n.learnCommit leaderCommit) = f n := by
  unfold learnCommit
  split
  · exact hf ..
  · rfl

theorem acceptEntries_term [PersistentState σ] (n : Node σ) (req : AppendEntriesRequest) :
    (n.acceptEntries req).currentTerm = n.currentTerm := by
  obtain ⟨storage, heq⟩ := n.acceptEntries_eq req
  rw [heq]
  exact learnCommit_frame currentTerm (fun _ _ => rfl) ..

/-- A follower that has come as far as the leader has committed learns all of it. -/
theorem acceptEntries_commit [PersistentState σ] {req : AppendEntriesRequest}
    (hle : req.leaderCommit ≤ (n.acceptEntries req).lastLogIndex) :
    req.leaderCommit ≤ (n.acceptEntries req).commitIndex := by
  obtain ⟨storage, heq⟩ := n.acceptEntries_eq req
  rw [heq] at hle ⊢
  rw [learnCommit_frame lastLogIndex (fun _ _ => rfl)] at hle
  exact learnCommit_le _ hle

/-- What the two maps do not matter for is unchanged by `recordMatch`. -/
theorem recordMatch_frame {β : Type*} (f : Node σ → β)
    (hf : ∀ (n : Node σ) m x, f { n with matchIndex := m, nextIndex := x } = f n) (n : Node σ)
    (peer : NodeId) (newMatch : ℕ) : f (n.recordMatch peer newMatch) = f n := by
  unfold recordMatch
  split
  · exact hf ..
  · rfl

theorem recordMatch_get_of_ne (n : Node σ) {peer q : NodeId} (hne : q ≠ peer) (newMatch : ℕ) :
    (n.recordMatch peer newMatch).matchIndex.get q = n.matchIndex.get q := by
  unfold recordMatch
  split
  · change GoMap.get (n.matchIndex.insert peer newMatch) q = _
    rw [GoMap.get_insert, if_neg hne]
  · rfl

/-- An answered round leaves the leader as it is, up to what it knows of its peers and what
it has committed. -/
theorem record_frame {β : Type*} (f : Node σ → β)
    (hf : ∀ (n : Node σ) m x, f { n with matchIndex := m, nextIndex := x } = f n)
    (hf' : ∀ (n : Node σ) idx, f (n.commitThrough idx) = f n) (n : Node σ)
    (peer : NodeId) (newMatch : ℕ) : f (n.recordMatch peer newMatch).maybeAdvanceCommit = f n :=
  (maybeAdvanceCommit_frame f hf' _).trans (recordMatch_frame f hf n peer newMatch)

/-- A majority has what all have. -/
theorem quorum_le_replications {index : ℕ} (hindex : 0 < index) (hnodup : n.cfg.peers.Nodup)
    (hself : n.cfg.id ∉ n.cfg.peers)
    (hall : ∀ p ∈ n.cfg.peers, index ≤ n.matchIndex.get p) : n.quorum ≤ n.replications index := by
  have hcount : n.cfg.peers.length ≤
      n.matchIndex.entries.countP fun peer => peer.1 ≠ n.cfg.id ∧ index ≤ peer.2 := by
    let known : NodeId → Sigma fun _ : NodeId => ℕ := fun p => ⟨p, n.matchIndex.get p⟩
    have hinjective : Injective known := fun a b hab => (Sigma.mk.inj hab).1
    rw [List.countP_eq_length_filter]
    refine (List.length_map known).ge.trans
      ((List.Nodup.subperm (hnodup.map hinjective) ?_).length_le)
    intro entry hentry
    obtain ⟨p, hp, rfl⟩ := List.mem_map.mp hentry
    have hle := hall p hp
    have hlookup : n.matchIndex.lookup p = some (n.matchIndex.get p) := by
      unfold GoMap.get at hle ⊢
      cases hget : n.matchIndex.lookup p with
      | none =>
          rw [hget] at hle
          exact absurd hle (by simpa using hindex.ne')
      | some v => rfl
    refine List.mem_filter.mpr ⟨AList.mem_lookup_iff.mp hlookup, ?_⟩
    simp only [decide_eq_true_eq]
    exact ⟨fun heq => hself (heq ▸ hp), hle⟩
  unfold quorum replications
  omega

end Node

/-! ## A leader and its peers -/

/-- Commit indices do not go back. -/
theorem Delivery.commit_le (h : Delivery M reader c) (hrounds : Cluster.Replicates M c c')
    (j : NodeId) : (c.nodes j).commitIndex ≤ (c'.nodes j).commitIndex := by
  induction hrounds with
  | refl => exact le_rfl
  | @next c₁ a hrun ha ih =>
      have hc₁ := h.replicates hrun
      obtain ⟨s, hR⟩ := hc₁.refines
      refine ih.trans ?_
      have hplain := Action.plain_of_running (Bool.or_eq_true_iff.mpr (.inr ha))
      rcases c₁.step_plain hc₁.uncompacted hR hplain j with
        hsame | ⟨call, -, hreplicates, hrun⟩ | ⟨heq, -⟩
      · rw [hsame]
      · rw [hrun]
        exact ((hc₁.inOrder j).run hreplicates).commit_le
      · subst heq
        cases ha

omit [PersistentState σ] in
theorem Delivery.commit_le_last (h : Delivery M reader c) (j : NodeId) :
    (c.nodes j).commitIndex ≤ (c.nodes j).lastLogIndex := by
  obtain ⟨s, hR⟩ := h.refines
  rw [(hR.node j).holds.lastLogIndex_eq]
  exact (hR.node j).commit_le

/-- Node `i` leads term `t` with the log `l`, whose last entry is of this term, and its
peers have come to the term too. -/
structure Steady (M : Members) (reader : NodeId → ℕ) (i : NodeId) (t : ℕ) (l : List LogEntry)
    (c : Cluster σ) : Prop where
  delivery : Delivery M reader c
  role : (c.nodes i).role = .leader
  term : (c.nodes i).currentTerm = t
  log : (c.nodes i).log = l
  peers : ∀ p ∈ (M.config i).peers, (c.nodes p).currentTerm = t
  own : (c.nodes i).OwnLast
  decides : (c.nodes i).Decides

namespace Steady

variable {t : ℕ} {l : List LogEntry}

omit [PersistentState σ] in
theorem lastLogIndex_eq (h : Steady M reader i t l c) :
    (c.nodes i).lastLogIndex = l.length - 1 := by
  rw [Node.lastLogIndex, (h.delivery.uncompacted.node i).node, h.log, Nat.zero_add]

omit [PersistentState σ] in
/-- Nobody has committed more than the leader holds. -/
theorem commit_le_last (h : Steady M reader i t l c) {j : NodeId} (hj : j ∈ M.ids) :
    (c.nodes j).commitIndex ≤ l.length - 1 := by
  obtain ⟨s, hR⟩ := h.delivery.refines
  have hleading := (hR.node i).leading h.role
  have hterm : (c.nodes j).currentTerm = (c.nodes i).currentTerm := by
    by_cases hji : j = i
    · rw [hji]
    · rw [h.peers j (Members.mem_peers.mpr ⟨hji, hj⟩), h.term]
  have hlast := (hR.node i).holds.lastLogIndex_eq
  have hextends := ((hR.node j).decided.extends_chain hR.inv hterm.le hleading.leads).length_le
  rw [← hleading.whole, ← hlast, h.lastLogIndex_eq, List.length_take,
    Nat.min_eq_left (hR.node j).commit_le] at hextends
  exact hextends

omit [PersistentState σ] in
/-- After a round with one of the peers. -/
theorem follow (h : Steady M reader i t l c) (hdelivery : Delivery M reader c')
    (hrole : (c'.nodes i).role = (c.nodes i).role)
    (hterm : (c'.nodes i).currentTerm = (c.nodes i).currentTerm)
    (hlog : (c'.nodes i).log = (c.nodes i).log) (hdecides : (c'.nodes i).Decides)
    (hfollower : (c'.nodes p).currentTerm = (c.nodes p).currentTerm)
    (hothers : ∀ j, j ≠ i → j ≠ p → c'.nodes j = c.nodes j) : Steady M reader i t l c' where
  delivery := hdelivery
  role := hrole.trans h.role
  term := hterm.trans h.term
  log := hlog.trans h.log
  peers q hq := by
    by_cases hqp : q = p
    · subst hqp
      exact hfollower.trans (h.peers q hq)
    · rw [hothers q (Members.mem_peers.mp hq).1 hqp]
      exact h.peers q hq
  own := by
    unfold Node.OwnLast
    rw [hlog, hterm]
    exact h.own
  decides := hdecides

/-- The accepted round: the leader knows that the peer has all of its log, and the peer
what the leader has committed. -/
theorem accepted (h : Steady M reader i t l c) (hi : i ∈ M.ids) (hp : p ∈ (M.config i).peers)
    (hrollback : (Exchange.mk (c.nodes i) (c.nodes p)).Rollback p)
    (hc : (Exchange.mk (c.nodes i) (c.nodes p)).following.conflict
      ((Exchange.mk (c.nodes i) (c.nodes p)).next p - 1)
      ((c.nodes i).termBefore ((Exchange.mk (c.nodes i) (c.nodes p)).next p - 1)) = none) :
    ∃ c', Cluster.Replicates M c c' ∧ Steady M reader i t l c' ∧
      (c'.nodes i).matchIndex.get p = l.length - 1 ∧
      (∀ q, (c.nodes i).matchIndex.get q = l.length - 1 →
        (c'.nodes i).matchIndex.get q = l.length - 1) ∧
      (c.nodes i).commitIndex ≤ (c'.nodes p).commitIndex := by
  obtain ⟨c₁, hrounds, hleader, hfollower, hothers⟩ :=
    c.round hi hp hrollback.toAbove (.inr (hrollback.round_of_pass hc))
  obtain ⟨hmatch, -⟩ := hrollback.accepted_leader hleader
  simp only at hleader hfollower hmatch
  rw [h.lastLogIndex_eq] at hmatch
  refine ⟨c₁, hrounds, h.follow (h.delivery.replicates hrounds) ?_ ?_ ?_ ?_ ?_ hothers,
    hmatch, ?_, ?_⟩
  · rw [hleader]
    exact Node.record_frame Node.role (fun _ _ _ => rfl) (fun _ _ => rfl) ..
  · rw [hleader]
    exact Node.record_frame Node.currentTerm (fun _ _ _ => rfl) (fun _ _ => rfl) ..
  · rw [hleader]
    exact Node.record_frame Node.log (fun _ _ _ => rfl) (fun _ _ => rfl) ..
  · rw [hleader]
    refine Node.maybeAdvanceCommit_decides ?_
    exact (Node.recordMatch_frame Node.OwnLast (fun _ _ _ => rfl) ..).mpr h.own
  · rw [hfollower, Node.acceptEntries_term]
    rfl
  · intro q hq
    by_cases hqp : q = p
    · rw [hqp, hmatch]
    · rw [hleader, ← hq]
      exact (Node.maybeAdvanceCommit_frame (fun n => n.matchIndex.get q) (fun _ _ => rfl) _).trans
        (Node.recordMatch_get_of_ne _ hqp _)
  · rw [hfollower]
    change ((Exchange.mk (c.nodes i) (c.nodes p)).request p).leaderCommit ≤ _
    refine Node.acceptEntries_commit ((h.delivery.commit_le_last i).trans ?_)
    obtain ⟨u, hu⟩ := Node.exists_termHeld hrollback.leader_log
      (Node.base_le_lastLogIndex hrollback.leader_log) le_rfl
    have hbase : (c.nodes p).lastIncludedIndex = 0 := (h.delivery.uncompacted.node p).node
    have hheld := hrollback.accepted_follower hc (Node.base_le_lastLogIndex hrollback.leader_log)
      (by rw [hbase]; exact Nat.zero_le _) le_rfl
    exact (Node.termHeld_bounds (hheld.trans hu)).2

/-- Rounds with a peer until one is accepted. -/
theorem sync (h : Steady M reader i t l c) (hi : i ∈ M.ids) (hp : p ∈ (M.config i).peers) :
    ∃ c', Cluster.Replicates M c c' ∧ Steady M reader i t l c' ∧
      (c'.nodes i).matchIndex.get p = l.length - 1 ∧
      (∀ q, (c.nodes i).matchIndex.get q = l.length - 1 →
        (c'.nodes i).matchIndex.get q = l.length - 1) ∧
      (c.nodes i).commitIndex ≤ (c'.nodes p).commitIndex := by
  -- every rejection moves `nextIndex` down
  induction hn : (c.nodes i).nextIndex.get p using Nat.strongRecOn generalizing c with
  | ind n ih =>
      have hrollback := h.delivery.rollback h.role hp ((h.peers p hp).trans h.term.symm)
      cases hc : (Exchange.mk (c.nodes i) (c.nodes p)).following.conflict
          ((Exchange.mk (c.nodes i) (c.nodes p)).next p - 1)
          ((c.nodes i).termBefore ((Exchange.mk (c.nodes i) (c.nodes p)).next p - 1)) with
      | none => exact h.accepted hi hp hrollback hc
      | some hint =>
          have hround := hrollback.round_of_conflict hc
          obtain ⟨hlt, -, -, -⟩ := hrollback.retry_lt hround
          obtain ⟨c₁, hrounds, hleader, hfollower, hothers⟩ :=
            c.round hi hp hrollback.toAbove (.inl hround)
          have hsteady : Steady M reader i t l c₁ := by
            refine h.follow (h.delivery.replicates hrounds) ?_ ?_ ?_ ?_ ?_ hothers
            · rw [hleader]
            · rw [hleader]
            · rw [hleader]
            · rw [hleader]
              exact h.decides
            · rw [hfollower]
              rfl
          obtain ⟨c₂, hrounds₂, hsteady₂, hmatched, hkept, hlearned⟩ :=
            ih ((c₁.nodes i).nextIndex.get p) (by rw [hleader, ← hn]; exact hlt) hsteady rfl
          rw [hleader] at hkept hlearned
          exact ⟨c₂, hrounds.trans hrounds₂, hsteady₂, hmatched, hkept, hlearned⟩

/-- A pass over some of the peers. -/
theorem syncAll (h : Steady M reader i t l c) (hi : i ∈ M.ids) (ps : List NodeId)
    (hps : ∀ p ∈ ps, p ∈ (M.config i).peers) :
    ∃ c', Cluster.Replicates M c c' ∧ Steady M reader i t l c' ∧
      (∀ p ∈ ps, (c'.nodes i).matchIndex.get p = l.length - 1) ∧
      ∀ p ∈ ps, (c.nodes i).commitIndex ≤ (c'.nodes p).commitIndex := by
  -- from the last peer to the first
  induction ps with
  | nil => exact ⟨c, .refl, h, by simp, by simp⟩
  | cons p ps ih =>
      obtain ⟨c₁, hrounds, hsteady, hmatched, hlearned⟩ :=
        ih fun q hq => hps q (List.mem_cons_of_mem _ hq)
      obtain ⟨c₂, hrounds₂, hsteady₂, hmatch, hkept, hlearn⟩ :=
        hsteady.sync hi (hps p List.mem_cons_self)
      refine ⟨c₂, hrounds.trans hrounds₂, hsteady₂, ?_, ?_⟩
      · rintro q (_ | ⟨_, hq⟩)
        · exact hmatch
        · exact hkept q (hmatched q hq)
      · rintro q (_ | ⟨_, hq⟩)
        · exact (h.delivery.commit_le hrounds i).trans hlearn
        · exact (hlearned q hq).trans (hsteady.delivery.commit_le hrounds₂ q)

/-- Two passes over the peers: after the first the leader commits all it has, the second
tells the peers. -/
theorem commits (h : Steady M reader i t l c) (hi : i ∈ M.ids) :
    ∃ c', Cluster.Replicates M c c' ∧ Steady M reader i t l c' ∧
      ∀ j ∈ M.ids, l.length - 1 ≤ (c'.nodes j).commitIndex := by
  obtain ⟨c₁, hrounds, hsteady, hmatched, -⟩ := h.syncAll hi (M.config i).peers fun _ => id
  obtain ⟨c₂, hrounds₂, hsteady₂, -, hlearned⟩ :=
    hsteady.syncAll hi (M.config i).peers fun _ => id
  have hcommitted : l.length - 1 ≤ (c₁.nodes i).commitIndex := by
    rw [← hsteady.lastLogIndex_eq]
    rcases Nat.eq_zero_or_pos (c₁.nodes i).lastLogIndex with hzero | hpos
    · rw [hzero]
      exact Nat.zero_le _
    · have hcfg := hsteady.delivery.election.config i
      refine hsteady.decides (Node.quorum_le_replications hpos ?_ ?_ ?_)
      · rw [hcfg]
        exact M.nodup.erase i
      · rw [hcfg]
        exact fun hself => (Members.mem_peers.mp hself).1 rfl
      · intro p hp
        rw [hcfg] at hp
        rw [hmatched p hp, hsteady.lastLogIndex_eq]
  refine ⟨c₂, hrounds.trans hrounds₂, hsteady₂, fun j hj => ?_⟩
  by_cases hji : j = i
  · subst hji
    exact hcommitted.trans (hsteady.delivery.commit_le hrounds₂ j)
  · exact hcommitted.trans (hlearned j (Members.mem_peers.mpr ⟨hji, hj⟩))

/-- A leader that has taken a proposal. -/
theorem of_propose (h : Delivery M reader c) (hi : i ∈ M.ids)
    (hleader : (c.nodes i).role = .leader)
    (hterm : ∀ p ∈ (M.config i).peers, (c.nodes p).currentTerm = (c.nodes i).currentTerm)
    (data : Bytes) :
    Steady M reader i (c.nodes i).currentTerm ((c.nodes i).log ++ [(c.nodes i).nextEntry data])
      (c.step M (.propose i data)) := by
  have hstep : c.step M (.propose i data) = c.setNode i
      ((c.nodes i).appendOwn ((c.nodes i).nextEntry data)).maybeAdvanceCommit := by
    simp only [Cluster.step, if_pos hi, Cluster.propose, Node.propose,
      if_neg (not_not.mpr hleader)]
  have hdelivery : Delivery M reader (c.step M (.propose i data)) :=
    Delivery.step (a := .propose i data) h rfl fun _ heq => by cases heq
  rw [hstep] at hdelivery ⊢
  have hterm' := Node.maybeAdvanceCommit_frame Node.currentTerm (fun _ _ => rfl)
    ((c.nodes i).appendOwn ((c.nodes i).nextEntry data))
  have hlog := Node.maybeAdvanceCommit_frame Node.log (fun _ _ => rfl)
    ((c.nodes i).appendOwn ((c.nodes i).nextEntry data))
  have hown : ((c.nodes i).appendOwn ((c.nodes i).nextEntry data)).OwnLast := by
    simp [Node.OwnLast, Node.appendOwn, Node.persistEntries, Node.nextEntry]
  refine ⟨hdelivery, ?_, ?_, ?_, fun p hp => ?_, ?_, ?_⟩
  · rw [Cluster.setNode_self, Node.maybeAdvanceCommit_frame Node.role (fun _ _ => rfl)]
    exact hleader
  · rw [Cluster.setNode_self, hterm']
    rfl
  · rw [Cluster.setNode_self, hlog]
    rfl
  · rw [c.setNode_of_ne _ (Members.mem_peers.mp hp).1]
    exact hterm p hp
  · rw [Cluster.setNode_self]
    unfold Node.OwnLast
    rw [hlog, hterm']
    exact hown
  · rw [Cluster.setNode_self]
    exact Node.maybeAdvanceCommit_decides hown

end Steady

/-! ## Delivery -/

/-- A stream of commands has one for every index up to its height. -/
theorem exists_of_heightAfter {msgs : List ApplyMsg} {b k : ℕ}
    (hcommands : ∀ msg ∈ msgs, ∃ e, msg = .command e) (hheight : heightAfter b msgs = some k)
    {index : ℕ} (hlt : b < index) (hle : index ≤ k) : ∃ e, .command e ∈ msgs ∧ e.index = index := by
  induction msgs generalizing b with
  | nil =>
      rw [heightAfter, Option.some.injEq] at hheight
      omega
  | cons msg rest ih =>
      obtain ⟨e, rfl⟩ := hcommands msg List.mem_cons_self
      rw [heightAfter] at hheight
      split at hheight
      · next hnext =>
          by_cases hfirst : index = b + 1
          · exact ⟨e, List.mem_cons_self, hnext.trans hfirst.symm⟩
          · obtain ⟨e', he', hindex⟩ :=
              ih (fun msg hmsg => hcommands msg (List.mem_cons_of_mem _ hmsg)) hheight (by omega)
            exact ⟨e', List.mem_cons_of_mem _ he', hindex⟩
      · cases hheight

/-- It has no others. -/
theorem length_of_heightAfter {msgs : List ApplyMsg} {b k : ℕ}
    (hcommands : ∀ msg ∈ msgs, ∃ e, msg = .command e) (hheight : heightAfter b msgs = some k) :
    b + msgs.length = k := by
  induction msgs generalizing b with
  | nil => exact Option.some.inj hheight
  | cons msg rest ih =>
      obtain ⟨e, rfl⟩ := hcommands msg List.mem_cons_self
      rw [heightAfter] at hheight
      split at hheight
      · have hrest := ih (fun msg hmsg => hcommands msg (List.mem_cons_of_mem _ hmsg)) hheight
        rw [List.length_cons]
        omega
      · cases hheight

omit [PersistentState σ] in
theorem Delivery.commands (h : Delivery M reader c) :
    ∀ msg ∈ (c.nodes i).applyCh, ∃ e, msg = .command e := by
  intro msg hmsg
  cases msg with
  | command e => exact ⟨e, rfl⟩
  | snapshot data at_ term =>
      have hmem : (at_, data) ∈ (c.nodes i).installed :=
        List.mem_filterMap.mpr ⟨_, h.recorded i _ hmsg, rfl⟩
      rw [h.installed i] at hmem
      exact absurd hmem List.not_mem_nil

omit [PersistentState σ] in
/-- What a node has committed and its reader has not taken yet is on the channel. -/
theorem Delivery.queued (h : Delivery M reader c) {index : ℕ} (hlt : reader i < index)
    (hle : index ≤ (c.nodes i).commitIndex) :
    ∃ e, .command e ∈ (c.nodes i).applyCh ∧ e.index = index :=
  exists_of_heightAfter h.commands (h.inOrder i).stream hlt hle

omit [PersistentState σ] in
theorem Delivery.length_applyCh (h : Delivery M reader c) :
    reader i + (c.nodes i).applyCh.length = (c.nodes i).commitIndex :=
  length_of_heightAfter h.commands (h.inOrder i).stream

/-- No member has more than `room` messages on its channel. -/
def Cluster.HasRoom (M : Members) (room : ℕ) (c : Cluster σ) : Prop :=
  ∀ j ∈ M.ids, (c.nodes j).applyCh.length ≤ room

/-- Nobody reads, so a channel that has room at the end had it all along. -/
theorem Delivery.hasRoom (h : Delivery M reader c) {room : ℕ}
    (hrounds : Cluster.Replicates M c c') (hend : c'.HasRoom M room) :
    Reaches (Cluster.step M) (fun c a => a.replicating ∧ c.HasRoom M room) c c' := by
  refine hrounds.throughout (fun c₁ a hrun ha hroom j hj => ?_) hend
  have hc₁ := h.replicates hrun
  have hstep := c₁.replicates_step (M := M) ha
  have hcommit := hc₁.commit_le hstep j
  rw [← hc₁.length_applyCh, ← (hc₁.replicates hstep).length_applyCh] at hcommit
  exact (Nat.le_of_add_le_add_left hcommit).trans (hroom j hj)

omit [PersistentState σ] in
/-- What anybody has delivered is in the log of a node that has committed as much. -/
theorem Delivery.log_of_applied (h : Delivery M reader c) {j : NodeId} {e : LogEntry}
    (he : Event.applied (.command e) ∈ (c.nodes j).events)
    (hle : e.index ≤ (c.nodes i).commitIndex) : (c.nodes i).log[e.index]? = some e := by
  obtain ⟨s, hR⟩ := h.refines
  obtain ⟨l, u, hl, hpos, hget⟩ := hR.event j _ he
  obtain ⟨k, hk⟩ : ∃ k, e.index = k + 1 := ⟨e.index - 1, by omega⟩
  have hlength := (hR.node i).commit_le
  have hown : ((s.log i).take (c.nodes i).commitIndex)[k]? = some (s.log i)[k] := by
    rw [List.getElem?_take_of_lt (by omega), List.getElem?_eq_getElem]
  rw [hR.log_eq h.uncompacted i, hk, List.getElem?_cons_succ, List.getElem?_eq_getElem (by omega),
    (hR.node i).decided.entry_unique hR.inv hl hown (by rw [← hget, hk, Nat.add_sub_cancel])]

/-- **No reachable state is a dead end.**  In any run without compaction, from wherever it has
come to, timers and votes can bring the cluster to a state with a leader, and whatever is then
proposed to this leader can be brought to every member by rounds of replication, which deliver
it.  Nothing is read from the channels meanwhile, and none holds more messages than the index
of the new entry. -/
theorem progress_possible (M : Members) (hM : M.ids ≠ []) (c : Cluster σ)
    (hrun : Cluster.Reachable M (fun _ a => a.plain) c) :
    ∃ c₁ i, Cluster.Elects M c c₁ ∧ i ∈ M.ids ∧ (c₁.nodes i).role = .leader ∧
      ∀ data, ∃ c₂,
        Reaches (Cluster.step M)
          (fun c' a => a.replicating ∧ c'.HasRoom M ((c₁.nodes i).nextEntry data).index)
          (c₁.step M (.propose i data)) c₂ ∧
        c₂.HasRoom M ((c₁.nodes i).nextEntry data).index ∧
        ∀ j ∈ M.ids,
          Event.applied (.command ((c₁.nodes i).nextEntry data)) ∈ (c₂.nodes j).events := by
  have h := delivery_of_plain hrun
  obtain ⟨c₁, i, helects, hi, hleader, hterm⟩ := h.exists_leader hM
  refine ⟨c₁, i, helects, hi, hleader, fun data => ?_⟩
  have hdelivery₁ := h.elects helects
  have hproposed := Steady.of_propose hdelivery₁ hi hleader hterm data
  obtain ⟨c₂, hrounds, hsteady, hcommitted⟩ := hproposed.commits hi
  have hindex : ((c₁.nodes i).nextEntry data).index = (c₁.nodes i).log.length := by
    have hbase := (hdelivery₁.uncompacted.node i).node
    have hend := Node.lastLogIndex_succ (hdelivery₁.inOrder i).anchored.nonempty
    change (c₁.nodes i).lastLogIndex + 1 = _
    omega
  have hlength : ((c₁.nodes i).log ++ [(c₁.nodes i).nextEntry data]).length - 1 =
      ((c₁.nodes i).nextEntry data).index := by
    rw [hindex, List.length_append, List.length_singleton, Nat.add_sub_cancel]
  rw [hlength] at hcommitted
  have hroom : c₂.HasRoom M ((c₁.nodes i).nextEntry data).index := by
    intro j hj
    rw [← hlength]
    refine le_trans ?_ (hsteady.commit_le_last hj)
    exact (Nat.le_add_left _ _).trans hsteady.delivery.length_applyCh.le
  refine ⟨c₂, hproposed.delivery.hasRoom hrounds hroom, hroom, fun j hj => ?_⟩
  have hpos : 0 < ((c₁.nodes i).nextEntry data).index := Nat.succ_pos _
  obtain ⟨e, hqueued, heq⟩ := hsteady.delivery.queued hpos (hcommitted j hj)
  have he := hsteady.delivery.recorded j _ hqueued
  have hget := hsteady.delivery.log_of_applied he (heq.trans_le (hcommitted i hi))
  rw [hsteady.log, heq, hindex, List.getElem?_concat_length, Option.some.injEq] at hget
  exact hget ▸ he

/-- From the end of the failover with its restarted leader. -/
theorem progress_possible_failover : ∃ (c₁ : Cluster MemState) (i : NodeId),
    Cluster.Elects .trio failoverEnd c₁ ∧ i ∈ Members.trio.ids ∧ (c₁.nodes i).role = .leader ∧
      ∀ data, ∃ c₂,
        Reaches (Cluster.step .trio)
          (fun c' a => a.replicating ∧ c'.HasRoom .trio ((c₁.nodes i).nextEntry data).index)
          (c₁.step .trio (.propose i data)) c₂ ∧
        c₂.HasRoom .trio ((c₁.nodes i).nextEntry data).index ∧
        ∀ j ∈ Members.trio.ids,
          Event.applied (.command ((c₁.nodes i).nextEntry data)) ∈ (c₂.nodes j).events :=
  progress_possible .trio (by decide) failoverEnd failoverEnd_reachable

end RaftKV.Raft
