import RaftKV.Raft.Ballots

/-!
# Election safety

No two nodes become leader in the same term, whatever is lost, repeated or
delayed, and whichever processes die and restart on their storage.

The invariant follows the votes.  A vote on record pins the voter's hard state
(`pinned`), so a voter has one candidate per term (`once`).  Each vote that a
candidate has counted belongs to a different peer, whose call is no longer live
and so cannot be counted again (`Tally`); a node that became leader has a quorum
of voters behind it (`won`).

`ElectionInv.transfer` names what a step has to show.  It is applied to five
kinds of steps: quiet ones, and a node that campaigns, grants a vote, counts one,
or wins.
-/

namespace RaftKV.Raft

open Function

variable {σ : Type}

/-- `n` has voted for `candidate` in term `t`. -/
def Node.Voted (n : Node σ) (t : ℕ) (candidate : NodeId) : Prop :=
  ∃ lastLogIndex lastLogTerm, Event.voted t candidate lastLogIndex lastLogTerm ∈ n.events

/-- `n` has executed `becomeLeader` in term `t`. -/
def Node.Led (n : Node σ) (t : ℕ) : Prop :=
  ∃ lastIncludedIndex log, Event.becameLeader t lastIncludedIndex log ∈ n.events

/-! ## One node -/

/-- The votes and victories of a node fit its term, vote and role. -/
structure Node.BallotInv (n : Node σ) : Prop where
  pinned : ∀ t candidate, n.Voted t candidate → candidate ≠ "" ∧ HardLe (t, candidate) n.hardState
  once : ∀ t candidate candidate', n.Voted t candidate → n.Voted t candidate' →
    candidate = candidate'
  led_le : ∀ t, n.Led t → t ≤ n.currentTerm
  unled : n.role = .candidate → ¬ n.Led n.currentTerm
  leads : n.role = .leader → n.Led n.currentTerm

theorem Quiet.voted {n n' : Node σ} (h : Quiet n n') {t : ℕ} {candidate : NodeId} :
    n'.Voted t candidate ↔ n.Voted t candidate := by
  unfold Node.Voted
  simp only [h.mem_events (e := Event.voted _ _ _ _) rfl]

theorem Quiet.led {n n' : Node σ} (h : Quiet n n') {t : ℕ} : n'.Led t ↔ n.Led t := by
  unfold Node.Led
  simp only [h.mem_events (e := Event.becameLeader _ _ _) rfl]

namespace Node.BallotInv

variable {n n' : Node σ}

theorem quiet (h : n.BallotInv) (hq : Quiet n n') : n'.BallotInv where
  pinned t candidate hvoted := by
    obtain ⟨hne, hle⟩ := h.pinned t candidate (hq.voted.mp hvoted)
    exact ⟨hne, hle.trans hq.hard⟩
  once t candidate candidate' hvoted hvoted' :=
    h.once t _ _ (hq.voted.mp hvoted) (hq.voted.mp hvoted')
  led_le t hled := (h.led_le t (hq.led.mp hled)).trans hq.hard.term_le
  unled hrole hled := by
    obtain ⟨hsame, hterm, -⟩ := hq.role (by simp [hrole])
    rw [hq.led, hterm] at hled
    exact h.unled (hsame ▸ hrole) hled
  leads hrole := by
    obtain ⟨hsame, hterm, -⟩ := hq.role (by simp [hrole])
    rw [hq.led, hterm]
    exact h.leads (hsame ▸ hrole)

/-- A vote on record for the current term is the node's `votedFor`. -/
theorem votedFor_eq (h : n.BallotInv) {candidate : NodeId}
    (hvoted : n.Voted n.currentTerm candidate) : candidate ≠ "" ∧ candidate = n.votedFor := by
  obtain ⟨hne, hlt | ⟨-, hnone | hrecord⟩⟩ := h.pinned _ _ hvoted
  · exact absurd hlt (lt_irrefl _)
  · exact absurd hnone hne
  · exact ⟨hne, hrecord⟩

/-- One more vote is recorded: it must fit the hard state, and an earlier one of
the same term. -/
theorem vote (h : n.BallotInv) {candidate : NodeId} (hnamed : candidate ≠ "")
    (hhard : HardLe n.hardState n'.hardState) (hvote : n'.votedFor = candidate)
    (hfirst : n.currentTerm < n'.currentTerm ∨ ∀ old, n.Voted n'.currentTerm old → old = candidate)
    (hvoted : ∀ t x, n'.Voted t x → n.Voted t x ∨ (t = n'.currentTerm ∧ x = candidate))
    (hled : ∀ t, n'.Led t ↔ n.Led t)
    (hrole : n'.role = .candidate ∧ n.currentTerm < n'.currentTerm ∨
      n'.role = n.role ∧ n'.currentTerm = n.currentTerm) : n'.BallotInv := by
  have hsingle : ∀ old, n.Voted n'.currentTerm old → old = candidate := by
    intro old hold
    rcases hfirst with hlt | hfirst
    · exact absurd (h.pinned _ _ hold).2.term_le (Nat.not_le_of_lt hlt)
    · exact hfirst old hold
  refine ⟨?_, ?_, ?_, ?_, ?_⟩
  · intro t x hx
    rcases hvoted t x hx with hx | ⟨rfl, rfl⟩
    · exact ⟨(h.pinned t x hx).1, (h.pinned t x hx).2.trans hhard⟩
    · exact ⟨hnamed, .inr ⟨rfl, .inr hvote.symm⟩⟩
  · intro t x x' hx hx'
    rcases hvoted t x hx with hx | ⟨rfl, rfl⟩
    · rcases hvoted t x' hx' with hx' | ⟨rfl, rfl⟩
      · exact h.once t x x' hx hx'
      · exact hsingle x hx
    · rcases hvoted _ x' hx' with hx' | ⟨-, rfl⟩
      · exact (hsingle x' hx').symm
      · rfl
  · intro t ht
    exact (h.led_le t ((hled t).mp ht)).trans hhard.term_le
  · intro hcandidate ht
    rw [hled] at ht
    rcases hrole with ⟨-, hlt⟩ | ⟨hsame, hterm⟩
    · exact absurd (h.led_le _ ht) (Nat.not_le_of_lt hlt)
    · rw [hterm] at ht
      exact h.unled (hsame ▸ hcandidate) ht
  · intro hleader
    rw [hled]
    rcases hrole with ⟨hcandidate, -⟩ | ⟨hsame, hterm⟩
    · simp [hcandidate] at hleader
    · rw [hterm]
      exact h.leads (hsame ▸ hleader)

variable [PersistentState σ]

theorem grantVote (h : n.BallotInv) {req : RequestVoteRequest} (hnamed : req.candidateId ≠ "")
    (hfree : ¬ (n.votedFor ≠ "" ∧ n.votedFor ≠ req.candidateId)) :
    (n.grantVote req).BallotInv := by
  refine h.vote hnamed (grantVote_hardLe hfree) rfl (.inr ?_) ?_ ?_
    (.inr ⟨rfl, rfl⟩)
  · -- a second vote of this term would contradict the vote already on record
    intro old hold
    obtain ⟨hne, hrecord⟩ := h.votedFor_eq (n := n) hold
    by_contra hdiff
    exact hfree ⟨hrecord ▸ hne, hrecord ▸ hdiff⟩
  · rintro t x ⟨i, j, hmem⟩
    simp only [Node.grantVote, persistHardState, List.mem_append, List.mem_singleton,
      Event.voted.injEq] at hmem
    rcases hmem with hmem | ⟨ht, hx, -, -⟩
    · exact .inl ⟨i, j, hmem⟩
    · exact .inr ⟨ht, hx⟩
  · intro t
    simp [Led, Node.grantVote, persistHardState]

theorem campaign (h : n.BallotInv) (hnamed : n.cfg.id ≠ "") : n.campaign.BallotInv := by
  have hlt : n.currentTerm < n.campaign.currentTerm := Nat.lt_succ_self _
  refine h.vote hnamed (.inl hlt) rfl (.inl hlt) ?_ ?_ (.inl ⟨rfl, hlt⟩)
  · rintro t x ⟨i, j, hmem⟩
    simp only [Node.campaign, persistHardState, List.mem_append, List.mem_singleton,
      Event.voted.injEq] at hmem
    rcases hmem with hmem | ⟨ht, hx, -, -⟩
    · exact .inl ⟨i, j, hmem⟩
    · exact .inr ⟨ht, hx⟩
  · intro t
    simp [Led, Node.campaign, persistHardState]

omit [PersistentState σ] in
theorem becomeLeader (h : n.BallotInv) : n.becomeLeader.BallotInv := by
  have hvoted : ∀ t x, n.becomeLeader.Voted t x ↔ n.Voted t x := by
    intro t x
    simp [Voted, Node.becomeLeader]
  have hled : ∀ t, n.becomeLeader.Led t → n.Led t ∨ t = n.currentTerm := by
    rintro t ⟨i, log, hmem⟩
    simp only [Node.becomeLeader, List.mem_append, List.mem_singleton,
      Event.becameLeader.injEq] at hmem
    rcases hmem with hmem | ⟨ht, -, -⟩
    · exact .inl ⟨i, log, hmem⟩
    · exact .inr ht
  refine ⟨?_, ?_, ?_, ?_, ?_⟩
  · intro t x hx
    exact h.pinned t x ((hvoted t x).mp hx)
  · intro t x x' hx hx'
    exact h.once t x x' ((hvoted t x).mp hx) ((hvoted t x').mp hx')
  · intro t ht
    rcases hled t ht with ht | rfl
    · exact h.led_le t ht
    · exact le_rfl
  · intro hrole
    simp [Node.becomeLeader] at hrole
  · intro _
    exact ⟨n.lastIncludedIndex, n.log, by simp [Node.becomeLeader]⟩

end Node.BallotInv

/-! ## The cluster -/

/-- A `RequestVote` call. -/
abbrev VoteRpc := Rpc RequestVoteRequest RequestVoteResponse

/-- The votes a candidate has counted: its own, and those of a set of peers whose
calls of this election are over. -/
def Tally (M : Members) (c : Cluster σ) (i : NodeId) : Prop :=
  i ∈ M.ids ∧ (c.nodes i).Voted (c.nodes i).currentTerm i ∧
    ∃ S : Finset NodeId, S.card + 1 = (c.nodes i).votes (c.nodes i).currentTerm ∧
      ∀ v ∈ S, v ∈ (M.config i).peers ∧ (c.nodes v).Voted (c.nodes i).currentTerm i ∧
        ∀ (k : ℕ) (r : VoteRpc), c.votes[k]? = some r → r.live → r.caller = i →
          r.request.term = (c.nodes i).currentTerm → r.callee ≠ v

/-- The invariant behind election safety. -/
structure ElectionInv (M : Members) (c : Cluster σ) : Prop where
  config : ∀ i, (c.nodes i).cfg = M.config i
  ballot : ∀ i, (c.nodes i).BallotInv
  asked : ∀ v t i, (c.nodes v).Voted t i → t ≤ (c.nodes i).currentTerm
  won : ∀ i t, (c.nodes i).Led t → ∃ Q, M.Quorum Q ∧ ∀ v ∈ Q, (c.nodes v).Voted t i
  sent : ∀ (k : ℕ) (r : VoteRpc), c.votes[k]? = some r → r.caller ∈ M.ids ∧
    r.callee ∈ (M.config r.caller).peers ∧ r.request.candidateId = r.caller ∧
    r.request.term ≤ (c.nodes r.caller).currentTerm
  granted : ∀ (k : ℕ) (r : VoteRpc), c.votes[k]? = some r → ∀ resp ∈ r.responses,
    resp.voteGranted → Event.voted r.request.term r.caller r.request.lastLogIndex
      r.request.lastLogTerm ∈ (c.nodes r.callee).events
  distinct : ∀ (k k' : ℕ) (r r' : VoteRpc), k ≠ k' → c.votes[k]? = some r →
    c.votes[k']? = some r' → r.live → r'.live → r.caller = r'.caller →
    r.request.term = r'.request.term → r.callee ≠ r'.callee
  tally : ∀ i, (c.nodes i).role = .candidate → Tally M c i

theorem ElectionInv.initial [PersistentState σ] (M : Members) :
    ElectionInv M (Cluster.initial M : Cluster σ) where
  config _ := rfl
  ballot i := by
    refine ⟨?_, ?_, ?_, ?_, ?_⟩ <;>
      simp [Cluster.initial, Node.newNode, Node.Voted, Node.Led]
  asked v t i h := by simp [Cluster.initial, Node.newNode, Node.Voted] at h
  won i t h := by simp [Cluster.initial, Node.newNode, Node.Led] at h
  sent k r h := by simp [Cluster.initial] at h
  granted k r h := by simp [Cluster.initial] at h
  distinct k k' r r' _ h := by simp [Cluster.initial] at h
  tally i h := by simp [Cluster.initial, Node.newNode] at h

/-- No two different nodes become leader in the same term. -/
theorem ElectionInv.unique {M : Members} {c : Cluster σ} (h : ElectionInv M c) {i j : NodeId}
    {t : ℕ} (hi : (c.nodes i).Led t) (hj : (c.nodes j).Led t) : i = j := by
  obtain ⟨A, hA, hvotedA⟩ := h.won i t hi
  obtain ⟨B, hB, hvotedB⟩ := h.won j t hj
  obtain ⟨v, hvA, hvB⟩ := hA.meets hB
  exact (h.ballot v).once t i j (hvotedA v hvA) (hvotedB v hvB)

/-- `r'` is the call `r` some time later. -/
structure Rpc.Later {Q A : Type} (r r' : Rpc Q A) : Prop where
  caller : r'.caller = r.caller
  callee : r'.callee = r.callee
  request : r'.request = r.request
  live : r'.live → r.live

theorem Rpc.Later.refl {Q A : Type} (r : Rpc Q A) : r.Later r :=
  ⟨rfl, rfl, rfl, id⟩

theorem Rpc.Later.answer {Q A : Type} (r : Rpc Q A) (resp : A) : r.Later (r.answer resp) :=
  ⟨rfl, rfl, rfl, id⟩

theorem Rpc.Later.consume {Q A : Type} (r : Rpc Q A) : r.Later r.consume :=
  ⟨rfl, rfl, rfl, fun h => by simp [Rpc.consume] at h⟩

theorem Rpc.Later.abandon {Q A : Type} (i : NodeId) (r : Rpc Q A) : r.Later (r.abandon i) := by
  unfold Rpc.abandon
  split
  · exact .consume r
  · exact .refl r

namespace ElectionInv

variable {M : Members} {c c' : Cluster σ}

/-- What a step that makes no new calls has to show. -/
theorem transfer (h : ElectionInv M c)
    (hcfg : ∀ i, (c'.nodes i).cfg = (c.nodes i).cfg)
    (hballot : ∀ i, (c'.nodes i).BallotInv)
    (hterm : ∀ i, (c.nodes i).currentTerm ≤ (c'.nodes i).currentTerm)
    (hevents : ∀ i e, e.isBallot → e ∈ (c.nodes i).events → e ∈ (c'.nodes i).events)
    (hasked : ∀ v t i, (c'.nodes v).Voted t i → (c.nodes v).Voted t i ∨
      t ≤ (c'.nodes i).currentTerm)
    (hwon : ∀ i t, (c'.nodes i).Led t → (c.nodes i).Led t ∨
      ∃ Q, M.Quorum Q ∧ ∀ v ∈ Q, (c'.nodes v).Voted t i)
    (hcalls : ∀ (k : ℕ) (r' : VoteRpc), c'.votes[k]? = some r' → ∃ r : VoteRpc,
      c.votes[k]? = some r ∧ r.Later r' ∧ ∀ resp ∈ r'.responses, resp.voteGranted →
        resp ∈ r.responses ∨ Event.voted r.request.term r.caller r.request.lastLogIndex
          r.request.lastLogTerm ∈ (c'.nodes r.callee).events)
    (htally : ∀ i, (c'.nodes i).role = .candidate → Tally M c' i ∨
      ((c.nodes i).role = .candidate ∧ (c'.nodes i).currentTerm = (c.nodes i).currentTerm ∧
        (c'.nodes i).votes = (c.nodes i).votes)) :
    ElectionInv M c' := by
  have hvoted : ∀ v t i, (c.nodes v).Voted t i → (c'.nodes v).Voted t i :=
    fun v t i ⟨x, y, hmem⟩ => ⟨x, y, hevents v _ rfl hmem⟩
  refine ⟨fun i => (hcfg i).trans (h.config i), hballot, ?_, ?_, ?_, ?_, ?_, ?_⟩
  · intro v t i hv
    rcases hasked v t i hv with hv | hle
    · exact (h.asked v t i hv).trans (hterm i)
    · exact hle
  · intro i t hled
    rcases hwon i t hled with hled | hnew
    · obtain ⟨Q, hQ, hv⟩ := h.won i t hled
      exact ⟨Q, hQ, fun v hvQ => hvoted v t i (hv v hvQ)⟩
    · exact hnew
  · intro k r' hr'
    obtain ⟨r, hr, hlater, -⟩ := hcalls k r' hr'
    rw [hlater.caller, hlater.callee, hlater.request]
    obtain ⟨hcaller, hcallee, hid, hle⟩ := h.sent k r hr
    exact ⟨hcaller, hcallee, hid, hle.trans (hterm r.caller)⟩
  · intro k r' hr' resp hresp hgranted
    obtain ⟨r, hr, hlater, hresponses⟩ := hcalls k r' hr'
    rw [hlater.caller, hlater.callee, hlater.request]
    rcases hresponses resp hresp hgranted with hold | hnew
    · exact hevents _ _ rfl (h.granted k r hr resp hold hgranted)
    · exact hnew
  · intro k k' r₁' r₂' hne hr₁' hr₂' hlive₁ hlive₂ hcaller hreq
    obtain ⟨r₁, hr₁, hlater₁, -⟩ := hcalls k r₁' hr₁'
    obtain ⟨r₂, hr₂, hlater₂, -⟩ := hcalls k' r₂' hr₂'
    rw [hlater₁.caller, hlater₂.caller] at hcaller
    rw [hlater₁.request, hlater₂.request] at hreq
    rw [hlater₁.callee, hlater₂.callee]
    exact h.distinct k k' r₁ r₂ hne hr₁ hr₂ (hlater₁.live hlive₁) (hlater₂.live hlive₂) hcaller
      hreq
  · intro i hrole
    rcases htally i hrole with hnew | ⟨hrole', hsame, hcount⟩
    · exact hnew
    obtain ⟨hi, hself, S, hcard, hS⟩ := h.tally i hrole'
    unfold Tally
    rw [hsame, hcount]
    refine ⟨hi, hvoted _ _ _ hself, S, hcard, fun v hv => ?_⟩
    obtain ⟨hpeer, hv', hover⟩ := hS v hv
    refine ⟨hpeer, hvoted _ _ _ hv', fun k r' hr' hlive hcaller hreq => ?_⟩
    obtain ⟨r, hr, hlater, -⟩ := hcalls k r' hr'
    rw [hlater.caller] at hcaller
    rw [hlater.request] at hreq
    rw [hlater.callee]
    exact hover k r hr (hlater.live hlive) hcaller hreq

/-- The invariant survives everything that casts, counts and wins no vote. -/
theorem quiet (h : ElectionInv M c) (hnodes : ∀ i, Quiet (c.nodes i) (c'.nodes i))
    (hcalls : ∀ (k : ℕ) (r' : VoteRpc), c'.votes[k]? = some r' → ∃ r : VoteRpc,
      c.votes[k]? = some r ∧ r.Later r' ∧
        ∀ resp ∈ r'.responses, resp.voteGranted → resp ∈ r.responses) :
    ElectionInv M c' := by
  refine h.transfer (fun i => (hnodes i).cfg) (fun i => (h.ballot i).quiet (hnodes i))
    (fun i => (hnodes i).hard.term_le) (fun i e he => ((hnodes i).mem_events he).mpr)
    (fun v t i hv => .inl ((hnodes v).voted.mp hv))
    (fun i t hled => .inl ((hnodes i).led.mp hled)) ?_ ?_
  · intro k r' hr'
    obtain ⟨r, hr, hlater, hresponses⟩ := hcalls k r' hr'
    exact ⟨r, hr, hlater, fun resp hresp hgranted => .inl (hresponses resp hresp hgranted)⟩
  · intro i hrole
    obtain ⟨hsame, hterm, hvotes⟩ := (hnodes i).role (by simp [hrole])
    exact .inr ⟨hsame ▸ hrole, hterm, hvotes⟩

/-- The votes a winner has counted are a quorum. -/
theorem quorum_of_tally (h : ElectionInv M c) {i : NodeId} (hrole : (c.nodes i).role = .candidate)
    (henough : (c.nodes i).quorum ≤ (c.nodes i).votes (c.nodes i).currentTerm) :
    ∃ Q, M.Quorum Q ∧ ∀ v ∈ Q, (c.nodes v).Voted (c.nodes i).currentTerm i := by
  obtain ⟨hi, hself, S, hcard, hS⟩ := h.tally i hrole
  refine ⟨insert i S, Members.quorum_insert hi (fun v hv => (hS v hv).1) ?_, ?_⟩
  · rw [hcard, ← h.config i]
    exact henough
  · intro v hv
    rcases Finset.mem_insert.mp hv with rfl | hv
    · exact hself
    · exact (hS v hv).2.1

/-- A candidate with enough votes becomes leader. -/
theorem win (h : ElectionInv M c) {i : NodeId} (hrole : (c.nodes i).role = .candidate)
    (henough : (c.nodes i).quorum ≤ (c.nodes i).votes (c.nodes i).currentTerm) :
    ElectionInv M (c.setNode i (c.nodes i).becomeLeader) := by
  have hevents : ∀ j e, e.isBallot → e ∈ (c.nodes j).events →
      e ∈ ((c.setNode i (c.nodes i).becomeLeader).nodes j).events :=
    Cluster.setNode_forall (P := fun j n => ∀ e : Event, e.isBallot → e ∈ (c.nodes j).events →
      e ∈ n.events) (fun e _ he => List.mem_append_left _ he) fun j _ e _ he => he
  have hvoted : ∀ v t j, ((c.setNode i (c.nodes i).becomeLeader).nodes v).Voted t j →
      (c.nodes v).Voted t j :=
    Cluster.setNode_forall (P := fun v n => ∀ t j, n.Voted t j → (c.nodes v).Voted t j)
      (fun t j hv => by simpa [Node.Voted, Node.becomeLeader] using hv) fun v _ t j hv => hv
  refine h.transfer
    (Cluster.setNode_forall (P := fun j n => n.cfg = (c.nodes j).cfg) rfl fun _ _ => rfl)
    (Cluster.setNode_forall (P := fun _ n => n.BallotInv) (h.ballot i).becomeLeader
      fun j _ => h.ballot j)
    (Cluster.setNode_forall (P := fun j n => (c.nodes j).currentTerm ≤ n.currentTerm) le_rfl
      fun _ _ => le_rfl)
    hevents (fun v t j hv => .inl (hvoted v t j hv)) ?_
    (fun k r hr => ⟨r, hr, .refl r, fun _ hresp _ => .inl hresp⟩) ?_
  · intro j t hled
    by_cases hj : j = i
    · subst hj
      rw [Cluster.setNode_self] at hled
      obtain ⟨x, log, hmem⟩ := hled
      simp only [Node.becomeLeader, List.mem_append, List.mem_singleton,
        Event.becameLeader.injEq] at hmem
      rcases hmem with hmem | ⟨rfl, -, -⟩
      · exact .inl ⟨x, log, hmem⟩
      · -- the new victory: the counted votes are still on record
        obtain ⟨Q, hQ, hvoted⟩ := h.quorum_of_tally hrole henough
        refine .inr ⟨Q, hQ, fun v hv => ?_⟩
        obtain ⟨y, z, hmem⟩ := hvoted v hv
        exact ⟨y, z, hevents v _ rfl hmem⟩
    · rw [Cluster.setNode_of_ne _ _ hj] at hled
      exact .inl hled
  · intro j hcandidate
    by_cases hj : j = i
    · subst hj
      simp [Node.becomeLeader] at hcandidate
    · rw [Cluster.setNode_of_ne _ _ hj] at hcandidate ⊢
      exact .inr ⟨hcandidate, rfl, rfl⟩

/-- The callee joins the counted peers: it has not been among them, as its call was still
live. -/
theorem tally_count (h : ElectionInv M c) {k : ℕ} {r : VoteRpc} (hr : c.votes[k]? = some r)
    (hlive : r.live) {resp : RequestVoteResponse} (hresp : resp ∈ r.responses)
    (hgranted : resp.voteGranted) (hrole : (c.nodes r.caller).role = .candidate)
    (hterm : (c.nodes r.caller).currentTerm = r.request.term) {c' : Cluster σ}
    (hterms : ∀ j, (c'.nodes j).currentTerm = (c.nodes j).currentTerm)
    (hvoted : ∀ v t i, (c'.nodes v).Voted t i ↔ (c.nodes v).Voted t i)
    (hcalls : c'.votes = c.votes.modify k .consume)
    (hcount : (c'.nodes r.caller).votes (c.nodes r.caller).currentTerm =
      (c.nodes r.caller).votes (c.nodes r.caller).currentTerm + 1) : Tally M c' r.caller := by
  obtain ⟨hmember, hself, S, hcard, hS⟩ := h.tally r.caller hrole
  have hnew : r.callee ∉ S := fun hmem => (hS _ hmem).2.2 k r hr hlive rfl hterm.symm rfl
  have hothers : ∀ (j : ℕ) (r' : VoteRpc), c'.votes[j]? = some r' → r'.live →
      c.votes[j]? = some r' ∧ k ≠ j := by
    intro j r' hr' hlive'
    rw [hcalls] at hr'
    obtain ⟨r₀, hr₀, rfl⟩ := Rpc.getElem?_modify hr'
    by_cases hkj : k = j
    · simp [hkj, Rpc.consume] at hlive'
    · rw [if_neg hkj]
      exact ⟨hr₀, hkj⟩
  unfold Tally
  rw [hterms]
  refine ⟨hmember, (hvoted _ _ _).mpr hself, insert r.callee S, ?_, fun v hv => ?_⟩
  · rw [Finset.card_insert_of_notMem hnew, hcard, hcount]
  · rcases Finset.mem_insert.mp hv with rfl | hv
    · refine ⟨(h.sent k r hr).2.1, (hvoted _ _ _).mpr ?_, ?_⟩
      · rw [hterm]
        exact ⟨_, _, h.granted k r hr resp hresp hgranted⟩
      · intro j r' hr' hlive' hcaller' hreq'
        obtain ⟨hr₀, hkj⟩ := hothers j r' hr' hlive'
        exact (h.distinct k j r r' hkj hr hr₀ hlive hlive' hcaller'.symm
          (hreq'.trans hterm).symm).symm
    · obtain ⟨hpeer, hv', hover⟩ := hS v hv
      refine ⟨hpeer, (hvoted _ _ _).mpr hv', fun j r' hr' hlive' hcaller' hreq' => ?_⟩
      exact hover j r' (hothers j r' hr' hlive').1 hlive' hcaller' hreq'

/-- A candidate counts a vote that call `k` brought, and the call is over. -/
theorem count (h : ElectionInv M c) {k : ℕ} {r : VoteRpc} (hr : c.votes[k]? = some r)
    (hlive : r.live) {resp : RequestVoteResponse} (hresp : resp ∈ r.responses)
    (hgranted : resp.voteGranted) (hrole : (c.nodes r.caller).role = .candidate)
    (hterm : (c.nodes r.caller).currentTerm = r.request.term) :
    ElectionInv M { c.setNode r.caller { c.nodes r.caller with
        votes := update (c.nodes r.caller).votes r.request.term
          ((c.nodes r.caller).votes r.request.term + 1) } with
      votes := c.votes.modify k .consume } := by
  set n : Node σ := { c.nodes r.caller with
    votes := update (c.nodes r.caller).votes r.request.term
      ((c.nodes r.caller).votes r.request.term + 1) } with hn
  set c' : Cluster σ := { c.setNode r.caller n with votes := c.votes.modify k .consume } with hc'
  have hsame : ∀ j, (c'.nodes j).cfg = (c.nodes j).cfg ∧ (c'.nodes j).events = (c.nodes j).events ∧
      (c'.nodes j).hardState = (c.nodes j).hardState ∧ (c'.nodes j).role = (c.nodes j).role :=
    Cluster.setNode_forall (P := fun j n => n.cfg = (c.nodes j).cfg ∧
        n.events = (c.nodes j).events ∧ n.hardState = (c.nodes j).hardState ∧
        n.role = (c.nodes j).role) ⟨rfl, rfl, rfl, rfl⟩ fun _ _ => ⟨rfl, rfl, rfl, rfl⟩
  have hterms : ∀ j, (c'.nodes j).currentTerm = (c.nodes j).currentTerm :=
    fun j => congrArg Prod.fst (hsame j).2.2.1
  have hvoted : ∀ v t i, (c'.nodes v).Voted t i ↔ (c.nodes v).Voted t i := by
    intro v t i
    rw [Node.Voted, (hsame v).2.1]
    rfl
  refine h.transfer (fun j => (hsame j).1) ?_ (fun j => (hterms j).ge)
    (fun j e _ he => (hsame j).2.1 ▸ he) (fun v t j hv => .inl ((hvoted v t j).mp hv)) ?_ ?_ ?_
  · exact Cluster.setNode_forall (P := fun _ n => n.BallotInv)
      ⟨(h.ballot _).pinned, (h.ballot _).once, (h.ballot _).led_le, (h.ballot _).unled,
        (h.ballot _).leads⟩ fun j _ => h.ballot j
  · intro j t hled
    rw [Node.Led, (hsame j).2.1] at hled
    exact .inl hled
  · intro j r' hr'
    obtain ⟨r₀, hr₀, rfl⟩ := Rpc.getElem?_modify hr'
    refine ⟨r₀, hr₀, ?_, fun resp hresp _ => .inl ?_⟩
    · split
      · exact .consume r₀
      · exact .refl r₀
    · split at hresp
      · exact hresp
      · exact hresp
  · intro i hcandidate
    by_cases hi : i = r.caller
    · subst hi
      refine .inl (h.tally_count hr hlive hresp hgranted hrole hterm hterms hvoted rfl ?_)
      simp [hc', hn, hterm]
    · refine .inr ⟨(hsame i).2.2.2 ▸ hcandidate, hterms i, ?_⟩
      have hnode : c'.nodes i = c.nodes i := Cluster.setNode_of_ne _ _ hi
      rw [hnode]

variable [PersistentState σ]

/-- A voter that is free to vote answers call `k` with its vote. -/
theorem grant (h : ElectionInv M c) {k : ℕ} {r : VoteRpc} (hr : c.votes[k]? = some r)
    (hterm : (c.nodes r.callee).currentTerm = r.request.term)
    (hfree : ¬ ((c.nodes r.callee).votedFor ≠ "" ∧
      (c.nodes r.callee).votedFor ≠ r.request.candidateId)) (resp : RequestVoteResponse) :
    ElectionInv M { c.setNode r.callee ((c.nodes r.callee).grantVote r.request) with
      votes := c.votes.modify k (.answer resp) } := by
  obtain ⟨hcaller, hpeer, hid, hasked⟩ := h.sent k r hr
  have hnamed : r.request.candidateId ≠ "" := fun heq => M.named (heq ▸ hid ▸ hcaller)
  set n := (c.nodes r.callee).grantVote r.request with hn
  have hled : ∀ j t, ((c.setNode r.callee n).nodes j).Led t → (c.nodes j).Led t := by
    refine Cluster.setNode_forall (P := fun j n => ∀ t, n.Led t → (c.nodes j).Led t) ?_
      fun j _ t hled => hled
    rintro t ⟨x, log, hmem⟩
    exact ⟨x, log, by simpa [hn, Node.grantVote, Node.persistHardState] using hmem⟩
  have hsame : ∀ j, ((c.setNode r.callee n).nodes j).role = (c.nodes j).role ∧
      ((c.setNode r.callee n).nodes j).currentTerm = (c.nodes j).currentTerm ∧
      ((c.setNode r.callee n).nodes j).votes = (c.nodes j).votes :=
    Cluster.setNode_forall (P := fun j n => n.role = (c.nodes j).role ∧
      n.currentTerm = (c.nodes j).currentTerm ∧ n.votes = (c.nodes j).votes) ⟨rfl, rfl, rfl⟩
      fun _ _ => ⟨rfl, rfl, rfl⟩
  refine h.transfer
    (Cluster.setNode_forall (P := fun j n => n.cfg = (c.nodes j).cfg) rfl fun _ _ => rfl)
    (Cluster.setNode_forall (P := fun _ n => n.BallotInv)
      ((h.ballot _).grantVote hnamed hfree) fun j _ => h.ballot j)
    (Cluster.setNode_forall (P := fun j n => (c.nodes j).currentTerm ≤ n.currentTerm) le_rfl
      fun _ _ => le_rfl)
    (Cluster.setNode_forall (P := fun j n => ∀ e : Event, e.isBallot → e ∈ (c.nodes j).events →
      e ∈ n.events) (fun e _ he => List.mem_append_left _ he) fun j _ e _ he => he)
    ?_ (fun j t hl => .inl (hled j t hl)) ?_
    (fun j hrole => .inr ⟨(hsame j).1 ▸ hrole, (hsame j).2⟩)
  · show ∀ v t j, ((c.setNode r.callee n).nodes v).Voted t j → (c.nodes v).Voted t j ∨
      t ≤ ((c.setNode r.callee n).nodes j).currentTerm
    refine Cluster.setNode_forall (P := fun v n' => ∀ t j, n'.Voted t j → (c.nodes v).Voted t j ∨
      t ≤ ((c.setNode r.callee n).nodes j).currentTerm) ?_ fun v _ t j hv => .inl hv
    rintro t j ⟨x, y, hmem⟩
    rw [(hsame j).2.1]
    simp only [hn, Node.grantVote, Node.persistHardState, List.mem_append, List.mem_singleton,
      Event.voted.injEq] at hmem
    rcases hmem with hmem | ⟨rfl, rfl, -, -⟩
    · exact .inl ⟨x, y, hmem⟩
    · rw [hterm, hid]
      exact .inr hasked
  · intro j r' hr'
    obtain ⟨r₀, hr₀, rfl⟩ := Rpc.getElem?_modify hr'
    by_cases hkj : k = j
    · -- the answered call: its vote has just been recorded
      subst hkj
      obtain rfl : r = r₀ := Option.some.inj (hr.symm.trans hr₀)
      rw [if_pos rfl]
      refine ⟨r, hr, .answer r resp, fun _ _ _ => .inr ?_⟩
      simp [hn, Node.grantVote, Node.persistHardState, hterm, hid]
    · rw [if_neg hkj]
      exact ⟨r₀, hr₀, .refl r₀, fun _ hresp _ => .inl hresp⟩

/-- A member starts an election and votes for itself; no call has been made yet. -/
theorem campaign (h : ElectionInv M c) {i : NodeId} (hi : i ∈ M.ids) :
    ElectionInv M (c.setNode i (c.nodes i).campaign) := by
  have hid : (c.nodes i).cfg.id = i := by
    rw [h.config i]
    rfl
  have hnamed : (c.nodes i).cfg.id ≠ "" := by
    rw [hid]
    exact fun heq => M.named (heq ▸ hi)
  have hled : ∀ j t, ((c.setNode i (c.nodes i).campaign).nodes j).Led t → (c.nodes j).Led t := by
    refine Cluster.setNode_forall (P := fun j n => ∀ t, n.Led t → (c.nodes j).Led t) ?_
      fun j _ t hled => hled
    rintro t ⟨x, log, hmem⟩
    exact ⟨x, log, by simpa [Node.campaign, Node.persistHardState] using hmem⟩
  refine h.transfer
    (Cluster.setNode_forall (P := fun j n => n.cfg = (c.nodes j).cfg) rfl fun _ _ => rfl)
    (Cluster.setNode_forall (P := fun _ n => n.BallotInv)
      ((h.ballot i).campaign hnamed) fun j _ => h.ballot j)
    (Cluster.setNode_forall (P := fun j n => (c.nodes j).currentTerm ≤ n.currentTerm)
      (Nat.le_succ _) fun _ _ => le_rfl)
    (Cluster.setNode_forall (P := fun j n => ∀ e : Event, e.isBallot → e ∈ (c.nodes j).events →
      e ∈ n.events) (fun e _ he => List.mem_append_left _ he) fun j _ e _ he => he)
    ?_ (fun j t hl => .inl (hled j t hl))
    (fun k r hr => ⟨r, hr, .refl r, fun _ hresp _ => .inl hresp⟩) ?_
  · refine Cluster.setNode_forall (P := fun v n => ∀ t j, n.Voted t j → (c.nodes v).Voted t j ∨
      t ≤ ((c.setNode i (c.nodes i).campaign).nodes j).currentTerm) ?_ fun v _ t j hv => .inl hv
    rintro t j ⟨x, y, hmem⟩
    simp only [Node.campaign, Node.persistHardState, List.mem_append, List.mem_singleton,
      Event.voted.injEq] at hmem
    rcases hmem with hmem | ⟨rfl, rfl, -, -⟩
    · exact .inl ⟨x, y, hmem⟩
    · rw [hid, Cluster.setNode_self]
      exact .inr le_rfl
  · intro j hrole
    by_cases hj : j = i
    · subst hj
      refine .inl ⟨hi, ?_, ∅, ?_, by simp⟩
      · rw [Cluster.setNode_self]
        exact ⟨(c.nodes j).lastLogIndex, (c.nodes j).lastLogTerm,
          by simp [Node.campaign, Node.persistHardState, hid]⟩
      · rw [Cluster.setNode_self]
        simp [Node.campaign, Node.persistHardState]
    · rw [Cluster.setNode_of_ne _ _ hj] at hrole ⊢
      exact .inr ⟨hrole, rfl, rfl⟩

omit [PersistentState σ] in
/-- A candidate that has counted only its own vote, and has no call of this term
on record, calls its peers. -/
theorem call (h : ElectionInv M c) {i : NodeId} (hi : i ∈ M.ids)
    (hfresh : ∀ (k : ℕ) (r : VoteRpc), c.votes[k]? = some r → r.caller = i →
      r.request.term < (c.nodes i).currentTerm)
    (hvotes : (c.nodes i).votes (c.nodes i).currentTerm = 1) (lastLogIndex lastLogTerm : ℕ) :
    ElectionInv M { c with
      votes := c.votes ++ (M.config i).peers.map
        (Rpc.call i · ⟨(c.nodes i).currentTerm, i, lastLogIndex, lastLogTerm⟩) } := by
  set req : RequestVoteRequest := ⟨(c.nodes i).currentTerm, i, lastLogIndex, lastLogTerm⟩ with hreq
  have hcalls : ∀ (k : ℕ) (r : VoteRpc),
      (c.votes ++ (M.config i).peers.map (Rpc.call i · req))[k]? = some r →
      c.votes[k]? = some r ∨ ∃ j peer, k = c.votes.length + j ∧
        (M.config i).peers[j]? = some peer ∧ r = Rpc.call i peer req := by
    intro k r hr
    rcases Rpc.getElem?_append hr with hold | ⟨j, hk, hnew⟩
    · exact .inl hold
    · rw [List.getElem?_map] at hnew
      obtain ⟨peer, hpeer, rfl⟩ := Option.map_eq_some_iff.mp hnew
      exact .inr ⟨j, peer, hk, hpeer, rfl⟩
  refine ⟨h.config, h.ballot, h.asked, h.won, ?_, ?_, ?_, ?_⟩
  · intro k r hr
    rcases hcalls k r hr with hold | ⟨j, peer, -, hpeer, rfl⟩
    · exact h.sent k r hold
    · exact ⟨hi, List.mem_of_getElem? hpeer, rfl, le_rfl⟩
  · intro k r hr resp hresp hgranted
    rcases hcalls k r hr with hold | ⟨j, peer, -, -, rfl⟩
    · exact h.granted k r hold resp hresp hgranted
    · simp [Rpc.call] at hresp
  · intro k k' r r' hne hr hr' hlive hlive' hcaller hterm
    rcases hcalls k r hr with hold | ⟨j, peer, hk, hpeer, rfl⟩
    · rcases hcalls k' r' hr' with hold' | ⟨j', peer', hk', hpeer', rfl⟩
      · exact h.distinct k k' r r' hne hold hold' hlive hlive' hcaller hterm
      · exact absurd hterm (Nat.ne_of_lt (hfresh k r hold hcaller))
    · rcases hcalls k' r' hr' with hold' | ⟨j', peer', hk', hpeer', rfl⟩
      · exact absurd hterm.symm (Nat.ne_of_lt (hfresh k' r' hold' hcaller.symm))
      · -- two calls of one election go to different positions of the list of peers
        intro hsame
        have hsame : peer = peer' := hsame
        subst hsame
        obtain ⟨hj, hgetj⟩ := List.getElem?_eq_some_iff.mp hpeer
        obtain ⟨hj', hgetj'⟩ := List.getElem?_eq_some_iff.mp hpeer'
        have : j = j' := (M.nodup.erase i).getElem_inj_iff.mp (hgetj.trans hgetj'.symm)
        omega
  · intro j hrole
    obtain ⟨hmember, hself, S, hcard, hS⟩ := h.tally j hrole
    refine ⟨hmember, hself, S, hcard, fun v hv => ?_⟩
    obtain ⟨hpeer, hv', hover⟩ := hS v hv
    refine ⟨hpeer, hv', fun k r hr hlive hcaller hterm => ?_⟩
    rcases hcalls k r hr with hold | ⟨_, _, -, -, rfl⟩
    · exact hover k r hold hlive hcaller hterm
    · -- the caller has counted nobody yet
      have hji : i = j := hcaller
      subst hji
      have hempty : S = ∅ := Finset.card_eq_zero.mp (by omega)
      simp [hempty] at hv

end ElectionInv

end RaftKV.Raft
