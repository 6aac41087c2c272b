import Mathlib.Data.Finset.Max
import Mathlib.Data.Prod.Lex
import RaftKV.Raft.Delivery

/-!
# A leader can always be elected

From every state that a cluster without compaction reaches, its timers and messages can
bring it to a state in which one member leads and all others have come to its term.  No
process restarts on the way.

* A member that does not lead exists, or the cluster has one member only.  Of two leaders
  the one of the higher term has the votes of a majority, and a voter that leads itself
  would do so in a still higher term.
* Its election timer fires until its term is above all others; the requests of its last
  campaign then bring everybody to that term, and no leader is left, unless it has won.
* Of the members the one whose log is most up to date campaigns in the next term.  Every
  peer grants its vote, since all of them are behind in term and none is ahead in its log.
-/

namespace RaftKV.Raft

open Function

variable {σ : Type} [PersistentState σ] {M : Members} {reader : NodeId → ℕ} {c c' : Cluster σ}

/-- The actions of elections: timers and votes. -/
def Action.electing : Action → Bool
  | .electionTimeout _ | .deliverVote _ | .replyVote .. => true
  | _ => false

/-- The actions that bring the log of a leader to its peers. -/
def Action.replicating : Action → Bool
  | .replicate .. | .deliverAppend _ | .replyAppend .. => true
  | _ => false

/-- Both need nothing but running processes. -/
def Action.running (a : Action) : Bool :=
  a.electing || a.replicating

/-- Timers and messages can bring one state to the other. -/
abbrev Cluster.Goes (M : Members) : Cluster σ → Cluster σ → Prop :=
  Reaches (Cluster.step M) fun _ a => a.running

/-- Timers and votes can. -/
abbrev Cluster.Elects (M : Members) : Cluster σ → Cluster σ → Prop :=
  Reaches (Cluster.step M) fun _ a => a.electing

theorem Cluster.elects_step (c : Cluster σ) {a : Action} (ha : a.electing) :
    Cluster.Elects M c (c.step M a) :=
  .next .refl ha

theorem Action.plain_of_running {a : Action} (ha : a.running) : a.plain := by
  cases a with
  | compactLog => exact absurd ha Bool.false_ne_true
  | restart => exact absurd ha Bool.false_ne_true
  | crash => exact absurd ha Bool.false_ne_true
  | _ => rfl

/-- What is kept for readers that take nothing meanwhile. -/
theorem Delivery.goes (h : Delivery M reader c) (hgoes : Cluster.Goes M c c') :
    Delivery M reader c' := by
  refine Reaches.invariant (P := Delivery M reader) hgoes h fun c a hc ha => ?_
  have hsame : ∀ i, a ≠ .resume i := by
    rintro i rfl
    exact absurd ha Bool.false_ne_true
  have hreader : restartReader reader a = reader :=
    funext fun i => restartReader_of_ne (hsame i)
  exact hreader ▸ hc.step (Action.plain_of_running ha) fun i heq => absurd heq (hsame i)

theorem Delivery.elects (h : Delivery M reader c) (helects : Cluster.Elects M c c') :
    Delivery M reader c' :=
  h.goes (helects.mono fun _ _ ha => Bool.or_eq_true_iff.mpr (.inl ha))

theorem delivery_of_plain (h : Cluster.Reachable M (fun _ a => a.plain) c) :
    Delivery M (fun _ => 0) c := by
  refine Reaches.invariant (P := Delivery M fun _ => 0) h (.initial M) fun c a hc ha => ?_
  by_cases hmember : ∀ i, a = .resume i → i ∈ M.ids
  · have hreader : restartReader (fun _ => 0) a = fun _ => 0 := by
      cases a with
      | resume i => exact update_eq_self i _
      | _ => rfl
    exact hreader ▸ hc.step ha hmember
  · push Not at hmember
    obtain ⟨i, rfl, hi⟩ := hmember
    simp only [Cluster.step]
    rwa [if_neg hi]

/-! ## Votes -/

namespace Node

variable {n : Node σ}

/-- A request of a higher term brings a node to that term, as a follower, and is granted
if the candidate's log is up to date. -/
theorem handleRequestVote_newer {req : RequestVoteRequest} (h : n.currentTerm < req.term) :
    (n.handleRequestVote req).1.term = req.term ∧
      ((n.handleRequestVote req).1.voteGranted =
        n.candidateLogUpToDate req.lastLogIndex req.lastLogTerm) ∧
      (n.handleRequestVote req).2.currentTerm = req.term ∧
      (n.handleRequestVote req).2.role = .follower := by
  have hobserve : n.observeTerm req.term =
      { n with role := .follower, leaderID := "", currentTerm := req.term,
               votedFor := "" }.persistHardState := by
    rw [observeTerm, if_pos h, becomeFollower, if_pos h]
  have hfree : (n.observeTerm req.term).votedFor = "" := by rw [hobserve]; rfl
  have hterm : (n.observeTerm req.term).currentTerm = req.term := by rw [hobserve]; rfl
  have hrole : (n.observeTerm req.term).role = .follower := by rw [hobserve]; rfl
  have hlogs : (n.observeTerm req.term).candidateLogUpToDate req.lastLogIndex req.lastLogTerm =
      n.candidateLogUpToDate req.lastLogIndex req.lastLogTerm := by rw [hobserve]; rfl
  unfold handleRequestVote
  rw [if_neg (by omega)]
  unfold decideVote
  rw [if_neg (by simp [hfree])]
  split
  · next hbehind =>
      refine ⟨hterm, ?_, hterm, hrole⟩
      rw [← hlogs]
      simpa using hbehind
  · next hahead =>
      refine ⟨hterm, ?_, hterm, hrole⟩
      rw [← hlogs]
      simpa using hahead

/-- Answers from its own term leave a candidate in the race. -/
theorem countAnswers (n : Node σ) (req : RequestVoteRequest) (answers : List RequestVoteResponse)
    (hterms : ∀ resp ∈ answers, resp.term = n.currentTerm)
    (hrole : n.role = .candidate ∨ n.role = .leader) :
    (answers.foldl (fun n resp => n.handleVoteReply req resp) n).currentTerm = n.currentTerm ∧
      ((answers.foldl (fun n resp => n.handleVoteReply req resp) n).role = .candidate ∨
        (answers.foldl (fun n resp => n.handleVoteReply req resp) n).role = .leader) := by
  induction answers generalizing n with
  | nil => exact ⟨rfl, hrole⟩
  | cons resp rest ih =>
      have hnext : (n.handleVoteReply req resp).currentTerm = n.currentTerm ∧
          ((n.handleVoteReply req resp).role = .candidate ∨
            (n.handleVoteReply req resp).role = .leader) := by
        have hresp := hterms resp List.mem_cons_self
        unfold handleVoteReply
        rw [if_neg (by omega)]
        split
        · unfold countVote
          split
          · exact ⟨rfl, .inr rfl⟩
          · next hcandidate _ => exact ⟨rfl, .inl hcandidate.2.1⟩
        · exact ⟨rfl, hrole⟩
      obtain ⟨hterm, hrole'⟩ := hnext
      have hrest := ih (n.handleVoteReply req resp)
        (fun resp' hresp' => (hterms resp' (List.mem_cons_of_mem _ hresp')).trans hterm.symm) hrole'
      rw [hterm] at hrest
      exact hrest

/-- Enough granted votes make the candidate leader. -/
theorem wins (n : Node σ) {req : RequestVoteRequest} (answers : List RequestVoteResponse)
    (hreq : req.term = n.currentTerm)
    (hgranted : ∀ resp ∈ answers, resp.term = n.currentTerm ∧ resp.voteGranted)
    (hvotes : n.role = .leader ∨ n.role = .candidate ∧ n.votes req.term < n.quorum ∧
      n.quorum ≤ n.votes req.term + answers.length) :
    (answers.foldl (fun n resp => n.handleVoteReply req resp) n).role = .leader := by
  induction answers generalizing n with
  | nil =>
      rcases hvotes with hleader | ⟨-, hlt, hle⟩
      · exact hleader
      · exact absurd hle hlt.not_ge
  | cons resp rest ih =>
      obtain ⟨hterm, hyes⟩ := hgranted resp List.mem_cons_self
      have hrest : ∀ resp' ∈ rest, resp'.term = n.currentTerm ∧ resp'.voteGranted :=
        fun resp' hresp' => hgranted resp' (List.mem_cons_of_mem _ hresp')
      rw [List.foldl_cons]
      rcases hvotes with hleader | ⟨hcandidate, hlt, hle⟩
      · have hsame : n.handleVoteReply req resp = n := by
          unfold handleVoteReply
          rw [if_neg (by omega), if_neg (by simp [hleader])]
        rw [hsame]
        exact ih n hreq hrest (.inl hleader)
      · have hcounts : n.handleVoteReply req resp = n.countVote req.term := by
          unfold handleVoteReply
          rw [if_neg (by omega), if_pos ⟨hyes, hcandidate, hreq.symm⟩]
        rw [hcounts]
        unfold countVote
        by_cases henough : n.votes req.term + 1 ≥ n.quorum
        · rw [if_pos henough]
          exact ih _ hreq hrest (.inl rfl)
        · rw [if_neg henough]
          refine ih _ hreq hrest (.inr ⟨hcandidate, ?_, ?_⟩)
          · simpa [quorum] using henough
          · rw [List.length_cons] at hle
            simp only [update_self, quorum] at hle ⊢
            omega

end Node

/-! ## Polls -/

/-- The calls of a campaign are delivered and answered one after the other. -/
theorem Cluster.poll {i : NodeId} {req : RequestVoteRequest} (c : Cluster σ) (k : ℕ)
    (ps : List NodeId) (hnodup : ps.Nodup) (hi : i ∉ ps)
    (hcalls : ∀ m p, ps[m]? = some p → c.votes[k + m]? = some (.call i p req)) :
    ∃ c', Cluster.Elects M c c' ∧
      (∀ p ∈ ps, c'.nodes p = ((c.nodes p).handleRequestVote req).2) ∧
      c'.nodes i = (ps.map fun p => ((c.nodes p).handleRequestVote req).1).foldl
        (fun n resp => n.handleVoteReply req resp) (c.nodes i) ∧
      ∀ j, j ≠ i → j ∉ ps → c'.nodes j = c.nodes j := by
  induction ps generalizing c k with
  | nil => exact ⟨c, .refl, by simp, rfl, fun _ _ _ => rfl⟩
  | cons p rest ih =>
      obtain ⟨hp, hrest⟩ := List.nodup_cons.mp hnodup
      have hne : i ≠ p := fun heq => hi (heq ▸ List.mem_cons_self)
      have hi' : i ∉ rest := fun hmem => hi (List.mem_cons_of_mem _ hmem)
      have hcall : c.votes[k]? = some (.call i p req) := hcalls 0 p rfl
      -- the request is delivered
      let out := (c.nodes p).handleRequestVote req
      let c₁ : Cluster σ := { c.setNode p out.2 with votes := c.votes.modify k (.answer out.1) }
      have hdeliver : c.step M (.deliverVote k) = c₁ := by
        simp only [Cluster.step, Cluster.deliverVote, hcall]
        rfl
      have hcall₁ : c₁.votes[k]? = some ⟨i, p, req, [out.1], true⟩ := by
        change (c.votes.modify k _)[k]? = _
        rw [List.getElem?_modify_eq, hcall]
        rfl
      -- and its answer taken
      let c₂ : Cluster σ := { c₁.setNode i ((c₁.nodes i).handleVoteReply req out.1) with
        votes := c₁.votes.modify k .consume }
      have hreply : c₁.step M (.replyVote k 0) = c₂ := by
        simp only [Cluster.step, Cluster.replyVote, hcall₁]
        rfl
      have hnode : c₂.nodes i = (c.nodes i).handleVoteReply req out.1 := by
        change update (update c.nodes p out.2) i ((update c.nodes p out.2 i).handleVoteReply
          req out.1) i = _
        rw [update_self, update_of_ne hne]
      have hvoter : c₂.nodes p = out.2 := by
        change update (update c.nodes p out.2) i _ p = _
        rw [update_of_ne hne.symm, update_self]
      have hother : ∀ j, j ≠ i → j ≠ p → c₂.nodes j = c.nodes j := by
        intro j hji hjp
        change update (update c.nodes p out.2) i _ j = _
        rw [update_of_ne hji, update_of_ne hjp]
      have hcalls₂ : ∀ m q, rest[m]? = some q → c₂.votes[k + 1 + m]? = some (.call i q req) := by
        intro m q hq
        change ((c.votes.modify k _).modify k _)[k + 1 + m]? = _
        have hk : k ≠ k + 1 + m := by omega
        have hcall := hcalls (m + 1) q hq
        rw [show k + (m + 1) = k + 1 + m by omega] at hcall
        rw [List.getElem?_modify_ne _ _ hk, List.getElem?_modify_ne _ _ hk, hcall]
      obtain ⟨c', helects, hvoters, hcandidate, hothers⟩ := ih c₂ (k + 1) hrest hi' hcalls₂
      have hsame : ∀ q ∈ rest, c₂.nodes q = c.nodes q := fun q hq =>
        hother q (fun heq => hi' (heq ▸ hq)) fun heq => hp (heq ▸ hq)
      have helects₂ : Cluster.Elects M c c₂ := by
        have hfirst := c.elects_step (M := M) (a := .deliverVote k) rfl
        rw [hdeliver] at hfirst
        have hsecond := c₁.elects_step (M := M) (a := .replyVote k 0) rfl
        rw [hreply] at hsecond
        exact hfirst.trans hsecond
      refine ⟨c', helects₂.trans helects, fun q hq => ?_, ?_, fun j hji hj => ?_⟩
      · rcases List.mem_cons.mp hq with rfl | hq
        · rw [hothers q hne.symm hp, hvoter]
        · rw [hvoters q hq, hsame q hq]
      · rw [hcandidate, List.map_cons, List.foldl_cons, ← hnode]
        congr 1
        exact List.map_congr_left fun q hq => by rw [hsame q hq]
      · rw [hothers j hji fun hmem => hj (List.mem_cons_of_mem _ hmem),
          hother j hji fun heq => hj (heq ▸ List.mem_cons_self)]

/-! ## Elections -/

/-- A member that does not lead campaigns: its term is a new one, and its peers are asked. -/
theorem Delivery.campaign (h : Delivery M reader c) {i : NodeId} (hi : i ∈ M.ids)
    (hrole : (c.nodes i).role ≠ .leader) (hpeers : (M.config i).peers ≠ []) :
    let req : RequestVoteRequest := ⟨(c.nodes i).currentTerm + 1, i, (c.nodes i).lastLogIndex,
      (c.nodes i).lastLogTerm⟩
    c.step M (.electionTimeout i) = { c.setNode i (c.nodes i).campaign with
      votes := c.votes ++ (M.config i).peers.map fun p => .call i p req } := by
  intro req
  have hcfg := h.election.config i
  have hquorum : ¬ 1 ≥ (c.nodes i).quorum := by
    have := List.length_pos_of_ne_nil hpeers
    unfold Node.quorum
    rw [hcfg]
    omega
  have hstart : (c.nodes i).electionTimeout =
      ((M.config i).peers.map fun p => (p, req), (c.nodes i).campaign) := by
    unfold Node.electionTimeout Node.startElection
    rw [if_pos hrole, if_neg hquorum, hcfg]
    rfl
  simp only [Cluster.step, if_pos hi, Cluster.electionTimeout, hstart, List.map_map]
  rfl

/-- A member whose term is not below that of its peers campaigns: they all come to the new
term, and if its log is up to date for all of them it wins. -/
theorem Delivery.canvass (h : Delivery M reader c) {i : NodeId} (hi : i ∈ M.ids)
    (hrole : (c.nodes i).role ≠ .leader) (hpeers : (M.config i).peers ≠ [])
    (hterms : ∀ p ∈ (M.config i).peers, (c.nodes p).currentTerm ≤ (c.nodes i).currentTerm) :
    ∃ c', Cluster.Elects M c c' ∧
      (c'.nodes i).currentTerm = (c.nodes i).currentTerm + 1 ∧
      ((c'.nodes i).role = .candidate ∨ (c'.nodes i).role = .leader) ∧
      (∀ p ∈ (M.config i).peers, (c'.nodes p).currentTerm = (c.nodes i).currentTerm + 1 ∧
        (c'.nodes p).role = .follower) ∧
      ((∀ p ∈ (M.config i).peers, (c.nodes p).candidateLogUpToDate (c.nodes i).lastLogIndex
        (c.nodes i).lastLogTerm) → (c'.nodes i).role = .leader) := by
  have hnodup : (M.config i).peers.Nodup := M.nodup.erase i
  have hself : i ∉ (M.config i).peers := fun hmem => (Members.mem_peers.mp hmem).1 rfl
  have hcampaign := h.campaign hi hrole hpeers
  let req : RequestVoteRequest := ⟨(c.nodes i).currentTerm + 1, i, (c.nodes i).lastLogIndex,
    (c.nodes i).lastLogTerm⟩
  have hstep := c.elects_step (M := M) (a := .electionTimeout i) rfl
  generalize c.step M (.electionTimeout i) = c₁ at hcampaign hstep
  have hcandidate : c₁.nodes i = (c.nodes i).campaign := by
    rw [hcampaign]
    exact update_self ..
  have hsame : ∀ p ∈ (M.config i).peers, c₁.nodes p = c.nodes p := by
    intro p hp
    have hne : p ≠ i := (Members.mem_peers.mp hp).1
    rw [hcampaign]
    exact update_of_ne hne ..
  have hcalls : ∀ m p, (M.config i).peers[m]? = some p →
      c₁.votes[c.votes.length + m]? = some (.call i p req) := by
    intro m p hp
    rw [hcampaign, List.getElem?_append_right (Nat.le_add_right _ _), Nat.add_sub_cancel_left,
      List.getElem?_map, hp]
    rfl
  obtain ⟨c', helects, hvoters, hwinner, -⟩ := c₁.poll (M := M) _ _ hnodup hself hcalls
  have hnewer : ∀ p ∈ (M.config i).peers, (c₁.nodes p).currentTerm < req.term := by
    intro p hp
    rw [hsame p hp]
    exact Nat.lt_succ_of_le (hterms p hp)
  have hanswers : ∀ resp ∈ (M.config i).peers.map
      (fun p => ((c₁.nodes p).handleRequestVote req).1), resp.term = (c₁.nodes i).currentTerm := by
    intro resp hresp
    obtain ⟨p, hp, rfl⟩ := List.mem_map.mp hresp
    rw [(Node.handleRequestVote_newer (hnewer p hp)).1, hcandidate]
    rfl
  obtain ⟨hterm, hrunning⟩ := (c₁.nodes i).countAnswers req _ hanswers
    (.inl (by rw [hcandidate]; rfl))
  refine ⟨c', hstep.trans helects, ?_, ?_, fun p hp => ?_, fun huptodate => ?_⟩
  · rw [hwinner, hterm, hcandidate]
    rfl
  · rw [hwinner]
    exact hrunning
  · rw [hvoters p hp]
    obtain ⟨-, -, hterm, hrole⟩ := Node.handleRequestVote_newer (hnewer p hp)
    exact ⟨hterm, hrole⟩
  · rw [hwinner]
    have hquorum : (c₁.nodes i).quorum = (1 + (M.config i).peers.length) / 2 + 1 := by
      rw [hcandidate, ← h.election.config i]
      rfl
    have hlength := List.length_pos_of_ne_nil hpeers
    have hown : (c₁.nodes i).votes req.term = 1 := by
      rw [hcandidate]
      exact update_self ..
    refine (c₁.nodes i).wins _ (by rw [hcandidate]; rfl) (fun resp hresp => ?_) (.inr ⟨?_, ?_, ?_⟩)
    · refine ⟨hanswers resp hresp, ?_⟩
      obtain ⟨p, hp, rfl⟩ := List.mem_map.mp hresp
      rw [(Node.handleRequestVote_newer (hnewer p hp)).2.1, hsame p hp]
      exact huptodate p hp
    · rw [hcandidate]
      rfl
    · rw [hown, hquorum]
      omega
    · rw [hown, hquorum, List.length_map]
      omega

/-- The election timer fires until the term is high enough. -/
theorem Delivery.timeouts (h : Delivery M reader c) {i : NodeId} (hi : i ∈ M.ids)
    (hrole : (c.nodes i).role ≠ .leader) (hpeers : (M.config i).peers ≠ []) (term : ℕ) :
    ∃ c', Cluster.Elects M c c' ∧ term ≤ (c'.nodes i).currentTerm ∧
      (c'.nodes i).role ≠ .leader ∧ ∀ j, j ≠ i → c'.nodes j = c.nodes j := by
  induction term with
  | zero => exact ⟨c, .refl, Nat.zero_le _, hrole, fun _ _ => rfl⟩
  | succ term ih =>
      obtain ⟨c₁, helects, hterm, hrole₁, hothers⟩ := ih
      have hcampaign := (h.elects helects).campaign hi hrole₁ hpeers
      have hstep := c₁.elects_step (M := M) (a := .electionTimeout i) rfl
      generalize c₁.step M (.electionTimeout i) = c₂ at hcampaign hstep
      have hcandidate : c₂.nodes i = (c₁.nodes i).campaign := by
        rw [hcampaign]
        exact update_self ..
      refine ⟨c₂, helects.trans hstep, ?_, ?_, fun j hj => ?_⟩
      · rw [hcandidate]
        exact Nat.succ_le_succ hterm
      · rw [hcandidate]
        exact fun hleader => by cases hleader
      · rw [← hothers j hj, hcampaign]
        exact update_of_ne hj ..

omit [PersistentState σ] in
/-- Not all of several members lead. -/
theorem ElectionInv.exists_not_leader (h : ElectionInv M c) {i : NodeId} (hi : i ∈ M.ids)
    (hpeers : (M.config i).peers ≠ []) : ∃ j ∈ M.ids, (c.nodes j).role ≠ .leader := by
  obtain ⟨top, htop, hmax⟩ := M.ids.toFinset.exists_max_image (fun j => (c.nodes j).currentTerm)
    ⟨i, List.mem_toFinset.mpr hi⟩
  rw [List.mem_toFinset] at htop
  by_cases hleader : (c.nodes top).role = .leader
  · -- somebody else has voted for the leader of the highest term
    obtain ⟨Q, ⟨hsub, hcard⟩, hvoted⟩ := h.won top _ ((h.ballot top).leads hleader)
    have hsize : 2 ≤ M.ids.length := by
      have := List.length_pos_of_ne_nil hpeers
      have := Members.length_peers hi
      omega
    obtain ⟨v, hv, hne⟩ : ∃ v ∈ Q, v ≠ top := by
      by_contra hnone
      push Not at hnone
      have := Finset.card_le_one.mpr fun a ha b hb => (hnone a ha).trans (hnone b hb).symm
      omega
    refine ⟨v, List.mem_toFinset.mp (hsub hv), fun hvleader => hne ?_⟩
    have hle := ((h.ballot v).pinned _ _ (hvoted v hv)).2.term_le
    have hge := hmax v (hsub hv)
    have hterm : (c.nodes v).currentTerm = (c.nodes top).currentTerm := le_antisymm hge hle
    refine h.unique ((h.ballot v).leads hvleader) ?_
    rw [hterm]
    exact (h.ballot top).leads hleader
  · exact ⟨top, htop, hleader⟩

theorem Members.peers_ne_nil {M : Members} {i j : NodeId} (hi : i ∈ M.ids) (hj : j ∈ M.ids)
    (hpeers : (M.config i).peers ≠ []) : (M.config j).peers ≠ [] := by
  have hlength := Members.length_peers hi
  have hlength' := Members.length_peers hj
  have := List.length_pos_of_ne_nil hpeers
  exact List.ne_nil_of_length_pos (by omega)

omit [PersistentState σ] in
/-- One of the members has a log that is up to date for all. -/
theorem Cluster.exists_up_to_date (c : Cluster σ) (hM : M.ids ≠ []) :
    ∃ i ∈ M.ids, ∀ p ∈ M.ids,
      (c.nodes p).candidateLogUpToDate (c.nodes i).lastLogIndex (c.nodes i).lastLogTerm := by
  obtain ⟨member, hmember⟩ := List.exists_mem_of_ne_nil _ hM
  obtain ⟨i, hi, hmax⟩ := M.ids.toFinset.exists_max_image
    (fun j => toLex ((c.nodes j).lastLogTerm, (c.nodes j).lastLogIndex))
    ⟨member, List.mem_toFinset.mpr hmember⟩
  refine ⟨i, List.mem_toFinset.mp hi, fun p hp => ?_⟩
  have hle := hmax p (List.mem_toFinset.mpr hp)
  rw [Prod.Lex.toLex_le_toLex] at hle
  unfold Node.candidateLogUpToDate
  rcases hle with hlt | ⟨heq, hle⟩
  · rw [if_pos hlt.ne']
    exact decide_eq_true hlt
  · rw [if_neg (not_not.mpr heq.symm)]
    exact decide_eq_true hle

/-- **A leader can always be elected.** -/
theorem Delivery.exists_leader (h : Delivery M reader c) (hM : M.ids ≠ []) :
    ∃ c' i, Cluster.Elects M c c' ∧ i ∈ M.ids ∧ (c'.nodes i).role = .leader ∧
      ∀ p ∈ (M.config i).peers, (c'.nodes p).currentTerm = (c'.nodes i).currentTerm := by
  obtain ⟨i, hi⟩ := List.exists_mem_of_ne_nil _ hM
  by_cases hpeers : (M.config i).peers = []
  · -- the only member elects itself
    by_cases hleader : (c.nodes i).role = .leader
    · exact ⟨c, i, .refl, hi, hleader, by simp [hpeers]⟩
    · refine ⟨_, i, c.elects_step (a := .electionTimeout i) rfl, hi, ?_, by simp [hpeers]⟩
      have hquorum : 1 ≥ (c.nodes i).quorum := by
        unfold Node.quorum
        rw [h.election.config i, hpeers]
        decide
      simp only [Cluster.step, if_pos hi, Cluster.electionTimeout, Cluster.setNode_self,
        Node.electionTimeout, if_pos hleader, Node.startElection, if_pos hquorum]
      rfl
  · obtain ⟨j, hj, hrole⟩ := h.election.exists_not_leader hi hpeers
    have hpeersj := Members.peers_ne_nil hi hj hpeers
    obtain ⟨top, -, hmax⟩ := M.ids.toFinset.exists_max_image
      (fun k => (c.nodes k).currentTerm) ⟨i, List.mem_toFinset.mpr hi⟩
    obtain ⟨c₁, helects₁, hterm₁, hrole₁, hothers⟩ :=
      h.timeouts hj hrole hpeersj (c.nodes top).currentTerm
    have hbehind : ∀ p ∈ (M.config j).peers,
        (c₁.nodes p).currentTerm ≤ (c₁.nodes j).currentTerm := by
      intro p hp
      obtain ⟨hne, hmember⟩ := Members.mem_peers.mp hp
      rw [hothers p hne]
      exact (hmax p (List.mem_toFinset.mpr hmember)).trans hterm₁
    obtain ⟨c₂, helects₂, hterm₂, hrace, hvoters, -⟩ :=
      (h.elects helects₁).canvass hj hrole₁ hpeersj hbehind
    have helects := helects₁.trans helects₂
    rcases hrace with hcandidate | hleader
    · -- nobody leads, and all are in one term: the best log wins
      have hall : ∀ k ∈ M.ids, (c₂.nodes k).currentTerm = (c₁.nodes j).currentTerm + 1 ∧
          (c₂.nodes k).role ≠ .leader := by
        intro k hk
        by_cases hkj : k = j
        · subst hkj
          exact ⟨hterm₂, by simp [hcandidate]⟩
        · obtain ⟨hterm, hfollower⟩ := hvoters k (Members.mem_peers.mpr ⟨hkj, hk⟩)
          exact ⟨hterm, by simp [hfollower]⟩
      obtain ⟨best, hbest, huptodate⟩ := c₂.exists_up_to_date hM
      have hmember : ∀ p ∈ (M.config best).peers, p ∈ M.ids :=
        fun p hp => (Members.mem_peers.mp hp).2
      obtain ⟨c₃, helects₃, hterm₃, -, hvoters₃, hwins⟩ := (h.elects helects).canvass hbest
        (hall best hbest).2 (Members.peers_ne_nil hi hbest hpeers)
        fun p hp => ((hall p (hmember p hp)).1.trans (hall best hbest).1.symm).le
      refine ⟨c₃, best, helects.trans helects₃, hbest, hwins fun p hp => huptodate p (hmember p hp),
        fun p hp => ?_⟩
      rw [(hvoters₃ p hp).1, hterm₃]
    · refine ⟨c₂, j, helects, hj, hleader, fun p hp => ?_⟩
      rw [(hvoters p hp).1, hterm₂]

end RaftKV.Raft
