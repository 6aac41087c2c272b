import RaftKV.Raft.Durability

/-!
# Sending a snapshot in chunks

`sendSnapshotToPeer` sends a snapshot chunk by chunk, and `HandleInstallSnapshot` puts the
chunks together again.  It looks at the index and the offset of a chunk only: neither the
leader nor the transfer that a chunk belongs to is part of the check, and chunks of several
transfers do meet in one buffer.

What is installed is nevertheless the snapshot of one leader.  A chunk behind the first one
is sent only after the follower has accepted the one before it, so the follower has reached
the term of the transfer when such a chunk exists.  As long as it stays in that term, it
takes chunks of the one leader of that term only, and that leader's bytes for an index never
change (`Transfers.Inv`).
-/

namespace RaftKV.Raft

variable {σ : Type}

/-! ## What other critical sections leave alone -/

/-- The index and the data of an installed snapshot. -/
def Event.installation : Event → Option (ℕ × Bytes)
  | .applied (.snapshot data index _) => some (index, data)
  | _ => none

namespace Node

/-- The snapshots a node has installed. -/
def installed (n : Node σ) : List (ℕ × Bytes) :=
  n.events.filterMap Event.installation

/-- A step that has nothing to do with the reassembly of a snapshot. -/
structure Passes (n n' : Node σ) : Prop where
  recv : n'.recvSnapshot = n.recvSnapshot
  term : n.currentTerm ≤ n'.currentTerm
  base : n.lastIncludedIndex ≤ n'.lastIncludedIndex
  installed : n'.installed = n.installed

variable {n n' n'' : Node σ}

theorem Passes.refl (n : Node σ) : n.Passes n :=
  ⟨rfl, le_rfl, le_rfl, rfl⟩

theorem Passes.trans (h : n.Passes n') (h' : n'.Passes n'') : n.Passes n'' :=
  ⟨h'.recv.trans h.recv, h.term.trans h'.term, h.base.trans h'.base,
    h'.installed.trans h.installed⟩

/-- The new events of a step do not install anything. -/
theorem installed_of_events {events : List Event} (h : n'.events = n.events ++ events)
    (hevents : events.filterMap Event.installation = []) : n'.installed = n.installed := by
  unfold installed
  rw [h, List.filterMap_append, hevents, List.append_nil]

theorem advanceCommitTo_passes (n : Node σ) (newCommit : ℕ) :
    n.Passes (n.advanceCommitTo newCommit) := by
  refine ⟨rfl, le_rfl, le_rfl, installed_of_events rfl ?_⟩
  rw [List.map_map, List.filterMap_map, List.filterMap_eq_nil_iff]
  intro e _
  rfl

theorem maybeAdvanceCommit_passes (n : Node σ) : n.Passes n.maybeAdvanceCommit := by
  unfold maybeAdvanceCommit
  rcases n.advanceCommitFrom_cases n.lastLogIndex with heq | ⟨idx, -, -, -, -, -, -, heq⟩
  · rw [heq]
    exact .refl n
  · rw [heq, commitThrough]
    have hevent : n.Passes { n with events := n.events ++
        [Event.committed n.currentTerm idx n.lastIncludedIndex n.log] } :=
      ⟨rfl, le_rfl, le_rfl, installed_of_events rfl rfl⟩
    exact hevent.trans (advanceCommitTo_passes _ idx)

theorem learnCommit_passes (n : Node σ) (leaderCommit : ℕ) :
    n.Passes (n.learnCommit leaderCommit) := by
  unfold learnCommit
  split
  · exact advanceCommitTo_passes n _
  · exact .refl n

theorem becomeLeader_passes (n : Node σ) : n.Passes n.becomeLeader :=
  ⟨rfl, le_rfl, le_rfl, installed_of_events rfl rfl⟩

theorem recordMatch_passes (n : Node σ) (peer : NodeId) (newMatch : ℕ) :
    n.Passes (n.recordMatch peer newMatch) := by
  unfold recordMatch
  split
  · exact ⟨rfl, le_rfl, le_rfl, rfl⟩
  · exact .refl n

variable [PersistentState σ]

theorem becomeFollower_passes (n : Node σ) (term : ℕ) : n.Passes (n.becomeFollower term) := by
  unfold becomeFollower
  split
  · next hlt => exact ⟨rfl, hlt.le, le_rfl, rfl⟩
  · exact ⟨rfl, le_rfl, le_rfl, rfl⟩

theorem observeTerm_passes (n : Node σ) (term : ℕ) : n.Passes (n.observeTerm term) := by
  unfold observeTerm
  split
  · exact becomeFollower_passes n term
  · exact .refl n

theorem followLeader_passes (n : Node σ) (term : ℕ) (leaderId : NodeId) :
    n.Passes (n.followLeader term leaderId) := by
  unfold followLeader
  split
  · have h := becomeFollower_passes n term
    exact ⟨h.recv, h.term, h.base, h.installed⟩
  · exact ⟨rfl, le_rfl, le_rfl, rfl⟩

theorem electionTimeout_passes (n : Node σ) : n.Passes n.electionTimeout.2 := by
  have hcampaign : n.Passes n.campaign :=
    ⟨rfl, Nat.le_succ _, le_rfl, installed_of_events rfl rfl⟩
  unfold electionTimeout
  split
  · unfold startElection
    split
    · exact hcampaign.trans (becomeLeader_passes _)
    · exact hcampaign
  · exact .refl n

theorem handleVoteReply_passes (n : Node σ) (req : RequestVoteRequest)
    (resp : RequestVoteResponse) : n.Passes (n.handleVoteReply req resp) := by
  unfold handleVoteReply
  split
  · exact becomeFollower_passes n _
  · split
    · have hcount : n.Passes
          { n with votes := Function.update n.votes req.term (n.votes req.term + 1) } :=
        ⟨rfl, le_rfl, le_rfl, rfl⟩
      unfold countVote
      split
      · exact hcount.trans (becomeLeader_passes _)
      · exact hcount
    · exact .refl n

theorem handleRequestVote_passes (n : Node σ) (req : RequestVoteRequest) :
    n.Passes (n.handleRequestVote req).2 := by
  unfold handleRequestVote
  split
  · exact .refl n
  · refine (observeTerm_passes n req.term).trans ?_
    generalize n.observeTerm req.term = m
    unfold decideVote
    split
    · exact .refl m
    · split
      · exact .refl m
      · exact ⟨rfl, le_rfl, le_rfl, installed_of_events rfl rfl⟩

theorem handleAppendEntries_passes (n : Node σ) (req : AppendEntriesRequest) :
    n.Passes (n.handleAppendEntries req).2 := by
  unfold handleAppendEntries
  split
  · exact .refl n
  · refine (followLeader_passes n req.term req.leaderId).trans ?_
    generalize n.followLeader req.term req.leaderId = m
    unfold checkAndAccept
    split
    · exact .refl m
    · obtain ⟨storage, heq⟩ := m.acceptEntries_eq req
      rw [heq]
      have happend : m.Passes
          { m with
            log := (m.appendNew (req.prevLogIndex + 1) req.entries).log
            storage := storage } := ⟨rfl, le_rfl, le_rfl, rfl⟩
      exact happend.trans (learnCommit_passes _ _)

theorem compactLog_passes (n : Node σ) (data : Bytes) (index term : ℕ) :
    n.Passes (n.compactLog data index term).2 := by
  obtain ⟨storage, heq | ⟨hnew, -, heq⟩⟩ := n.compactLog_cases data index term
  · rw [heq]
    exact ⟨rfl, le_rfl, le_rfl, rfl⟩
  · rw [heq]
    exact ⟨rfl, le_rfl, hnew.le, rfl⟩

theorem propose_passes (n : Node σ) (data : Bytes) : n.Passes (n.propose data).2 := by
  unfold propose
  split
  · exact .refl n
  · have happend : n.Passes (n.appendOwn (n.nextEntry data)) := ⟨rfl, le_rfl, le_rfl, rfl⟩
    exact happend.trans (maybeAdvanceCommit_passes _)

theorem handleAppendReply_passes (n : Node σ) (peer : NodeId) (req : AppendEntriesRequest)
    (resp : AppendEntriesResponse) : n.Passes (n.handleAppendReply peer req resp) := by
  unfold handleAppendReply
  split
  · exact becomeFollower_passes n _
  · split
    · exact .refl n
    · split
      · exact (recordMatch_passes n peer _).trans (maybeAdvanceCommit_passes _)
      · exact ⟨rfl, le_rfl, le_rfl, rfl⟩

theorem handleSnapshotReply_passes (n : Node σ) (peer : NodeId) (t : SnapshotTransfer)
    (resp : InstallSnapshotResponse) : n.Passes (n.handleSnapshotReply peer t resp).2 := by
  unfold handleSnapshotReply
  split
  · exact becomeFollower_passes n _
  · split
    · exact .refl n
    · split
      · exact .refl n
      · split
        · exact recordMatch_passes n peer _
        · exact .refl n

end Node

/-- A critical section other than `HandleInstallSnapshot`. -/
def Section.unrelated : Section → Bool
  | .installSnapshot _ => false
  | _ => true

theorem Section.passes [PersistentState σ] {call : Section} (h : call.unrelated) (n : Node σ) :
    n.Passes (call.run n) := by
  cases call with
  | electionTimeout => exact n.electionTimeout_passes
  | voteReply req resp => exact n.handleVoteReply_passes req resp
  | requestVote req => exact n.handleRequestVote_passes req
  | appendEntries req => exact n.handleAppendEntries_passes req
  | installSnapshot req => simp [Section.unrelated] at h
  | compactLog data index term => exact n.compactLog_passes data index term
  | propose data => exact n.propose_passes data
  | appendReply peer req resp => exact n.handleAppendReply_passes peer req resp
  | snapshotReply peer t resp => exact n.handleSnapshotReply_passes peer t resp

/-! ## One chunk -/

namespace SnapshotTransfer

variable (t : SnapshotTransfer)

/-- The transfer in front of its next chunk. -/
def next : SnapshotTransfer :=
  { t with offset := t.chunkEnd }

-- by rewriting: left to compare the two sides, the kernel would count up to the chunk size
@[simp]
theorem next_term : t.next.term = t.term := by
  rw [next]

@[simp]
theorem next_leaderId : t.next.leaderId = t.leaderId := by
  rw [next]

@[simp]
theorem next_lastIncludedIndex : t.next.lastIncludedIndex = t.lastIncludedIndex := by
  rw [next]

@[simp]
theorem next_lastIncludedTerm : t.next.lastIncludedTerm = t.lastIncludedTerm := by
  rw [next]

@[simp]
theorem next_data : t.next.data = t.data := by
  rw [next]

@[simp]
theorem next_offset : t.next.offset = t.chunkEnd := by
  rw [next]

theorem chunkEnd_le : t.chunkEnd ≤ t.data.length := by
  unfold chunkEnd
  split
  · exact le_rfl
  · next hle => exact not_lt.mp hle

theorem offset_le_chunkEnd (h : t.offset ≤ t.data.length) : t.offset ≤ t.chunkEnd := by
  unfold chunkEnd
  split
  · exact h
  · exact Nat.le_add_right _ _

/-- A chunk continues what was sent before it. -/
theorem take_append_request (h : t.offset ≤ t.data.length) :
    t.data.take t.offset ++ t.request.data = t.data.take t.chunkEnd := by
  have htake : t.data.take t.offset = (t.data.take t.chunkEnd).take t.offset := by
    rw [List.take_take, Nat.min_eq_left (t.offset_le_chunkEnd h)]
  rw [htake]
  exact List.take_append_drop _ _

/-- The last chunk completes the data. -/
theorem take_chunkEnd_of_done (h : t.done = true) : t.data.take t.chunkEnd = t.data := by
  unfold done at h
  exact List.take_of_length_le (of_decide_eq_true h)

/-- A chunk that is not the last one is not empty. -/
theorem offset_lt_chunkEnd (h : t.done = false) : t.offset < t.chunkEnd := by
  have hlt : ¬ t.chunkEnd ≥ t.data.length := of_decide_eq_false h
  unfold chunkEnd at hlt ⊢
  split
  · next hgt =>
      rw [if_pos hgt] at hlt
      exact absurd le_rfl hlt
  · exact Nat.lt_add_of_pos_right (Nat.zero_lt_succ _)

end SnapshotTransfer

variable [PersistentState σ]

namespace Node

/-- What the delivery of a chunk that is not stale does to a node. -/
structure Receives (n n' : Node σ) (t : SnapshotTransfer) (success : Bool) : Prop where
  term : n'.currentTerm = t.term
  base : n.lastIncludedIndex ≤ n'.lastIncludedIndex
  buffer : (n'.recvSnapshot = n.recvSnapshot ∧
      (success → t.lastIncludedIndex ≤ n'.lastIncludedIndex)) ∨
    ∀ recv ∈ n'.recvSnapshot,
      recv.lastIncludedIndex = t.lastIncludedIndex ∧ recv.data <+: t.data
  installed : n'.installed = n.installed ∨
    n'.installed = n.installed ++ [(t.lastIncludedIndex, t.data)]

/-- The last chunk completes the buffer. -/
theorem installSnapshot_receives (n : Node σ) {t : SnapshotTransfer}
    (hterm : n.currentTerm = t.term) (hnew : n.lastIncludedIndex < t.lastIncludedIndex)
    {recv : SnapshotRecvState} (hindex : recv.lastIncludedIndex = t.lastIncludedIndex)
    (hdata : recv.data = t.data) :
    n.Receives (n.installSnapshot recv).2 t (n.installSnapshot recv).1 := by
  unfold installSnapshot
  split
  · exact ⟨hterm, le_rfl, .inr (by simp), .inl rfl⟩
  · refine ⟨hterm, ?_, .inr (by simp [replaceLog, send]), .inr ?_⟩
    · rw [← hindex] at hnew
      exact hnew.le
    · rw [← hindex, ← hdata]
      unfold installed replaceLog send
      rw [List.filterMap_append]
      rfl

/-- What a node that is in the term of the transfer does with a chunk. -/
theorem takeChunk_receives (n : Node σ) {t : SnapshotTransfer} (hterm : n.currentTerm = t.term)
    (hoffset : t.offset ≤ t.data.length)
    (hfits : 0 < t.offset → n.lastIncludedIndex < t.lastIncludedIndex →
      ∀ recv ∈ n.recvSnapshot, recv.lastIncludedIndex = t.lastIncludedIndex →
        recv.data.length = t.offset → recv.data = t.data.take t.offset) :
    n.Receives (n.takeChunk t.request).2 t (n.takeChunk t.request).1.success := by
  unfold takeChunk
  split
  · next hstale => exact ⟨hterm, le_rfl, .inl ⟨rfl, fun _ => hstale⟩, .inl rfl⟩
  · next hnew =>
      have hnew : n.lastIncludedIndex < t.lastIncludedIndex := not_le.mp hnew
      -- a chunk that fits continues the data of its own transfer
      have hcontinues : ∀ recv, n.receiving t.request = some recv →
          recv.lastIncludedIndex = t.lastIncludedIndex → recv.data.length = t.offset →
          recv.data ++ t.request.data = t.data.take t.chunkEnd := by
        intro recv hrecv hindex hlength
        rw [← t.take_append_request hoffset]
        congr 1
        unfold receiving at hrecv
        split at hrecv
        · next hzero =>
            have hzero : t.offset = 0 := hzero
            rw [Option.some.injEq] at hrecv
            rw [← hrecv, hzero]
            rfl
        · next hpos => exact hfits (Nat.pos_of_ne_zero hpos) hnew recv hrecv hindex hlength
      simp only [receiveChunk]
      split
      · exact ⟨hterm, le_rfl, .inr (by simp), .inl rfl⟩
      · next recv hrecv =>
          split
          · next hmismatch =>
              refine ⟨hterm, le_rfl, .inl ⟨?_, by simp⟩, .inl rfl⟩
              unfold receiving at hrecv
              split at hrecv
              · next hzero =>
                  rw [Option.some.injEq] at hrecv
                  rw [← hrecv, hzero] at hmismatch
                  simp at hmismatch
              · exact hrecv.symm
          · next hfit =>
              rw [not_or, not_not, not_not] at hfit
              have hdata := hcontinues recv hrecv hfit.1 hfit.2
              split
              · next hdone =>
                  refine n.installSnapshot_receives hterm hnew hfit.1 ?_
                  rw [hdata, t.take_chunkEnd_of_done hdone]
              · refine ⟨hterm, le_rfl, .inr ?_, .inl rfl⟩
                intro recv' hrecv'
                rw [Option.mem_some_iff] at hrecv'
                subst hrecv'
                refine ⟨hfit.1, ?_⟩
                simp only
                rw [hdata]
                exact List.take_prefix _ _

/-- The delivery of a chunk: it is rejected for its term, or it is received. -/
theorem handleInstallSnapshot_receives (n : Node σ) {t : SnapshotTransfer}
    (hoffset : t.offset ≤ t.data.length)
    (hfits : 0 < t.offset → ¬ t.term < n.currentTerm →
      n.lastIncludedIndex < t.lastIncludedIndex →
      ∀ recv ∈ n.recvSnapshot, recv.lastIncludedIndex = t.lastIncludedIndex →
        recv.data.length = t.offset → recv.data = t.data.take t.offset) :
    (t.term < n.currentTerm ∧
        n.handleInstallSnapshot t.request = (⟨n.currentTerm, false⟩, n)) ∨
      (¬ t.term < n.currentTerm ∧
        n.Receives (n.handleInstallSnapshot t.request).2 t
          (n.handleInstallSnapshot t.request).1.success) := by
  by_cases hterm : t.term < n.currentTerm
  · exact .inl ⟨hterm, if_pos hterm⟩
  · refine .inr ⟨hterm, ?_⟩
    have hhandle : n.handleInstallSnapshot t.request =
        (n.followLeader t.term t.leaderId).takeChunk t.request := if_neg hterm
    rw [hhandle]
    have hpasses := followLeader_passes n t.term t.leaderId
    have hbase := followLeader_base n t.term t.leaderId
    have hreceives := takeChunk_receives (n.followLeader t.term t.leaderId)
      (followLeader_currentTerm n hterm t.leaderId) hoffset
      (by rw [hpasses.recv, hbase]; exact fun hpos => hfits hpos hterm)
    refine ⟨hreceives.term, hbase ▸ hreceives.base, ?_, ?_⟩
    · rw [← hpasses.recv]
      exact hreceives.buffer
    · rw [← hpasses.installed]
      exact hreceives.installed

end Node

/-! ## Many transfers -/

/-- A follower and the chunks that have been sent to it. -/
structure Transfers (σ : Type) where
  follower : Node σ
  sent : List SnapshotTransfer
  /-- The chunks that the follower has answered with success. -/
  acknowledged : List SnapshotTransfer

inductive TransferEvent
  /-- A leader sends the first chunk of a snapshot. -/
  | start (t : SnapshotTransfer)
  /-- A chunk that has been sent is delivered, once more or for the first time. -/
  | deliver (t : SnapshotTransfer)
  /-- The chunk after an acknowledged one is sent. -/
  | proceed (t : SnapshotTransfer)
  /-- The follower runs some other critical section. -/
  | other (call : Section)
  /-- The follower is restarted. -/
  | restart

namespace Transfers

def step (w : Transfers σ) : TransferEvent → Transfers σ
  | .start t => { w with sent := t :: w.sent }
  | .deliver t =>
      { w with
        follower := (w.follower.handleInstallSnapshot t.request).2
        acknowledged :=
          if (w.follower.handleInstallSnapshot t.request).1.success then t :: w.acknowledged
          else w.acknowledged }
  | .proceed t => { w with sent := t.next :: w.sent }
  | .other call => { w with follower := call.run w.follower }
  | .restart => { w with follower := w.follower.resume }

section Environment

-- the leader of each term, and the bytes that each node has saved for an index
variable (leaderOf : ℕ → NodeId) (saved : NodeId → ℕ → Bytes)

omit [PersistentState σ] in
/-- What may happen: each term has one leader, a leader sends what it has saved, and a chunk
behind the first one is sent after the one before it was acknowledged.  Nothing bounds the
order in which chunks arrive, or how often. -/
def Possible (w : Transfers σ) : TransferEvent → Prop
  | .start t =>
      t.leaderId = leaderOf t.term ∧ t.data = saved t.leaderId t.lastIncludedIndex ∧ t.offset = 0
  | .deliver t => t ∈ w.sent
  | .proceed t => t ∈ w.acknowledged ∧ t.done = false
  | .other call => call.unrelated
  | .restart => True

omit [PersistentState σ] in
/-- The buffer holds a part of a snapshot that was sent in the follower's term. -/
def Current (w : Transfers σ) : Prop :=
  ∀ recv ∈ w.follower.recvSnapshot, ∃ t ∈ w.sent, t.term = w.follower.currentTerm ∧
    t.lastIncludedIndex = recv.lastIncludedIndex ∧ recv.data <+: t.data

omit [PersistentState σ] in
/-- The follower has reached the term of the transfer, and if it is still there, then it needs
the snapshot no more or listens to the leader of this term only. -/
def Settled (w : Transfers σ) (t : SnapshotTransfer) : Prop :=
  t.term ≤ w.follower.currentTerm ∧
    (t.term = w.follower.currentTerm →
      t.lastIncludedIndex ≤ w.follower.lastIncludedIndex ∨ w.Current)

/-- The invariant of the runs that begin with the node `n`. -/
structure Inv (n : Node σ) (w : Transfers σ) : Prop where
  leader : ∀ t ∈ w.sent, t.leaderId = leaderOf t.term
  data : ∀ t ∈ w.sent, t.data = saved t.leaderId t.lastIncludedIndex
  offset : ∀ t ∈ w.sent, t.offset ≤ t.data.length
  acknowledged : ∀ t ∈ w.acknowledged, t ∈ w.sent ∧ w.Settled t
  settled : ∀ t ∈ w.sent, 0 < t.offset → w.Settled t
  installed : ∀ snapshot ∈ w.follower.installed, snapshot ∈ n.installed ∨
    ∃ t ∈ w.sent, snapshot = (t.lastIncludedIndex, t.data)

variable {leaderOf saved}

section Steps

variable {n : Node σ} {w w' : Transfers σ}

omit [PersistentState σ] in
/-- A follower that moves on, with its buffer as it was or filled in its present term. -/
theorem Settled.advance {t : SnapshotTransfer} (h : w.Settled t)
    (hsent : ∀ t ∈ w.sent, t ∈ w'.sent)
    (hterm : w.follower.currentTerm ≤ w'.follower.currentTerm)
    (hbase : w.follower.lastIncludedIndex ≤ w'.follower.lastIncludedIndex)
    (hbuffer : w'.follower.recvSnapshot = w.follower.recvSnapshot ∨ w'.Current) :
    w'.Settled t := by
  obtain ⟨hle, hsettled⟩ := h
  refine ⟨hle.trans hterm, fun heq => ?_⟩
  have hsame : w.follower.currentTerm = w'.follower.currentTerm := by omega
  rcases hsettled (heq.trans hsame.symm) with hstale | hcurrent
  · exact .inl (hstale.trans hbase)
  · refine .inr ?_
    rcases hbuffer with hbuffer | hbuffer
    · intro recv hrecv
      rw [hbuffer] at hrecv
      obtain ⟨t', ht', hterm', hindex, hdata⟩ := hcurrent recv hrecv
      exact ⟨t', hsent t' ht', hterm'.trans hsame, hindex, hdata⟩
    · exact hbuffer

omit [PersistentState σ] in
/-- A step of the follower alone, which installs nothing or one of the snapshots sent. -/
theorem Inv.follow (h : w.Inv leaderOf saved n) {m : Node σ}
    (hterm : w.follower.currentTerm ≤ m.currentTerm)
    (hbase : w.follower.lastIncludedIndex ≤ m.lastIncludedIndex)
    (hbuffer : m.recvSnapshot = w.follower.recvSnapshot ∨
      Current { w with follower := m })
    (hinstalled : ∀ snapshot ∈ m.installed, snapshot ∈ w.follower.installed ∨
      ∃ t ∈ w.sent, snapshot = (t.lastIncludedIndex, t.data)) :
    Inv leaderOf saved n { w with follower := m } where
  leader := h.leader
  data := h.data
  offset := h.offset
  acknowledged t ht :=
    ⟨(h.acknowledged t ht).1,
      (h.acknowledged t ht).2.advance (fun _ h => h) hterm hbase hbuffer⟩
  settled t ht hpos := (h.settled t ht hpos).advance (fun _ h => h) hterm hbase hbuffer
  installed snapshot hsnapshot := by
    rcases hinstalled snapshot hsnapshot with hold | hnew
    · exact h.installed snapshot hold
    · exact .inr hnew

omit [PersistentState σ] in
/-- One more chunk has been sent. -/
theorem Inv.send (h : w.Inv leaderOf saved n) {t : SnapshotTransfer}
    (hleader : t.leaderId = leaderOf t.term) (hdata : t.data = saved t.leaderId t.lastIncludedIndex)
    (hoffset : t.offset ≤ t.data.length) (hsettled : 0 < t.offset → w.Settled t) :
    Inv leaderOf saved n { w with sent := t :: w.sent } := by
  have hkeep : ∀ t', w.Settled t' → Settled { w with sent := t :: w.sent } t' := fun t' ht' =>
    ht'.advance (fun _ h => List.mem_cons_of_mem _ h) le_rfl le_rfl (.inl rfl)
  refine ⟨?_, ?_, ?_, ?_, ?_, ?_⟩
  · intro t' ht'
    rcases List.mem_cons.mp ht' with rfl | ht'
    · exact hleader
    · exact h.leader t' ht'
  · intro t' ht'
    rcases List.mem_cons.mp ht' with rfl | ht'
    · exact hdata
    · exact h.data t' ht'
  · intro t' ht'
    rcases List.mem_cons.mp ht' with rfl | ht'
    · exact hoffset
    · exact h.offset t' ht'
  · intro t' ht'
    obtain ⟨hmem, hset⟩ := h.acknowledged t' ht'
    exact ⟨List.mem_cons_of_mem _ hmem, hkeep t' hset⟩
  · intro t' ht' hpos
    rcases List.mem_cons.mp ht' with rfl | ht'
    · exact hkeep _ (hsettled hpos)
    · exact hkeep t' (h.settled t' ht' hpos)
  · intro snapshot hsnapshot
    rcases h.installed snapshot hsnapshot with hold | ⟨t', ht', heq⟩
    · exact .inl hold
    · exact .inr ⟨t', List.mem_cons_of_mem _ ht', heq⟩

omit [PersistentState σ] in
/-- A chunk that was sent continues the buffer that it fits: both are of the one leader of the
follower's term. -/
theorem Inv.fits (h : w.Inv leaderOf saved n) {t : SnapshotTransfer} (ht : t ∈ w.sent)
    (hpos : 0 < t.offset) (hterm : ¬ t.term < w.follower.currentTerm)
    (hnew : w.follower.lastIncludedIndex < t.lastIncludedIndex) :
    ∀ recv ∈ w.follower.recvSnapshot, recv.lastIncludedIndex = t.lastIncludedIndex →
      recv.data.length = t.offset → recv.data = t.data.take t.offset := by
  intro recv hrecv hindex hlength
  obtain ⟨hle, hsettled⟩ := h.settled t ht hpos
  have hsame : t.term = w.follower.currentTerm := by omega
  rcases hsettled hsame with hstale | hcurrent
  · omega
  · obtain ⟨t', ht', hterm', hindex', hdata⟩ := hcurrent recv hrecv
    have hleader : t'.leaderId = t.leaderId := by
      rw [h.leader t' ht', h.leader t ht, hterm', hsame]
    have hbytes : t'.data = t.data := by
      rw [h.data t' ht', h.data t ht, hleader, hindex', hindex]
    rw [hbytes, List.prefix_iff_eq_take, hlength] at hdata
    exact hdata

/-- A chunk is delivered. -/
theorem Inv.deliver (h : w.Inv leaderOf saved n) {t : SnapshotTransfer} (ht : t ∈ w.sent) :
    (w.step (.deliver t)).Inv leaderOf saved n := by
  rcases w.follower.handleInstallSnapshot_receives (h.offset t ht) (h.fits ht) with
    ⟨hterm, heq⟩ | ⟨hterm, hreceives⟩
  · have hsame : w.step (.deliver t) = w := by
      simp only [step, heq, Bool.false_eq_true, if_false]
    rwa [hsame]
  · simp only [step]
    generalize (w.follower.handleInstallSnapshot t.request).2 = m at hreceives ⊢
    generalize (w.follower.handleInstallSnapshot t.request).1.success = success at hreceives ⊢
    have hbuffer : m.recvSnapshot = w.follower.recvSnapshot ∨
        Current { w with follower := m } := by
      rcases hreceives.buffer with ⟨hsame, -⟩ | hfilled
      · exact .inl hsame
      · refine .inr fun recv hrecv => ⟨t, ht, hreceives.term.symm, ?_⟩
        exact ⟨(hfilled recv hrecv).1.symm, (hfilled recv hrecv).2⟩
    have hfollow : Inv leaderOf saved n { w with follower := m } := by
      refine h.follow (by rw [hreceives.term]; omega) hreceives.base hbuffer ?_
      intro snapshot hsnapshot
      rcases hreceives.installed with hsame | hnew
      · exact .inl (hsame ▸ hsnapshot)
      · rw [hnew, List.mem_append, List.mem_singleton] at hsnapshot
        exact hsnapshot.imp_right fun heq => ⟨t, ht, heq⟩
    cases success with
    | false => exact hfollow
    | true =>
        refine ⟨hfollow.leader, hfollow.data, hfollow.offset, ?_, hfollow.settled,
          hfollow.installed⟩
        intro t' ht'
        rcases List.mem_cons.mp ht' with rfl | ht'
        · refine ⟨ht, hreceives.term.ge, fun _ => ?_⟩
          rcases hreceives.buffer with ⟨-, hstale⟩ | hfilled
          · exact .inl (hstale rfl)
          · refine .inr fun recv hrecv => ⟨t', ht, hreceives.term.symm, ?_⟩
            exact ⟨(hfilled recv hrecv).1.symm, (hfilled recv hrecv).2⟩
        · exact hfollow.acknowledged t' ht'

/-- Every step keeps the invariant. -/
theorem Inv.step (h : w.Inv leaderOf saved n) {event : TransferEvent}
    (hevent : w.Possible leaderOf saved event) : (w.step event).Inv leaderOf saved n := by
  cases event with
  | start t =>
      obtain ⟨hleader, hdata, hzero⟩ := hevent
      exact h.send hleader hdata (by omega) (by omega)
  | deliver t => exact h.deliver hevent
  | proceed t =>
      obtain ⟨ht, hsettled⟩ := h.acknowledged t hevent.1
      refine h.send ?_ ?_ ?_ fun _ => ?_
      · simpa using h.leader t ht
      · simpa using h.data t ht
      · simpa using t.chunkEnd_le
      · unfold Settled at hsettled ⊢
        simpa using hsettled
  | other call =>
      have hpasses := Section.passes hevent w.follower
      exact h.follow hpasses.term hpasses.base (.inl hpasses.recv) fun snapshot hsnapshot =>
        .inl (hpasses.installed ▸ hsnapshot)
  | restart =>
      refine h.follow le_rfl le_rfl (.inr ?_) fun snapshot hsnapshot => .inl hsnapshot
      intro recv hrecv
      simp [Node.resume, Node.newNode] at hrecv

end Steps

end Environment

end Transfers

/-! ## One transfer on its own -/

namespace Node

/-- The buffer of a follower that has the first bytes of a transfer. -/
def received (t : SnapshotTransfer) (bytes : ℕ) : SnapshotRecvState :=
  ⟨t.lastIncludedIndex, t.lastIncludedTerm, t.data.take bytes⟩

theorem received_next (t : SnapshotTransfer) (bytes : ℕ) :
    received t.next bytes = received t bytes := by
  simp [received]

/-- A chunk that arrives in order. -/
theorem handleInstallSnapshot_inOrder (n : Node σ) {t : SnapshotTransfer}
    (hterm : n.currentTerm ≤ t.term) (hnew : n.lastIncludedIndex < t.lastIncludedIndex)
    (hoffset : t.offset ≤ t.data.length)
    (hbuffer : 0 < t.offset → n.recvSnapshot = some (received t t.offset)) :
    n.handleInstallSnapshot t.request =
      if t.done then
        (⟨t.term, ((n.followLeader t.term t.leaderId).installSnapshot
            (received t t.chunkEnd)).1⟩,
          ((n.followLeader t.term t.leaderId).installSnapshot (received t t.chunkEnd)).2)
      else
        (⟨t.term, true⟩,
          { n.followLeader t.term t.leaderId with
            recvSnapshot := some (received t t.chunkEnd) }) := by
  have hpasses := followLeader_passes n t.term t.leaderId
  have hcurrent := followLeader_currentTerm n (not_lt.mpr hterm) t.leaderId
  have hbase := followLeader_base n t.term t.leaderId
  have hhandle : n.handleInstallSnapshot t.request =
      (n.followLeader t.term t.leaderId).takeChunk t.request := if_neg (not_lt.mpr hterm)
  rw [hhandle]
  generalize n.followLeader t.term t.leaderId = m at hpasses hcurrent hbase ⊢
  have hreceiving : m.receiving t.request = some (received t t.offset) := by
    unfold receiving
    split
    · next hzero =>
        have hzero : t.offset = 0 := hzero
        unfold received
        rw [hzero, List.take_zero]
        rfl
    · next hpos =>
        rw [hpasses.recv]
        exact hbuffer (Nat.pos_of_ne_zero hpos)
  have hfits : ¬ ((received t t.offset).lastIncludedIndex ≠ t.request.lastIncludedIndex ∨
      (received t t.offset).data.length ≠ t.request.offset) := by
    have hlength : (t.data.take t.offset).length = t.offset := by
      rw [List.length_take, Nat.min_eq_left hoffset]
    rw [not_or, not_not, not_not]
    exact ⟨rfl, hlength⟩
  have hdata : { received t t.offset with data := (received t t.offset).data ++ t.request.data } =
      received t t.chunkEnd := by
    unfold received
    rw [t.take_append_request hoffset]
  have hfresh : ¬ t.request.lastIncludedIndex ≤ m.lastIncludedIndex := by
    rw [hbase]
    exact not_le.mpr hnew
  unfold takeChunk
  rw [if_neg hfresh, hcurrent]
  simp only [receiveChunk, hreceiving]
  rw [if_neg hfits, hdata]
  have hdone : t.request.done = t.done := rfl
  rw [hdone]
  split <;> rfl

/-- The loop of `sendSnapshotToPeer`, with a follower that receives nothing else. -/
def sendAll (n : Node σ) (t : SnapshotTransfer) : Node σ :=
  if (n.handleInstallSnapshot t.request).1.success ∧ t.done = false then
    (n.handleInstallSnapshot t.request).2.sendAll t.next
  else (n.handleInstallSnapshot t.request).2
termination_by t.data.length - t.offset
decreasing_by
  rename_i hnext
  have hlt := t.offset_lt_chunkEnd hnext.2
  have hle := t.chunkEnd_le
  rw [t.next_data, t.next_offset]
  omega

/-- A transfer on its own installs what was sent, from wherever it stands. -/
theorem installed_sendAll (n : Node σ) (t : SnapshotTransfer) (hterm : n.currentTerm ≤ t.term)
    (hnew : n.lastIncludedIndex < t.lastIncludedIndex) (hoffset : t.offset ≤ t.data.length)
    (hbuffer : 0 < t.offset → n.recvSnapshot = some (received t t.offset))
    (hsave : ∀ s : σ,
      (saveSnapshot t.data t.lastIncludedIndex t.lastIncludedTerm s).1 = .ok ()) :
    (n.sendAll t).installed = n.installed ++ [(t.lastIncludedIndex, t.data)] := by
  -- induction on what is left to send
  obtain ⟨left, hleft⟩ : ∃ left, t.data.length - t.offset = left := ⟨_, rfl⟩
  induction left using Nat.strong_induction_on generalizing n t with
  | _ left ih =>
      have hchunk := n.handleInstallSnapshot_inOrder hterm hnew hoffset hbuffer
      have hpasses := followLeader_passes n t.term t.leaderId
      have hcurrent := followLeader_currentTerm n (not_lt.mpr hterm) t.leaderId
      have hbase := followLeader_base n t.term t.leaderId
      rw [sendAll, hchunk]
      by_cases hdone : t.done = true
      · rw [if_pos hdone, if_neg (by simp [hdone]), ← hpasses.installed]
        generalize n.followLeader t.term t.leaderId = m
        have hsaved := hsave m.storage
        simp only [installSnapshot, received, t.take_chunkEnd_of_done hdone]
        split
        · next herror =>
            rw [herror] at hsaved
            simp at hsaved
        · unfold installed replaceLog send
          rw [List.filterMap_append]
          rfl
      · have hmore : t.done = false := by simpa using hdone
        rw [if_neg hdone, if_pos ⟨rfl, hmore⟩]
        have hlt := t.offset_lt_chunkEnd hmore
        have hle := t.chunkEnd_le
        have hnext := ih (t.data.length - t.chunkEnd) (by omega)
          { n.followLeader t.term t.leaderId with
            recvSnapshot := some (received t t.chunkEnd) } t.next
          (by rw [t.next_term]; exact hcurrent.le)
          (by rw [t.next_lastIncludedIndex]; exact hbase ▸ hnew)
          (by rw [t.next_offset, t.next_data]; exact hle)
          (fun _ => by rw [received_next, t.next_offset])
          (by rw [t.next_data, t.next_lastIncludedIndex, t.next_lastIncludedTerm]; exact hsave)
          (by rw [t.next_data, t.next_offset])
        rw [hnext, t.next_lastIncludedIndex, t.next_data]
        exact congrArg (· ++ [(t.lastIncludedIndex, t.data)]) hpasses.installed

end Node

/-! ## The leader's side -/

namespace Node

/-- A transfer begins at offset `0` with what its leader has saved for the index. -/
theorem loadTransfer_shape {leader later : Node σ} {t t' : SnapshotTransfer}
    (hbegin : leader.beginTransfer = some t) (hload : later.loadTransfer t = some t') :
    t'.term = leader.currentTerm ∧ t'.leaderId = leader.cfg.id ∧ t'.offset = 0 ∧
      ∃ term, loadSnapshot later.storage = .ok (t'.data, t'.lastIncludedIndex, term) := by
  obtain ⟨-, rfl⟩ := beginTransfer_eq_some hbegin
  unfold loadTransfer at hload
  split at hload
  · simp at hload
  · next data index term hsaved =>
      split at hload
      · simp at hload
      · next hindex =>
          rw [Option.some.injEq] at hload
          subst hload
          exact ⟨rfl, rfl, rfl, term, by rw [hsaved, not_not.mp hindex]⟩

/-- It goes on to its next chunk after a success only. -/
theorem next_of_handleSnapshotReply {leader : Node σ} {peer : NodeId} {t t' : SnapshotTransfer}
    {resp : InstallSnapshotResponse}
    (h : (leader.handleSnapshotReply peer t resp).1 = some t') :
    resp.success = true ∧ t.done = false ∧ t' = t.next := by
  unfold handleSnapshotReply at h
  split at h
  · simp at h
  · split at h
    · simp at h
    · split at h
      · simp at h
      · next hsuccess =>
          split at h
          · simp at h
          · next hdone =>
              refine ⟨not_not.mp hsuccess, by simpa using hdone, ?_⟩
              rw [SnapshotTransfer.next]
              exact (Option.some.inj h).symm

end Node

/-! ## The transfer is faithful -/

/-- **Chunked transfer.**  Whatever chunks meet on their way to a follower, what it installs for
an index is the complete snapshot that one leader has saved for it; and a transfer that is not
disturbed installs what it sends. -/
theorem chunked_transfer_faithful (leaderOf : ℕ → NodeId) (saved : NodeId → ℕ → Bytes)
    (n : Node σ) :
    (∀ w, Reaches Transfers.step (Transfers.Possible leaderOf saved) ⟨n, [], []⟩ w →
      ∀ index data, (index, data) ∈ w.follower.installed → (index, data) ∈ n.installed ∨
        ∃ t ∈ w.sent, t.lastIncludedIndex = index ∧ t.leaderId = leaderOf t.term ∧
          data = saved t.leaderId index) ∧
    ∀ (m : Node σ) (t : SnapshotTransfer), t.offset = 0 → m.currentTerm ≤ t.term →
      m.lastIncludedIndex < t.lastIncludedIndex →
      (∀ s : σ, (saveSnapshot t.data t.lastIncludedIndex t.lastIncludedTerm s).1 = .ok ()) →
      (m.sendAll t).installed = m.installed ++ [(t.lastIncludedIndex, t.data)] := by
  constructor
  · intro w hrun index data hinstalled
    have hinv : w.Inv leaderOf saved n := by
      refine Reaches.invariant (P := Transfers.Inv leaderOf saved n) hrun ?_
        fun w event hw hevent => hw.step hevent
      exact ⟨by simp, by simp, by simp, by simp, by simp, fun snapshot h => .inl h⟩
    rcases hinv.installed (index, data) hinstalled with hold | ⟨t, ht, heq⟩
    · exact .inl hold
    · rw [Prod.mk.injEq] at heq
      refine .inr ⟨t, ht, heq.1.symm, hinv.leader t ht, ?_⟩
      rw [heq.2, heq.1]
      exact hinv.data t ht
  · intro m t hzero hterm hnew hsave
    exact m.installed_sendAll t hterm hnew (by omega) (by omega) hsave

def emptyFollower : Node MemState :=
  Node.newNode (Members.trio.config "a") PersistentState.fresh

/-- A snapshot of two full chunks. -/
def twoChunks : SnapshotTransfer :=
  ⟨1, "b", 5, 1, List.replicate (2 * snapshotChunkSize) 7, 0⟩

/-- A snapshot that fits one chunk. -/
def oneChunk : SnapshotTransfer :=
  ⟨1, "b", 5, 1, [1, 2, 3], 0⟩

/-- Its chunk is delivered twice. -/
def deliveredTwice : Transfers MemState :=
  [TransferEvent.start oneChunk, .deliver oneChunk, .deliver oneChunk].foldl Transfers.step
    ⟨emptyFollower, [], []⟩

theorem chunked_transfer_faithful_twoChunks :
    (emptyFollower.sendAll twoChunks).installed = [(5, twoChunks.data)] ∧
      deliveredTwice.follower.installed = [(5, [1, 2, 3])] ∧
      ∃ t ∈ deliveredTwice.sent, t.lastIncludedIndex = 5 ∧ t.leaderId = "b" := by
  obtain ⟨hany, halone⟩ := chunked_transfer_faithful (fun _ => "b") (fun _ _ => [1, 2, 3])
    emptyFollower
  have hsent := halone emptyFollower twoChunks rfl (Nat.zero_le _) (Nat.zero_lt_succ _) fun _ => rfl
  have hinstalled : deliveredTwice.follower.installed = [(5, [1, 2, 3])] := by decide
  refine ⟨hsent, hinstalled, ?_⟩
  have hrun : Reaches Transfers.step (Transfers.Possible (fun _ => "b") fun _ _ => [1, 2, 3])
      ⟨emptyFollower, [], []⟩ deliveredTwice := by
    refine Reaches.foldl .refl _ ⟨⟨rfl, rfl, rfl⟩, ?_, ?_, trivial⟩
    · exact List.mem_singleton_self _
    · exact List.mem_singleton_self _
  rcases hany deliveredTwice hrun 5 [1, 2, 3] (by rw [hinstalled]; simp) with hold | ⟨t, ht, h⟩
  · exact absurd hold (by decide)
  · exact ⟨t, ht, h.1, h.2.1⟩

end RaftKV.Raft
