import RaftKV.Raft.Node
import RaftKV.Transition

/-!
# A cluster and its runs

The nodes of a cluster and the RPC calls between them.  A call stays on record
for ever: its request may be delivered never, late, or several times, each
delivery adds a response, and the calling goroutine takes at most one of the
responses, after which the call is no longer `live`.  Nothing bounds the order in
which any of this happens.

An action is one critical section of the source, together with what it sends.
`sendSnapshotToPeer` spans several critical sections; `SnapshotTask` is where
such a goroutine stands before its first chunk is sent.

There are three kinds of restart.  `resume` is the contract of `PersistentState`,
`restart` reads the storage back, and `crash` is a process that dies inside a
critical section, after some of its storage calls, and then restarts.
-/

namespace RaftKV.Raft

open Function

/-- The members of a cluster: distinct, non-empty IDs. -/
structure Members where
  ids : List NodeId
  nodup : ids.Nodup
  named : "" ∉ ids

/-- The configuration of a member: its peers are all the others. -/
def Members.config (M : Members) (i : NodeId) : Config :=
  ⟨i, M.ids.erase i⟩

/-- A cluster of three. -/
def Members.trio : Members :=
  ⟨["a", "b", "c"], by decide, by decide⟩

/-- An RPC call. -/
structure Rpc (Q A : Type) where
  caller : NodeId
  callee : NodeId
  request : Q
  responses : List A
  live : Bool

namespace Rpc

variable {Q A : Type}

def call (caller callee : NodeId) (request : Q) : Rpc Q A :=
  ⟨caller, callee, request, [], true⟩

/-- A delivery of the request has been answered. -/
def answer (response : A) (r : Rpc Q A) : Rpc Q A :=
  { r with responses := r.responses ++ [response] }

/-- The caller has taken a response. -/
def consume (r : Rpc Q A) : Rpc Q A :=
  { r with live := false }

/-- The response a call that still waits may take. -/
def pending (r : Rpc Q A) (i : ℕ) : Option A :=
  if r.live then r.responses[i]? else none

/-- The calling process is gone. -/
def abandon (i : NodeId) (r : Rpc Q A) : Rpc Q A :=
  if r.caller = i then r.consume else r

theorem pending_some {r : Rpc Q A} {i : ℕ} {resp : A} (h : r.pending i = some resp) :
    r.live ∧ resp ∈ r.responses := by
  unfold pending at h
  split at h
  · next hlive => exact ⟨hlive, List.mem_of_getElem? h⟩
  · simp at h

/-- A call found after one of them was updated. -/
theorem getElem?_modify {l : List (Rpc Q A)} {k j : ℕ} {f : Rpc Q A → Rpc Q A} {r' : Rpc Q A}
    (h : (l.modify k f)[j]? = some r') :
    ∃ r, l[j]? = some r ∧ r' = if k = j then f r else r := by
  rw [List.getElem?_modify] at h
  obtain ⟨r, hr, rfl⟩ := Option.map_eq_some_iff.mp h
  exact ⟨r, hr, rfl⟩

/-- A call found after new ones were made. -/
theorem getElem?_append {l new : List (Rpc Q A)} {j : ℕ} {r : Rpc Q A}
    (h : (l ++ new)[j]? = some r) :
    l[j]? = some r ∨ ∃ i, j = l.length + i ∧ new[i]? = some r := by
  rcases Nat.lt_or_ge j l.length with hlt | hge
  · exact .inl (by rwa [List.getElem?_append_left hlt] at h)
  · refine .inr ⟨j - l.length, by omega, ?_⟩
    rwa [List.getElem?_append_right hge] at h

end Rpc

/-- A `sendSnapshotToPeer` goroutine in front of its first critical section, or
between that and `LoadSnapshot`. -/
inductive SnapshotTask
  | begin (caller callee : NodeId)
  | load (caller callee : NodeId) (transfer : SnapshotTransfer)

def SnapshotTask.caller : SnapshotTask → NodeId
  | begin caller _ => caller
  | load caller _ _ => caller

structure Cluster (σ : Type) where
  nodes : NodeId → Node σ
  votes : List (Rpc RequestVoteRequest RequestVoteResponse)
  appends : List (Rpc AppendEntriesRequest AppendEntriesResponse)
  snapshots : List (Rpc SnapshotTransfer InstallSnapshotResponse)
  tasks : List SnapshotTask

/-- The critical sections that write to storage, with what they are called
with. -/
inductive Section
  | electionTimeout
  | voteReply (req : RequestVoteRequest) (resp : RequestVoteResponse)
  | requestVote (req : RequestVoteRequest)
  | appendEntries (req : AppendEntriesRequest)
  | installSnapshot (req : InstallSnapshotRequest)
  | compactLog (data : Bytes) (lastIncludedIndex lastIncludedTerm : ℕ)
  | propose (data : Bytes)
  | appendReply (peer : NodeId) (req : AppendEntriesRequest) (resp : AppendEntriesResponse)
  | snapshotReply (peer : NodeId) (transfer : SnapshotTransfer) (resp : InstallSnapshotResponse)

/-- The node behind a critical section. -/
def Section.run {σ : Type} [PersistentState σ] (n : Node σ) : Section → Node σ
  | electionTimeout => n.electionTimeout.2
  | voteReply req resp => n.handleVoteReply req resp
  | requestVote req => (n.handleRequestVote req).2
  | appendEntries req => (n.handleAppendEntries req).2
  | installSnapshot req => (n.handleInstallSnapshot req).2
  | compactLog data index term => (n.compactLog data index term).2
  | propose data => (n.propose data).2
  | appendReply peer req resp => n.handleAppendReply peer req resp
  | snapshotReply peer transfer resp => (n.handleSnapshotReply peer transfer resp).2

inductive Action
  | electionTimeout (i : NodeId)
  | deliverVote (k : ℕ)
  | replyVote (k r : ℕ)
  | propose (i : NodeId) (data : Bytes)
  | replicate (i peer : NodeId)
  | deliverAppend (k : ℕ)
  | replyAppend (k r : ℕ)
  | beginSnapshot (k : ℕ)
  | loadSnapshot (k : ℕ)
  | deliverSnapshot (k : ℕ)
  | replySnapshot (k r : ℕ)
  | compactLog (i : NodeId) (data : Bytes) (lastIncludedIndex lastIncludedTerm : ℕ)
  | resume (i : NodeId)
  | restart (i : NodeId)
  | crash (i : NodeId) (inside : Section) (calls : ℕ)

namespace Cluster

variable {σ : Type} [PersistentState σ]

/-- Every node has just been created on empty storage. -/
def initial (M : Members) : Cluster σ where
  nodes i := Node.newNode (M.config i) PersistentState.fresh
  votes := []
  appends := []
  snapshots := []
  tasks := []

omit [PersistentState σ] in
def setNode (c : Cluster σ) (i : NodeId) (n : Node σ) : Cluster σ :=
  { c with nodes := update c.nodes i n }

omit [PersistentState σ] in
/-- The process of node `i` is replaced by a new one: its goroutines are gone,
its requests may still arrive. -/
def reboot (c : Cluster σ) (i : NodeId) (n : Node σ) : Cluster σ where
  nodes := update c.nodes i n
  votes := c.votes.map (.abandon i)
  appends := c.appends.map (.abandon i)
  snapshots := c.snapshots.map (.abandon i)
  tasks := c.tasks.filter fun task => task.caller ≠ i

/-- What storage holds if the process dies inside a critical section after
`calls` writing calls. -/
def durableAfter (n : Node σ) (inside : Section) (calls : ℕ) : σ :=
  (inside.run { n with storage := (⟨n.storage, calls⟩ : Interrupted σ) }).storage.durable

/-! ## One action -/

def electionTimeout (c : Cluster σ) (i : NodeId) : Cluster σ :=
  { c.setNode i (c.nodes i).electionTimeout.2 with
    votes := c.votes ++ (c.nodes i).electionTimeout.1.map fun call => .call i call.1 call.2 }

def deliverVote (c : Cluster σ) (k : ℕ) : Cluster σ :=
  match c.votes[k]? with
  | none => c
  | some rpc =>
      let out := (c.nodes rpc.callee).handleRequestVote rpc.request
      { c.setNode rpc.callee out.2 with votes := c.votes.modify k (.answer out.1) }

def replyVote (c : Cluster σ) (k r : ℕ) : Cluster σ :=
  match c.votes[k]? with
  | none => c
  | some rpc =>
      match rpc.pending r with
      | none => c
      | some resp =>
          { c.setNode rpc.caller ((c.nodes rpc.caller).handleVoteReply rpc.request resp) with
            votes := c.votes.modify k .consume }

def propose (c : Cluster σ) (i : NodeId) (data : Bytes) : Cluster σ :=
  c.setNode i ((c.nodes i).propose data).2

omit [PersistentState σ] in
def replicate (c : Cluster σ) (i peer : NodeId) : Cluster σ :=
  match (c.nodes i).replicateToPeer peer with
  | .nothing => c
  | .sendSnapshot => { c with tasks := c.tasks ++ [.begin i peer] }
  | .appendEntries req => { c with appends := c.appends ++ [.call i peer req] }

def deliverAppend (c : Cluster σ) (k : ℕ) : Cluster σ :=
  match c.appends[k]? with
  | none => c
  | some rpc =>
      let out := (c.nodes rpc.callee).handleAppendEntries rpc.request
      { c.setNode rpc.callee out.2 with appends := c.appends.modify k (.answer out.1) }

def replyAppend (c : Cluster σ) (k r : ℕ) : Cluster σ :=
  match c.appends[k]? with
  | none => c
  | some rpc =>
      match rpc.pending r with
      | none => c
      | some resp =>
          let n := (c.nodes rpc.caller).handleAppendReply rpc.callee rpc.request resp
          { c.setNode rpc.caller n with appends := c.appends.modify k .consume }

omit [PersistentState σ] in
def beginSnapshot (c : Cluster σ) (k : ℕ) : Cluster σ :=
  match c.tasks[k]? with
  | some (.begin caller callee) =>
      match (c.nodes caller).beginTransfer with
      | none => { c with tasks := c.tasks.eraseIdx k }
      | some transfer => { c with tasks := c.tasks.set k (.load caller callee transfer) }
  | _ => c

def loadSnapshot (c : Cluster σ) (k : ℕ) : Cluster σ :=
  match c.tasks[k]? with
  | some (.load caller callee transfer) =>
      match (c.nodes caller).loadTransfer transfer with
      | none => { c with tasks := c.tasks.eraseIdx k }
      | some transfer =>
          { c with
            tasks := c.tasks.eraseIdx k
            snapshots := c.snapshots ++ [.call caller callee transfer] }
  | _ => c

def deliverSnapshot (c : Cluster σ) (k : ℕ) : Cluster σ :=
  match c.snapshots[k]? with
  | none => c
  | some rpc =>
      let out := (c.nodes rpc.callee).handleInstallSnapshot rpc.request.request
      { c.setNode rpc.callee out.2 with snapshots := c.snapshots.modify k (.answer out.1) }

/-- The loop of `sendSnapshotToPeer` makes a new call for every chunk. -/
def replySnapshot (c : Cluster σ) (k r : ℕ) : Cluster σ :=
  match c.snapshots[k]? with
  | none => c
  | some rpc =>
      match rpc.pending r with
      | none => c
      | some resp =>
          let out := (c.nodes rpc.caller).handleSnapshotReply rpc.callee rpc.request resp
          { c.setNode rpc.caller out.2 with
            snapshots := c.snapshots.modify k .consume ++
              out.1.toList.map (.call rpc.caller rpc.callee) }

def compactLog (c : Cluster σ) (i : NodeId) (data : Bytes)
    (lastIncludedIndex lastIncludedTerm : ℕ) : Cluster σ :=
  c.setNode i ((c.nodes i).compactLog data lastIncludedIndex lastIncludedTerm).2

omit [PersistentState σ] in
def resume (c : Cluster σ) (i : NodeId) : Cluster σ :=
  c.reboot i (c.nodes i).resume

/-- The process of `i` ends and is started again on `storage`.  If `Start` fails
there is no new process; the node then does nothing, as in a run that never
mentions it again. -/
def restartOn (c : Cluster σ) (i : NodeId) (storage : σ) : Cluster σ :=
  match (c.nodes i).restart storage with
  | .error _ => c
  | .ok n => c.reboot i n

/-- One action.  Only members act, and only towards their peers. -/
def step (M : Members) (c : Cluster σ) : Action → Cluster σ
  | .electionTimeout i => if i ∈ M.ids then c.electionTimeout i else c
  | .deliverVote k => c.deliverVote k
  | .replyVote k r => c.replyVote k r
  | .propose i data => if i ∈ M.ids then c.propose i data else c
  | .replicate i peer =>
      if i ∈ M.ids ∧ peer ∈ (M.config i).peers then c.replicate i peer else c
  | .deliverAppend k => c.deliverAppend k
  | .replyAppend k r => c.replyAppend k r
  | .beginSnapshot k => c.beginSnapshot k
  | .loadSnapshot k => c.loadSnapshot k
  | .deliverSnapshot k => c.deliverSnapshot k
  | .replySnapshot k r => c.replySnapshot k r
  | .compactLog i data index term => if i ∈ M.ids then c.compactLog i data index term else c
  | .resume i => if i ∈ M.ids then c.resume i else c
  | .restart i => if i ∈ M.ids then c.restartOn i (c.nodes i).storage else c
  | .crash i inside calls =>
      if i ∈ M.ids then c.restartOn i (durableAfter (c.nodes i) inside calls) else c

omit [PersistentState σ] in
@[simp] theorem setNode_self (c : Cluster σ) (i : NodeId) (n : Node σ) :
    (c.setNode i n).nodes i = n :=
  update_self ..

omit [PersistentState σ] in
theorem setNode_of_ne (c : Cluster σ) {i j : NodeId} (n : Node σ) (h : j ≠ i) :
    (c.setNode i n).nodes j = c.nodes j :=
  update_of_ne h ..

omit [PersistentState σ] in
/-- A property of all nodes after one of them was replaced. -/
theorem setNode_forall {P : NodeId → Node σ → Prop} {c : Cluster σ} {i : NodeId} {n : Node σ}
    (hself : P i n) (hother : ∀ j, j ≠ i → P j (c.nodes j)) :
    ∀ j, P j ((c.setNode i n).nodes j) := by
  intro j
  by_cases hj : j = i
  · subst hj
    rw [setNode_self]
    exact hself
  · rw [setNode_of_ne c n hj]
    exact hother j hj

/-- What an action can do, with everything it has found out on the way. -/
inductive Effect (M : Members) (c : Cluster σ) : Action → Cluster σ → Prop
  | idle {a : Action} : Effect M c a c
  | electionTimeout {i : NodeId} (member : i ∈ M.ids) :
      Effect M c (.electionTimeout i) (c.electionTimeout i)
  | deliverVote {k : ℕ} {rpc : Rpc RequestVoteRequest RequestVoteResponse}
      (call : c.votes[k]? = some rpc) :
      Effect M c (.deliverVote k)
        { c.setNode rpc.callee ((c.nodes rpc.callee).handleRequestVote rpc.request).2 with
          votes := c.votes.modify k
            (.answer ((c.nodes rpc.callee).handleRequestVote rpc.request).1) }
  | replyVote {k r : ℕ} {rpc : Rpc RequestVoteRequest RequestVoteResponse}
      {resp : RequestVoteResponse} (call : c.votes[k]? = some rpc) (live : rpc.live)
      (response : resp ∈ rpc.responses) :
      Effect M c (.replyVote k r)
        { c.setNode rpc.caller ((c.nodes rpc.caller).handleVoteReply rpc.request resp) with
          votes := c.votes.modify k .consume }
  | propose {i : NodeId} {data : Bytes} (member : i ∈ M.ids) :
      Effect M c (.propose i data) (c.propose i data)
  | startTask {i peer : NodeId} (member : i ∈ M.ids) (towards : peer ∈ (M.config i).peers)
      (behind : (c.nodes i).replicateToPeer peer = .sendSnapshot) :
      Effect M c (.replicate i peer) { c with tasks := c.tasks ++ [.begin i peer] }
  | sendAppend {i peer : NodeId} {req : AppendEntriesRequest} (member : i ∈ M.ids)
      (towards : peer ∈ (M.config i).peers)
      (built : (c.nodes i).replicateToPeer peer = .appendEntries req) :
      Effect M c (.replicate i peer) { c with appends := c.appends ++ [.call i peer req] }
  | deliverAppend {k : ℕ} {rpc : Rpc AppendEntriesRequest AppendEntriesResponse}
      (call : c.appends[k]? = some rpc) :
      Effect M c (.deliverAppend k)
        { c.setNode rpc.callee ((c.nodes rpc.callee).handleAppendEntries rpc.request).2 with
          appends := c.appends.modify k
            (.answer ((c.nodes rpc.callee).handleAppendEntries rpc.request).1) }
  | replyAppend {k r : ℕ} {rpc : Rpc AppendEntriesRequest AppendEntriesResponse}
      {resp : AppendEntriesResponse} (call : c.appends[k]? = some rpc) (live : rpc.live)
      (response : resp ∈ rpc.responses) :
      Effect M c (.replyAppend k r)
        { c.setNode rpc.caller
            ((c.nodes rpc.caller).handleAppendReply rpc.callee rpc.request resp) with
          appends := c.appends.modify k .consume }
  | dropTask {a : Action} {k : ℕ} : Effect M c a { c with tasks := c.tasks.eraseIdx k }
  | beginSnapshot {k : ℕ} {caller callee : NodeId} {transfer : SnapshotTransfer}
      (task : c.tasks[k]? = some (.begin caller callee))
      (begun : (c.nodes caller).beginTransfer = some transfer) :
      Effect M c (.beginSnapshot k)
        { c with tasks := c.tasks.set k (.load caller callee transfer) }
  | loadSnapshot {k : ℕ} {caller callee : NodeId} {transfer loaded : SnapshotTransfer}
      (task : c.tasks[k]? = some (.load caller callee transfer))
      (found : (c.nodes caller).loadTransfer transfer = some loaded) :
      Effect M c (.loadSnapshot k)
        { c with
          tasks := c.tasks.eraseIdx k
          snapshots := c.snapshots ++ [.call caller callee loaded] }
  | deliverSnapshot {k : ℕ} {rpc : Rpc SnapshotTransfer InstallSnapshotResponse}
      (call : c.snapshots[k]? = some rpc) :
      Effect M c (.deliverSnapshot k)
        { c.setNode rpc.callee
            ((c.nodes rpc.callee).handleInstallSnapshot rpc.request.request).2 with
          snapshots := c.snapshots.modify k
            (.answer ((c.nodes rpc.callee).handleInstallSnapshot rpc.request.request).1) }
  | replySnapshot {k r : ℕ} {rpc : Rpc SnapshotTransfer InstallSnapshotResponse}
      {resp : InstallSnapshotResponse} (call : c.snapshots[k]? = some rpc) (live : rpc.live)
      (response : resp ∈ rpc.responses) :
      Effect M c (.replySnapshot k r)
        { c.setNode rpc.caller
            ((c.nodes rpc.caller).handleSnapshotReply rpc.callee rpc.request resp).2 with
          snapshots := c.snapshots.modify k .consume ++
            ((c.nodes rpc.caller).handleSnapshotReply rpc.callee rpc.request resp).1.toList.map
              (.call rpc.caller rpc.callee) }
  | compactLog {i : NodeId} {data : Bytes} {index term : ℕ} (member : i ∈ M.ids) :
      Effect M c (.compactLog i data index term) (c.compactLog i data index term)
  | resume {i : NodeId} (member : i ∈ M.ids) : Effect M c (.resume i) (c.resume i)
  | restart {i : NodeId} {n : Node σ} (member : i ∈ M.ids)
      (started : (c.nodes i).restart (c.nodes i).storage = .ok n) :
      Effect M c (.restart i) (c.reboot i n)
  | crash {i : NodeId} {inside : Section} {calls : ℕ} {n : Node σ} (member : i ∈ M.ids)
      (started : (c.nodes i).restart (durableAfter (c.nodes i) inside calls) = .ok n) :
      Effect M c (.crash i inside calls) (c.reboot i n)

theorem restartOn_effect {M : Members} (c : Cluster σ) {i : NodeId} {storage : σ} {a : Action}
    (hstarted : ∀ n, (c.nodes i).restart storage = .ok n → Effect M c a (c.reboot i n)) :
    Effect M c a (c.restartOn i storage) := by
  unfold restartOn
  split
  · exact .idle
  · next n hn => exact hstarted n hn

/-- Nothing happens at a node that is not a member. -/
theorem Effect.ite {M : Members} {c c' : Cluster σ} {a : Action} {member : Prop}
    [Decidable member] (h : member → Effect M c a c') :
    Effect M c a (if member then c' else c) := by
  split
  · next hmember => exact h hmember
  · exact .idle

/-- The cases of `step`. -/
theorem step_effect (M : Members) (c : Cluster σ) (a : Action) : Effect M c a (c.step M a) := by
  cases a with
  | electionTimeout i => exact .ite .electionTimeout
  | deliverVote k =>
      simp only [step, Cluster.deliverVote]
      split
      · exact .idle
      · next rpc hrpc => exact .deliverVote hrpc
  | replyVote k r =>
      simp only [step, Cluster.replyVote]
      split
      · exact .idle
      · next rpc hrpc =>
          split
          · exact .idle
          · next resp hresp =>
              obtain ⟨hlive, hmem⟩ := Rpc.pending_some hresp
              exact .replyVote hrpc hlive hmem
  | propose i data => exact .ite .propose
  | replicate i peer =>
      refine .ite fun hi => ?_
      simp only [Cluster.replicate]
      split
      · exact .idle
      · next h => exact .startTask hi.1 hi.2 h
      · next req h => exact .sendAppend hi.1 hi.2 h
  | deliverAppend k =>
      simp only [step, Cluster.deliverAppend]
      split
      · exact .idle
      · next rpc hrpc => exact .deliverAppend hrpc
  | replyAppend k r =>
      simp only [step, Cluster.replyAppend]
      split
      · exact .idle
      · next rpc hrpc =>
          split
          · exact .idle
          · next resp hresp =>
              obtain ⟨hlive, hmem⟩ := Rpc.pending_some hresp
              exact .replyAppend hrpc hlive hmem
  | beginSnapshot k =>
      simp only [step, Cluster.beginSnapshot]
      split
      · next htask =>
          split
          · exact .dropTask
          · next h => exact .beginSnapshot htask h
      · exact .idle
  | loadSnapshot k =>
      simp only [step, Cluster.loadSnapshot]
      split
      · next htask =>
          split
          · exact .dropTask
          · next h => exact .loadSnapshot htask h
      · exact .idle
  | deliverSnapshot k =>
      simp only [step, Cluster.deliverSnapshot]
      split
      · exact .idle
      · next rpc hrpc => exact .deliverSnapshot hrpc
  | replySnapshot k r =>
      simp only [step, Cluster.replySnapshot]
      split
      · exact .idle
      · next rpc hrpc =>
          split
          · exact .idle
          · next resp hresp =>
              obtain ⟨hlive, hmem⟩ := Rpc.pending_some hresp
              exact .replySnapshot hrpc hlive hmem
  | compactLog i data index term => exact .ite .compactLog
  | resume i => exact .ite .resume
  | restart i => exact .ite fun hi => restartOn_effect c fun n hn => .restart hi hn
  | crash i inside calls => exact .ite fun hi => restartOn_effect c fun n hn => .crash hi hn

/-- The clusters reached by actions that `ok` allows. -/
abbrev Reachable (M : Members) (ok : Cluster σ → Action → Prop) : Cluster σ → Prop :=
  Reaches (step M) ok (initial M)

end Cluster

end RaftKV.Raft
