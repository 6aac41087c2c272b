import RaftKV.Raft.LeaderHint
import RaftKV.Server.StateMachine

/-!
# Reads from the outside

`Get` of `server/kvserver.go` and `doGet` of `client/main.go`.

A call of `Get` looks at the node twice: `ReadValue` asks whether it is leader, and
if it is not, `leaderHintAddr` asks for `LeaderID` in a critical section of its own;
a `GetCall` has the node at both moments.  The response says "not leader" by its
hint alone, so an empty hint without a value means two things: the leader has no
value, or the node is no leader and knows none.  Which of them it is depends on
`leaderID` (`knowsLeader_iff`).

The client sees the network as the answer to each of its attempts.
-/

namespace RaftKV.Server

open RaftKV.Raft RaftKV.Storage

/-- `Config` of the server. -/
structure ServerConfig where
  nodeID : NodeId
  listenAddr : String
  peers : GoMap NodeId String

structure GetResponse where
  leaderHint : String
  key : Key
  value : Bytes
  found : Bool
  deriving DecidableEq, Repr

variable {σ : Type}

/-- `leaderHintAddr`. -/
def leaderHintAddr (cfg : ServerConfig) (n : Node σ) : String :=
  if n.leaderID = "" then ""
  else if n.leaderID = cfg.nodeID then cfg.listenAddr
  else (cfg.peers.lookup n.leaderID).getD ""

/-- A call of `Get`: the server, its node when `IsLeader` is asked, its state machine
when the engine is read, and its node when `LeaderID` is asked. -/
structure GetCall (σ : Type) where
  cfg : ServerConfig
  asked : Node σ
  sm : StateMachine
  hinted : Node σ

namespace GetCall

/-- `Get`. -/
def respond (call : GetCall σ) (key : Key) : GetResponse :=
  match call.sm.readValue call.asked key with
  | none => ⟨leaderHintAddr call.cfg call.hinted, [], [], false⟩
  | some value => ⟨"", key, value.getD [], value.isSome⟩

/-- The response looks like "not found". -/
def SaysNotFound (call : GetCall σ) (key : Key) : Prop :=
  (call.respond key).leaderHint = "" ∧ (call.respond key).found = false

/-- A leader without a value for the key. -/
def LeaderWithout (call : GetCall σ) (key : Key) : Prop :=
  call.asked.role = .leader ∧ call.sm.engine.get key = none

end GetCall

/-! ## The client -/

/-- What comes of one attempt. -/
inductive Reply
  | dialError (err : String)
  | rpcError (err : String)
  | response (resp : GetResponse)

/-- What `doGet` prints. -/
inductive Output
  /-- The text is "(not found)". -/
  | notFound
  | value (value : Bytes)
  /-- The text is "get failed after %d attempts: %v". -/
  | failed (lastErr : Option String)
  deriving DecidableEq

def maxRetries : ℕ := 10

/-- The addresses to try; `main` exits if there are none. -/
abbrev Addrs := { addrs : List String // addrs ≠ [] }

/-- `addrs[attempt%len(addrs)]`. -/
def Addrs.pick (addrs : Addrs) (attempt : ℕ) : String :=
  addrs.1.get ⟨attempt % addrs.1.length, Nat.mod_lt _ (List.length_pos_iff.mpr addrs.2)⟩

/-- `redirectFirst`: the hint is moved to the front, or put there. -/
def redirectFirst (addrs : Addrs) (hint : String) : Addrs :=
  ⟨hint :: addrs.1.erase hint, List.cons_ne_nil _ _⟩

/-- The loop of `doGet`, with the number of attempts left. -/
def doGetFrom (network : ℕ → String → Reply) : ℕ → ℕ → Addrs → Option String → Output
  | 0, _, _, lastErr => .failed lastErr
  | left + 1, attempt, addrs, lastErr =>
      match network attempt (addrs.pick attempt) with
      | .dialError err => doGetFrom network left (attempt + 1) addrs (some err)
      | .rpcError err => doGetFrom network left (attempt + 1) addrs (some err)
      | .response resp =>
          if resp.leaderHint ≠ "" then
            doGetFrom network left (attempt + 1) (redirectFirst addrs resp.leaderHint) lastErr
          else if ¬ resp.found then .notFound
          else .value resp.value

/-- `doGet`. -/
def doGet (network : ℕ → String → Reply) (addrs : Addrs) : Output :=
  doGetFrom network maxRetries 0 addrs none

/-- The attempts that the loop makes, with the addresses it dials. -/
def dialedFrom (network : ℕ → String → Reply) : ℕ → ℕ → Addrs → List (ℕ × String)
  | 0, _, _ => []
  | left + 1, attempt, addrs =>
      (attempt, addrs.pick attempt) ::
        match network attempt (addrs.pick attempt) with
        | .dialError _ => dialedFrom network left (attempt + 1) addrs
        | .rpcError _ => dialedFrom network left (attempt + 1) addrs
        | .response resp =>
            if resp.leaderHint ≠ "" then
              dialedFrom network left (attempt + 1) (redirectFirst addrs resp.leaderHint)
            else []

def dialed (network : ℕ → String → Reply) (addrs : Addrs) : List (ℕ × String) :=
  dialedFrom network maxRetries 0 addrs

/-- "(not found)" is printed on the last response, which has neither hint nor value. -/
theorem doGetFrom_notFound {network : ℕ → String → Reply} {left attempt : ℕ} {addrs : Addrs}
    {lastErr : Option String} (h : doGetFrom network left attempt addrs lastErr = .notFound) :
    ∃ k addr resp, (dialedFrom network left attempt addrs).getLast? = some (k, addr) ∧
      network k addr = .response resp ∧ resp.leaderHint = "" ∧ resp.found = false := by
  induction left generalizing attempt addrs lastErr with
  | zero => cases h
  | succ left ih =>
      -- an attempt in front of the last one
      have hlater : ∀ {rest : List (ℕ × String)},
          (∃ k addr resp, rest.getLast? = some (k, addr) ∧ network k addr = .response resp ∧
            resp.leaderHint = "" ∧ resp.found = false) →
          ∃ k addr resp, ((attempt, addrs.pick attempt) :: rest).getLast? = some (k, addr) ∧
            network k addr = .response resp ∧ resp.leaderHint = "" ∧ resp.found = false := by
        rintro rest ⟨k, addr, resp, hlast, hreply⟩
        exact ⟨k, addr, resp, by rw [List.getLast?_cons, hlast]; rfl, hreply⟩
      rw [doGetFrom] at h
      rw [dialedFrom]
      cases hreply : network attempt (addrs.pick attempt) with
      | dialError err =>
          rw [hreply] at h
          exact hlater (ih h)
      | rpcError err =>
          rw [hreply] at h
          exact hlater (ih h)
      | response resp =>
          rw [hreply] at h
          simp only at h ⊢
          split at h
          · next hhint =>
              rw [if_pos hhint]
              exact hlater (ih h)
          · next hhint =>
              rw [if_neg hhint]
              split at h
              · next hfound =>
                  exact ⟨attempt, _, resp, rfl, hreply, not_not.mp hhint, by simpa using hfound⟩
              · cases h

/-! ## On whose word -/

/-- The node's `leaderID` has an address. -/
def KnowsLeader (cfg : ServerConfig) (n : Node σ) : Prop :=
  n.leaderID ≠ "" ∧
    if n.leaderID = cfg.nodeID then cfg.listenAddr ≠ ""
    else ∃ addr, cfg.peers.lookup n.leaderID = some addr ∧ addr ≠ ""

theorem leaderHintAddr_eq_empty {cfg : ServerConfig} {n : Node σ} :
    leaderHintAddr cfg n = "" ↔ ¬ KnowsLeader cfg n := by
  unfold leaderHintAddr KnowsLeader
  split
  · next hempty => simp [hempty]
  · next hnamed =>
      split
      · simp [hnamed]
      · cases hlookup : cfg.peers.lookup n.leaderID with
        | none => simp
        | some addr => simp [hnamed]

/-- The server's half: such a response comes from a leader without a value, or from
a node that is no leader and knows none. -/
theorem GetCall.saysNotFound_iff (call : GetCall σ) (key : Key) :
    call.SaysNotFound key ↔ call.LeaderWithout key ∨
      (call.asked.role ≠ .leader ∧ ¬ KnowsLeader call.cfg call.hinted) := by
  unfold SaysNotFound LeaderWithout respond StateMachine.readValue
  by_cases hrole : call.asked.role = .leader
  · simp [hrole]
  · simp [hrole, leaderHintAddr_eq_empty]

/-- Over any set of calls: "not found" is said only by leaders without a value, and printed
only if the address that was dialed last gave their word, exactly if every call finds a leader
or a node that can name one. -/
theorem not_found_by_leader_iff (calls : Set (GetCall σ)) (key : Key) :
    ((∀ call ∈ calls, call.SaysNotFound key → call.LeaderWithout key) ∧
      ∀ (network : ℕ → String → Reply) (addrs : Addrs),
        (∀ k addr resp, (k, addr) ∈ dialed network addrs → network k addr = .response resp →
          ∃ call ∈ calls, resp = call.respond key) →
        doGet network addrs = .notFound →
        ∃ k addr, (dialed network addrs).getLast? = some (k, addr) ∧
          ∃ call ∈ calls, network k addr = .response (call.respond key) ∧
            call.SaysNotFound key ∧ call.LeaderWithout key) ↔
    ∀ call ∈ calls, call.asked.role = .leader ∨ KnowsLeader call.cfg call.hinted := by
  constructor
  · rintro ⟨hserver, -⟩ call hcall
    by_contra hnot
    rw [not_or] at hnot
    have hsays := (call.saysNotFound_iff key).mpr (.inr hnot)
    exact hnot.1 (hserver call hcall hsays).1
  · intro hknows
    have hserver : ∀ call ∈ calls, call.SaysNotFound key → call.LeaderWithout key := by
      intro call hcall hsays
      rcases (call.saysNotFound_iff key).mp hsays with hleader | ⟨hrole, hunknown⟩
      · exact hleader
      · exact absurd (hknows call hcall) (not_or.mpr ⟨hrole, hunknown⟩)
    refine ⟨hserver, fun network addrs hnetwork hprinted => ?_⟩
    obtain ⟨k, addr, resp, hlast, hreply, hhint, hfound⟩ := doGetFrom_notFound hprinted
    obtain ⟨call, hcall, rfl⟩ := hnetwork k addr resp (List.mem_of_getLast? hlast) hreply
    exact ⟨k, addr, hlast, call, hcall, hreply, ⟨hhint, hfound⟩,
      hserver call hcall ⟨hhint, hfound⟩⟩

/-! ## In a cluster -/

/-- The configuration of member `i`: every member has an address. -/
structure ServerConfig.Serves (cfg : ServerConfig) (M : Members) (i : NodeId) : Prop where
  nodeID : cfg.nodeID = i
  listenAddr : cfg.listenAddr ≠ ""
  peers : ∀ j ∈ M.ids, j ≠ i → ∃ addr, cfg.peers.lookup j = some addr ∧ addr ≠ ""

/-- A member of a cluster knows the leader unless its `leaderID` is empty. -/
theorem knowsLeader_iff [PersistentState σ] {M : Members} {c : Cluster σ}
    (hrun : Reaches (Cluster.step M) (fun _ _ => True) (Cluster.initial M) c) {i : NodeId}
    (hi : i ∈ M.ids) {cfg : ServerConfig} (hcfg : cfg.Serves M i) :
    KnowsLeader cfg (c.nodes i) ↔ (c.nodes i).leaderID ≠ "" := by
  constructor
  · exact fun h => h.1
  · intro hnamed
    have hmember := ((HintsKnown.of_reachable hrun).nodes i hi).known.resolve_left hnamed
    refine ⟨hnamed, ?_⟩
    rw [hcfg.nodeID]
    split
    · exact hcfg.listenAddr
    · next hother => exact hcfg.peers _ hmember hother

/-- `a` is elected, and steps down when `b` starts an election. -/
def steppedDown : List Action :=
  [.electionTimeout "a", .deliverVote 0, .replyVote 0 0, .electionTimeout "b", .deliverVote 2]

/-- `a` serves a read behind such a run, on an engine that has the key. -/
def steppedDownCall : GetCall MemState where
  cfg := ⟨"a", "a:7001", ((∅ : GoMap NodeId String).insert "b" "b:7001").insert "c" "c:7001"⟩
  asked := (steppedDown.foldl (Cluster.step Members.trio) (Cluster.initial Members.trio)).nodes "a"
  sm := StateMachine.new { Engine.fresh with active := Memtable.new.put [107] [1] } 0
  hinted := (steppedDown.foldl (Cluster.step Members.trio) (Cluster.initial Members.trio)).nodes "a"

/-- The client prints that the key is not found, on the word of a follower that has
its value. -/
theorem not_found_by_follower :
    steppedDownCall.respond [107] = ⟨"", [], [], false⟩ ∧
      steppedDownCall.asked.role = .follower ∧
      steppedDownCall.sm.engine.get [107] = some [1] ∧
      doGet (fun _ _ => .response (steppedDownCall.respond [107])) ⟨["a:7001"], by decide⟩ =
        .notFound := by
  decide +kernel

end RaftKV.Server
