import RaftKV.Server.Acknowledgement

/-!
# The calls that wait

`ProposeWrite` registers its waiter in `sm.pending` under the index of its entry, and
`notifyPending` and `applySnapshot` take it out again when they send it a result.
The calls of a process are recorded beside the system.  An account of them
(`Accounts`): each call was sent one result, or none and is found at its index.

Nothing that the apply loop does upsets the account.  Registering a waiter does if
there is one at the index already.  A leader that lost its office keeps its waiters,
its log may be cut below their entries, and in a later term it may propose at the same
index again; the caller that is displaced then waits for ever.

A call is known by its index, term and command.  Should calls agree in all of these,
the account says that as many are settled as were made.
-/

namespace RaftKV.Server

open RaftKV.Raft RaftKV.Storage Function

namespace StateMachine

/-- The number of results that were sent to a call. -/
def sentTo (sm : StateMachine) (pw : PendingWrite) : ℕ :=
  (sm.returned.map Prod.fst).count pw

/-- Whether a call is found at its index. -/
def stored (sm : StateMachine) (pw : PendingWrite) : ℕ :=
  if sm.pending.lookup pw.logIndex = some pw then 1 else 0

/-- Every call was sent one result, or none and is stored. -/
def Settled (calls : List PendingWrite) (sm : StateMachine) : Prop :=
  ∀ pw, calls.count pw = sm.sentTo pw + sm.stored pw

structure Accounts (calls : List PendingWrite) (sm : StateMachine) : Prop where
  filed : ∀ index pw, sm.pending.lookup index = some pw → pw.logIndex = index
  settled : sm.Settled calls

/-- The waiter of a new call is in the map. -/
def enlist (sm : StateMachine) (pw : PendingWrite) : StateMachine :=
  { sm with pending := sm.pending.insert pw.logIndex pw }

namespace Accounts

variable {calls : List PendingWrite} {sm sm' : StateMachine}

theorem new (engine : Engine) (snapshotInterval : ℕ) :
    (StateMachine.new engine snapshotInterval).Accounts [] where
  filed := by simp [StateMachine.new]
  settled := by simp [StateMachine.new, Settled, sentTo, stored]

/-- Nothing else of a state machine matters. -/
theorem congr (h : sm.Accounts calls) (hpending : sm'.pending = sm.pending)
    (hreturned : sm'.returned = sm.returned) : sm'.Accounts calls where
  filed := hpending ▸ h.filed
  settled pw := by
    unfold sentTo stored
    rw [hpending, hreturned]
    exact h.settled pw

/-- The waiter at an index is a call that was sent nothing. -/
theorem stored_eq_one (h : sm.Accounts calls) {index : ℕ} {pw : PendingWrite}
    (hlookup : sm.pending.lookup index = some pw) : sm.stored pw = 1 := by
  unfold stored
  rw [h.filed index pw hlookup, if_pos hlookup]

/-! ### The apply loop -/

theorem notify (h : sm.Accounts calls) (logIndex : ℕ) (result : Result) :
    (sm.notifyPending logIndex result).Accounts calls := by
  rcases sm.notifyPending_cases logIndex result with ⟨-, heq⟩ | ⟨woken, hwoken, heq⟩
  · rw [heq]
    exact h
  · rw [heq]
    refine ⟨fun index pw hlookup => ?_, fun pw => ?_⟩
    · refine h.filed index pw ?_
      by_cases hindex : index = logIndex
      · subst hindex
        simp at hlookup
      · rwa [AList.lookup_erase_ne hindex] at hlookup
    rw [h.settled pw]
    unfold sentTo stored
    simp only [List.map_append, List.map_singleton, List.count_append]
    have hfiled := h.filed logIndex woken hwoken
    by_cases hsame : pw = woken
    · -- the one that is woken: stored before, sent a result now
      subst hsame
      rw [hfiled, if_pos hwoken, AList.lookup_erase, List.count_singleton_self]
      simp
    · have hnot : [woken].count pw = 0 := List.count_eq_zero.mpr (by simpa using hsame)
      rw [hnot]
      by_cases hindex : pw.logIndex = logIndex
      · have hother : ¬ some woken = some pw := fun heq => hsame (Option.some.inj heq).symm
        rw [hindex, hwoken, AList.lookup_erase, if_neg hother]
        simp
      · rw [AList.lookup_erase_ne hindex]
        rfl

theorem apply (h : sm.Accounts calls) (codec : Codec) (entry : LogEntry) :
    (sm.apply codec entry).Accounts calls := by
  rcases sm.apply_cases codec entry with ⟨-, heq⟩ |
    ⟨-, sm', result, hpending, hreturned, -, -, heq⟩
  · rw [heq]
    exact h.notify _ _
  · rw [heq]
    exact (h.congr hpending hreturned).notify _ _

/-- The waiters that a snapshot covers: each stored call once. -/
theorem count_covered (h : sm.Accounts calls) (index : ℕ) (pw : PendingWrite) :
    ((sm.pending.entries.filter fun waiter => waiter.1 ≤ index).map Sigma.snd).count pw =
      if pw.logIndex ≤ index then sm.stored pw else 0 := by
  have hfiled : ∀ waiter ∈ sm.pending.entries, waiter.2.logIndex = waiter.1 :=
    fun waiter hwaiter => h.filed waiter.1 waiter.2 (AList.mem_lookup_iff.mpr hwaiter)
  have hnodup : ((sm.pending.entries.filter fun waiter => waiter.1 ≤ index).map
      Sigma.snd).Nodup := by
    refine List.Nodup.map_on ?_ (sm.pending.nodupKeys.nodup.filter _)
    intro waiter hwaiter waiter' hwaiter' hsnd
    have hkey := hfiled waiter (List.mem_of_mem_filter hwaiter)
    have hkey' := hfiled waiter' (List.mem_of_mem_filter hwaiter')
    exact Sigma.ext (by rw [← hkey, ← hkey', hsnd]) (heq_of_eq hsnd)
  have hmem : pw ∈ (sm.pending.entries.filter fun waiter => waiter.1 ≤ index).map Sigma.snd ↔
      pw.logIndex ≤ index ∧ sm.pending.lookup pw.logIndex = some pw := by
    rw [List.mem_map]
    constructor
    · rintro ⟨waiter, hwaiter, rfl⟩
      obtain ⟨hentry, hle⟩ := List.mem_filter.mp hwaiter
      rw [hfiled waiter hentry]
      exact ⟨by simpa using hle, AList.mem_lookup_iff.mpr hentry⟩
    · rintro ⟨hle, hlookup⟩
      exact ⟨⟨pw.logIndex, pw⟩, List.mem_filter.mpr
        ⟨AList.mem_lookup_iff.mp hlookup, by simpa using hle⟩, rfl⟩
  unfold stored
  rw [hnodup.count]
  simp only [hmem]
  split_ifs with hboth hle hlookup hle hlookup
  all_goals first | rfl | simp_all

theorem applySnapshot (h : sm.Accounts calls) (data : Bytes) (index : ℕ) :
    (sm.applySnapshot data index).Accounts calls := by
  unfold StateMachine.applySnapshot
  split
  · exact h
  split
  · exact h.congr rfl rfl
  have herased : ∀ key, ((sm.pending.entries.filter fun waiter => waiter.1 ≤ index).foldl
      (fun m waiter => m.erase waiter.1) sm.pending).lookup key =
        if key ≤ index then none else sm.pending.lookup key := by
    intro key
    rw [GoMap.lookup_foldl_erase]
    by_cases hkey : key ∈ sm.pending
    · obtain ⟨waiter, hwaiter, rfl⟩ := List.mem_map.mp (AList.mem_keys.mp hkey)
      by_cases hle : waiter.1 ≤ index
      · have hcovered : waiter ∈ sm.pending.entries.filter fun waiter => waiter.1 ≤ index :=
          List.mem_filter.mpr ⟨hwaiter, by simpa using hle⟩
        rw [if_pos (List.mem_map_of_mem hcovered), if_pos hle]
      · rw [if_neg ?_, if_neg hle]
        rintro hmem
        obtain ⟨waiter', hwaiter', heq⟩ := List.mem_map.mp hmem
        have hle' := (List.mem_filter.mp hwaiter').2
        rw [heq] at hle'
        exact hle (by simpa using hle')
    · rw [AList.lookup_eq_none.mpr hkey, ite_self, ite_self]
  refine ⟨fun key pw hlookup => ?_, fun pw => ?_⟩
  · rw [herased] at hlookup
    exact h.filed key pw (Option.ite_none_left_eq_some.mp hlookup).2
  · have hcount := h.count_covered index pw
    unfold stored at hcount
    rw [h.settled pw]
    unfold sentTo stored
    simp only [List.map_append, List.map_map, List.count_append, herased]
    change _ = _ + ((sm.pending.entries.filter fun waiter => waiter.1 ≤ index).map
      Sigma.snd).count pw + _
    rw [hcount]
    by_cases hle : pw.logIndex ≤ index
    · simp [hle]
    · simp [hle]

/-! ### Registration -/

variable {pw : PendingWrite}

theorem enlist (h : sm.Accounts calls) (hvacant : sm.pending.lookup pw.logIndex = none) :
    (sm.enlist pw).Accounts (calls ++ [pw]) where
  filed index pw' hlookup := by
    change (sm.pending.insert pw.logIndex pw).lookup index = some pw' at hlookup
    by_cases hindex : index = pw.logIndex
    · rw [hindex, AList.lookup_insert, Option.some.injEq] at hlookup
      rw [hindex, hlookup]
    · rw [AList.lookup_insert_ne hindex] at hlookup
      exact h.filed index pw' hlookup
  settled pw' := by
    rw [List.count_append, h.settled pw']
    unfold sentTo stored StateMachine.enlist
    simp only
    by_cases hsame : pw = pw'
    · subst hsame
      rw [hvacant, AList.lookup_insert, List.count_singleton_self]
      simp
    · have hnot : [pw].count pw' = 0 := List.count_eq_zero.mpr (by simpa using Ne.symm hsame)
      rw [hnot, Nat.add_zero]
      by_cases hindex : pw'.logIndex = pw.logIndex
      · rw [hindex, hvacant, AList.lookup_insert]
        simp [hsame]
      · rw [AList.lookup_insert_ne hindex]

/-- Where a call waits already, it is lost. -/
theorem not_settled_enlist (h : sm.Accounts calls) {waiter : PendingWrite}
    (hwaits : sm.pending.lookup pw.logIndex = some waiter) :
    ¬ (sm.enlist pw).Settled (calls ++ [pw]) := by
  intro hsettled
  have hbefore := h.settled waiter
  have hafter := hsettled waiter
  rw [h.stored_eq_one hwaits] at hbefore
  rw [List.count_append, hbefore] at hafter
  have hsent : (sm.enlist pw).sentTo waiter = sm.sentTo waiter := rfl
  have hstored : (sm.enlist pw).stored waiter = [pw].count waiter := by
    unfold stored StateMachine.enlist
    rw [h.filed _ waiter hwaits, AList.lookup_insert, List.count_singleton]
    simp
  omega

end Accounts

end StateMachine

/-! ## Systems and their calls -/

/-- A system, and the calls that obtained an index since each process was started. -/
structure Called (σ : Type) where
  system : System σ
  calls : NodeId → List PendingWrite

namespace Called

open RaftKV.Server.System (putValue)

variable {σ : Type} [PersistentState σ]

def initial (M : Members) (snapshotInterval : NodeId → ℕ) : Called σ where
  system := .initial M snapshotInterval
  calls _ := []

/-- The calls behind a step: a write adds one, a restart ends them all. -/
def record (codec : Codec) (M : Members) (c : Called σ) : Step → NodeId → List PendingWrite
  | .write i cmd =>
      match ((c.system.cluster.nodes i).propose (codec.marshal cmd)).1 with
      | some (logIndex, term) =>
          if i ∈ M.ids then update c.calls i (c.calls i ++ [⟨logIndex, term, cmd⟩]) else c.calls
      | none => c.calls
  | .raft a =>
      match rebooted a with
      | some i =>
          match (c.system.machines i).restart with
          | .ok _ => update c.calls i []
          | .error _ => c.calls
      | none => c.calls
  | _ => c.calls

def step (codec : Codec) (M : Members) (c : Called σ) (a : Step) : Called σ :=
  ⟨c.system.step codec M a, c.record codec M a⟩

omit [PersistentState σ] in
/-- No call is lost, and none is sent two results. -/
def Settled (c : Called σ) : Prop :=
  ∀ i, (c.system.machines i).Settled (c.calls i)

omit [PersistentState σ] in
def Accounts (c : Called σ) : Prop :=
  ∀ i, (c.system.machines i).Accounts (c.calls i)

omit [PersistentState σ] in
/-- Nobody waits at the index at which a leader will propose. -/
def Vacant (c : Called σ) : Step → Prop
  | .write i _ => (c.system.cluster.nodes i).role = .leader →
      (c.system.machines i).pending.lookup ((c.system.cluster.nodes i).lastLogIndex + 1) = none
  | _ => True

variable {codec : Codec} {M : Members} {c : Called σ}

omit [PersistentState σ] in
/-- The machine and the calls of one process have changed. -/
theorem Accounts.set (h : c.Accounts) {s : System σ} {i : NodeId} {sm : StateMachine}
    {calls : List PendingWrite} (hmachines : s.machines = update c.system.machines i sm)
    (hself : sm.Accounts calls) : Accounts ⟨s, update c.calls i calls⟩ := by
  intro j
  simp only [hmachines]
  by_cases hj : j = i
  · subst hj
    rw [update_self, update_self]
    exact hself
  · rw [update_of_ne hj, update_of_ne hj]
    exact h j

omit [PersistentState σ] in
/-- The machine of one process has changed. -/
theorem Accounts.set_machine (h : c.Accounts) {s : System σ} {i : NodeId} {sm : StateMachine}
    (hmachines : s.machines = update c.system.machines i sm)
    (hself : sm.Accounts (c.calls i)) : Accounts ⟨s, c.calls⟩ := by
  have hset := h.set hmachines hself
  rwa [update_eq_self] at hset

/-- What `ProposeWrite` does on a leader. -/
theorem step_write (codec : Codec) {i : NodeId} (hmember : i ∈ M.ids)
    (hleader : (c.system.cluster.nodes i).role = .leader) (cmd : Command) :
    ∃ pw : PendingWrite, pw.logIndex = (c.system.cluster.nodes i).lastLogIndex + 1 ∧
      (c.step codec M (.write i cmd)).system.machines =
        update c.system.machines i ((c.system.machines i).enlist pw) ∧
      (c.step codec M (.write i cmd)).calls = update c.calls i (c.calls i ++ [pw]) := by
  have hproposed : ((c.system.cluster.nodes i).propose (codec.marshal cmd)).1 =
      some ((c.system.cluster.nodes i).lastLogIndex + 1,
        (c.system.cluster.nodes i).currentTerm) := by
    unfold Node.propose
    rw [if_neg (not_not.mpr hleader)]
  refine ⟨⟨(c.system.cluster.nodes i).lastLogIndex + 1,
    (c.system.cluster.nodes i).currentTerm, cmd⟩, rfl, ?_, ?_⟩
  · simp only [step, System.step, System.write, StateMachine.proposeWrite, hproposed]
    rw [if_pos hmember]
    rfl
  · simp only [step, record, hproposed]
    rw [if_pos hmember]

/-- Elsewhere it does nothing. -/
theorem step_write_idle {i : NodeId}
    (hidle : i ∉ M.ids ∨ (c.system.cluster.nodes i).role ≠ .leader) (cmd : Command) :
    c.step codec M (.write i cmd) = c := by
  simp only [step, System.step, record]
  rcases hidle with hout | hfollower
  · simp only [hout, if_false]
    split <;> rfl
  · have hproposed : ((c.system.cluster.nodes i).propose (codec.marshal cmd)).1 = none := by
      unfold Node.propose
      rw [if_pos hfollower]
    simp only [System.write, StateMachine.proposeWrite, hproposed, ite_self]

theorem Accounts.step (h : c.Accounts) {a : Step} (hvacant : c.Vacant a) :
    (c.step codec M a).Accounts := by
  cases a with
  | raft a =>
      simp only [Called.step, record, System.step, System.raft]
      cases hprocess : rebooted a with
      | none => exact h
      | some i =>
          cases hstarted : (c.system.machines i).restart with
          | error err =>
              simp only [hstarted]
              exact h
          | ok sm =>
              simp only [hstarted]
              refine h.set rfl ?_
              unfold StateMachine.restart at hstarted
              split at hstarted
              · cases hstarted
              · rw [Except.ok.injEq] at hstarted
                rw [← hstarted]
                exact .new _ _
  | write i cmd =>
      by_cases hproposes : i ∈ M.ids ∧ (c.system.cluster.nodes i).role = .leader
      · obtain ⟨hmember, hleader⟩ := hproposes
        obtain ⟨pw, hindex, hmachines, hcalls⟩ := step_write codec hmember hleader cmd
        have hset := h.set hmachines ((h i).enlist (hindex ▸ hvacant hleader))
        rw [← hcalls] at hset
        exact hset
      · rw [step_write_idle (by tauto)]
        exact h
  | dispatch i =>
      simp only [Called.step, record, System.step, System.dispatch]
      split
      · exact h
      split
      · exact h
      next msg rest _ =>
      refine h.set_machine rfl ?_
      cases msg with
      | command entry => exact ((h i).apply codec entry).congr rfl rfl
      | snapshot data index term => exact (h i).applySnapshot data index
  | snapshot i =>
      simp only [Called.step, record, System.step, System.snapshot]
      split
      · exact h
      split
      · exact h.set_machine rfl ((h i).congr rfl rfl)
      · exact h.set_machine rfl ((h i).congr rfl rfl)
  | flush i => exact h.set_machine rfl ((h i).congr rfl rfl)
  | compactTables i => exact h.set_machine rfl ((h i).congr rfl rfl)

/-- In every run in which a leader proposes only where nobody waits, no call is lost and
none is sent two results.  From a state of such a run, the next write keeps that
exactly if it does so too. -/
theorem waiters_settled_iff (codec : Codec) (M : Members) (snapshotInterval : NodeId → ℕ)
    (c : Called σ)
    (hrun : Reaches (Called.step codec M) (fun c a => c.Vacant a)
      (Called.initial M snapshotInterval) c) :
    c.Settled ∧ ∀ i ∈ M.ids, ∀ cmd,
      ((c.step codec M (.write i cmd)).Settled ↔ c.Vacant (.write i cmd)) := by
  have haccounts : c.Accounts :=
    hrun.invariant (fun i => .new _ _) fun _ _ h hvacant => h.step hvacant
  refine ⟨fun i => (haccounts i).settled, fun i hmember cmd => ⟨fun hsettled hleader => ?_, ?_⟩⟩
  · obtain ⟨pw, hindex, hmachines, hcalls⟩ := step_write codec hmember hleader cmd
    have hi := hsettled i
    rw [hmachines, hcalls, update_self, update_self] at hi
    rw [← hindex]
    by_contra hwaits
    obtain ⟨waiter, hwaiter⟩ := Option.ne_none_iff_exists'.mp hwaits
    exact (haccounts i).not_settled_enlist hwaiter hi
  · intro hvacant i
    exact (haccounts.step hvacant i).settled

instance (c : Called σ) : (a : Step) → Decidable (c.Vacant a)
  | .write i _ => inferInstanceAs (Decidable ((c.system.cluster.nodes i).role = .leader →
      (c.system.machines i).pending.lookup
        ((c.system.cluster.nodes i).lastLogIndex + 1) = none))
  | .raft _ => isTrue trivial
  | .dispatch _ => isTrue trivial
  | .snapshot _ => isTrue trivial
  | .flush _ => isTrue trivial
  | .compactTables _ => isTrue trivial

/-- `a` leads term 1 and has two calls waiting.  `b` is elected in term 2 and its entry
takes the place of theirs; then `a` is elected again. -/
def reelected : List Step :=
  [.raft (.electionTimeout "a"), .raft (.deliverVote 0), .raft (.replyVote 0 0),
    .write "a" (putValue [1]), .write "a" (putValue [2]), .raft (.electionTimeout "b"),
    .raft (.deliverVote 3), .raft (.replyVote 3 0), .write "b" (putValue [3]),
    .raft (.replicate "b" "a"), .raft (.deliverAppend 0), .raft (.electionTimeout "a"),
    .raft (.deliverVote 5), .raft (.replyVote 5 0)]

def reelectedEnd : Called MemState :=
  reelected.foldl (Called.step valueCodec .trio) (.initial .trio fun _ => 0)

theorem waiters_settled_iff_reelected :
    (reelectedEnd.system.machines "a").Settled (reelectedEnd.calls "a") ∧
      (reelectedEnd.calls "a").length = 2 := by
  have hstate : Allowed (Called.step valueCodec .trio) (fun c a => c.Vacant a)
      (.initial .trio fun _ => 0 : Called MemState) reelected ∧
      (reelectedEnd.calls "a").length = 2 := by decide +kernel
  exact ⟨(waiters_settled_iff valueCodec .trio (fun _ => 0) reelectedEnd
    (Reaches.foldl .refl reelected hstate.1)).1 "a", hstate.2⟩

/-- The next write of `a` displaces its second call: it was sent nothing and is not to
be found at its index. -/
theorem waiter_displaced :
    let c := reelectedEnd.step valueCodec .trio (.write "a" (putValue [4]))
    Reaches (Called.step valueCodec .trio) (fun _ _ => True)
      (.initial .trio fun _ => 0 : Called MemState) c ∧
      c.calls "a" = [⟨1, 1, putValue [1]⟩, ⟨2, 1, putValue [2]⟩, ⟨2, 3, putValue [4]⟩] ∧
      (c.system.machines "a").returned = [] ∧
      (c.system.machines "a").pending.lookup 2 = some ⟨2, 3, putValue [4]⟩ ∧ ¬ c.Settled := by
  intro c
  have hrun : Allowed (Called.step valueCodec .trio) (fun _ _ => True)
      (.initial .trio fun _ => 0 : Called MemState) reelected := by decide +kernel
  have hstate : c.calls "a" = [⟨1, 1, putValue [1]⟩, ⟨2, 1, putValue [2]⟩, ⟨2, 3, putValue [4]⟩] ∧
      (c.system.machines "a").returned = [] ∧
      (c.system.machines "a").pending.lookup 2 = some ⟨2, 3, putValue [4]⟩ := by
    decide +kernel
  refine ⟨.next (Reaches.foldl .refl reelected hrun) trivial, hstate.1, hstate.2.1, hstate.2.2,
    fun hsettled => ?_⟩
  have hlost := hsettled "a" ⟨2, 1, putValue [2]⟩
  unfold StateMachine.sentTo StateMachine.stored at hlost
  rw [hstate.1, hstate.2.1, hstate.2.2] at hlost
  revert hlost
  decide

end Called

end RaftKV.Server
