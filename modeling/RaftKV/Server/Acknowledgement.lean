import RaftKV.Server.System

/-!
# What an acknowledged write means

A call of `ProposeWrite` waits by the index of its entry.  `notifyPending` answers
whoever waits at the index that was applied and does not compare terms, so after a
change of leaders a call is told that its write succeeded when another leader's entry
was applied in its place (`foreign_write_acknowledged`).

As long as no waiter is woken by an entry of another term, a call that returns nil has
had its very command applied: an index and a term determine the entry.
-/

namespace RaftKV.Server

open RaftKV.Raft RaftKV.Storage Function

/-- The entry that a waiting call proposed. -/
def PendingWrite.entry (codec : Codec) (pw : PendingWrite) : LogEntry :=
  ⟨pw.logIndex, pw.term, codec.marshal pw.cmd⟩

/-- The waiters of a state machine have made the entries they wait for, and those that
were told "no error" have had them applied. -/
structure StateMachine.Waits (codec : Codec) (K : Set LogEntry) (sm : StateMachine) : Prop where
  waiting : ∀ index pw, sm.pending.lookup index = some pw →
    pw.logIndex = index ∧ pw.entry codec ∈ K
  applied_le : ∀ e ∈ sm.applied, e.index ≤ sm.lastApplied
  increasing : sm.applied.Pairwise fun e e' => e.index < e'.index
  answered : ∀ pw, (pw, none) ∈ sm.returned → pw.entry codec ∈ sm.applied

namespace StateMachine.Waits

variable {codec : Codec} {K K' : Set LogEntry} {sm sm' : StateMachine}

theorem new (engine : Engine) (snapshotInterval : ℕ) :
    (StateMachine.new engine snapshotInterval).Waits codec K where
  waiting := by simp [StateMachine.new]
  applied_le := by simp [StateMachine.new]
  increasing := List.Pairwise.nil
  answered := by simp [StateMachine.new]

theorem mono (h : sm.Waits codec K) (hsub : K ⊆ K') : sm.Waits codec K' where
  waiting index pw hlookup := (h.waiting index pw hlookup).imp id fun he => hsub he
  applied_le := h.applied_le
  increasing := h.increasing
  answered := h.answered

/-- Nothing else of a state machine matters. -/
theorem congr (h : sm.Waits codec K) (hpending : sm'.pending = sm.pending)
    (hreturned : sm'.returned = sm.returned) (happlied : sm'.applied = sm.applied)
    (hlast : sm'.lastApplied = sm.lastApplied) : sm'.Waits codec K where
  waiting := hpending ▸ h.waiting
  applied_le := happlied ▸ hlast ▸ h.applied_le
  increasing := happlied ▸ h.increasing
  answered := hreturned ▸ happlied ▸ h.answered

theorem register (h : sm.Waits codec K) {logIndex term : ℕ} {cmd : Command}
    (hentry : (⟨logIndex, term, codec.marshal cmd⟩ : LogEntry) ∈ K) :
    { sm with pending := sm.pending.insert logIndex ⟨logIndex, term, cmd⟩ }.Waits codec K where
  waiting index pw hlookup := by
    by_cases hindex : index = logIndex
    · subst hindex
      rw [AList.lookup_insert, Option.some.injEq] at hlookup
      subst hlookup
      exact ⟨rfl, hentry⟩
    · rw [AList.lookup_insert_ne hindex] at hlookup
      exact h.waiting index pw hlookup
  applied_le := h.applied_le
  increasing := h.increasing
  answered := h.answered

/-- A waiter may be told "no error" if its entry has been applied. -/
theorem notify (h : sm.Waits codec K) (logIndex : ℕ) (result : Result)
    (hown : result = none → ∀ pw, sm.pending.lookup logIndex = some pw →
      pw.entry codec ∈ sm.applied) : (sm.notifyPending logIndex result).Waits codec K := by
  rcases sm.notifyPending_cases logIndex result with ⟨-, heq⟩ | ⟨pw, hlookup, heq⟩
  · rw [heq]
    exact h
  · rw [heq]
    refine ⟨fun index pw' hlookup' => ?_, h.applied_le, h.increasing, fun pw' hpw' => ?_⟩
    · refine h.waiting index pw' ?_
      by_cases hindex : index = logIndex
      · subst hindex
        simp at hlookup'
      · rwa [AList.lookup_erase_ne hindex] at hlookup'
    · rcases List.mem_append.mp hpw' with hold | hnew
      · exact h.answered pw' hold
      · rw [List.mem_singleton, Prod.mk.injEq] at hnew
        obtain ⟨rfl, hresult⟩ := hnew
        exact hown hresult.symm pw' hlookup

/-- Applying an entry that is the one its waiter has proposed. -/
theorem apply (h : sm.Waits codec K) {entry : LogEntry} (hentry : entry ∈ K)
    (hunique : ∀ e ∈ K, ∀ e' ∈ K, e.index = e'.index → e.term = e'.term → e = e')
    (hown : ∀ pw, sm.pending.lookup entry.index = some pw →
      pw.term = entry.term ∧ sm.lastApplied < entry.index) :
    (sm.apply codec entry).Waits codec K := by
  rcases sm.apply_cases codec entry with ⟨hskip, heq⟩ |
    ⟨hnew, sm', result, hpending, hreturned, happlied, hlast, heq⟩
  · rw [heq]
    refine h.notify _ _ fun _ pw hlookup => ?_
    exact absurd (hown pw hlookup).2 (not_lt.mpr hskip)
  · have hsm' : sm'.Waits codec K := by
      refine ⟨hpending ▸ h.waiting, fun e he => ?_, ?_, fun pw hpw => ?_⟩
      · rw [hlast]
        rw [happlied] at he
        rcases List.mem_append.mp he with hold | hsame
        · exact (h.applied_le e hold).trans hnew.le
        · exact (List.mem_singleton.mp hsame ▸ le_rfl)
      · rw [happlied]
        refine List.pairwise_append.mpr ⟨h.increasing, List.pairwise_singleton _ _, ?_⟩
        intro e he e' he'
        rw [List.mem_singleton.mp he']
        exact (h.applied_le e he).trans_lt hnew
      · rw [hreturned] at hpw
        rw [happlied]
        exact List.mem_append_left _ (h.answered pw hpw)
    rw [heq]
    refine hsm'.notify _ _ fun _ pw hlookup => ?_
    rw [hpending] at hlookup
    obtain ⟨hindex, hmade⟩ := h.waiting _ pw hlookup
    have hsame : pw.entry codec = entry :=
      hunique _ hmade _ hentry hindex (hown pw hlookup).1
    rw [hsame, happlied]
    exact List.mem_append_right _ (List.mem_singleton_self entry)

theorem applySnapshot (h : sm.Waits codec K) (data : Bytes) (index : ℕ) :
    (sm.applySnapshot data index).Waits codec K := by
  unfold StateMachine.applySnapshot
  split
  · exact h
  · next hnew =>
      split
      · exact ⟨h.waiting, h.applied_le, h.increasing, h.answered⟩
      · refine ⟨fun i pw hlookup => h.waiting i pw ?_, fun e he => ?_, h.increasing,
          fun pw hpw => ?_⟩
        · simp only [GoMap.lookup_foldl_erase] at hlookup
          exact (Option.ite_none_left_eq_some.mp hlookup).2
        · exact (h.applied_le e he).trans (not_le.mp hnew).le
        · rcases List.mem_append.mp hpw with hold | hcovered
          · exact h.answered pw hold
          · simp at hcovered

end StateMachine.Waits

/-- If the next message wakes a waiter, it is a new entry of the waiter's term. -/
def StateMachine.WakesOwn (sm : StateMachine) : Option ApplyMsg → Prop
  | some (.command entry) =>
      ∀ pw ∈ sm.pending.lookup entry.index,
        pw.term = entry.term ∧ sm.lastApplied < entry.index
  | _ => True

instance (sm : StateMachine) : (msg : Option ApplyMsg) → Decidable (sm.WakesOwn msg)
  | some (.command entry) =>
      inferInstanceAs (Decidable (∀ pw ∈ sm.pending.lookup entry.index, _ ∧ _))
  | some (.snapshot _ _ _) => isTrue trivial
  | none => isTrue trivial

namespace System

variable {σ : Type} [PersistentState σ] {codec : Codec} {M : Members}
  {snapshotInterval : NodeId → ℕ} {s : System σ}

omit [PersistentState σ] in
/-- The apply loop wakes no waiter by an entry that it did not propose. -/
def WakesOwn (s : System σ) : Step → Prop
  | .dispatch i => (s.machines i).WakesOwn (s.cluster.nodes i).applyCh.head?
  | _ => True

instance (s : System σ) : (a : Step) → Decidable (s.WakesOwn a)
  | .dispatch i =>
      inferInstanceAs (Decidable ((s.machines i).WakesOwn (s.cluster.nodes i).applyCh.head?))
  | .raft _ => isTrue trivial
  | .write _ _ => isTrue trivial
  | .snapshot _ => isTrue trivial
  | .flush _ => isTrue trivial
  | .compactTables _ => isTrue trivial

instance : (a : Step) → Decidable (Resumes a)
  | .raft a => inferInstanceAs (Decidable (a.resumes = true))
  | .dispatch _ => isTrue trivial
  | .write _ _ => isTrue trivial
  | .snapshot _ => isTrue trivial
  | .flush _ => isTrue trivial
  | .compactTables _ => isTrue trivial

/-- The invariant: some set of entries accounts for the cluster and for the waiters. -/
def Accounted (codec : Codec) (M : Members) (s : System σ) : Prop :=
  ∃ K, Sourced M K s ∧ ∀ i, (s.machines i).Waits codec K

/-- The same with a set of entries that have a property. -/
def AccountedBy (P : LogEntry → Prop) (codec : Codec) (M : Members) (s : System σ) : Prop :=
  ∃ K, (∀ e ∈ K, P e) ∧ Sourced M K s ∧ ∀ i, (s.machines i).Waits codec K

variable {P : LogEntry → Prop}

theorem AccountedBy.initial (M : Members) (snapshotInterval : NodeId → ℕ) :
    AccountedBy P codec M (initial M snapshotInterval : System σ) :=
  ⟨∅, by simp, .initial M snapshotInterval, fun _ => .new _ _⟩

/-- A step whose entry, if it makes one, has the property. -/
theorem AccountedBy.step (h : AccountedBy P codec M s) {a : Step} (hresumes : Resumes a)
    (hown : s.WakesOwn a) (hmakes : ∀ e, s.Makes codec e a → P e) :
    AccountedBy P codec M (s.step codec M a) := by
  obtain ⟨K, hK, hsourced, hwaits⟩ := h
  have heffect := s.step_effect codec M a
  generalize s.step codec M a = s' at heffect
  cases heffect with
  | idle => exact ⟨K, hK, hsourced, hwaits⟩
  | raft =>
      obtain ⟨hE', K', hsub, hcreated, hmade⟩ := hsourced.cluster_step codec hresumes
      exact ⟨K', fun e he => (hmade e he).elim (hK e) (hmakes e), ⟨hE', hcreated⟩,
        fun j => (hwaits j).mono hsub⟩
  | @reboot a i sm process started =>
      obtain ⟨hE', K', hsub, hcreated, hmade⟩ := hsourced.cluster_step codec hresumes
      refine ⟨K', fun e he => (hmade e he).elim (hK e) (hmakes e), ⟨hE', hcreated⟩,
        setMachine_forall ?_ fun j => (hwaits j).mono hsub⟩
      unfold StateMachine.restart at started
      split at started
      · simp at started
      · rw [Except.ok.injEq] at started
        rw [← started]
        exact .new _ _
  | @write i cmd logIndex term member proposed =>
      obtain ⟨K', hsub, hcreated, hmade, hreturned⟩ :=
        hsourced.created.propose hsourced.election i (codec.marshal cmd)
      have hE' : ElectionInv M (s.cluster.propose i (codec.marshal cmd)) :=
        hsourced.election.quiet_setNode (Node.propose_quiet _ _) rfl rfl
      refine ⟨K', fun e he => (hmade e he).elim (hK e) (hmakes e), ⟨hE', hcreated⟩,
        setMachine_forall ?_ fun j => (hwaits j).mono hsub⟩
      exact ((hwaits i).mono hsub).register (hreturned _ _ proposed)
  | @dispatch i msg rest next =>
      obtain ⟨hE', hcreated⟩ := hsourced.take next
      refine ⟨K, hK, ⟨hE', hcreated⟩, setMachine_forall ?_ hwaits⟩
      cases msg with
      | command entry =>
          have hentry : entry ∈ K := hsourced.created.sent i entry (by rw [next]; simp)
          simp only [WakesOwn, next, List.head?_cons] at hown
          have happly := (hwaits i).apply hentry hsourced.created.unique
            fun pw hlookup => hown pw hlookup
          exact happly.congr rfl rfl rfl rfl
      | snapshot data index term => exact (hwaits i).applySnapshot data index
  | @snapshotFailed i =>
      refine ⟨K, hK, ⟨hsourced.election, hsourced.created⟩, setMachine_forall ?_ hwaits⟩
      exact (hwaits i).congr rfl rfl rfl rfl
  | @snapshot i data index term due taken =>
      obtain ⟨hE', K', hsub, hcreated, hmade⟩ :=
        hsourced.cluster_step codec (a := .compactLog i data index term) rfl
      refine ⟨K', fun e he => (hmade e he).elim (hK e) False.elim, ⟨hE', hcreated⟩,
        setMachine_forall ?_ fun j => (hwaits j).mono hsub⟩
      exact ((hwaits i).mono hsub).congr rfl rfl rfl rfl
  | @maintain a i work =>
      refine ⟨K, hK, ⟨hsourced.election, hsourced.created⟩, setMachine_forall ?_ hwaits⟩
      exact (hwaits i).congr rfl rfl rfl rfl

omit [PersistentState σ] in
theorem accounted_iff : Accounted codec M s ↔ AccountedBy (fun _ => True) codec M s := by
  simp [Accounted, AccountedBy]

theorem Accounted.initial (M : Members) (snapshotInterval : NodeId → ℕ) :
    Accounted codec M (initial M snapshotInterval : System σ) :=
  accounted_iff.mpr (.initial M snapshotInterval)

theorem Accounted.step (h : Accounted codec M s) {a : Step} (hresumes : Resumes a)
    (hown : s.WakesOwn a) : Accounted codec M (s.step codec M a) :=
  accounted_iff.mpr ((accounted_iff.mp h).step hresumes hown fun _ _ => trivial)

/-- **An acknowledged write was applied.**  In every run in which a waiter is only woken
by a new entry of its own term, a call of `ProposeWrite` that returns nil has had its
own command applied at its index, in its term, and nothing else. -/
theorem acknowledged_write_applied
    (hrun : Reachable codec M snapshotInterval (fun s a => Resumes a ∧ s.WakesOwn a) s)
    (i : NodeId) {pw : PendingWrite} (hok : (pw, none) ∈ (s.machines i).returned) :
    ∃ e ∈ (s.machines i).applied, e.index = pw.logIndex ∧ e.term = pw.term ∧
      e.data = codec.marshal pw.cmd ∧
      ∀ e' ∈ (s.machines i).applied, e'.index = pw.logIndex → e' = e := by
  obtain ⟨K, -, hwaits⟩ : Accounted codec M s :=
    hrun.invariant (.initial M snapshotInterval) fun s a h hok => h.step hok.1 hok.2
  have happlied := (hwaits i).answered pw hok
  refine ⟨pw.entry codec, happlied, rfl, rfl, rfl, fun e' he' hindex => ?_⟩
  -- indices increase strictly, so an index is applied once
  have hnodup : ((s.machines i).applied.map LogEntry.index).Nodup :=
    (List.pairwise_map.mpr (hwaits i).increasing).imp fun hlt => hlt.ne
  exact List.inj_on_of_nodup_map hnodup he' happlied hindex

def putValue (value : Bytes) : Command :=
  ⟨.put, [107], value, "", 0⟩

/-- `a` leads term 1; `b` acknowledges its write, and `a` applies it. -/
def ownWrite : List Step :=
  [.raft (.electionTimeout "a"), .raft (.deliverVote 0), .raft (.replyVote 0 0),
    .write "a" (putValue [1]), .raft (.replicate "a" "b"), .raft (.deliverAppend 0),
    .raft (.replyAppend 0 0), .dispatch "a"]

def ownWriteEnd : System MemState :=
  ownWrite.foldl (System.step valueCodec .trio) (.initial .trio fun _ => 0)

theorem acknowledged_write_applied_ownWrite :
    (⟨1, 1, putValue [1]⟩, none) ∈ (ownWriteEnd.machines "a").returned ∧
      ∃ e ∈ (ownWriteEnd.machines "a").applied, e.index = 1 ∧ e.term = 1 ∧ e.data = [1] := by
  have hreturned : (⟨1, 1, putValue [1]⟩, none) ∈ (ownWriteEnd.machines "a").returned := by
    decide +kernel
  obtain ⟨e, he, hindex, hterm, hdata, -⟩ := acknowledged_write_applied
    (Reaches.foldl .refl ownWrite (by decide +kernel)) "a" hreturned
  exact ⟨hreturned, e, he, hindex, hterm, hdata⟩

/-- `a` leads term 1 and proposes a write that reaches nobody.  `b` is elected in term 2,
writes at the same index, commits with `c`, and overwrites the entry of `a`. -/
def overwrittenWrite : List Step :=
  [.raft (.electionTimeout "a"), .raft (.deliverVote 0), .raft (.replyVote 0 0),
    .write "a" (putValue [1]), .raft (.electionTimeout "b"), .raft (.deliverVote 3),
    .raft (.replyVote 3 0), .write "b" (putValue [2]), .raft (.replicate "b" "c"),
    .raft (.deliverAppend 0), .raft (.replyAppend 0 0), .raft (.replicate "b" "a"),
    .raft (.deliverAppend 1), .dispatch "a"]

def overwrittenWriteEnd : System MemState :=
  overwrittenWrite.foldl (System.step valueCodec .trio) (.initial .trio fun _ => 0)

/-- The call on `a` returns nil, but the entry applied at its index is the one of `b`. -/
theorem foreign_write_acknowledged :
    Reachable valueCodec .trio (fun _ => 0) (fun _ a => Resumes a) overwrittenWriteEnd ∧
      (⟨1, 1, putValue [1]⟩, none) ∈ (overwrittenWriteEnd.machines "a").returned ∧
      (overwrittenWriteEnd.machines "a").applied = [⟨1, 2, valueCodec.marshal (putValue [2])⟩] :=
  ⟨Reaches.foldl .refl overwrittenWrite (by decide +kernel), by decide +kernel,
    by decide +kernel⟩

end System

end RaftKV.Server
