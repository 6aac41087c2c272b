import RaftKV.Server.Dedup
import RaftKV.Server.Watch

/-!
# The change feed of a state machine

`apply` publishes what it executes, `applySnapshot` publishes nothing.  A `Feed` is a
state machine with its broadcaster, fed with the messages of a node's `ApplyCh`: the
entries of a committed log in order, and snapshots of any index.  The apply loop waits
while `publish` goes through the subscribers.

`delivered` is how far the stream has come, and `joined` how far it had come when each
subscriber subscribed.

Which entries the watchers are owed is a matter of the log: `CommittedLog.Executes`
says that an entry is a put or delete that the log's own dedup table does not skip.
A machine skips no such entry that it is handed, since its table never knows more than
the log's (`Inv.table`).  So the watchers miss exactly what a snapshot jumps over.
-/

namespace RaftKV.Server

open RaftKV.Raft RaftKV.Storage

/-! ## The entries a log executes -/

namespace CommittedLog

variable (codec : Codec) (log : CommittedLog)

/-- The entry at an index executes: a put or delete that is no retry. -/
def Executes (index : ℕ) : Prop :=
  ∃ entry cmd, 0 < index ∧ log.entries[index - 1]? = some entry ∧
    codec.unmarshal entry.data = some cmd ∧ cmd.isWrite = true ∧
    StateMachine.isDuplicate (log.stateAt codec (index - 1)).lastSeq cmd = false

variable {codec log} {client : String} {seq d d' : ℕ}

/-- What a command leaves in the table. -/
theorem reached_applyCommand {st : LogState} (cmd : Command) (hclient : client ≠ "")
    (h : Reached st.lastSeq client seq) : Reached (st.applyCommand cmd).lastSeq client seq := by
  unfold LogState.applyCommand
  split
  · exact h
  · next hdup =>
      split
      · exact h
      · rw [Bool.not_eq_true] at hdup
        exact StateMachine.reached_of_recordSeq hclient hdup h

/-- The table of a log moves forward only. -/
theorem reached_stateAt (hclient : client ≠ "") (hle : d ≤ d')
    (h : Reached (log.stateAt codec d).lastSeq client seq) :
    Reached (log.stateAt codec d').lastSeq client seq := by
  induction d', hle using Nat.le_induction with
  | base => exact h
  | succ d' _ ih =>
      cases hentry : log.entries[d']? with
      | none =>
          have hsame : log.stateAt codec (d' + 1) = log.stateAt codec d' := by
            unfold stateAt
            rw [List.take_add_one, hentry, Option.toList_none, List.append_nil]
          rw [hsame]
          exact ih
      | some entry =>
          rw [stateAt_succ hentry]
          unfold LogState.apply
          cases codec.unmarshal entry.data with
          | none => exact ih
          | some cmd => exact reached_applyCommand cmd hclient ih

/-- Behind a write the table has its sequence number, whether it was a retry or not. -/
theorem reached_of_write {entry : LogEntry} {cmd : Command} (hentry : log.entries[d]? = some entry)
    (hcmd : codec.unmarshal entry.data = some cmd) (hwrite : cmd.isWrite = true)
    (hclient : cmd.clientId ≠ "") (hlt : d < d') :
    Reached (log.stateAt codec d').lastSeq cmd.clientId cmd.seqNum := by
  refine reached_stateAt hclient hlt ?_
  rw [stateAt_succ hentry]
  unfold LogState.apply
  rw [hcmd]
  simp only
  unfold LogState.applyCommand
  split
  · next hdup =>
      by_contra hnot
      rw [← StateMachine.isDuplicate_eq_false_iff hclient, hdup] at hnot
      cases hnot
  · split
    · next hnone =>
        unfold Command.isWrite at hwrite
        unfold Command.write at hnone
        cases hop : cmd.op with
        | put => simp [hop] at hnone
        | delete => simp [hop] at hnone
        | unknown op => simp [hop] at hwrite
    · simp only
      rw [StateMachine.reached_recordSeq hclient, if_pos rfl]

end CommittedLog

/-! ## The system -/

/-- A state machine and its watchers. -/
structure Feed where
  sm : StateMachine
  hub : Broadcaster
  delivered : ℕ
  joined : List ℕ

inductive FeedStep
  /-- The apply loop takes a message; `order` is for a `publish` that comes of it. -/
  | dispatch (msg : ApplyMsg) (order : List ℕ)
  | subscribe (keys : Key)
  | unsubscribe (i : ℕ)
  | offer
  | receive (i : ℕ)

/-- How far a message brings the stream. -/
def reach (delivered : ℕ) : ApplyMsg → ℕ
  | .command entry => max delivered entry.index
  | .snapshot _ index _ => max delivered index

namespace Feed

/-- `publish` begins, if something was executed. -/
def announce (hub : Broadcaster) (order : List ℕ) : List ChangeEvent → Broadcaster
  | [] => hub
  | event :: _ => hub.step (.publish event order)

/-- `dispatch`, with `publish` left at its beginning. -/
def dispatch (codec : Codec) (w : Feed) (msg : ApplyMsg) (order : List ℕ) : Feed :=
  { w with
    sm := w.sm.dispatch codec msg
    hub := announce w.hub order
      ((w.sm.dispatch codec msg).published.drop w.sm.published.length)
    delivered := reach w.delivered msg }

def step (codec : Codec) (w : Feed) : FeedStep → Feed
  | .dispatch msg order =>
      if w.hub.publishing.isSome then w else w.dispatch codec msg order
  | .subscribe keys =>
      if w.hub.publishing.isSome then w
      else { w with hub := w.hub.step (.subscribe keys), joined := w.joined ++ [w.delivered] }
  | .unsubscribe i => { w with hub := w.hub.step (.unsubscribe i) }
  | .offer => { w with hub := w.hub.step .offer }
  | .receive i => { w with hub := w.hub.step (.receive i) }

/-- Messages as `ApplyCh` delivers them: entries of the log, none left out. -/
def Streams (log : CommittedLog) (w : Feed) : FeedStep → Prop
  | .dispatch (.command entry) order => 0 < entry.index ∧ entry.index ≤ w.delivered + 1 ∧
      log.entries[entry.index - 1]? = some entry ∧ order.Perm w.hub.registered
  | _ => True

/-- A snapshot that is dispatched jumps over no entry that executes, or nobody who
watches all keys is connected. -/
def Uncovered (codec : Codec) (log : CommittedLog) (w : Feed) : FeedStep → Prop
  | .dispatch (.snapshot _ index _) _ => w.hub.publishing = none →
      ∀ i, w.delivered < i → i ≤ index → log.Executes codec i →
        ∀ sub ∈ w.hub.subs, sub.keyPrefix = [] → sub.ch.closed = true
  | _ => True

/-- `lastApplied` as far as a subscriber is concerned: the source sets it when
`publish` has returned. -/
def appliedFor (w : Feed) (k : ℕ) : ℕ :=
  match w.hub.publishing with
  | none => w.sm.lastApplied
  | some (event, rest) => if k ∈ rest then event.index - 1 else w.sm.lastApplied

/-- Every connected subscriber of all keys was sent one event for each entry that
executes, from where it joined to `lastApplied`. -/
def Complete (codec : Codec) (log : CommittedLog) (w : Feed) : Prop :=
  ∀ (k : ℕ) (sub : Subscriber) (since : ℕ), w.hub.subs[k]? = some sub →
    w.joined[k]? = some since → sub.keyPrefix = [] → sub.ch.closed = false →
    ∀ i, since < i → i ≤ w.appliedFor k → log.Executes codec i →
      (sub.sent.map ChangeEvent.index).count i = 1

/-- What a run starts with: nobody has subscribed, and the dedup table knows nothing
that the log does not. -/
structure Starts (codec : Codec) (log : CommittedLog) (w : Feed) : Prop where
  hub : w.hub = Broadcaster.initial
  joined : w.joined = []
  isOpen : w.sm.engine.closed = false
  applied_le : w.sm.lastApplied ≤ w.delivered
  table : ∀ client, client ≠ "" → ∀ seq, Reached w.sm.lastSeq client seq →
    Reached (log.stateAt codec w.delivered).lastSeq client seq

/-- The entries that execute have been published, as far as the stream has come. -/
def Announced (codec : Codec) (log : CommittedLog) (w : Feed) : Prop :=
  ∀ (k : ℕ) (sub : Subscriber) (since : ℕ), w.hub.subs[k]? = some sub →
    w.joined[k]? = some since → sub.keyPrefix = [] → sub.ch.closed = false →
    ∀ i, since < i → i ≤ w.delivered → log.Executes codec i →
      ∃ event ∈ w.hub.published.drop sub.since, event.index = i

/-- The invariant. -/
structure Inv (codec : Codec) (log : CommittedLog) (w : Feed) : Prop where
  gapless : w.hub.Gapless
  isOpen : w.sm.engine.closed = false
  joined_length : w.joined.length = w.hub.subs.length
  joined_le : ∀ since ∈ w.joined, since ≤ w.delivered
  applied_le : w.sm.lastApplied ≤ w.delivered
  table : ∀ client, client ≠ "" → ∀ seq, Reached w.sm.lastSeq client seq →
    Reached (log.stateAt codec w.delivered).lastSeq client seq
  sorted : (w.hub.published.map ChangeEvent.index).Pairwise (· < ·)
  bounded : ∀ event ∈ w.hub.published, event.index ≤ w.sm.lastApplied
  announced : w.Announced codec log

variable {codec : Codec} {log : CommittedLog} {w : Feed}

theorem Starts.inv (h : w.Starts codec log) : w.Inv codec log where
  gapless := h.hub ▸ Broadcaster.gapless_initial
  isOpen := h.isOpen
  joined_length := by
    rw [h.hub, h.joined]
    rfl
  joined_le := by simp [h.joined]
  applied_le := h.applied_le
  table := h.table
  sorted := by simp [h.hub, Broadcaster.initial]
  bounded := by simp [h.hub, Broadcaster.initial]
  announced := by
    intro k sub since hsub
    simp [h.hub, Broadcaster.initial] at hsub

/-! ## What the invariant says of a subscriber -/

/-- What was sent to a connected subscriber of all keys. -/
theorem Inv.sent_eq (h : w.Inv codec log) {k : ℕ} {sub : Subscriber}
    (hsub : w.hub.subs[k]? = some sub) (hkeys : sub.keyPrefix = [])
    (hopen : sub.ch.closed = false) :
    sub.sent = (w.hub.publishedTo k).drop sub.since := by
  have hfed := h.gapless.subs k sub hsub
  have hin : k ∈ w.hub.registered := by
    by_contra hout
    rw [hfed.gone hout] at hopen
    cases hopen
  rw [(hfed.whole hin).1]
  unfold Broadcaster.stream
  refine List.filter_eq_self.mpr fun event _ => ?_
  unfold Subscriber.watches
  simp [hkeys]

/-- An event that `publish` has come to with is among those published to the
subscriber. -/
theorem Inv.mem_publishedTo (h : w.Inv codec log) {k : ℕ} {sub : Subscriber}
    (hsub : w.hub.subs[k]? = some sub) {event : ChangeEvent}
    (hevent : event ∈ w.hub.published.drop sub.since) (hpos : 0 < event.index)
    (hle : event.index ≤ w.appliedFor k) :
    event ∈ (w.hub.publishedTo k).drop sub.since := by
  have hsince := (h.gapless.subs k sub hsub).since_le
  unfold Broadcaster.publishedTo at hsince ⊢
  unfold appliedFor at hle
  cases hpublishing : w.hub.publishing with
  | none => exact hevent
  | some run =>
      obtain ⟨last, rest⟩ := run
      simp only [hpublishing] at hle hsince ⊢
      by_cases hrest : k ∈ rest
      · -- all but the last event, and this one is not the last
        rw [if_pos hrest] at hle hsince ⊢
        have hlast := (h.gapless.order last rest hpublishing).2.2
        rw [← List.dropLast_append_getLast? last hlast,
          List.drop_append_of_le_length hsince] at hevent
        rcases List.mem_append.mp hevent with hevent | hevent
        · exact hevent
        · rw [List.mem_singleton.mp hevent] at hle hpos
          omega
      · rw [if_neg hrest]
        exact hevent

theorem Inv.appliedFor_le (h : w.Inv codec log) (k : ℕ) : w.appliedFor k ≤ w.delivered := by
  unfold appliedFor
  cases hpublishing : w.hub.publishing with
  | none => exact h.applied_le
  | some run =>
      obtain ⟨last, rest⟩ := run
      simp only
      split
      · have hmem := List.mem_of_getLast? (h.gapless.order last rest hpublishing).2.2
        have hlast := (h.bounded last hmem).trans h.applied_le
        omega
      · exact h.applied_le

theorem Inv.complete (h : w.Inv codec log) : w.Complete codec log := by
  intro k sub since hsub hsince hkeys hopen i hlt hle hexec
  obtain ⟨event, hevent, hindex⟩ := h.announced k sub since hsub hsince hkeys hopen i hlt
    (hle.trans (h.appliedFor_le k)) hexec
  have hmem : event ∈ sub.sent := by
    rw [h.sent_eq hsub hkeys hopen]
    exact h.mem_publishedTo hsub hevent (by omega) (hindex ▸ hle)
  have hsublist : sub.sent.Sublist w.hub.published := by
    rw [h.sent_eq hsub hkeys hopen]
    exact (List.drop_sublist _ _).trans (w.hub.publishedTo_sublist k)
  have hnodup : (sub.sent.map ChangeEvent.index).Nodup :=
    (h.sorted.sublist (hsublist.map _)).imp fun hlt => hlt.ne
  exact List.count_eq_one_of_mem hnodup (List.mem_map.mpr ⟨event, hmem, hindex⟩)

end Feed

/-! ## Steps of the broadcaster -/

namespace Broadcaster

/-- Nothing is published and nobody subscribes; some may leave. -/
structure Keeps (b b' : Broadcaster) : Prop where
  published : b'.published = b.published
  length : b'.subs.length = b.subs.length
  subs : ∀ (k : ℕ) (sub' : Subscriber), b'.subs[k]? = some sub' →
    ∃ sub : Subscriber, b.subs[k]? = some sub ∧ sub'.keyPrefix = sub.keyPrefix ∧
      sub'.since = sub.since ∧ (sub'.ch.closed = false → sub.ch.closed = false)

variable {b b' : Broadcaster} {i : ℕ} {sub sub' : Subscriber}

theorem Keeps.of_subs (hpublished : b'.published = b.published) (hsubs : b'.subs = b.subs) :
    b.Keeps b' where
  published := hpublished
  length := by rw [hsubs]
  subs k sub' hsub' := ⟨sub', hsubs ▸ hsub', rfl, rfl, id⟩

theorem Keeps.of_set (hi : b.subs[i]? = some sub) (hpublished : b'.published = b.published)
    (hsubs : b'.subs = b.subs.set i sub') (hkeys : sub'.keyPrefix = sub.keyPrefix)
    (hsince : sub'.since = sub.since) (hclosed : sub'.ch.closed = false → sub.ch.closed = false) :
    b.Keeps b' where
  published := hpublished
  length := by rw [hsubs, List.length_set]
  subs k sub₀ hk := by
    rw [hsubs] at hk
    by_cases heq : i = k
    · subst heq
      rw [List.getElem?_set_self (List.getElem?_eq_some_iff.mp hi).1, Option.some.injEq] at hk
      subst hk
      exact ⟨sub, hi, hkeys, hsince, hclosed⟩
    · rw [List.getElem?_set_ne heq] at hk
      exact ⟨sub₀, hk, rfl, rfl, id⟩

theorem keeps_drop (hi : b.subs[i]? = some sub) : b.Keeps (b.drop i sub) := by
  unfold drop Channel.close
  cases hclosed : sub.ch.closed with
  | true => exact .of_subs rfl rfl
  | false => exact .of_set hi rfl rfl rfl rfl fun _ => hclosed

theorem keeps_offerTo (event : ChangeEvent) : b.Keeps (b.offerTo event i) := by
  unfold offerTo
  split
  · exact .of_subs rfl rfl
  next sub hi =>
  split
  · exact .of_subs rfl rfl
  split
  · next ch hsent =>
      refine .of_set hi rfl rfl rfl rfl fun _ => ?_
      by_contra hclosed
      unfold Channel.trySend at hsent
      rw [Bool.not_eq_false] at hclosed
      simp [hclosed] at hsent
  · exact keeps_drop hi
  · exact .of_subs rfl rfl

theorem keeps_receive : b.Keeps (b.receive i) := by
  unfold receive
  split
  · exact .of_subs rfl rfl
  next sub hi =>
  split
  · exact .of_subs rfl rfl
  next event ch htaken =>
  exact .of_set hi rfl rfl rfl rfl fun h => (Channel.receive_some htaken).2 ▸ h

theorem keeps_unsubscribe : b.Keeps (b.step (.unsubscribe i)) := by
  simp only [step]
  unfold unsubscribe
  split
  · exact .of_subs rfl rfl
  split
  · exact .of_subs rfl rfl
  next sub hi =>
  split
  · exact keeps_drop hi
  · exact .of_subs rfl rfl

theorem keeps_offer : b.Keeps (b.step .offer) := by
  simp only [step]
  split
  · exact .of_subs rfl rfl
  · exact .of_subs rfl rfl
  · next event i rest _ =>
      have h := keeps_offerTo (b := b) (i := i) event
      exact ⟨h.published, h.length, h.subs⟩

end Broadcaster

/-! ## Every step keeps the invariant -/

namespace Feed

variable {codec : Codec} {log : CommittedLog} {w : Feed}

theorem Inv.of_keeps (h : w.Inv codec log) {hub : Broadcaster} (hkeeps : w.hub.Keeps hub)
    (hgapless : hub.Gapless) : ({ w with hub := hub } : Feed).Inv codec log where
  gapless := hgapless
  isOpen := h.isOpen
  joined_length := h.joined_length.trans hkeeps.length.symm
  joined_le := h.joined_le
  applied_le := h.applied_le
  table := h.table
  sorted := by
    simp only [hkeeps.published]
    exact h.sorted
  bounded := by
    simp only [hkeeps.published]
    exact h.bounded
  announced := by
    intro k sub' since hsub' hsince hkeys hopen
    obtain ⟨sub, hsub, hkeys', hsince', hopen'⟩ := hkeeps.subs k sub' hsub'
    simp only [hkeeps.published, hsince']
    exact h.announced k sub since hsub hsince (hkeys' ▸ hkeys) (hopen' hopen)

theorem Inv.subscribe (h : w.Inv codec log) (hidle : w.hub.publishing = none) (keys : Key) :
    ({ w with
      hub := w.hub.subscribe keys
      joined := w.joined ++ [w.delivered] } : Feed).Inv codec log where
  gapless := h.gapless.subscribe hidle keys
  isOpen := h.isOpen
  joined_length := by
    simp only [Broadcaster.subscribe, List.length_append, List.length_singleton, h.joined_length]
  joined_le := by
    intro since hsince
    rcases List.mem_append.mp hsince with hsince | hsince
    · exact h.joined_le since hsince
    · exact (List.mem_singleton.mp hsince).le
  applied_le := h.applied_le
  table := h.table
  sorted := h.sorted
  bounded := h.bounded
  announced := by
    intro k sub since hsub hsince hkeys hopen i hlt hle
    simp only [Broadcaster.subscribe] at hsub hsince hle ⊢
    by_cases hk : k < w.hub.subs.length
    · rw [List.getElem?_append_left hk] at hsub
      rw [List.getElem?_append_left (h.joined_length.symm ▸ hk)] at hsince
      exact h.announced k sub since hsub hsince hkeys hopen i hlt hle
    · -- the new one has joined where the stream is
      have hend : k = w.joined.length := by
        have := (List.getElem?_eq_some_iff.mp hsub).1
        rw [List.length_append, List.length_singleton] at this
        rw [h.joined_length]
        omega
      rw [hend, List.getElem?_concat_length, Option.some.injEq] at hsince
      omega

/-- The stream moves on and nothing is published. -/
theorem Inv.silent (h : w.Inv codec log) {sm : StateMachine} {delivered : ℕ}
    (hopen : sm.engine.closed = false) (happlied : w.sm.lastApplied ≤ sm.lastApplied)
    (hreach : sm.lastApplied ≤ delivered) (hle : w.delivered ≤ delivered)
    (htable : ∀ client seq, Reached sm.lastSeq client seq → Reached w.sm.lastSeq client seq)
    (hnothing : ∀ i, w.delivered < i → i ≤ delivered → log.Executes codec i →
      ∀ sub ∈ w.hub.subs, sub.keyPrefix = [] → sub.ch.closed = true) :
    ({ w with sm := sm, delivered := delivered } : Feed).Inv codec log where
  gapless := h.gapless
  isOpen := hopen
  joined_length := h.joined_length
  joined_le since hsince := (h.joined_le since hsince).trans hle
  applied_le := hreach
  table client hclient seq hseq :=
    CommittedLog.reached_stateAt hclient hle (h.table client hclient seq (htable client seq hseq))
  sorted := h.sorted
  bounded event hevent := (h.bounded event hevent).trans happlied
  announced := by
    intro k sub since hsub hsince hkeys hopen i hlt hi hexec
    by_cases hold : i ≤ w.delivered
    · exact h.announced k sub since hsub hsince hkeys hopen i hlt hold hexec
    · have hclosed := hnothing i (not_le.mp hold) hi hexec sub (List.mem_of_getElem? hsub) hkeys
      rw [hclosed] at hopen
      cases hopen

/-- The next entry is executed and published. -/
theorem Inv.loud (h : w.Inv codec log) {sm : StateMachine} {entry : LogEntry} {cmd : Command}
    {order : List ℕ} (event : ChangeEvent) (hidle : w.hub.publishing = none)
    (horder : order.Perm w.hub.registered) (hopen : sm.engine.closed = false)
    (hnew : w.sm.lastApplied < entry.index) (hnext : entry.index ≤ w.delivered + 1)
    (hentry : log.entries[entry.index - 1]? = some entry)
    (hcmd : codec.unmarshal entry.data = some cmd) (hwrite : cmd.isWrite = true)
    (happlied : sm.lastApplied = entry.index)
    (htable : sm.lastSeq = StateMachine.recordSeq w.sm.lastSeq cmd)
    (hindex : event.index = entry.index) :
    ({ w with
      sm := sm
      hub := { w.hub with
        published := w.hub.published ++ [event]
        publishing := some (event, order) }
      delivered := max w.delivered entry.index } : Feed).Inv codec log where
  gapless := h.gapless.publish hidle horder event
  isOpen := hopen
  joined_length := h.joined_length
  joined_le since hsince := (h.joined_le since hsince).trans (le_max_left _ _)
  applied_le := happlied.trans_le (le_max_right _ _)
  table client hclient seq hseq := by
    simp only [htable] at hseq
    rw [StateMachine.reached_recordSeq hclient] at hseq
    split at hseq
    · next heq =>
        -- the client of this entry: the log has come past it
        subst heq
        have hpast : entry.index - 1 < max w.delivered entry.index := by omega
        obtain ⟨last', hlast', hle'⟩ :=
          CommittedLog.reached_of_write hentry hcmd hwrite hclient hpast
        exact ⟨last', hlast', by omega⟩
    · exact CommittedLog.reached_stateAt hclient (le_max_left _ _) (h.table client hclient seq hseq)
  sorted := by
    rw [List.map_append, List.pairwise_append]
    refine ⟨h.sorted, List.pairwise_singleton _ _, fun i hi j hj => ?_⟩
    obtain ⟨event', hevent', rfl⟩ := List.mem_map.mp hi
    rw [List.map_singleton, List.mem_singleton] at hj
    rw [hj, hindex]
    exact (h.bounded event' hevent').trans_lt hnew
  bounded event' hevent' := by
    rcases List.mem_append.mp hevent' with hevent' | hevent'
    · exact (h.bounded event' hevent').trans (hnew.le.trans_eq happlied.symm)
    · rw [List.mem_singleton.mp hevent', hindex, happlied]
  announced := by
    intro k sub since hsub hsince hkeys hopen i hlt hle hexec
    have hsince_le : sub.since ≤ w.hub.published.length := by
      rw [← Broadcaster.publishedTo_of_idle hidle k]
      exact (h.gapless.subs k sub hsub).since_le
    simp only at hle ⊢
    rw [List.drop_append_of_le_length hsince_le]
    by_cases hold : i ≤ w.delivered
    · obtain ⟨event', hevent', hi⟩ :=
        h.announced k sub since hsub hsince hkeys hopen i hlt hold hexec
      exact ⟨event', List.mem_append_left _ hevent', hi⟩
    · exact ⟨event, List.mem_append_right _ (List.mem_singleton.mpr rfl), by omega⟩

/-- The machine skips no entry that executes. -/
theorem Inv.not_skipped (h : w.Inv codec log) {entry : LogEntry}
    (hnext : entry.index = w.delivered + 1)
    (hentry : log.entries[entry.index - 1]? = some entry)
    (hexec : log.Executes codec entry.index) :
    ∃ cmd, codec.unmarshal entry.data = some cmd ∧ cmd.isWrite = true ∧
      StateMachine.isDuplicate w.sm.lastSeq cmd = false := by
  obtain ⟨entry', cmd, -, hentry', hcmd, hwrite, hdup⟩ := hexec
  rw [hentry, Option.some.injEq] at hentry'
  subst hentry'
  refine ⟨cmd, hcmd, hwrite, ?_⟩
  by_cases hclient : cmd.clientId = ""
  · exact StateMachine.isDuplicate_anonymous hclient
  · rw [StateMachine.isDuplicate_eq_false_iff hclient] at hdup ⊢
    rw [hnext, Nat.add_sub_cancel] at hdup
    exact fun hreached => hdup (h.table _ hclient _ hreached)

theorem Inv.dispatch_command (h : w.Inv codec log) (hidle : w.hub.publishing = none)
    {entry : LogEntry} {order : List ℕ}
    (hstreams : w.Streams log (.dispatch (.command entry) order)) :
    (w.dispatch codec (.command entry) order).Inv codec log := by
  obtain ⟨-, hnext, hentry, horder⟩ := hstreams
  rcases Nat.lt_or_ge w.sm.lastApplied entry.index with hnew | hold
  · rcases StateMachine.apply_new_cases codec h.isOpen hnew with
      ⟨cmd, engine, hcmd, hwrite, -, -, hopen, -, heq⟩ | ⟨hskip, result, heq⟩
    · have hpublish : announce w.hub order
          ((w.sm.dispatch codec (.command entry)).published.drop w.sm.published.length) =
          { w.hub with
            published := w.hub.published ++ [⟨entry.index, entry.term, cmd.op, cmd.key, cmd.value⟩]
            publishing :=
              some (⟨entry.index, entry.term, cmd.op, cmd.key, cmd.value⟩, order) } := by
        simp [StateMachine.dispatch, heq, StateMachine.executed, announce, Broadcaster.step, hidle,
          horder]
      unfold dispatch
      rw [hpublish]
      refine h.loud _ hidle horder ?_ hnew hnext hentry hcmd hwrite ?_ ?_ rfl
      · simp [StateMachine.dispatch, heq, StateMachine.executed, hopen]
      · simp [StateMachine.dispatch, heq, StateMachine.executed, StateMachine.advance]
      · simp [StateMachine.dispatch, heq, StateMachine.executed]
    · have hquiet : announce w.hub order
          ((w.sm.dispatch codec (.command entry)).published.drop w.sm.published.length) =
            w.hub := by
        simp [StateMachine.dispatch, heq, StateMachine.advance, announce]
      unfold dispatch
      rw [hquiet]
      have happlied : (w.sm.dispatch codec (.command entry)).lastApplied = entry.index := by
        simp [StateMachine.dispatch, heq, StateMachine.advance]
      refine h.silent ?_ (by omega) (happlied.trans_le (le_max_right _ _)) (le_max_left _ _) ?_ ?_
      · simp [StateMachine.dispatch, heq, StateMachine.advance, h.isOpen]
      · simp [StateMachine.dispatch, heq, StateMachine.advance]
      · -- only this entry is new, and it does not execute
        intro i hlt hle hexec
        have hi : i = entry.index := by
          simp only [reach] at hle
          omega
        obtain ⟨cmd, hcmd, hwrite, hdup⟩ := h.not_skipped (by omega) hentry (hi ▸ hexec)
        rcases hskip cmd hcmd with hdup' | ⟨hwrite', -⟩
        · rw [hdup] at hdup'
          cases hdup'
        · rw [hwrite] at hwrite'
          cases hwrite'
  · have heq := StateMachine.apply_old codec hold
    have hquiet : announce w.hub order
        ((w.sm.dispatch codec (.command entry)).published.drop w.sm.published.length) = w.hub := by
      simp [StateMachine.dispatch, heq, announce]
    have hreach : reach w.delivered (.command entry) = w.delivered :=
      max_eq_left (hold.trans h.applied_le)
    unfold dispatch
    rw [hquiet, hreach]
    refine h.silent ?_ ?_ ?_ le_rfl ?_ (fun i hlt hle => absurd hle (not_le.mpr hlt))
    · simp [StateMachine.dispatch, heq, h.isOpen]
    · simp [StateMachine.dispatch, heq]
    · simp [StateMachine.dispatch, heq, h.applied_le]
    · simp [StateMachine.dispatch, heq]

theorem Inv.dispatch_snapshot (h : w.Inv codec log) (hidle : w.hub.publishing = none)
    {data : Bytes} {index term : ℕ} {order : List ℕ}
    (huncovered : w.Uncovered codec log (.dispatch (.snapshot data index term) order)) :
    (w.dispatch codec (.snapshot data index term) order).Inv codec log := by
  have hnothing : ∀ i, w.delivered < i → i ≤ max w.delivered index → log.Executes codec i →
      ∀ sub ∈ w.hub.subs, sub.keyPrefix = [] → sub.ch.closed = true := by
    intro i hlt hle
    exact huncovered hidle i hlt (by omega)
  unfold dispatch
  simp only [StateMachine.dispatch, StateMachine.applySnapshot, reach]
  split
  · simp only [List.drop_length, announce]
    exact h.silent h.isOpen le_rfl (h.applied_le.trans (le_max_left _ _)) (le_max_left _ _)
      (fun _ _ => id) hnothing
  next hnew =>
  have hopen : (w.sm.engine.loadSnapshot data).2.closed = false :=
    (w.sm.engine.loadSnapshot_closed data).trans h.isOpen
  split
  · next engine hload =>
      rw [hload] at hopen
      simp only [List.drop_length, announce]
      exact h.silent hopen le_rfl (h.applied_le.trans (le_max_left _ _)) (le_max_left _ _)
        (fun _ _ => id) hnothing
  · next engine hload =>
      rw [hload] at hopen
      simp only [List.drop_length, announce]
      refine h.silent hopen (not_le.mp hnew).le (le_max_right _ _) (le_max_left _ _) ?_ hnothing
      -- the table has been emptied
      rintro client seq ⟨last, hlast, -⟩
      cases hlast

theorem Inv.step (h : w.Inv codec log) (a : FeedStep) (hstreams : w.Streams log a)
    (huncovered : w.Uncovered codec log a) : (w.step codec a).Inv codec log := by
  cases a with
  | dispatch msg order =>
      simp only [Feed.step]
      split
      · exact h
      next hidle =>
      have hidle : w.hub.publishing = none := by simpa using hidle
      cases msg with
      | command entry => exact h.dispatch_command hidle hstreams
      | snapshot data index term => exact h.dispatch_snapshot hidle huncovered
  | subscribe keys =>
      simp only [Feed.step, Broadcaster.step]
      split
      · exact h
      · next hidle => exact h.subscribe (by simpa using hidle) keys
  | unsubscribe i => exact h.of_keeps Broadcaster.keeps_unsubscribe (h.gapless.step _)
  | offer => exact h.of_keeps Broadcaster.keeps_offer (h.gapless.step _)
  | receive i => exact h.of_keeps Broadcaster.keeps_receive (h.gapless.step _)

/-! ## What watchers miss -/

/-- A snapshot that decodes is loaded and takes the machine to its index. -/
theorem dispatch_snapshot_lastApplied (codec : Codec) {data : Bytes} {entries : List MemEntry}
    (hdecode : decodeSnapshot data = .ok entries) {index : ℕ} (hnew : w.sm.lastApplied < index)
    (term : ℕ) : (w.sm.dispatch codec (.snapshot data index term)).lastApplied = index := by
  simp only [StateMachine.dispatch, StateMachine.applySnapshot, Engine.loadSnapshot, hdecode]
  rw [if_neg hnew.not_ge]

/-- A snapshot over an entry that executes leaves a connected subscriber without it. -/
theorem Inv.not_complete (h : w.Inv codec log) (hidle : w.hub.publishing = none) {data : Bytes}
    {entries : List MemEntry} (hdecode : decodeSnapshot data = .ok entries) {index i : ℕ}
    (hlt : w.delivered < i) (hle : i ≤ index) (hexec : log.Executes codec i) {sub : Subscriber}
    (hsub : sub ∈ w.hub.subs) (hkeys : sub.keyPrefix = []) (hopen : sub.ch.closed = false)
    (term : ℕ) (order : List ℕ) :
    ¬ (w.dispatch codec (.snapshot data index term) order).Complete codec log := by
  intro hcomplete
  obtain ⟨k, hk⟩ := List.getElem?_of_mem hsub
  have hlength : k < w.joined.length := by
    rw [h.joined_length]
    exact (List.getElem?_eq_some_iff.mp hk).1
  have hsince := h.joined_le _ (List.getElem_mem hlength)
  have hnew : w.sm.lastApplied < index := by
    have := h.applied_le
    omega
  have hpublished : (w.sm.dispatch codec (.snapshot data index term)).published =
      w.sm.published := by
    simp only [StateMachine.dispatch, StateMachine.applySnapshot]
    repeat' split
    all_goals rfl
  have hhub : (w.dispatch codec (.snapshot data index term) order).hub = w.hub := by
    unfold dispatch
    simp only [hpublished, List.drop_length, announce]
  have happlied : (w.dispatch codec (.snapshot data index term) order).appliedFor k = index := by
    unfold appliedFor
    rw [hhub, hidle]
    exact dispatch_snapshot_lastApplied codec hdecode hnew term
  have hone := hcomplete k sub _ (hhub ▸ hk) (List.getElem?_eq_getElem hlength) hkeys hopen i
    (by omega) (hle.trans_eq happlied.symm) hexec
  -- what it was sent lies below `lastApplied`
  have hmem : i ∈ sub.sent.map ChangeEvent.index := List.count_pos_iff.mp (by omega)
  obtain ⟨event, hevent, rfl⟩ := List.mem_map.mp hmem
  rw [h.sent_eq hk hkeys hopen, Broadcaster.publishedTo_of_idle hidle] at hevent
  have hbound := h.bounded event (List.mem_of_mem_drop hevent)
  have := h.applied_le
  omega

/-- In every run whose snapshots jump over no entry that executes while a subscriber of
all keys is connected, each connected one was sent one event for each entry that
executes.  From a state of such a run, the next snapshot keeps that exactly if it does
not either. -/
theorem watcher_complete_iff (codec : Codec) (log : CommittedLog) (init w : Feed)
    (hstart : init.Starts codec log)
    (hrun : Reaches (step codec) (fun w a => w.Streams log a ∧ w.Uncovered codec log a) init w) :
    w.Complete codec log ∧
      ∀ data entries index term order, w.hub.publishing = none →
        decodeSnapshot data = .ok entries →
        ((w.step codec (.dispatch (.snapshot data index term) order)).Complete codec log ↔
          w.Uncovered codec log (.dispatch (.snapshot data index term) order)) := by
  have hinv : w.Inv codec log := hrun.invariant hstart.inv fun _ a h hok => h.step a hok.1 hok.2
  refine ⟨hinv.complete, fun data entries index term order hidle hdecode => ⟨?_, ?_⟩⟩
  · intro hcomplete _ i hlt hle hexec sub hsub hkeys
    by_contra hopen
    rw [Bool.not_eq_true] at hopen
    refine hinv.not_complete hidle hdecode hlt hle hexec hsub hkeys hopen term order ?_
    simp only [Feed.step, hidle, Option.isSome_none, Bool.false_eq_true, if_false] at hcomplete
    exact hcomplete
  · intro huncovered
    exact (hinv.step (.dispatch (.snapshot data index term) order) trivial huncovered).complete

/-- One put is committed. -/
def onePut : CommittedLog where
  entries := [⟨1, 1, [7]⟩]
  indexed := by decide

/-- A new machine without watchers. -/
def unwatched : Feed :=
  ⟨.new .fresh 0, .initial, 0, []⟩

theorem unwatched_starts (codec : Codec) (log : CommittedLog) : unwatched.Starts codec log where
  hub := rfl
  joined := rfl
  isOpen := rfl
  applied_le := le_rfl
  table := by
    rintro client - seq ⟨last, hlast, -⟩
    cases hlast

/-- The put is applied and announced to a subscriber, and a snapshot of it comes late. -/
theorem watcher_complete_iff_onePut :
    let w := [FeedStep.subscribe [], .dispatch (.command ⟨1, 1, [7]⟩) [0], .offer, .offer].foldl
      (step valueCodec) unwatched
    w.Complete valueCodec onePut ∧
      (w.step valueCodec (.dispatch (.snapshot (encodeSnapshot []) 1 1) [])).Complete
        valueCodec onePut := by
  intro w
  have hdelivery : (unwatched.step valueCodec (.subscribe [])).Streams onePut
      (.dispatch (.command ⟨1, 1, [7]⟩) [0]) := by
    unfold Streams
    decide +kernel
  have hrun : Reaches (step valueCodec)
      (fun w a => w.Streams onePut a ∧ w.Uncovered valueCodec onePut a) unwatched w :=
    Reaches.foldl .refl _ ⟨⟨trivial, trivial⟩, ⟨hdelivery, trivial⟩, ⟨trivial, trivial⟩,
      ⟨trivial, trivial⟩, trivial⟩
  have hreached : w.hub.publishing = none ∧ w.delivered = 1 := by decide +kernel
  obtain ⟨hcomplete, hsnapshot⟩ :=
    watcher_complete_iff valueCodec onePut unwatched w (unwatched_starts _ _) hrun
  refine ⟨hcomplete, (hsnapshot _ [] 1 1 [] hreached.1 (by decide +kernel)).mpr ?_⟩
  intro _ i hlt hle
  omega

/-- A new machine gets the put with a snapshot: the subscriber is connected, the value
can be read, and no event was sent. -/
theorem snapshot_missed_by_watcher :
    let w := [FeedStep.subscribe [], .dispatch (.snapshot (encodeSnapshot
      [⟨[107], [7], 0⟩]) 1 1) []].foldl (step valueCodec) unwatched
    Reaches (step valueCodec) (fun w a => w.Streams onePut a) unwatched w ∧
      onePut.Executes valueCodec 1 ∧ w.sm.lastApplied = 1 ∧ w.sm.engine.get [107] = some [7] ∧
      (∃ sub, w.hub.subs[0]? = some sub ∧ sub.keyPrefix = [] ∧ sub.ch.closed = false ∧
        sub.sent = []) ∧
      ¬ w.Complete valueCodec onePut := by
  intro w
  have hexec : onePut.Executes valueCodec 1 :=
    ⟨⟨1, 1, [7]⟩, ⟨.put, [107], [7], "", 0⟩, by decide, rfl, rfl, rfl, rfl⟩
  have hstate : w.sm.lastApplied = 1 ∧ w.sm.engine.get [107] = some [7] ∧
      w.hub.publishing = none ∧ w.joined = [0] := by decide +kernel
  have hsub : ∃ sub, w.hub.subs[0]? = some sub ∧ sub.keyPrefix = [] ∧ sub.ch.closed = false ∧
      sub.sent = [] := ⟨_, rfl, rfl, rfl, rfl⟩
  refine ⟨Reaches.foldl .refl _ ⟨trivial, trivial, trivial⟩, hexec, hstate.1, hstate.2.1, hsub,
    fun hcomplete => ?_⟩
  obtain ⟨sub, hget, hkeys, hopen, hsent⟩ := hsub
  have hone := hcomplete 0 sub 0 hget (by rw [hstate.2.2.2]; rfl) hkeys hopen 1 (by omega)
    (by unfold appliedFor; rw [hstate.2.2.1]; exact hstate.1.ge) hexec
  rw [hsent] at hone
  cases hone

end Feed

end RaftKV.Server
