import RaftKV.Channel
import RaftKV.Server.StateMachine
import RaftKV.Transition

/-!
# Watch streams

`changeBroadcaster` of `server/watch.go`.  A subscriber is known by its position in
the list of all that were ever made; `registered` are the keys of the map `subs`.
`publish` holds `b.mu` while it goes through the map in any order, one subscriber
at a time, and consumers take events from their channels meanwhile, so each
iteration is a step of its own and `publishing` is where the loop stands.
`subscribe`, `unsubscribe` and another `publish` wait for it.

Recorded besides are the events published so far, and for each subscriber what its
consumer has taken and how many events had been published before it subscribed.

The invariant (`Broadcaster.Gapless`): a registered subscriber has an open channel
and was sent everything it watches, one that is not registered has a closed channel
and was sent the beginning of it.  A channel is closed exactly when its subscriber
leaves the map, so it is closed once and not sent to again.
-/

namespace RaftKV.Server

open RaftKV.Storage

def watchSubscriberBuffer : ℕ := 256

/-- `watchSubscriber`. -/
structure Subscriber where
  keyPrefix : Key
  ch : Channel ChangeEvent
  received : List ChangeEvent
  /-- The number of events published before. -/
  since : ℕ

namespace Subscriber

/-- The test of `publish`. -/
def watches (sub : Subscriber) (event : ChangeEvent) : Bool :=
  match sub with
  | ⟨pre, _, _, _⟩ => !(pre ≠ [] && !pre.isPrefixOf event.key)

/-- What has been sent to the subscriber, taken or not. -/
def sent (sub : Subscriber) : List ChangeEvent :=
  sub.received ++ sub.ch.buffer

end Subscriber

/-- `changeBroadcaster`. -/
structure Broadcaster where
  subs : List Subscriber
  registered : List ℕ
  published : List ChangeEvent
  /-- The event of a `publish` under way, and the subscribers it has yet to come to. -/
  publishing : Option (ChangeEvent × List ℕ)
  panicked : Bool

inductive WatchStep
  | subscribe (keys : Key)
  | unsubscribe (i : ℕ)
  /-- `publish` takes the lock; the map will be gone through in this order. -/
  | publish (event : ChangeEvent) (order : List ℕ)
  /-- `publish` comes to its next subscriber, or returns. -/
  | offer
  /-- The consumer takes an event if there is one. -/
  | receive (i : ℕ)

namespace Broadcaster

/-- `newChangeBroadcaster`. -/
def initial : Broadcaster :=
  ⟨[], [], [], none, false⟩

/-- `delete(b.subs, sub)` and `close(sub.ch)`. -/
def drop (b : Broadcaster) (i : ℕ) (sub : Subscriber) : Broadcaster :=
  match sub.ch.close with
  | none => { b with registered := b.registered.erase i, panicked := true }
  | some ch =>
      { b with
        registered := b.registered.erase i
        subs := b.subs.set i { sub with ch := ch } }

/-- `subscribe`. -/
def subscribe (b : Broadcaster) (keys : Key) : Broadcaster :=
  { b with
    subs := b.subs ++ [⟨keys, .make watchSubscriberBuffer, [], b.published.length⟩]
    registered := b.registered ++ [b.subs.length] }

/-- The function that `subscribe` returns. -/
def unsubscribe (b : Broadcaster) (i : ℕ) : Broadcaster :=
  match b.subs[i]? with
  | none => b
  | some sub => if i ∈ b.registered then b.drop i sub else b

/-- The body of the loop of `publish`. -/
def offerTo (b : Broadcaster) (event : ChangeEvent) (i : ℕ) : Broadcaster :=
  match b.subs[i]? with
  | none => b
  | some sub =>
      if ¬ sub.watches event then b
      else
        match sub.ch.trySend event with
        | .sent ch => { b with subs := b.subs.set i { sub with ch := ch } }
        | .full => b.drop i sub
        | .panic => { b with panicked := true }

/-- The consumer of `sub.ch`. -/
def receive (b : Broadcaster) (i : ℕ) : Broadcaster :=
  match b.subs[i]? with
  | none => b
  | some sub =>
      match sub.ch.receive with
      | none => b
      | some (event, ch) =>
          { b with
            subs := b.subs.set i { sub with ch := ch, received := sub.received ++ [event] } }

/-- One step; a step that needs the lock while `publish` holds it does nothing yet. -/
def step (b : Broadcaster) : WatchStep → Broadcaster
  | .subscribe keys => if b.publishing.isSome then b else b.subscribe keys
  | .unsubscribe i => if b.publishing.isSome then b else b.unsubscribe i
  | .publish event order =>
      if b.publishing.isSome ∨ ¬ order.Perm b.registered then b
      else { b with published := b.published ++ [event], publishing := some (event, order) }
  | .offer =>
      match b.publishing with
      | none => b
      | some (_, []) => { b with publishing := none }
      | some (event, i :: rest) => { b.offerTo event i with publishing := some (event, rest) }
  | .receive i => b.receive i

/-- The events published so far, without one that `publish` has not yet offered to
the subscriber. -/
def publishedTo (b : Broadcaster) (i : ℕ) : List ChangeEvent :=
  match b.publishing with
  | none => b.published
  | some (_, rest) => if i ∈ rest then b.published.dropLast else b.published

/-- The events published after the subscription whose key has the prefix. -/
def stream (b : Broadcaster) (i : ℕ) (sub : Subscriber) : List ChangeEvent :=
  ((b.publishedTo i).drop sub.since).filter sub.watches

/-! ## The invariant -/

/-- What holds of a subscriber. -/
structure Fed (b : Broadcaster) (i : ℕ) (sub : Subscriber) : Prop where
  since_le : sub.since ≤ (b.publishedTo i).length
  part : sub.sent <+: b.stream i sub
  whole : i ∈ b.registered → sub.sent = b.stream i sub ∧ sub.ch.closed = false
  gone : i ∉ b.registered → sub.ch.closed = true

structure Gapless (b : Broadcaster) : Prop where
  calm : b.panicked = false
  nodup : b.registered.Nodup
  known : ∀ i ∈ b.registered, i < b.subs.length
  /-- The subscribers that `publish` has yet to come to are in the map. -/
  order : ∀ event rest, b.publishing = some (event, rest) →
    rest.Nodup ∧ (∀ i ∈ rest, i ∈ b.registered) ∧ b.published.getLast? = some event
  subs : ∀ i sub, b.subs[i]? = some sub → b.Fed i sub

theorem gapless_initial : initial.Gapless where
  calm := rfl
  nodup := List.nodup_nil
  known := by simp [initial]
  order := by simp [initial]
  subs := by simp [initial]

variable {b b' : Broadcaster} {i : ℕ} {sub : Subscriber} {event : ChangeEvent}

/-- A subscriber is concerned only by what was published to it and whether it is in
the map. -/
theorem Fed.congr (h : b.Fed i sub) (hpublished : b'.publishedTo i = b.publishedTo i)
    (hregistered : i ∈ b'.registered ↔ i ∈ b.registered) : b'.Fed i sub := by
  have hstream : b'.stream i sub = b.stream i sub := by
    unfold stream
    rw [hpublished]
  refine ⟨hpublished ▸ h.since_le, hstream ▸ h.part, fun hin => ?_, fun hout => ?_⟩
  · rw [hstream]
    exact h.whole (hregistered.mp hin)
  · exact h.gone fun hin => hout (hregistered.mpr hin)

/-- One more event for a subscriber that had been published everything but that. -/
theorem stream_succ (hpublished : b'.publishedTo i = b.publishedTo i ++ [event])
    (hsince : sub.since ≤ (b.publishedTo i).length) :
    b'.stream i sub = b.stream i sub ++ if sub.watches event then [event] else [] := by
  unfold stream
  rw [hpublished, List.drop_append_of_le_length hsince, List.filter_append]
  congr 1
  cases hwatch : sub.watches event with
  | false => simp [hwatch]
  | true => simp [hwatch]

/-- A step that concerns one subscriber. -/
theorem Gapless.update (h : b.Gapless) (hi : b.subs[i]? = some sub) (sub' : Subscriber)
    (hsubs : b'.subs = b.subs.set i sub') (hcalm : b'.panicked = false)
    (hnodup : b'.registered.Nodup) (hin : i ∈ b.registered ∨ i ∉ b'.registered)
    (hothers : ∀ j, j ≠ i → (j ∈ b'.registered ↔ j ∈ b.registered) ∧
      b'.publishedTo j = b.publishedTo j)
    (horder : ∀ event rest, b'.publishing = some (event, rest) →
      rest.Nodup ∧ (∀ j ∈ rest, j ∈ b'.registered) ∧ b'.published.getLast? = some event)
    (hfed : b'.Fed i sub') : b'.Gapless := by
  refine ⟨hcalm, hnodup, fun j hj => ?_, horder, fun j sub₀ hj => ?_⟩
  · rw [hsubs, List.length_set]
    by_cases heq : j = i
    · subst heq
      exact h.known j (hin.resolve_right fun hout => hout hj)
    · exact h.known j ((hothers j heq).1.mp hj)
  · rw [hsubs] at hj
    by_cases heq : j = i
    · subst heq
      rw [List.getElem?_set_self (List.getElem?_eq_some_iff.mp hi).1, Option.some.injEq] at hj
      exact hj ▸ hfed
    · rw [List.getElem?_set_ne (Ne.symm heq)] at hj
      exact (h.subs j sub₀ hj).congr (hothers j heq).2 (hothers j heq).1

/-- Dropping a subscriber with an open channel. -/
theorem drop_eq (hopen : sub.ch.closed = false) : ∃ ch : Channel ChangeEvent,
    ch.buffer = sub.ch.buffer ∧ ch.closed = true ∧
    b.drop i sub = { b with
      registered := b.registered.erase i
      subs := b.subs.set i { sub with ch := ch } } := by
  obtain ⟨ch, hclose, hbuffer, hclosed⟩ := Channel.close_open hopen
  refine ⟨ch, hbuffer, hclosed, ?_⟩
  unfold drop
  rw [hclose]

/-- Between two calls of `publish` everyone has been offered everything. -/
theorem publishedTo_of_idle (hidle : b.publishing = none) (j : ℕ) :
    b.publishedTo j = b.published := by
  unfold publishedTo
  rw [hidle]

theorem publishedTo_sublist (b : Broadcaster) (j : ℕ) :
    (b.publishedTo j).Sublist b.published := by
  unfold publishedTo
  split
  · exact List.Sublist.refl _
  · split
    · exact List.dropLast_sublist _
    · exact List.Sublist.refl _

/-! ## Every step keeps it -/

theorem Gapless.subscribe (h : b.Gapless) (hidle : b.publishing = none) (keys : Key) :
    (b.subscribe keys).Gapless := by
  have hnew : b.subs.length ∉ b.registered := fun hin => lt_irrefl _ (h.known _ hin)
  have hto : ∀ j, (b.subscribe keys).publishedTo j = b.publishedTo j := fun _ => rfl
  have hall := publishedTo_of_idle hidle
  refine ⟨h.calm, ?_, fun j hj => ?_, ?_, fun j sub hj => ?_⟩
  · exact List.nodup_append.mpr ⟨h.nodup, List.nodup_singleton _, by
      rintro j hj k hk rfl
      exact hnew (List.mem_singleton.mp hk ▸ hj)⟩
  · change j < (b.subs ++ [_]).length
    rw [List.length_append, List.length_singleton]
    rcases List.mem_append.mp hj with hj | hj
    · exact Nat.lt_succ_of_lt (h.known j hj)
    · rw [List.mem_singleton.mp hj]
      exact Nat.lt_succ_self _
  · intro event rest hsome
    change b.publishing = _ at hsome
    rw [hidle] at hsome
    cases hsome
  · change (b.subs ++ [_])[j]? = some sub at hj
    by_cases hlt : j < b.subs.length
    · rw [List.getElem?_append_left hlt] at hj
      refine (h.subs j sub hj).congr (hto j) ?_
      change j ∈ b.registered ++ [_] ↔ _
      rw [List.mem_append, List.mem_singleton]
      exact or_iff_left (by omega)
    · -- the new one: nothing has been published since
      have hend : j = b.subs.length := by
        have := (List.getElem?_eq_some_iff.mp hj).1
        rw [List.length_append, List.length_singleton] at this
        omega
      subst hend
      rw [List.getElem?_concat_length, Option.some.injEq] at hj
      subst hj
      have hnothing : (b.subscribe keys).stream b.subs.length
          ⟨keys, .make watchSubscriberBuffer, [], b.published.length⟩ = [] := by
        unfold stream
        rw [hto, hall, List.drop_length]
        rfl
      refine ⟨?_, ?_, fun _ => ⟨hnothing.symm, rfl⟩, fun hout => absurd ?_ hout⟩
      · rw [hto, hall]
      · rw [hnothing]
        exact List.prefix_rfl
      · change _ ∈ b.registered ++ [_]
        exact List.mem_append_right _ (List.mem_singleton.mpr rfl)

theorem Gapless.unsubscribe (h : b.Gapless) (hidle : b.publishing = none) (i : ℕ) :
    (b.unsubscribe i).Gapless := by
  unfold Broadcaster.unsubscribe
  split
  · exact h
  next sub hi =>
  split
  · next hin =>
      have hfed := h.subs i sub hi
      obtain ⟨ch, hbuffer, hclosed, heq⟩ := drop_eq (b := b) (i := i) (hfed.whole hin).2
      have hout : i ∉ b.registered.erase i := h.nodup.not_mem_erase
      rw [heq]
      refine h.update hi _ rfl h.calm (h.nodup.erase i) (.inl hin) (fun j hj => ⟨?_, rfl⟩) ?_ ?_
      · exact List.mem_erase_of_ne hj
      · intro event rest hsome
        change b.publishing = _ at hsome
        rw [hidle] at hsome
        cases hsome
      · refine ⟨hfed.since_le, ?_, fun hin' => absurd hin' hout, fun _ => hclosed⟩
        change sub.received ++ ch.buffer <+: _
        rw [hbuffer]
        exact hfed.part
  · exact h

theorem Gapless.publish (h : b.Gapless) (hidle : b.publishing = none) {order : List ℕ}
    (horder : order.Perm b.registered) (event : ChangeEvent) :
    { b with published := b.published ++ [event],
             publishing := some (event, order) : Broadcaster }.Gapless := by
  have hall := publishedTo_of_idle hidle
  refine ⟨h.calm, h.nodup, h.known, ?_, fun j sub hj => ?_⟩
  · intro event' rest hsome
    cases hsome
    exact ⟨horder.nodup_iff.mpr h.nodup, fun j hj => horder.mem_iff.mp hj, by simp⟩
  have hfed := h.subs j sub hj
  by_cases hin : j ∈ b.registered
  · -- still to come
    refine hfed.congr ?_ Iff.rfl
    rw [hall]
    unfold publishedTo
    simp [horder.mem_iff.mpr hin]
  · -- no longer in the map: it misses the event
    have hout : j ∉ order := fun hj => hin (horder.mem_iff.mp hj)
    have hto : (Broadcaster.mk b.subs b.registered (b.published ++ [event])
        (some (event, order)) b.panicked).publishedTo j = b.publishedTo j ++ [event] := by
      rw [hall]
      unfold publishedTo
      simp [hout]
    refine ⟨?_, ?_, fun hin' => absurd hin' hin, fun _ => hfed.gone hin⟩
    · rw [hto, List.length_append]
      exact Nat.le_add_right_of_le hfed.since_le
    · rw [stream_succ hto hfed.since_le]
      exact hfed.part.trans (List.prefix_append _ _)

theorem Gapless.receive (h : b.Gapless) (i : ℕ) : (b.receive i).Gapless := by
  unfold Broadcaster.receive
  split
  · exact h
  next sub hi =>
  split
  · exact h
  next event ch htaken =>
  obtain ⟨hbuffer, hclosed⟩ := Channel.receive_some htaken
  have hfed := h.subs i sub hi
  have hsent : (sub.received ++ [event]) ++ ch.buffer = sub.sent := by
    rw [Subscriber.sent, hbuffer, List.append_assoc]
    rfl
  refine h.update hi _ rfl h.calm h.nodup (em _) (fun j _ => ⟨Iff.rfl, rfl⟩) h.order ?_
  refine ⟨hfed.since_le, ?_, fun hin => ⟨?_, ?_⟩, fun hout => ?_⟩
  · change (sub.received ++ [event]) ++ ch.buffer <+: b.stream i sub
    rw [hsent]
    exact hfed.part
  · exact hsent.trans (hfed.whole hin).1
  · exact hclosed.trans (hfed.whole hin).2
  · exact hclosed.trans (hfed.gone hout)

/-- What has been published to whom when the loop of `publish` has passed `i`. -/
theorem Gapless.publishedTo_behind (h : b.Gapless) {rest : List ℕ}
    (hpublishing : b.publishing = some (event, i :: rest))
    (hpublished : b'.published = b.published) (hrest : b'.publishing = some (event, rest)) :
    b'.publishedTo i = b.publishedTo i ++ [event] ∧
      ∀ j, j ≠ i → b'.publishedTo j = b.publishedTo j := by
  obtain ⟨hnodup, -, hlast⟩ := h.order event (i :: rest) hpublishing
  have hbefore : b.publishedTo i = b.published.dropLast := by
    unfold publishedTo
    simp [hpublishing]
  refine ⟨?_, fun j hj => ?_⟩
  · rw [hbefore, List.dropLast_append_getLast? event hlast]
    unfold publishedTo
    simp [hrest, (List.nodup_cons.mp hnodup).1, hpublished]
  · unfold publishedTo
    simp [hrest, hpublishing, hpublished, hj]

/-- The loop of `publish` has passed subscriber `i`, which was sent what it watches
and stays, or was not and has been dropped. -/
theorem Gapless.offered (h : b.Gapless) {rest : List ℕ}
    (hpublishing : b.publishing = some (event, i :: rest)) (hi : b.subs[i]? = some sub)
    (ch : Channel ChangeEvent) (registered : List ℕ)
    (hcases : (registered = b.registered ∧ ch.closed = false ∧
        sub.received ++ ch.buffer = sub.sent ++ if sub.watches event then [event] else []) ∨
      (registered = b.registered.erase i ∧ ch.closed = true ∧
        sub.received ++ ch.buffer = sub.sent)) :
    { b with
      subs := b.subs.set i { sub with ch := ch }
      registered := registered
      publishing := some (event, rest) : Broadcaster }.Gapless := by
  obtain ⟨hnodup, hsubset, hlast⟩ := h.order event (i :: rest) hpublishing
  obtain ⟨hnot, hnodup'⟩ := List.nodup_cons.mp hnodup
  have hin : i ∈ b.registered := hsubset i List.mem_cons_self
  have hfed := h.subs i sub hi
  have hwhole := (hfed.whole hin).1
  obtain ⟨b', hb'⟩ : ∃ b' : Broadcaster, b' = { b with
    subs := b.subs.set i { sub with ch := ch }
    registered := registered
    publishing := some (event, rest) } := ⟨_, rfl⟩
  have hpublished : b'.published = b.published := by rw [hb']
  have hrest : b'.publishing = some (event, rest) := by rw [hb']
  have hregistered : b'.registered = registered := by rw [hb']
  obtain ⟨hto, hothers⟩ := h.publishedTo_behind hpublishing hpublished hrest
  have hsince : sub.since ≤ (b'.publishedTo i).length := by
    rw [hto, List.length_append]
    exact Nat.le_add_right_of_le hfed.since_le
  have hstream : b'.stream i { sub with ch := ch } = sub.sent ++
      if sub.watches event then [event] else [] := by
    rw [hwhole]
    exact stream_succ hto hfed.since_le
  have hkept : registered.Nodup ∧ ∀ j, j ≠ i → (j ∈ registered ↔ j ∈ b.registered) := by
    rcases hcases with ⟨rfl, -⟩ | ⟨rfl, -⟩
    · exact ⟨h.nodup, fun _ _ => Iff.rfl⟩
    · exact ⟨h.nodup.erase i, fun j hj => List.mem_erase_of_ne hj⟩
  rw [← hb']
  refine h.update hi { sub with ch := ch } (by rw [hb']) (by rw [hb']; exact h.calm)
    (hregistered ▸ hkept.1) (.inl hin) (fun j hj => ⟨hregistered ▸ hkept.2 j hj, hothers j hj⟩)
    ?_ ?_
  · intro event' rest' hsome
    rw [hrest] at hsome
    cases hsome
    rw [hregistered, hpublished]
    refine ⟨hnodup', fun j hj => ?_, hlast⟩
    exact (hkept.2 j fun heq => hnot (heq ▸ hj)).mpr (hsubset j (List.mem_cons_of_mem _ hj))
  · rcases hcases with ⟨rfl, hopen, hsent⟩ | ⟨rfl, hclosed, hsent⟩
    · have hequal : ({ sub with ch := ch } : Subscriber).sent = b'.stream i { sub with ch := ch } :=
        hsent.trans hstream.symm
      exact ⟨hsince, hequal ▸ List.prefix_rfl, fun _ => ⟨hequal, hopen⟩,
        fun hout => absurd (hregistered ▸ hin) hout⟩
    · refine ⟨hsince, ?_, fun hin' => absurd hin' ?_, fun _ => hclosed⟩
      · rw [hstream]
        change sub.received ++ ch.buffer <+: _
        rw [hsent]
        exact List.prefix_append _ _
      · rw [hregistered]
        exact h.nodup.not_mem_erase

/-- The loop of `publish` comes to subscriber `i`. -/
theorem Gapless.offerTo (h : b.Gapless) {rest : List ℕ}
    (hpublishing : b.publishing = some (event, i :: rest)) :
    { b.offerTo event i with publishing := some (event, rest) : Broadcaster }.Gapless := by
  have hin : i ∈ b.registered := (h.order event (i :: rest) hpublishing).2.1 i List.mem_cons_self
  obtain ⟨sub, hi⟩ : ∃ sub, b.subs[i]? = some sub :=
    ⟨_, List.getElem?_eq_getElem (h.known i hin)⟩
  have hopen := ((h.subs i sub hi).whole hin).2
  unfold Broadcaster.offerTo
  rw [hi]
  simp only
  split
  · next hwatch => -- another key
      have hset : b.subs = b.subs.set i { sub with ch := sub.ch } := by
        obtain ⟨hlt, rfl⟩ := List.getElem?_eq_some_iff.mp hi
        exact (List.set_getElem_self hlt).symm
      have hoffered := h.offered hpublishing hi sub.ch b.registered
        (.inl ⟨rfl, hopen, by rw [if_neg hwatch, List.append_nil]; rfl⟩)
      rw [← hset] at hoffered
      exact hoffered
  next hwatch =>
  have hwatch : sub.watches event = true := not_not.mp hwatch
  rcases Channel.trySend_open hopen event with hfull | ⟨ch, hsent, hbuffer, hopen'⟩
  · -- the buffer is full: the subscriber is dropped
    obtain ⟨ch, hbuffer, hclosed, hdrop⟩ := drop_eq (b := b) (i := i) hopen
    rw [hfull, hdrop]
    exact h.offered hpublishing hi ch _ (.inr ⟨rfl, hclosed, by rw [hbuffer]; rfl⟩)
  · rw [hsent]
    refine h.offered hpublishing hi ch _ (.inl ⟨rfl, hopen', ?_⟩)
    rw [if_pos hwatch, hbuffer, Subscriber.sent, List.append_assoc]

theorem Gapless.step (h : b.Gapless) (a : WatchStep) : (b.step a).Gapless := by
  cases a with
  | subscribe keys =>
      simp only [Broadcaster.step]
      split
      · exact h
      · next hidle => exact h.subscribe (by simpa using hidle) keys
  | unsubscribe i =>
      simp only [Broadcaster.step]
      split
      · exact h
      · next hidle => exact h.unsubscribe (by simpa using hidle) i
  | publish event order =>
      simp only [Broadcaster.step]
      split
      · exact h
      · next hfree =>
          rw [not_or, not_not] at hfree
          exact h.publish (by simpa using hfree.1) hfree.2 event
  | offer =>
      simp only [Broadcaster.step]
      split
      · exact h
      · next event hpublishing => -- the loop is over
          refine ⟨h.calm, h.nodup, h.known, by simp, fun j sub hj => ?_⟩
          refine (h.subs j sub hj).congr ?_ Iff.rfl
          unfold publishedTo
          simp [hpublishing]
      · next event i rest hpublishing => exact h.offerTo hpublishing
  | receive i => exact h.receive i

/-- In every state of a broadcaster no channel operation has panicked, and what was
sent to a subscriber is the beginning of what it watches: all of it as long as it is
registered, and if an event is missing it is not and its channel is closed. -/
theorem watch_gapless (b : Broadcaster)
    (hrun : Reaches Broadcaster.step (fun _ _ => True) initial b) :
    b.panicked = false ∧ ∀ i sub, b.subs[i]? = some sub →
      sub.received ++ sub.ch.buffer <+: b.stream i sub ∧
      (i ∈ b.registered → sub.received ++ sub.ch.buffer = b.stream i sub) ∧
      (sub.received ++ sub.ch.buffer ≠ b.stream i sub →
        i ∉ b.registered ∧ sub.ch.closed = true) := by
  have hgapless : b.Gapless := hrun.invariant gapless_initial fun _ a h _ => h.step a
  refine ⟨hgapless.calm, fun i sub hi => ?_⟩
  have hfed := hgapless.subs i sub hi
  refine ⟨hfed.part, fun hin => (hfed.whole hin).1, fun hmissed => ?_⟩
  have hout : i ∉ b.registered := fun hin => hmissed (hfed.whole hin).1
  exact ⟨hout, hfed.gone hout⟩

/-- Two subscribers, one of which leaves while the other has taken one event and has
one more in its buffer. -/
def watchRun : List WatchStep :=
  [.subscribe [97], .subscribe [], .publish ⟨1, 1, .put, [97], [1]⟩ [1, 0], .offer, .receive 1,
    .offer, .offer, .unsubscribe 0, .publish ⟨2, 1, .put, [98], [2]⟩ [1], .offer]

theorem watch_gapless_watchRun :
    let b := watchRun.foldl step initial
    b.panicked = false ∧ ∃ sub, b.subs[1]? = some sub ∧
      sub.received = [⟨1, 1, .put, [97], [1]⟩] ∧ sub.ch.buffer = [⟨2, 1, .put, [98], [2]⟩] ∧
      sub.received ++ sub.ch.buffer = b.stream 1 sub := by
  intro b
  have hrun : Allowed step (fun _ _ => True) initial watchRun ∧ 1 ∈ b.registered ∧
      b.subs[1]?.map (fun sub => (sub.received, sub.ch.buffer)) =
        some ([⟨1, 1, .put, [97], [1]⟩], [⟨2, 1, .put, [98], [2]⟩]) := by
    decide +kernel
  obtain ⟨hallowed, hregistered, hsub⟩ := hrun
  obtain ⟨hcalm, hsubs⟩ := watch_gapless b (Reaches.foldl .refl _ hallowed)
  obtain ⟨sub, hsub, heq⟩ := Option.map_eq_some_iff.mp hsub
  obtain ⟨hreceived, hbuffer⟩ := Prod.mk.inj heq
  exact ⟨hcalm, sub, hsub, hreceived, hbuffer, (hsubs 1 sub hsub).2.1 hregistered⟩

end Broadcaster

end RaftKV.Server
