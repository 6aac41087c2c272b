import RaftKV.Server.Replay

/-!
# Replicas

The state machines that follow one committed log: each applies entries in order, or
installs a snapshot that another one made of its engine.  Between these its own engine may
flush and compact, one at a time and each to its end.

The dedup table is not part of a snapshot.  A machine that installed one between a
command and its retry executes the retry, while the others skip it, and if another
client has written the key in between the two machines end up with different maps
(`retry_behind_snapshot_diverges`).  Without such a retry any two machines that have
applied the same number of entries hold the same map.
-/

namespace RaftKV.Server

open RaftKV.Raft RaftKV.Storage

/-- The state machines that follow a committed log.  `ok` says at which indices a
snapshot may be installed. -/
inductive Replica (codec : Codec) (log : CommittedLog) (ok : ℕ → Prop) : StateMachine → Prop
  | fresh (snapshotInterval : ℕ) : Replica codec log ok (.new .fresh snapshotInterval)
  | apply {sm : StateMachine} {entry : LogEntry} (replica : Replica codec log ok sm)
      (next : log.entries[sm.lastApplied]? = some entry) :
      Replica codec log ok (sm.dispatch codec (.command entry))
  | install {sm source : StateMachine} {data : Bytes} {term : ℕ}
      (replica : Replica codec log ok sm) (other : Replica codec log ok source)
      (taken : source.engine.snapshot = .ok data) (allowed : ok source.lastApplied)
      (written : (sm.applySnapshot data source.lastApplied).engine.Writable) :
      Replica codec log ok (sm.dispatch codec (.snapshot data source.lastApplied term))
  | snapshotDone {sm : StateMachine} (replica : Replica codec log ok sm) :
      Replica codec log ok { sm with snapshotDue := none }
  | register {sm : StateMachine} (replica : Replica codec log ok sm) (pw : PendingWrite) :
      Replica codec log ok { sm with pending := sm.pending.insert pw.logIndex pw }
  | flush {sm : StateMachine} (replica : Replica codec log ok sm)
      (written : sm.engine.rotateAndFlush.Writable) :
      Replica codec log ok { sm with engine := sm.engine.rotateAndFlush }
  | compactTables {sm : StateMachine} (replica : Replica codec log ok sm)
      (written : sm.engine.doCompaction.Writable) :
      Replica codec log ok { sm with engine := sm.engine.doCompaction }

namespace Replica

variable {codec : Codec} {log : CommittedLog} {sm sm' : StateMachine}

theorem install_at {ok : ℕ → Prop} {source : StateMachine} {data : Bytes} {index term : ℕ}
    (h : Replica codec log ok sm) (hsource : Replica codec log ok source)
    (hindex : source.lastApplied = index) (htaken : source.engine.snapshot = .ok data)
    (hok : ok index) (hwritten : (sm.applySnapshot data index).engine.Writable) :
    Replica codec log ok (sm.dispatch codec (.snapshot data index term)) := by
  subst hindex
  exact .install h hsource htaken hok hwritten

/-- A replica has the state of the log at the index it has applied last. -/
theorem follows (hlog : log.Fits codec) (h : Replica codec log (log.NoRetryAfter codec) sm) :
    sm.Follows codec log sm.lastApplied sm.lastApplied := by
  induction h with
  | fresh snapshotInterval => exact .fresh snapshotInterval
  | @apply sm entry _ next ih =>
      obtain ⟨hfollows, -, hlast⟩ := ih.dispatch hlog next
      rw [max_eq_right (Nat.le_succ _)] at hfollows
      rw [hlast]
      exact hfollows
  | @install sm source data term _ _ taken allowed written ih ihsource =>
      change (sm.applySnapshot data source.lastApplied).Follows codec log
        (sm.applySnapshot data source.lastApplied).lastApplied
        (sm.applySnapshot data source.lastApplied).lastApplied
      by_cases hstale : source.lastApplied ≤ sm.lastApplied
      · rw [StateMachine.applySnapshot, if_pos hstale]
        exact ih
      · obtain ⟨entries, hdata, hentries, hvisible⟩ := ihsource.sound.snapshot
        obtain rfl : data = encodeSnapshot entries :=
          Except.ok.inj (taken.symm.trans hdata)
        have hwithin : Within (log.storeAt codec) source.lastApplied source.lastApplied
            (visible [entries]) := by
          rw [hvisible]
          exact ihsource.lags.store
        obtain ⟨hfollows, -, hlast⟩ :=
          ih.applySnapshot hentries hwithin allowed (not_le.mp hstale) written
        rw [hlast]
        exact hfollows
  | snapshotDone _ ih => exact ih.congr ih.sound rfl rfl rfl
  | register _ pw ih => exact ih.congr ih.sound rfl rfl rfl
  | flush _ written ih => exact ih.rotateAndFlush written
  | compactTables _ written ih => exact ih.doCompaction written

/-- **Replicas converge.**  If snapshots are only installed where no later entry repeats
a command from below, two replicas that have applied equally much hold the same map. -/
theorem replicas_converge (hlog : log.Fits codec)
    (h : Replica codec log (log.NoRetryAfter codec) sm)
    (h' : Replica codec log (log.NoRetryAfter codec) sm')
    (hlast : sm.lastApplied = sm'.lastApplied) : sm.engine.contents = sm'.engine.contents :=
  calc sm.engine.contents
      = log.storeAt codec sm.lastApplied := (follows hlog h).lags.store_eq
    _ = log.storeAt codec sm'.lastApplied := by rw [hlast]
    _ = sm'.engine.contents := (follows hlog h').lags.store_eq.symm

/-- Puts to one key by client, sequence number and value; client 0 is anonymous. -/
def sessionCodec : Codec where
  marshal cmd := [if cmd.clientId = "" then 0 else 1, cmd.seqNum.toUInt8] ++ cmd.value
  unmarshal
    | client :: seq :: value =>
        some ⟨.put, [107], value, if client = 0 then "" else "c", seq.toNat⟩
    | _ => none

/-- The machine that applies the first entries of a log. -/
def applying (log : CommittedLog) (count : ℕ) : StateMachine :=
  (log.entries.take count).foldl (fun sm entry => sm.dispatch sessionCodec (.command entry))
    (.new .fresh 0)

/-- The machine that installs a snapshot of the first two entries, when they have left
the key at 20, and applies the third. -/
def installing (log : CommittedLog) : StateMachine :=
  (log.entries.drop 2).foldl (fun sm entry => sm.dispatch sessionCodec (.command entry))
    (StateMachine.dispatch sessionCodec (.new .fresh 0)
      (.snapshot (encodeSnapshot [⟨[107], [20], kindPut⟩]) 2 1))

/-- A client writes 10 and then 30, another one writes 20 in between. -/
def sessionLog : CommittedLog where
  entries := [⟨1, 1, [1, 1, 10]⟩, ⟨2, 1, [0, 0, 20]⟩, ⟨3, 1, [1, 2, 30]⟩]
  indexed := by decide

theorem replicas_converge_sessionLog :
    (applying sessionLog 3).lastApplied = 3 ∧ (installing sessionLog).lastApplied = 3 ∧
      (applying sessionLog 3).engine.contents = (installing sessionLog).engine.contents := by
  have htwo : Replica sessionCodec sessionLog (sessionLog.NoRetryAfter sessionCodec)
      (applying sessionLog 2) :=
    .apply (.apply (.fresh 0) (by decide +kernel)) (by decide +kernel)
  have hthree : Replica sessionCodec sessionLog (sessionLog.NoRetryAfter sessionCodec)
      (applying sessionLog 3) :=
    .apply htwo (by decide +kernel)
  have hinstalled : Replica sessionCodec sessionLog (sessionLog.NoRetryAfter sessionCodec)
      (installing sessionLog) :=
    .apply (install_at (.fresh 0) htwo (by decide +kernel) (by decide +kernel)
      (by decide +kernel) (by decide +kernel)) (by decide +kernel)
  exact ⟨by decide +kernel, by decide +kernel,
    replicas_converge (by decide +kernel) hthree hinstalled (by decide +kernel)⟩

/-- A client writes 10, another one writes 20, and the first write is tried again. -/
def retriedLog : CommittedLog where
  entries := [⟨1, 1, [1, 1, 10]⟩, ⟨2, 1, [0, 0, 20]⟩, ⟨3, 1, [1, 1, 10]⟩]
  indexed := by decide

/-- The machine that applied the first attempt skips the second and keeps 20; the one
that has it from a snapshot executes it and has 10. -/
theorem retry_behind_snapshot_diverges :
    ∃ sm sm' : StateMachine, Replica sessionCodec retriedLog (fun _ => True) sm ∧
      Replica sessionCodec retriedLog (fun _ => True) sm' ∧
      sm.lastApplied = sm'.lastApplied ∧
      sm.engine.contents [107] = some [20] ∧ sm'.engine.contents [107] = some [10] := by
  have htwo : Replica sessionCodec retriedLog (fun _ => True) (applying retriedLog 2) :=
    .apply (.apply (.fresh 0) (by decide +kernel)) (by decide +kernel)
  have hthree : Replica sessionCodec retriedLog (fun _ => True) (applying retriedLog 3) :=
    .apply htwo (by decide +kernel)
  have hinstalled : Replica sessionCodec retriedLog (fun _ => True) (installing retriedLog) :=
    .apply (install_at (.fresh 0) htwo (by decide +kernel) (by decide +kernel) trivial
      (by decide +kernel)) (by decide +kernel)
  exact ⟨_, _, hthree, hinstalled, by decide +kernel, by decide +kernel, by decide +kernel⟩

end Replica

end RaftKV.Server
