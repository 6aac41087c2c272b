import RaftKV.Raft.ClusterRefinement

/-!
# Acknowledged entries and installed snapshots

`HandleInstallSnapshot` discards the whole log of the follower, whether or not the
log reaches beyond the snapshot.  A snapshot that was taken and sent while the
follower was behind may arrive after the follower has acknowledged later entries;
the leader then counts entries for it that it no longer has (`overtaken`).

As long as every snapshot that is installed reaches at least as far as the log it
replaces, a follower in the leader's term covers everything the leader has
recorded for it (`acknowledged_entries_kept`).
-/

namespace RaftKV.Raft

open Consensus (Inv Later Kept)

variable {σ : Type}

/-- Runs in which nodes compact their logs at committed entries, under the term of
that entry, and no process restarts. -/
def Compacting (c : Cluster σ) : Action → Prop
  | .compactLog i _ index term => (c.nodes i).lastIncludedIndex < index →
      index ≤ (c.nodes i).commitIndex →
        ∃ e ∈ entryAt (c.nodes i).lastIncludedIndex (c.nodes i).log index, e.term = term
  | .resume _ => False
  | .restart _ => False
  | .crash .. => False
  | _ => True

/-- A snapshot that the action installs reaches as far as the log it replaces. -/
def InstallsWhole (c : Cluster σ) : Action → Prop
  | .deliverSnapshot k => ∀ rpc ∈ c.snapshots[k]?,
      (c.nodes rpc.callee).Installs rpc.request.request →
        (c.nodes rpc.callee).lastLogIndex ≤ rpc.request.lastIncludedIndex
  | _ => True

instance (c : Cluster σ) : ∀ a, Decidable (Compacting c a)
  | .compactLog i _ index term => inferInstanceAs (Decidable (_ → _ →
      ∃ e ∈ entryAt (c.nodes i).lastIncludedIndex (c.nodes i).log index, e.term = term))
  | .electionTimeout _ | .deliverVote _ | .replyVote .. | .propose .. | .replicate ..
  | .deliverAppend _ | .replyAppend .. | .beginSnapshot _ | .loadSnapshot _
  | .deliverSnapshot _ | .replySnapshot .. => inferInstanceAs (Decidable True)
  | .resume _ | .restart _ | .crash .. => inferInstanceAs (Decidable False)

instance (c : Cluster σ) : ∀ a, Decidable (InstallsWhole c a)
  | .deliverSnapshot k => inferInstanceAs (Decidable (∀ rpc ∈ c.snapshots[k]?, _ → _))
  | .electionTimeout _ | .deliverVote _ | .replyVote .. | .propose .. | .replicate ..
  | .deliverAppend _ | .replyAppend .. | .beginSnapshot _ | .loadSnapshot _
  | .compactLog .. | .replySnapshot .. | .resume _ | .restart _ | .crash .. =>
      inferInstanceAs (Decidable True)

/-- Node `p` covers index `k`: it lies in `p`'s snapshot, or `p`'s log holds an
entry there, the one `leader` has if `leader` still has it. -/
def Node.CoversIndex (p leader : Node σ) (k : ℕ) : Prop :=
  k ≤ p.lastIncludedIndex ∨ ∃ e ∈ entryAt p.lastIncludedIndex p.log k,
    leader.lastIncludedIndex < k →
      entryAt leader.lastIncludedIndex leader.log k = some e

instance (p leader : Node σ) (k : ℕ) : Decidable (p.CoversIndex leader k) :=
  inferInstanceAs (Decidable (_ ∨ ∃ e ∈ entryAt p.lastIncludedIndex p.log k, _ → _))

theorem Compacting.covered {c : Cluster σ} {a : Action} (h : Compacting c a)
    (hinstall : InstallsWhole c a) : Covered c a := by
  cases a with
  | compactLog => exact h
  | deliverSnapshot => exact hinstall
  | restart => exact h
  | crash => exact h
  | _ => trivial

/-! ## Under the condition -/

/-- A follower in the leader's term holds what the leader has recorded for it. -/
theorem Rel.coversIndex {M : Members} {c : Cluster σ} {s : Abstract} (hR : Rel M c s)
    {leader p : NodeId} (hrole : (c.nodes leader).role = .leader)
    (hp : p ∈ (M.config leader).peers)
    (hterm : (c.nodes p).currentTerm = (c.nodes leader).currentTerm) {k : ℕ}
    (hk : k ≤ (c.nodes leader).matchIndex.get p) :
    (c.nodes p).CoversIndex (c.nodes leader) k := by
  have hl := (hR.node leader).leading hrole
  set t := (c.nodes leader).currentTerm with ht
  have hack : k ≤ s.acks p t := hk.trans (hl.acked p hp)
  -- a later leader elected without the entries would need a term beyond `p`'s own
  have hheld : (s.chain t).take k <+: s.log p := by
    rcases hR.inv.kept p t k hack with hheld | ⟨w, hlt, hle, -⟩
    · exact hheld
    · rw [(hR.node p).term, hterm] at hle
      omega
  by_cases hbase : k ≤ (c.nodes p).lastIncludedIndex
  · exact .inl hbase
  · have hpos : k - 1 < k := by omega
    have hlen : k - 1 < (s.chain t).length := by
      have := hR.inv.ack_le p t
      omega
    have hchain : ((s.chain t).take k)[k - 1]? = some (s.chain t)[k - 1] := by
      rw [List.getElem?_take_of_lt hpos, List.getElem?_eq_getElem hlen]
    refine .inr ⟨(s.chain t)[k - 1], ?_, fun hlead => ?_⟩
    · obtain ⟨rest, hrest⟩ := hheld
      rw [Option.mem_def, (hR.node p).holds.entryAt_eq (not_le.mp hbase), ← hrest,
        List.getElem?_append_left (List.getElem?_eq_some_iff.mp hchain).1, hchain]
    · rw [(hR.node leader).holds.entryAt_eq hlead, hl.whole, List.getElem?_eq_getElem hlen]

variable [PersistentState σ]

/-- **Acknowledged entries are kept.**  In every run in which each installed
snapshot reaches as far as the log it replaces, a peer in the leader's term covers
every index up to the leader's `matchIndex` for it. -/
theorem acknowledged_entries_kept (M : Members) (c : Cluster σ)
    (h : Cluster.Reachable M (fun c a => Compacting c a ∧ InstallsWhole c a) c)
    (leader p : NodeId) (hrole : (c.nodes leader).role = .leader)
    (hp : p ∈ (M.config leader).peers)
    (hterm : (c.nodes p).currentTerm = (c.nodes leader).currentTerm) (k : ℕ)
    (hk : k ≤ (c.nodes leader).matchIndex.get p) :
    (c.nodes p).CoversIndex (c.nodes leader) k := by
  obtain ⟨-, s, hR⟩ := rel_of_reachable (fun _ _ ha => ha.1.covered ha.2) h
  exact hR.coversIndex hrole hp hterm hk

/-- The leader `a` has two entries.  The first request to `b` is on its way, `c`
acknowledges both entries, and `a` compacts at index 1 and starts to send `b` its
snapshot. -/
def slowPeer : List Action :=
  [.electionTimeout "a", .deliverVote 0, .replyVote 0 0, .propose "a" [7], .propose "a" [8],
    .replicate "a" "b", .replicate "a" "c", .deliverAppend 1, .replyAppend 1 0,
    .compactLog "a" [1] 1 1, .replicate "a" "b", .beginSnapshot 0, .loadSnapshot 0]

/-- The snapshot arrives first, then the entries. -/
def snapshotFirst : List Action :=
  slowPeer ++ [.deliverSnapshot 0, .replySnapshot 0 0, .deliverAppend 0, .replyAppend 0 0]

theorem acknowledged_entries_kept_snapshotFirst :
    let c : Cluster MemState :=
      snapshotFirst.foldl (Cluster.step .trio) (Cluster.initial .trio)
    2 ≤ (c.nodes "a").matchIndex.get "b" ∧ (c.nodes "b").CoversIndex (c.nodes "a") 2 := by
  refine ⟨by decide, ?_⟩
  exact acknowledged_entries_kept .trio _ (.foldl .refl _ (by decide)) "a" "b" (by decide)
    (by decide) (by decide) 2 (by decide)

/-! ## Without it -/

/-- The entries arrive first: `b` acknowledges both, and the snapshot of index 1
then overwrites its log. -/
def overtaken : List Action :=
  slowPeer ++ [.deliverAppend 0, .replyAppend 0 0, .deliverSnapshot 0]

/-- A run without restarts in which `a` leads `b`'s term and has recorded index 2
for `b`, while `b` holds nothing at index 2. -/
theorem acknowledged_entry_lost :
    let c : Cluster MemState := overtaken.foldl (Cluster.step .trio) (Cluster.initial .trio)
    Cluster.Reachable .trio Compacting c ∧ (c.nodes "a").role = .leader ∧
      "b" ∈ (Members.trio.config "a").peers ∧
      (c.nodes "b").currentTerm = (c.nodes "a").currentTerm ∧
      2 ≤ (c.nodes "a").matchIndex.get "b" ∧ ¬ (c.nodes "b").CoversIndex (c.nodes "a") 2 :=
  ⟨.foldl .refl _ (by decide), by decide, by decide, by decide, by decide, by decide⟩

end RaftKV.Raft
