import RaftKV.Wal.Crash

/-!
# The tail of the last segment

What replay makes of the end of a log, where a crash may have left anything from half a
record to bytes that were never written.

* **A cut.**  After appends only, the last segment holds the records of the last entries.
  Cut anywhere, it is read up to the last record that is complete, and nothing of the
  earlier segments is lost (`readAll_after_cut`).
* **Zeros.**  A file that was extended but not written ends with zero bytes.  Eight of them
  are a record: a length of zero, and zero is the checksum of an empty payload.  Every
  eight zero bytes are read as one more entry (`readSegment_zeros`).
-/

namespace RaftKV.Wal

open RaftKV.Raft (LogEntry)

/-! ## Appends only -/

namespace Op

/-- `Append` and `AppendBatch`. -/
def IsAppend : Op → Prop
  | .append _ => True
  | .appendBatch _ => True
  | _ => False

instance : (op : Op) → Decidable op.IsAppend
  | .append _ => inferInstanceAs (Decidable True)
  | .appendBatch _ => inferInstanceAs (Decidable True)
  | .truncateSuffix _ => inferInstanceAs (Decidable False)
  | .truncatePrefix _ => inferInstanceAs (Decidable False)
  | .reopen => inferInstanceAs (Decidable False)

/-- The entries that an operation appends. -/
def appended : Op → List LogEntry
  | .append entry => [entry]
  | .appendBatch entries => entries
  | _ => []

end Op

section Consecutive

variable {codec : EntryCodec} {s : LogList}

/-- Entries whose indices go up by one from `first`, with sizes that the format can hold. -/
structure Consecutive (codec : EntryCodec) (first : ℕ) (entries : List LogEntry) : Prop where
  indices : entries.map LogEntry.index = List.range' first entries.length
  bound : ∀ entry ∈ entries, entry.index < 10 ^ 16
  fits : ∀ entry ∈ entries, Fits codec entry

theorem Consecutive.cons {first : ℕ} {entry : LogEntry} {rest : List LogEntry}
    (h : Consecutive codec first (entry :: rest)) :
    entry.index = first ∧ Consecutive codec (first + 1) rest := by
  have hindices := h.indices
  rw [List.map_cons, List.length_cons, List.range'_succ, List.cons.injEq] at hindices
  refine ⟨hindices.1, hindices.2, ?_, ?_⟩
  · exact fun e he => h.bound e (List.mem_cons_of_mem _ he)
  · exact fun e he => h.fits e (List.mem_cons_of_mem _ he)

/-- Such entries can be appended to a list that ends below them. -/
theorem Consecutive.admits {first : ℕ} {entries rest : List LogEntry}
    (h : Consecutive codec first (entries ++ rest)) (hlast : s.last < first) :
    Allowed LogList.append (LogList.Admits codec) s entries ∧
      (entries.foldl .append s).last < first + entries.length ∧
      Consecutive codec (first + entries.length) rest := by
  induction entries generalizing s first with
  | nil => exact ⟨trivial, hlast, h⟩
  | cons entry entries ih =>
      -- the list is carried along only by its last index, which stays below the rest
      obtain ⟨hindex, hrest⟩ := h.cons
      have hadmits : s.Admits codec entry :=
        ⟨by omega, h.bound entry List.mem_cons_self, h.fits entry List.mem_cons_self⟩
      have hnext : (s.append entry).last < first + 1 := by
        simp only [LogList.append]
        omega
      obtain ⟨hallowed, hbelow, htail⟩ := ih hrest hnext
      rw [List.length_cons, List.foldl_cons, Nat.add_comm entries.length 1, ← Nat.add_assoc]
      exact ⟨⟨hadmits, hallowed⟩, hbelow, htail⟩

/-- A history of appends is allowed, and the list behind it is what was appended. -/
theorem Consecutive.allowed {first : ℕ} {ops : List Op} (happends : ∀ op ∈ ops, op.IsAppend)
    (h : Consecutive codec first (ops.flatMap Op.appended)) (hlast : s.last < first) :
    Allowed LogList.step (LogList.Allows codec) s ops ∧
      (ops.foldl LogList.step s).entries = s.entries ++ ops.flatMap Op.appended := by
  induction ops generalizing s first with
  | nil => exact ⟨trivial, (List.append_nil _).symm⟩
  | cons op ops ih =>
      have hstep : s.step op = op.appended.foldl .append s ∧
          (Allowed LogList.append (LogList.Admits codec) s op.appended → s.Allows codec op) := by
        cases op with
        | append entry => exact ⟨rfl, And.left⟩
        | appendBatch entries => exact ⟨rfl, id⟩
        | truncateSuffix keepIndex => exact (happends _ List.mem_cons_self).elim
        | truncatePrefix discardIndex => exact (happends _ List.mem_cons_self).elim
        | reopen => exact (happends _ List.mem_cons_self).elim
      rw [List.flatMap_cons] at h ⊢
      obtain ⟨hadmits, hbelow, hrest⟩ := h.admits hlast
      obtain ⟨hallowed, hentries⟩ := ih (s := op.appended.foldl .append s)
        (fun op' hop' => happends op' (List.mem_cons_of_mem _ hop')) hrest hbelow
      rw [List.foldl_cons, hstep.1, hentries, LogList.foldl_append_entries, List.append_assoc]
      refine ⟨⟨hstep.2 hadmits, ?_⟩, rfl⟩
      rw [hstep.1]
      exact hallowed

end Consecutive

/-! ## A cut -/

/-- The first `j` records lie in front of a cut exactly if they are among those that are
complete there. -/
theorem length_records_take_le_iff (codec : EntryCodec) (entries : List LogEntry) (cut : ℕ)
    {j : ℕ} (hj : j ≤ entries.length) :
    (records codec (entries.take j)).length ≤ cut ↔
      j ≤ (within (recordSize codec) cut entries).length := by
  induction entries generalizing cut j with
  | nil =>
      obtain rfl : j = 0 := by simpa using hj
      simp [within]
  | cons entry rest ih =>
      cases j with
      | zero => simp
      | succ j =>
          rw [List.take_succ_cons, length_records_cons, within]
          split
          · next hle =>
              have := ih (cut - recordSize codec entry) (by simpa using hj)
              rw [List.length_cons, Nat.succ_le_succ_iff, ← this]
              omega
          · next hlt =>
              simp only [List.length_nil]
              omega

namespace Segments

variable (codec : EntryCodec) (segs : Segments) (cut : ℕ)

theorem entries_eq_append :
    segs.entries codec =
      segs.front.flatMap (Segment.entries codec) ++ segs.activeEntries codec := by
  rw [Segments.entries, Segments.all, List.flatMap_append, List.flatMap_singleton]
  rfl

theorem survivors_isPrefix : segs.survivors codec cut <+: segs.entries codec := by
  rw [entries_eq_append]
  exact (List.prefix_append_right_inj _).mpr (within_isPrefix (recordSize codec) cut _)

theorem length_front_le_survivors :
    (segs.front.flatMap (Segment.entries codec)).length ≤ (segs.survivors codec cut).length := by
  rw [Segments.survivors, List.length_append]
  omega

/-- Behind the earlier segments, what survives is what is complete in front of the cut. -/
theorem length_records_le_iff {n : ℕ}
    (hearlier : (segs.front.flatMap (Segment.entries codec)).length ≤ n)
    (hn : n ≤ (segs.entries codec).length) :
    (records codec (((segs.entries codec).take n).drop
        (segs.front.flatMap (Segment.entries codec)).length)).length ≤ cut ↔
      n ≤ (segs.survivors codec cut).length := by
  rw [entries_eq_append] at hn ⊢
  rw [List.length_append] at hn
  have hj := length_records_take_le_iff codec (segs.activeEntries codec) cut
    (j := n - (segs.front.flatMap (Segment.entries codec)).length) (by omega)
  rw [List.take_append, List.take_of_length_le hearlier, List.drop_left, hj,
    Segments.survivors, List.length_append]
  omega

end Segments

namespace WAL

variable {w₀ w : WAL}

/-- Replay of a torn log.  After appends at consecutive indices, let the last segment hold
the records from position `earlier` on.  If its file is cut, opening succeeds and reading
gives a prefix of the entries that were appended: all those whose records are in earlier
segments or lie completely in front of the cut, and no other. -/
theorem readAll_after_cut (codec : EntryCodec) {dir : Directory} (hdir : segmentPaths dir = [])
    (hopen : openDir codec dir = .ok w₀) {ops : List Op} (happends : ∀ op ∈ ops, op.IsAppend)
    {first : ℕ} (hfirst : 1 ≤ first)
    (hentries : Consecutive codec first (ops.flatMap Op.appended))
    (hrun : ops.foldlM (WAL.step codec) w₀ = .ok w) :
    ∃ last earlier, (segmentPaths w.dir).getLast? = some last ∧
      earlier ≤ (ops.flatMap Op.appended).length ∧
      w.dir.lookup last = some (records codec ((ops.flatMap Op.appended).drop earlier)) ∧
      ∀ cut, ∃ w₁ count, openDir codec (w.tear cut) = .ok w₁ ∧
        w₁.readAll codec = .ok ((ops.flatMap Op.appended).take count) ∧
        earlier ≤ count ∧ count ≤ (ops.flatMap Op.appended).length ∧
        ∀ n, earlier ≤ n → n ≤ (ops.flatMap Op.appended).length →
          ((records codec (((ops.flatMap Op.appended).take n).drop earlier)).length ≤ cut ↔
            n ≤ count) := by
  obtain ⟨hallowed, hlist⟩ := hentries.allowed (s := .empty) happends hfirst
  obtain ⟨segs, htracks⟩ := (refines_openDir hdir hopen).run hallowed hrun
  have hflushed := htracks.toFlushed
  have hsorted := htracks.ordered.sorted
  -- the run refines the list, so the segments hold what was appended and nothing else
  have hall : ops.flatMap Op.appended = segs.entries codec := by
    rw [htracks.entries, hlist, LogList.empty, List.nil_append]
  rw [hall]
  refine ⟨segmentName segs.number, (segs.front.flatMap (Segment.entries codec)).length, ?_,
    ?_, ?_, fun cut => ?_⟩
  · rw [hflushed.stores.paths_eq hsorted, Segments.all, List.map_append, List.map_singleton,
      List.getLast?_concat]
    rfl
  · rw [segs.entries_eq_append, List.length_append]
    omega
  · rw [segs.entries_eq_append, List.drop_left, Segments.activeEntries,
      ← htracks.readable.active.bytes]
    exact hflushed.stores.stored (segs.number, segs.content) (by simp [Segments.all])
  · obtain ⟨hdecode, hsurvivors⟩ := htracks.readable.decode_all_cut cut
    -- a cut leaves the names, and so the order in which the segments are read
    have hcutSorted : (segs.cut cut).names.Pairwise (· < ·) := by
      rw [names_cut]
      exact hsorted
    obtain ⟨w₁, hopen₁, hread⟩ := readAll_openDir (hflushed.tear hsorted cut) hcutSorted hdecode
    have hprefix := segs.survivors_isPrefix codec cut
    refine ⟨w₁, (segs.survivors codec cut).length, hopen₁, ?_,
      segs.length_front_le_survivors codec cut, hprefix.length_le,
      fun n => segs.length_records_le_iff codec cut⟩
    rw [hread, ← List.prefix_iff_eq_take.mp hprefix]
    exact congrArg Except.ok hsurvivors

/-- An entry, and a batch of two. -/
def appendOps : List Op :=
  [.append ⟨1, 1, [7]⟩, .appendBatch [⟨2, 1, [8]⟩, ⟨3, 1, []⟩]]

theorem readAll_after_cut_appendOps :
    ∃ w₀ w, openDir wireCodec ∅ = .ok w₀ ∧ appendOps.foldlM (WAL.step wireCodec) w₀ = .ok w ∧
      ∀ cut, ∃ w₁ count, openDir wireCodec (w.tear cut) = .ok w₁ ∧
        w₁.readAll wireCodec =
          .ok ([⟨1, 1, [7]⟩, ⟨2, 1, [8]⟩, ⟨3, 1, []⟩].take count) := by
  have hruns : (openDir wireCodec ∅ >>= appendOps.foldlM (WAL.step wireCodec)).toBool = true := by
    decide +kernel
  obtain ⟨w, hw⟩ := exists_ok_of_toBool hruns
  obtain ⟨w₀, hopen, hrun⟩ := exists_ok_of_bind hw
  have hentries : Consecutive wireCodec 1 (appendOps.flatMap Op.appended) :=
    ⟨by decide, by decide, by decide +kernel⟩
  obtain ⟨last, earlier, -, -, -, hcut⟩ :=
    readAll_after_cut wireCodec (by decide) hopen (by decide) le_rfl hentries hrun
  refine ⟨w₀, w, hopen, hrun, fun cut => ?_⟩
  obtain ⟨w₁, count, hopen₁, hread, -⟩ := hcut cut
  exact ⟨w₁, count, hopen₁, hread⟩

end WAL

/-! ## Zeros -/

/-- The record of an empty payload. -/
theorem frame_nil : frame checksumIEEE [] = List.replicate 8 0 := by
  decide +kernel

/-- Every eight zero bytes are one more empty payload. -/
theorem payloads_zeros (n : ℕ) :
    payloads checksumIEEE (List.replicate n 0) = List.replicate (n / 8) [] := by
  induction n using Nat.strong_induction_on with
  | _ n ih =>
      have hempty : ([] : Bytes).length < 2 ^ 32 := by decide
      rcases Nat.lt_or_ge n 8 with hlt | hge
      · -- the beginning of a header
        have htake : List.replicate n 0 = (frame checksumIEEE []).take n := by
          rw [frame_nil, List.take_replicate, Nat.min_eq_left hlt.le]
        rw [htake, payloads_of_none (readFrame_take hempty hlt), Nat.div_eq_of_lt hlt]
        rfl
      · -- a whole record, and the rest
        have happend : List.replicate n 0 =
            frame checksumIEEE [] ++ List.replicate (n - 8) 0 := by
          rw [frame_nil, List.replicate_append_replicate, Nat.add_sub_cancel' hge]
        have hdiv : n / 8 = (n - 8) / 8 + 1 := by omega
        rw [happend, payloads_of_some (readFrame_frame hempty _), ih (n - 8) (by omega), hdiv,
          List.replicate_succ]

/-- Replay of a segment that ends with bytes that were never written.  The entries in front
of them are read back alone exactly if there are fewer than eight such bytes; if an empty
message can be unmarshalled, it is read once for every eight of them. -/
theorem readSegment_zeros (codec : EntryCodec) {dir : Directory} {path : FileName}
    {entries : List LogEntry} (hfits : ∀ entry ∈ entries, Fits codec entry) {zeros : ℕ}
    (hfile : dir.lookup path = some (records codec entries ++ List.replicate zeros 0)) :
    (readSegment codec dir path = .ok entries ↔ zeros < 8) ∧
      ∀ zero, codec.unmarshal [] = some zero →
        readSegment codec dir path = .ok (entries ++ List.replicate (zeros / 8) zero) := by
  have hdecode : (payloads checksumIEEE
      (records codec entries ++ List.replicate zeros 0)).mapM codec.unmarshal =
        ((List.replicate (zeros / 8) []).mapM codec.unmarshal).map (entries ++ ·) := by
    rw [← payloads_zeros]
    exact decode_records hfits _
  unfold readSegment
  simp only [hfile, hdecode]
  refine ⟨⟨fun hok => ?_, fun hlt => ?_⟩, fun zero hzero => ?_⟩
  · -- with one empty payload or more, reading fails or gives another entry
    by_contra hge
    obtain ⟨k, hk⟩ : ∃ k, zeros / 8 = k + 1 := ⟨zeros / 8 - 1, by omega⟩
    rw [hk, List.replicate_succ, List.mapM_cons] at hok
    cases hfirst : codec.unmarshal [] with
    | none => simp [hfirst] at hok
    | some zero =>
        cases hrest : (List.replicate k []).mapM codec.unmarshal with
        | none => simp [hfirst, hrest] at hok
        | some more => simp [hfirst, hrest] at hok
  · rw [Nat.div_eq_of_lt hlt]
    simp
  · have hall : (List.replicate (zeros / 8) []).mapM codec.unmarshal =
        some (List.replicate (zeros / 8) zero) := by
      induction zeros / 8 with
      | zero => rfl
      | succ k ih => simp [List.replicate_succ, hzero, ih]
    rw [hall]
    rfl

/-- A segment with one entry, and zeros behind it. -/
def zeroedSegment (zeros : ℕ) : Directory :=
  (∅ : Directory).insert (segmentName 1)
    (records wireCodec [⟨1, 1, [7]⟩] ++ List.replicate zeros 0)

/-- Seven zeros are an incomplete header. -/
theorem readSegment_seven_zeros :
    readSegment wireCodec (zeroedSegment 7) (segmentName 1) = .ok [⟨1, 1, [7]⟩] :=
  (readSegment_zeros wireCodec (by decide +kernel) (AList.lookup_insert _)).1.mpr (by decide)

/-- Eight zeros are an entry with the index zero. -/
theorem readSegment_eight_zeros :
    readSegment wireCodec (zeroedSegment 8) (segmentName 1) =
      .ok [⟨1, 1, [7]⟩, ⟨0, 0, []⟩] := by
  decide +kernel

end RaftKV.Wal
