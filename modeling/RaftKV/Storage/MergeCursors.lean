import RaftKV.Storage.Merge

/-!
# The merge with its cursors

`MergeEntries` as its source runs it: one position for each input, and rounds that

* find the input that stands at the smallest key, the first of several (`minInput`);
* look behind that input for a newer entry of the same key (`newestAfter`);
* move every input that stands at the key (`Cursor.advance`);
* append the newest entry to the result unless it is a tombstone.

The rests of the inputs are what `Merge.lean` works with.  A round of the loop is a
round there (`Merging.round_spec`), so the loop ends (`Merging.merges`), and from the
merge of the rests it is known what it ends with.  The source sorts the result once
more by a sort that is not stable; the keys are distinct, so there is only one order it
can end in.
-/

namespace RaftKV.Storage

/-- An input with its position. -/
structure Cursor where
  input : List MemEntry
  pos : ℕ
  deriving DecidableEq, Repr

namespace Cursor

/-- The entry at the position, unless the input is exhausted. -/
def current (c : Cursor) : Option MemEntry :=
  c.input[c.pos]?

/-- Moves an input that stands at the key. -/
def advance (key : Key) (c : Cursor) : Cursor :=
  match c.current with
  | none => c
  | some e => if e.key = key then { c with pos := c.pos + 1 } else c

/-- What is left of the input. -/
def rest (c : Cursor) : List MemEntry :=
  c.input.drop c.pos

variable {c : Cursor} {e : MemEntry}

theorem rest_of_none (h : c.current = none) : c.rest = [] :=
  List.drop_eq_nil_of_le (List.getElem?_eq_none_iff.mp h)

theorem rest_of_some (h : c.current = some e) : c.rest = e :: c.input.drop (c.pos + 1) := by
  obtain ⟨hlt, hget⟩ := List.getElem?_eq_some_iff.mp h
  rw [← hget]
  exact List.drop_eq_getElem_cons hlt

theorem rest_advance (key : Key) (c : Cursor) :
    (c.advance key).rest = advancePast key c.rest := by
  unfold advance
  cases hcurrent : c.current with
  | none =>
      rw [rest_of_none hcurrent]
      rfl
  | some e =>
      rw [rest_of_some hcurrent, advancePast]
      simp only
      split
      · rfl
      · exact rest_of_some hcurrent

end Cursor

/-- The first inner loop: `minInput` and the entry it stands at, whose key is `minKey`. -/
def minInput (cursors : List Cursor) : Option (ℕ × MemEntry) :=
  cursors.zipIdx.foldl (fun least indexed =>
    match indexed.1.current, least with
    | none, least => least
    | some e, none => some (indexed.2, e)
    | some e, some (i, m) => if e.key < m.key then some (indexed.2, e) else some (i, m)) none

/-- The second inner loop, over the inputs behind `minInput`. -/
def newestAfter (first : MemEntry) (later : List Cursor) : MemEntry :=
  later.foldl (fun newest c =>
    match c.current with
    | none => newest
    | some e => if e.key = first.key then e else newest) first

/-- The variables of the loop. -/
structure Merging where
  cursors : List Cursor
  result : List MemEntry
  deriving DecidableEq, Repr

namespace Merging

def start (inputs : List (List MemEntry)) : Merging :=
  ⟨inputs.map fun input => ⟨input, 0⟩, []⟩

/-- A round of the loop; none when all inputs are exhausted. -/
def round (s : Merging) : Option Merging :=
  match minInput s.cursors with
  | none => none
  | some (i, first) =>
      let newest := newestAfter first (s.cursors.drop (i + 1))
      let cursors := s.cursors.map (Cursor.advance first.key)
      if newest.kind = kindDelete then some ⟨cursors, s.result⟩
      else some ⟨cursors, s.result ++ [newest]⟩

/-- The loop, entered with these variables, is left with this result. -/
inductive Merges : Merging → List MemEntry → Prop
  | done {s : Merging} (h : s.round = none) : Merges s s.result
  | next {s s' : Merging} {result : List MemEntry} (h : s.round = some s')
      (rest : Merges s' result) : Merges s result

def rests (s : Merging) : List (List MemEntry) :=
  s.cursors.map Cursor.rest

end Merging

/-! ## The inner loops -/

section InnerLoops

variable {cursors : List Cursor} {first : MemEntry} {i : ℕ}

theorem minInput_append (cursors : List Cursor) (last : Cursor) :
    minInput (cursors ++ [last]) =
      match last.current, minInput cursors with
      | none, least => least
      | some e, none => some (cursors.length, e)
      | some e, some (i, m) => if e.key < m.key then some (cursors.length, e) else some (i, m) := by
  unfold minInput
  rw [List.zipIdx_append, List.foldl_append]
  simp

/-- The entry found is the smallest of those the rests start with. -/
theorem map_minInput (cursors : List Cursor) :
    (minInput cursors).map Prod.snd = minEntry (cursors.map Cursor.rest) := by
  induction cursors using List.reverseRecOn with
  | nil => rfl
  | append_singleton front last ih =>
      rw [minInput_append, List.map_append, List.map_singleton, minEntry_append, ← ih]
      cases hcurrent : last.current with
      | none => rw [Cursor.rest_of_none hcurrent]
      | some e =>
          rw [Cursor.rest_of_some hcurrent]
          cases minInput front with
          | none => rfl
          | some found =>
              simp only [Option.map_some]
              split
              · rfl
              · rfl

theorem current_of_minInput_none (h : minInput cursors = none) {c : Cursor} (hc : c ∈ cursors) :
    c.current = none := by
  have hrests := map_minInput cursors
  rw [h, Option.map_none] at hrests
  have hnil := minEntry_eq_none hrests.symm _ (List.mem_map_of_mem hc)
  cases hcurrent : c.current with
  | none => rfl
  | some e =>
      rw [Cursor.rest_of_some hcurrent] at hnil
      simp at hnil

theorem key_le_of_minInput (h : minInput cursors = some (i, first)) {c : Cursor}
    (hc : c ∈ cursors) {e : MemEntry} (he : c.current = some e) : first.key ≤ e.key := by
  have hrests := map_minInput cursors
  rw [h, Option.map_some] at hrests
  refine (minEntry_spec hrests.symm).2 _ (List.mem_map_of_mem hc) e ?_
  rw [Cursor.rest_of_some he]
  rfl

/-- The input found stands at the entry, and those in front of it stand higher. -/
theorem minInput_spec (h : minInput cursors = some (i, first)) :
    (∃ c, cursors[i]? = some c ∧ c.current = some first) ∧
      ∀ c ∈ cursors.take i, ∀ e, c.current = some e → first.key < e.key := by
  induction cursors using List.reverseRecOn generalizing i first with
  | nil => simp [minInput] at h
  | append_singleton front last ih =>
      rw [minInput_append] at h
      -- the input found so far stays the one
      have hstays : minInput front = some (i, first) →
          (∃ c, (front ++ [last])[i]? = some c ∧ c.current = some first) ∧
            ∀ c ∈ (front ++ [last]).take i, ∀ e, c.current = some e → first.key < e.key := by
        intro hfront
        obtain ⟨⟨c, hget, hc⟩, habove⟩ := ih hfront
        have hlt : i < front.length := (List.getElem?_eq_some_iff.mp hget).1
        rw [List.getElem?_append_left hlt, List.take_append_of_le_length hlt.le]
        exact ⟨⟨c, hget, hc⟩, habove⟩
      -- the last one is found, below all before it
      have hlast : i = front.length → last.current = some first →
          (∀ c ∈ front, ∀ e, c.current = some e → first.key < e.key) →
          (∃ c, (front ++ [last])[i]? = some c ∧ c.current = some first) ∧
            ∀ c ∈ (front ++ [last]).take i, ∀ e, c.current = some e → first.key < e.key := by
        rintro rfl hcurrent habove
        rw [List.take_left]
        exact ⟨⟨last, by simp, hcurrent⟩, habove⟩
      cases hcurrent : last.current with
      | none =>
          simp only [hcurrent] at h
          exact hstays h
      | some e =>
          cases hfront : minInput front with
          | none =>
              rw [hcurrent, hfront, Option.some.injEq, Prod.mk.injEq] at h
              obtain ⟨rfl, rfl⟩ := h
              refine hlast rfl hcurrent fun c hc e' he' => ?_
              rw [current_of_minInput_none hfront hc] at he'
              simp at he'
          | some found =>
              obtain ⟨j, m⟩ := found
              rw [hcurrent, hfront] at h
              simp only at h
              split at h
              · next hlt =>
                  rw [Option.some.injEq, Prod.mk.injEq] at h
                  obtain ⟨rfl, rfl⟩ := h
                  exact hlast rfl hcurrent fun c hc e' he' =>
                    hlt.trans_le (key_le_of_minInput hfront hc he')
              · exact hstays (hfront.trans h)

theorem newestAfter_eq_newestEntry (first : MemEntry) (cursors : List Cursor) :
    newestAfter first cursors = newestEntry first (cursors.map Cursor.rest) := by
  unfold newestAfter newestEntry
  rw [List.foldl_map]
  congr 1
  funext newest c
  cases hcurrent : c.current with
  | none => rw [Cursor.rest_of_none hcurrent]
  | some e => rw [Cursor.rest_of_some hcurrent]

/-- Inputs that stand above the key or at the entry itself have nothing newer. -/
theorem newestAfter_append {front : List Cursor} (later : List Cursor)
    (h : ∀ c ∈ front, ∀ e, c.current = some e → e.key = first.key → e = first) :
    newestAfter first (front ++ later) = newestAfter first later := by
  induction front with
  | nil => rfl
  | cons c front ih =>
      have hrest := ih fun c' hc' => h c' (List.mem_cons_of_mem _ hc')
      have hkeeps : (match c.current with
          | none => first
          | some e => if e.key = first.key then e else first) = first := by
        cases hcurrent : c.current with
        | none => rfl
        | some e =>
            by_cases hkey : e.key = first.key
            · exact (if_pos hkey).trans (h c List.mem_cons_self e hcurrent hkey)
            · exact if_neg hkey
      unfold newestAfter at hrest ⊢
      rw [List.cons_append, List.foldl_cons, hkeeps]
      exact hrest

/-- Only the inputs behind the one found can have a newer entry. -/
theorem newestAfter_drop (h : minInput cursors = some (i, first)) :
    newestAfter first (cursors.drop (i + 1)) = newestEntry first (cursors.map Cursor.rest) := by
  obtain ⟨⟨c, hget, hc⟩, habove⟩ := minInput_spec h
  obtain ⟨hlt, hgetElem⟩ := List.getElem?_eq_some_iff.mp hget
  have hfront : ∀ c' ∈ cursors.take (i + 1), ∀ e, c'.current = some e → e.key = first.key →
      e = first := by
    intro c' hc' e hcurrent hkey
    rw [List.take_add_one, hget] at hc'
    rcases List.mem_append.mp hc' with hbefore | hfound
    · exact absurd hkey (habove c' hbefore e hcurrent).ne'
    · rw [Option.toList_some, List.mem_singleton] at hfound
      rw [hfound, hc] at hcurrent
      exact (Option.some.inj hcurrent).symm
  rw [← newestAfter_eq_newestEntry, ← newestAfter_append _ hfront, List.take_append_drop]

end InnerLoops

/-! ## The loop -/

namespace Merging

variable {s : Merging}

theorem rests_start (inputs : List (List MemEntry)) : (start inputs).rests = inputs := by
  simp [start, rests, Cursor.rest, Function.comp_def]

/-- A round is a round on the rests. -/
theorem round_spec (s : Merging) :
    s.round = match minEntry s.rests with
      | none => none
      | some first =>
          if (newestEntry first s.rests).kind = kindDelete then
            some ⟨s.cursors.map (Cursor.advance first.key), s.result⟩
          else
            some ⟨s.cursors.map (Cursor.advance first.key),
              s.result ++ [newestEntry first s.rests]⟩ := by
  unfold round rests
  rw [← map_minInput]
  cases hmin : minInput s.cursors with
  | none => rfl
  | some found =>
      obtain ⟨i, first⟩ := found
      simp only [Option.map_some, newestAfter_drop hmin]

theorem rests_advance (key : Key) (result : List MemEntry) :
    (Merging.mk (s.cursors.map (Cursor.advance key)) result).rests =
      s.rests.map (advancePast key) := by
  unfold rests
  rw [List.map_map, List.map_map]
  congr 1
  funext c
  exact Cursor.rest_advance key c

/-- The loop is left, with what the merge of the rests adds to the result. -/
theorem merges {fuel : ℕ} (hfuel : (s.rests.map List.length).sum < fuel) :
    s.Merges (s.result ++ mergeLoop fuel s.rests) := by
  induction fuel generalizing s with
  | zero => omega
  | succ fuel ih =>
      have hround := s.round_spec
      rw [mergeLoop]
      cases hmin : minEntry s.rests with
      | none =>
          rw [hmin] at hround
          rw [List.append_nil]
          exact .done hround
      | some first =>
          rw [hmin] at hround
          simp only at hround ⊢
          have hshorter := sum_length_advancePast (minEntry_spec hmin).1
          split at hround
          · next hdeleted =>
              rw [if_pos hdeleted]
              refine .next hround ?_
              rw [← rests_advance first.key s.result] at hshorter ⊢
              exact ih (by omega)
          · next hput =>
              rw [if_neg hput, List.append_cons]
              refine .next hround ?_
              rw [← rests_advance first.key (s.result ++ [newestEntry first s.rests])] at hshorter ⊢
              exact ih (by omega)

end Merging

/-- Sorting entries of distinct keys can end in one order only. -/
theorem eq_of_perm_of_sortedEntries {result sorted : List MemEntry} (hresult : SortedEntries result)
    (hperm : sorted.Perm result) (hsorted : sorted.Pairwise fun a b => a.key ≤ b.key) :
    sorted = result := by
  have hdistinct : sorted.Pairwise fun a b => a.key ≠ b.key :=
    (hperm.pairwise_iff fun hne => Ne.symm hne).mpr (hresult.imp fun h => h.ne)
  have hstrict : SortedEntries sorted :=
    (hsorted.and hdistinct).imp fun h => lt_of_le_of_ne h.1 h.2
  exact hstrict.eq_of_mem_iff hresult fun e => hperm.mem_iff

/-! ## Newest wins -/

/-- The last of the inputs that have its key holds the entry. -/
def HoldsLast (inputs : List (List MemEntry)) (e : MemEntry) : Prop :=
  ∃ (i : ℕ) (input : List MemEntry), inputs[i]? = some input ∧ e ∈ input ∧
    ∀ (j : ℕ) (later : List MemEntry), i < j → inputs[j]? = some later →
      ∀ e' ∈ later, e'.key ≠ e.key

theorem holdsLast_append {front : List (List MemEntry)} {last : List MemEntry} {e : MemEntry} :
    HoldsLast (front ++ [last]) e ↔
      e ∈ last ∨ HoldsLast front e ∧ ∀ e' ∈ last, e'.key ≠ e.key := by
  have hlast : (front ++ [last])[front.length]? = some last := by simp
  constructor
  · rintro ⟨i, input, hget, he, hnone⟩
    rcases Nat.lt_or_ge i front.length with hi | hi
    · rw [List.getElem?_append_left hi] at hget
      refine .inr ⟨⟨i, input, hget, he, fun j later hj hlater => ?_⟩, hnone _ last hi hlast⟩
      have hlt : j < front.length := (List.getElem?_eq_some_iff.mp hlater).1
      exact hnone j later hj (by rw [List.getElem?_append_left hlt, hlater])
    · have hlt : i < (front ++ [last]).length := (List.getElem?_eq_some_iff.mp hget).1
      rw [List.length_append, List.length_singleton] at hlt
      obtain rfl : i = front.length := by omega
      rw [hlast, Option.some.injEq] at hget
      exact .inl (hget ▸ he)
  · rintro (he | ⟨⟨i, input, hget, he, hnone⟩, habsent⟩)
    · refine ⟨front.length, last, hlast, he, fun j later hj hlater => ?_⟩
      have hlt : j < (front ++ [last]).length := (List.getElem?_eq_some_iff.mp hlater).1
      rw [List.length_append, List.length_singleton] at hlt
      omega
    · have hi : i < front.length := (List.getElem?_eq_some_iff.mp hget).1
      refine ⟨i, input, by rw [List.getElem?_append_left hi, hget], he, ?_⟩
      intro j later hj hlater
      rcases Nat.lt_or_ge j front.length with hlt | hge
      · rw [List.getElem?_append_left hlt] at hlater
        exact hnone j later hj hlater
      · rw [List.getElem?_append_right hge, List.getElem?_singleton] at hlater
        split at hlater
        · rw [← Option.some.inj hlater]
          exact habsent
        · simp at hlater

/-- The newest entry of a key, in terms of the inputs' numbers. -/
theorem newest_reverse_eq_some_iff {inputs : List (List MemEntry)}
    (hsorted : ∀ input ∈ inputs, SortedEntries input) {key : Key} {e : MemEntry} :
    newest MemEntry.key key inputs.reverse = some e ↔ e.key = key ∧ HoldsLast inputs e := by
  induction inputs using List.reverseRecOn with
  | nil => simp [HoldsLast]
  | append_singleton front last ih =>
      have ih := ih fun input hinput => hsorted input (List.mem_append_left _ hinput)
      have hlast : SortedEntries last := hsorted last (by simp)
      rw [List.reverse_append, List.reverse_singleton, List.singleton_append, newest_cons,
        holdsLast_append]
      cases hlookup : lookup MemEntry.key key last with
      | some found =>
          have hkey := key_of_lookup hlookup
          have hmem := mem_of_lookup hlookup
          rw [Option.some_or, Option.some.injEq]
          constructor
          · rintro rfl
            exact ⟨hkey, .inl hmem⟩
          · rintro ⟨rfl, he | ⟨-, habsent⟩⟩
            · rw [lookup_eq_some_of_mem hlast he, Option.some.injEq] at hlookup
              exact hlookup.symm
            · exact absurd hkey (habsent found hmem)
      | none =>
          have habsent := lookup_eq_none.mp hlookup
          rw [Option.none_or, ih]
          constructor
          · rintro ⟨rfl, he⟩
            exact ⟨rfl, .inr ⟨he, habsent⟩⟩
          · rintro ⟨rfl, he | ⟨he, -⟩⟩
            · exact absurd rfl (habsent e he)
            · exact ⟨rfl, he⟩

/-- The merge holds an entry exactly if the last input with its key holds it and it is
not a tombstone. -/
theorem mem_mergeEntries_iff {inputs : List (List MemEntry)}
    (hsorted : ∀ input ∈ inputs, SortedEntries input) {e : MemEntry} :
    e ∈ mergeEntries inputs ↔
      e.kind ≠ kindDelete ∧ HoldsLast inputs e := by
  have hmem : e ∈ mergeEntries inputs ↔
      lookup MemEntry.key e.key (mergeEntries inputs) = some e :=
    ⟨lookup_eq_some_of_mem (sortedEntries_mergeEntries hsorted), mem_of_lookup⟩
  rw [hmem, lookup_mergeEntries hsorted, Option.filter_eq_some_iff,
    newest_reverse_eq_some_iff hsorted]
  simp [MemEntry.live, and_comm]

/-- The loop of `MergeEntries` ends, sorting its result gives one list whatever the sort
does with equal keys, and that list is strictly sorted and holds, of each key, the entry
of the last input that has the key, unless it is a tombstone. -/
theorem mergeEntries_newest_wins (inputs : List (List MemEntry))
    (hsorted : ∀ input ∈ inputs, SortedEntries input) :
    (∃ result, (Merging.start inputs).Merges result ∧
      ∀ sorted : List MemEntry, sorted.Perm result →
        (sorted.Pairwise fun a b => a.key ≤ b.key) → sorted = mergeEntries inputs) ∧
      SortedEntries (mergeEntries inputs) ∧
      ∀ e, e ∈ mergeEntries inputs ↔ e.kind ≠ kindDelete ∧ HoldsLast inputs e := by
  refine ⟨?_, sortedEntries_mergeEntries hsorted, fun e => mem_mergeEntries_iff hsorted⟩
  have hmerges : (Merging.start inputs).Merges (mergeEntries inputs) := by
    have hloop := (Merging.start inputs).merges (Nat.lt_succ_self _)
    rw [Merging.rests_start] at hloop
    rw [mergeEntries_eq_mergeLoop hsorted]
    exact hloop
  exact ⟨_, hmerges, fun sorted => eq_of_perm_of_sortedEntries (sortedEntries_mergeEntries hsorted)⟩

/-- A key that the newer input deletes, one that it overwrites and one of each alone. -/
def overlapping : List (List MemEntry) :=
  [[⟨[97], [1], kindPut⟩, ⟨[98], [2], kindPut⟩, ⟨[99], [3], kindPut⟩],
    [⟨[97], [], kindDelete⟩, ⟨[98], [4], kindPut⟩, ⟨[100], [5], kindPut⟩]]

theorem mergeEntries_newest_wins_overlapping :
    (∃ result, (Merging.start overlapping).Merges result ∧
      ∀ sorted : List MemEntry, sorted.Perm result →
        (sorted.Pairwise fun a b => a.key ≤ b.key) → sorted = mergeEntries overlapping) ∧
      ⟨[98], [4], kindPut⟩ ∈ mergeEntries overlapping ∧
      ⟨[97], [1], kindPut⟩ ∉ mergeEntries overlapping := by
  obtain ⟨hends, -, hmem⟩ := mergeEntries_newest_wins overlapping (by decide)
  refine ⟨hends, (hmem _).mpr ⟨by decide, 1, _, rfl, by decide, ?_⟩, ?_⟩
  · intro j later hj hlater
    rw [List.getElem?_eq_none (by simp [overlapping]; omega)] at hlater
    simp at hlater
  · decide +kernel

end RaftKV.Storage
