import Mathlib.Algebra.Order.BigOperators.Group.List
import Mathlib.Algebra.Order.Group.Nat
import Mathlib.Algebra.Order.Ring.Nat
import Mathlib.Data.List.Sort
import RaftKV.Storage.Memtable

/-!
# Merging sorted entries

`MergeEntries` of `storage/sstable.go`: a merge of sorted lists in which a later
list takes precedence.  Each round takes the smallest key that an input stands at,
moves every input past it and keeps the entry of the last one, unless it is a
tombstone.

The positions of the source are the rests of the inputs here.  The merge is the map
of the newest entries, without the deleted ones (`lookup_mergeEntries`).
-/

namespace RaftKV.Storage

/-- The entry with the smallest key of those the inputs stand at, the first of them. -/
def minEntry (inputs : List (List MemEntry)) : Option MemEntry :=
  inputs.foldl (fun least input =>
    match input, least with
    | [], least => least
    | e :: _, none => some e
    | e :: _, some m => if e.key < m.key then some e else some m) none

/-- The entry that the last of the inputs standing at the key has there. -/
def newestEntry (first : MemEntry) (inputs : List (List MemEntry)) : MemEntry :=
  inputs.foldl (fun newest input =>
    match input with
    | [] => newest
    | e :: _ => if e.key = first.key then e else newest) first

/-- Moves an input past a key. -/
def advancePast (key : Key) : List MemEntry → List MemEntry
  | [] => []
  | e :: rest => if e.key = key then rest else e :: rest

def mergeLoop : ℕ → List (List MemEntry) → List MemEntry
  | 0, _ => []
  | fuel + 1, inputs =>
      match minEntry inputs with
      | none => []
      | some first =>
          if (newestEntry first inputs).kind = kindDelete then
            mergeLoop fuel (inputs.map (advancePast first.key))
          else newestEntry first inputs :: mergeLoop fuel (inputs.map (advancePast first.key))

/-- `MergeEntries`; a round consumes at least one entry. -/
def mergeEntries (inputs : List (List MemEntry)) : List MemEntry :=
  (mergeLoop ((inputs.map List.length).sum + 1) inputs).insertionSort fun a b => a.key ≤ b.key

/-- Not a tombstone. -/
def MemEntry.live (e : MemEntry) : Bool :=
  e.kind ≠ kindDelete

/-! ## One round -/

section Round

variable {inputs : List (List MemEntry)} {first : MemEntry} {key : Key}

theorem minEntry_append (inputs : List (List MemEntry)) (last : List MemEntry) :
    minEntry (inputs ++ [last]) =
      match last, minEntry inputs with
      | [], least => least
      | e :: _, none => some e
      | e :: _, some m => if e.key < m.key then some e else some m := by
  unfold minEntry
  rw [List.foldl_append, List.foldl_cons, List.foldl_nil]

theorem minEntry_eq_none (h : minEntry inputs = none) : ∀ input ∈ inputs, input = [] := by
  induction inputs using List.reverseRecOn with
  | nil => simp
  | append_singleton front last ih =>
      rw [minEntry_append] at h
      cases last with
      | nil =>
          intro input hinput
          rcases List.mem_append.mp hinput with hfront | hlast
          · exact ih h input hfront
          · exact List.mem_singleton.mp hlast
      | cons e rest =>
          cases hmin : minEntry front with
          | none => simp [hmin] at h
          | some m =>
              simp only [hmin] at h
              split at h
              · simp at h
              · simp at h

/-- The smallest entry is where one of the inputs stands, and no input stands below. -/
theorem minEntry_spec (h : minEntry inputs = some first) :
    (∃ rest, first :: rest ∈ inputs) ∧
      ∀ input ∈ inputs, ∀ e ∈ input.head?, first.key ≤ e.key := by
  induction inputs using List.reverseRecOn generalizing first with
  | nil => simp [minEntry] at h
  | append_singleton front last ih =>
      rw [minEntry_append] at h
      cases last with
      | nil =>
          obtain ⟨⟨rest, hrest⟩, hle⟩ := ih h
          refine ⟨⟨rest, List.mem_append_left _ hrest⟩, fun input hinput => ?_⟩
          rcases List.mem_append.mp hinput with hfront | hlast
          · exact hle input hfront
          · simp [List.mem_singleton.mp hlast]
      | cons e rest =>
          cases hmin : minEntry front with
          | none =>
              simp only [hmin, Option.some.injEq] at h
              subst h
              refine ⟨⟨rest, by simp⟩, fun input hinput => ?_⟩
              rcases List.mem_append.mp hinput with hfront | hlast
              · simp [minEntry_eq_none hmin input hfront]
              · simp [List.mem_singleton.mp hlast]
          | some m =>
              obtain ⟨⟨rest', hrest'⟩, hle⟩ := ih hmin
              simp only [hmin] at h
              split at h
              · next hlt =>
                  rw [Option.some.injEq] at h
                  subst h
                  refine ⟨⟨rest, by simp⟩, fun input hinput e' he' => ?_⟩
                  rcases List.mem_append.mp hinput with hfront | hlast
                  · exact hlt.le.trans (hle input hfront e' he')
                  · rw [List.mem_singleton.mp hlast] at he'
                    simp only [List.head?_cons, Option.mem_some_iff] at he'
                    rw [he']
              · next hge =>
                  rw [Option.some.injEq] at h
                  subst h
                  refine ⟨⟨rest', List.mem_append_left _ hrest'⟩, fun input hinput e' he' => ?_⟩
                  rcases List.mem_append.mp hinput with hfront | hlast
                  · exact hle input hfront e' he'
                  · rw [List.mem_singleton.mp hlast] at he'
                    simp only [List.head?_cons, Option.mem_some_iff] at he'
                    rw [← he']
                    exact not_lt.mp hge

/-- Sorted, with no key below `key`. -/
def SortedFrom (key : Key) (input : List MemEntry) : Prop :=
  SortedEntries input ∧ ∀ e ∈ input, key ≤ e.key

theorem SortedFrom.of_head {input : List MemEntry} (hsorted : SortedEntries input)
    (hhead : ∀ e ∈ input.head?, key ≤ e.key) : SortedFrom key input := by
  refine ⟨hsorted, fun e he => ?_⟩
  cases input with
  | nil => simp at he
  | cons first rest =>
      have hfirst := hhead first rfl
      rcases List.mem_cons.mp he with rfl | he
      · exact hfirst
      · exact hfirst.trans ((List.pairwise_cons.mp hsorted).1 e he).le

/-- The smallest key can only be where an input stands. -/
theorem SortedFrom.lookup_eq {input : List MemEntry} (h : SortedFrom key input) :
    lookup MemEntry.key key input = input.head?.filter fun e => e.key = key := by
  cases input with
  | nil => rfl
  | cons e rest =>
      rw [lookup_cons, List.head?_cons, Option.filter_some]
      by_cases heq : e.key = key
      · simp [heq]
      · have hlt : key < e.key := lt_of_le_of_ne (h.2 e List.mem_cons_self) (Ne.symm heq)
        have hnone := lookup_eq_none_of_lt h.1 hlt
        rw [lookup_cons, if_neg heq] at hnone
        simp [heq, hnone]

theorem SortedFrom.advancePast {input : List MemEntry} (h : SortedFrom key input) :
    SortedEntries (advancePast key input) ∧ ∀ e ∈ advancePast key input, key < e.key := by
  cases input with
  | nil => exact ⟨List.Pairwise.nil, by simp [Storage.advancePast]⟩
  | cons e rest =>
      obtain ⟨hrest, hsorted⟩ := List.pairwise_cons.mp h.1
      rw [Storage.advancePast]
      split
      · next heq => exact ⟨hsorted, fun e' he' => heq ▸ hrest e' he'⟩
      · next hne =>
          have hlt : key < e.key := lt_of_le_of_ne (h.2 e List.mem_cons_self) (Ne.symm hne)
          refine ⟨h.1, fun e' he' => ?_⟩
          rcases List.mem_cons.mp he' with rfl | he'
          · exact hlt
          · exact hlt.trans (hrest e' he')

theorem lookup_advancePast {key' : Key} (hne : key' ≠ key) (input : List MemEntry) :
    lookup MemEntry.key key' (advancePast key input) = lookup MemEntry.key key' input := by
  cases input with
  | nil => rfl
  | cons e rest =>
      rw [advancePast]
      split
      · next heq => rw [lookup_cons, if_neg (heq ▸ hne.symm)]
      · rfl

theorem mem_of_mem_advancePast {e : MemEntry} {input : List MemEntry}
    (h : e ∈ advancePast key input) : e ∈ input := by
  cases input with
  | nil => exact h
  | cons e' rest =>
      rw [advancePast] at h
      split at h
      · exact List.mem_cons_of_mem _ h
      · exact h

theorem newest_map_advancePast {key' : Key} (hne : key' ≠ key)
    (inputs : List (List MemEntry)) :
    newest MemEntry.key key' (inputs.map (advancePast key)).reverse =
      newest MemEntry.key key' inputs.reverse := by
  rw [← List.map_reverse, newest, newest, List.findSome?_map]
  congr 1
  funext input
  exact lookup_advancePast hne input

/-- The entry kept is that of the newest input. -/
theorem newestEntry_eq (h : ∀ input ∈ inputs, SortedFrom first.key input) :
    newestEntry first inputs =
      (newest MemEntry.key first.key inputs.reverse).getD first := by
  induction inputs using List.reverseRecOn with
  | nil => rfl
  | append_singleton front last ih =>
      have hlast := (h last (by simp)).lookup_eq
      have ih := ih fun input hinput => h input (List.mem_append_left _ hinput)
      have hstep : newestEntry first (front ++ [last]) =
          match last with
          | [] => newestEntry first front
          | e :: _ => if e.key = first.key then e else newestEntry first front := by
        unfold newestEntry
        rw [List.foldl_append, List.foldl_cons, List.foldl_nil]
        cases last with
        | nil => rfl
        | cons e rest => rfl
      rw [hstep, List.reverse_append, List.reverse_singleton, List.singleton_append, newest_cons,
        hlast, ih]
      cases last with
      | nil => rfl
      | cons e rest =>
          rw [List.head?_cons, Option.filter_some]
          by_cases heq : e.key = first.key
          · simp [heq]
          · simp [heq]

/-- The entry kept, when the inputs stand nowhere below. -/
theorem newest_first (h : ∀ input ∈ inputs, SortedFrom first.key input)
    (hfirst : ∃ rest, first :: rest ∈ inputs) :
    newest MemEntry.key first.key inputs.reverse = some (newestEntry first inputs) := by
  rw [newestEntry_eq h]
  cases hnewest : newest MemEntry.key first.key inputs.reverse with
  | some e => rfl
  | none =>
      obtain ⟨rest, hrest⟩ := hfirst
      have hnone := List.findSome?_eq_none_iff.mp hnewest _ (List.mem_reverse.mpr hrest)
      rw [lookup_cons, if_pos rfl] at hnone
      simp at hnone

theorem length_advancePast_le (key : Key) (input : List MemEntry) :
    (advancePast key input).length ≤ input.length := by
  cases input with
  | nil => exact le_rfl
  | cons e rest =>
      rw [advancePast]
      split
      · exact Nat.le_succ _
      · exact le_rfl

/-- A round consumes an entry. -/
theorem sum_length_advancePast (hfirst : ∃ rest, first :: rest ∈ inputs) :
    ((inputs.map (advancePast first.key)).map List.length).sum < (inputs.map List.length).sum := by
  obtain ⟨rest, hrest⟩ := hfirst
  rw [List.map_map]
  refine List.sum_lt_sum _ _ (fun input _ => length_advancePast_le _ input)
    ⟨first :: rest, hrest, ?_⟩
  simp [advancePast]

end Round

/-! ## The whole merge -/

section Merge

variable {inputs : List (List MemEntry)}

theorem mem_mergeLoop {fuel : ℕ} {e : MemEntry} (hsorted : ∀ input ∈ inputs, SortedEntries input)
    (h : e ∈ mergeLoop fuel inputs) : ∃ input ∈ inputs, e ∈ input := by
  induction fuel generalizing inputs with
  | zero => simp [mergeLoop] at h
  | succ fuel ih =>
      rw [mergeLoop] at h
      split at h
      · simp at h
      next first hmin =>
      obtain ⟨hfirst, hle⟩ := minEntry_spec hmin
      have hfrom : ∀ input ∈ inputs, SortedFrom first.key input := fun input hinput =>
        .of_head (hsorted input hinput) (hle input hinput)
      have hrest : e ∈ mergeLoop fuel (inputs.map (advancePast first.key)) →
          ∃ input ∈ inputs, e ∈ input := by
        intro he
        have hsorted' : ∀ input ∈ inputs.map (advancePast first.key), SortedEntries input := by
          intro input hinput
          obtain ⟨input', hinput', rfl⟩ := List.mem_map.mp hinput
          exact (hfrom input' hinput').advancePast.1
        obtain ⟨input, hinput, he⟩ := ih hsorted' he
        obtain ⟨input', hinput', rfl⟩ := List.mem_map.mp hinput
        exact ⟨input', hinput', mem_of_mem_advancePast he⟩
      split at h
      · exact hrest h
      · rcases List.mem_cons.mp h with rfl | h
        · have hnewest := newest_first hfrom hfirst
          obtain ⟨input, hinput, hlookup⟩ := List.exists_of_findSome?_eq_some hnewest
          exact ⟨input, List.mem_reverse.mp hinput, mem_of_lookup hlookup⟩
        · exact hrest h

/-- The loop merges: its result is sorted and holds the newest entry of each key
unless that is a tombstone. -/
theorem mergeLoop_spec {fuel : ℕ} (hfuel : (inputs.map List.length).sum < fuel)
    (hsorted : ∀ input ∈ inputs, SortedEntries input) :
    SortedEntries (mergeLoop fuel inputs) ∧ ∀ key,
      lookup MemEntry.key key (mergeLoop fuel inputs) =
        (newest MemEntry.key key inputs.reverse).filter MemEntry.live := by
  induction fuel generalizing inputs with
  | zero => omega
  | succ fuel ih =>
      rw [mergeLoop]
      split
      · next hmin =>
          refine ⟨List.Pairwise.nil, fun key => ?_⟩
          have hnone : newest MemEntry.key key inputs.reverse = none := by
            refine List.findSome?_eq_none_iff.mpr fun input hinput => ?_
            rw [minEntry_eq_none hmin input (List.mem_reverse.mp hinput)]
            rfl
          rw [hnone]
          rfl
      next first hmin =>
      obtain ⟨hfirst, hle⟩ := minEntry_spec hmin
      have hfrom : ∀ input ∈ inputs, SortedFrom first.key input := fun input hinput =>
        .of_head (hsorted input hinput) (hle input hinput)
      have hnewest := newest_first hfrom hfirst
      have hkey : (newestEntry first inputs).key = first.key := by
        obtain ⟨input, -, hlookup⟩ := List.exists_of_findSome?_eq_some hnewest
        exact key_of_lookup hlookup
      have hadvanced : ∀ input ∈ inputs.map (advancePast first.key),
          SortedEntries input ∧ ∀ e ∈ input, first.key < e.key := by
        intro input hinput
        obtain ⟨input', hinput', rfl⟩ := List.mem_map.mp hinput
        exact (hfrom input' hinput').advancePast
      have hlength := sum_length_advancePast hfirst
      obtain ⟨hloop, hlookup⟩ := ih (by omega) fun input hinput => (hadvanced input hinput).1
      have habove : ∀ e ∈ mergeLoop fuel (inputs.map (advancePast first.key)),
          first.key < e.key := by
        intro e he
        obtain ⟨input, hinput, he⟩ :=
          mem_mergeLoop (fun input hinput => (hadvanced input hinput).1) he
        exact (hadvanced input hinput).2 e he
      have hgone : lookup MemEntry.key first.key
          (mergeLoop fuel (inputs.map (advancePast first.key))) = none :=
        lookup_eq_none.mpr fun e he => (habove e he).ne'
      -- every other key is as the rest of the merge has it
      have hother : ∀ key, key ≠ first.key → lookup MemEntry.key key
          (mergeLoop fuel (inputs.map (advancePast first.key))) =
            (newest MemEntry.key key inputs.reverse).filter MemEntry.live := by
        intro key hne
        rw [hlookup, newest_map_advancePast hne]
      split
      · next hdeleted =>
          refine ⟨hloop, fun key => ?_⟩
          by_cases heq : key = first.key
          · rw [heq, hgone, hnewest]
            simp [Option.filter_some, MemEntry.live, hdeleted]
          · exact hother key heq
      · next hput =>
          refine ⟨List.pairwise_cons.mpr ⟨fun e he => hkey ▸ habove e he, hloop⟩, fun key => ?_⟩
          rw [lookup_cons, hkey]
          by_cases heq : first.key = key
          · rw [if_pos heq, ← heq, hnewest]
            simp [Option.filter_some, MemEntry.live, hput]
          · rw [if_neg heq]
            exact hother key (Ne.symm heq)

/-- The final sort finds nothing to do. -/
theorem mergeEntries_eq_mergeLoop (hsorted : ∀ input ∈ inputs, SortedEntries input) :
    mergeEntries inputs = mergeLoop ((inputs.map List.length).sum + 1) inputs := by
  obtain ⟨hloop, -⟩ := mergeLoop_spec (Nat.lt_succ_self _) hsorted
  exact List.Pairwise.insertionSort_eq (hloop.imp fun h => h.le)

theorem sortedEntries_mergeEntries (hsorted : ∀ input ∈ inputs, SortedEntries input) :
    SortedEntries (mergeEntries inputs) := by
  rw [mergeEntries_eq_mergeLoop hsorted]
  exact (mergeLoop_spec (Nat.lt_succ_self _) hsorted).1

/-- Newest wins, and what is deleted is gone. -/
theorem lookup_mergeEntries (hsorted : ∀ input ∈ inputs, SortedEntries input) (key : Key) :
    lookup MemEntry.key key (mergeEntries inputs) =
      (newest MemEntry.key key inputs.reverse).filter MemEntry.live := by
  rw [mergeEntries_eq_mergeLoop hsorted]
  exact (mergeLoop_spec (Nat.lt_succ_self _) hsorted).2 key

theorem mem_mergeEntries (hsorted : ∀ input ∈ inputs, SortedEntries input) {e : MemEntry}
    (h : e ∈ mergeEntries inputs) : ∃ input ∈ inputs, e ∈ input := by
  rw [mergeEntries_eq_mergeLoop hsorted] at h
  exact mem_mergeLoop hsorted h

end Merge

end RaftKV.Storage
