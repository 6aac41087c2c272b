import Mathlib.Data.List.Basic
import Mathlib.Order.Lattice

/-!
# Lists sorted by a key

A list of records, strictly sorted by their keys, as a finite map.  `lookup` finds
the record of a key and `upsert` puts a record in, in place of the one with its
key if there is one.

A stack of such lists, the newest first, is read by the first hit (`newest`).
-/

namespace RaftKV

variable {α κ : Type*} [LinearOrder κ] (key : α → κ)

/-- Strictly sorted by key, so that no key occurs twice. -/
def SortedBy (l : List α) : Prop :=
  l.Pairwise fun a b => key a < key b

instance (l : List α) : Decidable (SortedBy key l) :=
  inferInstanceAs (Decidable (l.Pairwise fun a b => key a < key b))

def lookup (k : κ) (l : List α) : Option α :=
  l.find? fun a => key a = k

def upsert (a : α) : List α → List α
  | [] => [a]
  | b :: rest =>
      if key b < key a then b :: upsert a rest
      else if key b = key a then a :: rest
      else a :: b :: rest

/-- The first hit in a stack of lists. -/
def newest (k : κ) (layers : List (List α)) : Option α :=
  layers.findSome? (lookup key k)

variable {key} {a b : α} {k : κ} {l l' : List α}

/-! ## Looking up -/

@[simp] theorem lookup_nil : lookup key k [] = none := rfl

theorem lookup_cons [Decidable (key a = k)] :
    lookup key k (a :: l) = if key a = k then some a else lookup key k l := by
  unfold lookup
  split
  · next h => simp [h]
  · next h => simp [h]

theorem key_of_lookup (h : lookup key k l = some a) : key a = k := by
  have hfound : decide (key a = k) = true := List.find?_some (p := fun a => key a = k) h
  exact of_decide_eq_true hfound

theorem mem_of_lookup (h : lookup key k l = some a) : a ∈ l :=
  List.mem_of_find?_eq_some h

theorem lookup_eq_none : lookup key k l = none ↔ ∀ a ∈ l, key a ≠ k := by
  simp [lookup]

theorem lookup_append : lookup key k (l ++ l') = (lookup key k l).or (lookup key k l') := by
  simp [lookup]

/-- In a sorted list the record of a key is the only one. -/
theorem lookup_eq_some_of_mem (hl : SortedBy key l) (ha : a ∈ l) :
    lookup key (key a) l = some a := by
  induction l with
  | nil => simp at ha
  | cons b rest ih =>
      obtain ⟨hb, hrest⟩ := List.pairwise_cons.mp hl
      rw [lookup_cons]
      rcases List.mem_cons.mp ha with rfl | ha
      · rw [if_pos rfl]
      · rw [if_neg (hb a ha).ne]
        exact ih hrest ha

/-- A key below the first one does not occur. -/
theorem lookup_eq_none_of_lt (hl : SortedBy key (a :: l)) (hk : k < key a) :
    lookup key k (a :: l) = none := by
  rw [lookup_eq_none]
  intro b hb
  rcases List.mem_cons.mp hb with rfl | hb
  · exact hk.ne'
  · exact (hk.trans ((List.pairwise_cons.mp hl).1 b hb)).ne'

theorem SortedBy.nodup (hl : SortedBy key l) : l.Nodup :=
  hl.imp fun hlt heq => (heq ▸ hlt).false

/-- A sorted list is determined by its members. -/
theorem SortedBy.eq_of_mem_iff (hl : SortedBy key l) (hl' : SortedBy key l')
    (h : ∀ a, a ∈ l ↔ a ∈ l') : l = l' := by
  have hperm : l.Perm l' := (List.perm_ext_iff_of_nodup hl.nodup hl'.nodup).mpr h
  exact hperm.eq_of_pairwise (fun _ _ _ _ hlt hgt => absurd hlt hgt.asymm) hl hl'

/-! ## Putting in -/

theorem mem_upsert (h : b ∈ upsert key a l) : b = a ∨ b ∈ l := by
  induction l with
  | nil => exact .inl (List.mem_singleton.mp h)
  | cons c rest ih =>
      rw [upsert] at h
      split at h
      · rcases List.mem_cons.mp h with rfl | h
        · exact .inr List.mem_cons_self
        · rcases ih h with h | h
          · exact .inl h
          · exact .inr (List.mem_cons_of_mem _ h)
      · split at h
        · rcases List.mem_cons.mp h with h | h
          · exact .inl h
          · exact .inr (List.mem_cons_of_mem _ h)
        · exact List.mem_cons.mp h

theorem sortedBy_upsert (hl : SortedBy key l) : SortedBy key (upsert key a l) := by
  induction l with
  | nil => exact List.pairwise_singleton _ _
  | cons b rest ih =>
      obtain ⟨hb, hrest⟩ := List.pairwise_cons.mp hl
      rw [upsert]
      split
      · next hlt =>
          refine List.pairwise_cons.mpr ⟨fun c hc => ?_, ih hrest⟩
          rcases mem_upsert hc with rfl | hc
          · exact hlt
          · exact hb c hc
      · next hge =>
          split
          · next heq => exact List.pairwise_cons.mpr ⟨fun c hc => heq ▸ hb c hc, hrest⟩
          · next hne =>
              have hab : key a < key b := lt_of_le_of_ne (not_lt.mp hge) (Ne.symm hne)
              refine List.pairwise_cons.mpr ⟨fun c hc => ?_, hl⟩
              rcases List.mem_cons.mp hc with rfl | hc
              · exact hab
              · exact hab.trans (hb c hc)

theorem lookup_upsert [Decidable (key a = k)] (hl : SortedBy key l) :
    lookup key k (upsert key a l) = if key a = k then some a else lookup key k l := by
  induction l with
  | nil => rw [upsert, lookup_cons]
  | cons b rest ih =>
      obtain ⟨hb, hrest⟩ := List.pairwise_cons.mp hl
      rw [upsert]
      split
      · next hlt =>
          rw [lookup_cons, lookup_cons, ih hrest]
          split
          · next heq => rw [if_neg (heq ▸ hlt.ne')]
          · rfl
      · split
        · next heq =>
            rw [lookup_cons, lookup_cons, heq]
            split
            · rfl
            · rfl
        · rw [lookup_cons]

/-- Records with smaller keys stay in front. -/
theorem upsert_append (h : ∀ b ∈ l, key b < key a) :
    upsert key a (l ++ l') = l ++ upsert key a l' := by
  induction l with
  | nil => rfl
  | cons b rest ih =>
      rw [List.cons_append, upsert, if_pos (h b List.mem_cons_self),
        ih fun c hc => h c (List.mem_cons_of_mem _ hc), List.cons_append]

/-- The same for a lookup. -/
theorem lookup_append_of_lt (h : ∀ b ∈ l, key b < k) :
    lookup key k (l ++ l') = lookup key k l' := by
  rw [lookup_append, lookup_eq_none.mpr fun b hb => (h b hb).ne, Option.none_or]

/-! ## Stacks -/

@[simp] theorem newest_nil : newest key k [] = none := rfl

theorem newest_cons (layers : List (List α)) :
    newest key k (l :: layers) = (lookup key k l).or (newest key k layers) := by
  unfold newest
  rw [List.findSome?_cons]
  cases lookup key k l with
  | none => rfl
  | some a => rfl

theorem mem_of_newest {layers : List (List α)} (h : newest key k layers = some a) :
    key a = k ∧ ∃ l ∈ layers, a ∈ l := by
  obtain ⟨l, hl, ha⟩ := List.exists_of_findSome?_eq_some h
  exact ⟨key_of_lookup ha, l, hl, mem_of_lookup ha⟩

theorem newest_append (layers layers' : List (List α)) :
    newest key k (layers ++ layers') = (newest key k layers).or (newest key k layers') := by
  simp [newest, List.findSome?_append]

end RaftKV
