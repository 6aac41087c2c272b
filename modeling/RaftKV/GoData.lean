import Mathlib.Data.List.AList
import Mathlib.Data.List.Induction
import Mathlib.Data.List.Lex
import Mathlib.Order.Lattice

/-!
# Slices and maps

The data types of Go that the whole development shares: byte slices, which are also
its strings and are compared byte by byte, the `copy` between slices, and maps.
-/

namespace RaftKV

/-- A Go byte slice; `nil` and the empty slice are both `[]`. -/
abbrev Bytes := List UInt8

instance instLinearOrderByte : LinearOrder UInt8 where
  le_refl := UInt8.le_refl
  le_trans _ _ _ := UInt8.le_trans
  lt_iff_le_not_ge a b := by
    simp only [UInt8.lt_iff_toNat_lt, UInt8.le_iff_toNat_le]
    omega
  le_antisymm _ _ := UInt8.le_antisymm
  le_total := UInt8.le_total
  toDecidableLE := inferInstance

section Slices

variable {α : Type*}

/-- `copy(dst[i:], src)`: as many elements as there are in both.  The two may be parts of
one slice; what is copied is what `src` held before. -/
def copyAt (dst : List α) (i : ℕ) (src : List α) : List α :=
  dst.take i ++ (src.take (dst.length - i) ++ dst.drop (i + src.length))

/-- Growing a slice by one element, copying everything from a position on one place up
and writing to the position inserts there. -/
theorem set_copyAt_insert (l : List α) {i : ℕ} (hi : i ≤ l.length) (zero x : α) :
    (copyAt (l ++ [zero]) (i + 1) ((l ++ [zero]).drop i)).set i x =
      l.take i ++ x :: l.drop i := by
  have hdrop : (l ++ [zero]).drop i = l.drop i ++ [zero] := List.drop_append_of_le_length hi
  -- the element that falls off at the end is the one the slice was grown by
  have hmoved : copyAt (l ++ [zero]) (i + 1) (l.drop i ++ [zero]) =
      (l ++ [zero]).take (i + 1) ++ l.drop i := by
    have hroom : (l ++ [zero]).length - (i + 1) = (l.drop i).length := by
      simp only [List.length_append, List.length_singleton, List.length_drop]
      omega
    have hrest : (l ++ [zero]).drop (i + 1 + (l.drop i ++ [zero]).length) = [] := by
      apply List.drop_eq_nil_of_le
      simp only [List.length_append, List.length_singleton, List.length_drop]
      omega
    rw [copyAt, hroom, List.take_left, hrest, List.append_nil]
  have hlt : i < ((l ++ [zero]).take (i + 1) ++ l.drop i).length := by
    simp only [List.length_append, List.length_singleton, List.length_drop, List.length_take]
    omega
  have hfront : ((l ++ [zero]).take (i + 1)).length = i + 1 := by
    simp only [List.length_take, List.length_append, List.length_singleton]
    omega
  rw [hdrop, hmoved, List.set_eq_take_append_cons_drop, if_pos hlt,
    List.take_append_of_le_length (by omega), List.take_take, Nat.min_eq_left (Nat.le_succ i),
    List.take_append_of_le_length hi, List.drop_left' hfront]

end Slices

/-- A Go map. -/
abbrev GoMap (κ ν : Type) := AList fun _ : κ => ν

/-- Reading a Go map: the zero value for an absent key. -/
def GoMap.get {κ : Type} [DecidableEq κ] (m : GoMap κ ℕ) (key : κ) : ℕ :=
  (m.lookup key).getD 0

section GoMap

variable {κ : Type} [DecidableEq κ] {m : GoMap κ ℕ}

theorem GoMap.get_insert (m : GoMap κ ℕ) (key key' : κ) (v : ℕ) :
    GoMap.get (m.insert key v) key' = if key' = key then v else m.get key' := by
  unfold GoMap.get
  split
  · next h =>
      subst h
      rw [AList.lookup_insert]
      rfl
  · next h => rw [AList.lookup_insert_ne h]

/-- Setting all of some keys to one value. -/
theorem GoMap.get_foldl_insert (keys : List κ) (m : GoMap κ ℕ) (v : ℕ) {key : κ}
    (h : key ∈ keys) : GoMap.get (keys.foldl (fun m k => m.insert k v) m) key = v := by
  induction keys using List.reverseRecOn generalizing m with
  | nil => simp at h
  | append_singleton front last ih =>
      rw [List.foldl_append, List.foldl_cons, List.foldl_nil, GoMap.get_insert]
      split
      · rfl
      · next hne =>
          refine ih m ?_
          simpa [hne] using h

theorem GoMap.mem_keys_foldl_insert {keys : List κ} {m : GoMap κ ℕ} {v : ℕ} {key : κ}
    (h : key ∈ (keys.foldl (fun m k => m.insert k v) m).keys) : key ∈ keys ∨ key ∈ m.keys := by
  induction keys generalizing m with
  | nil => exact .inr h
  | cons first rest ih =>
      rcases ih h with h | h
      · exact .inl (List.mem_cons_of_mem _ h)
      · rcases (AList.mem_insert m).mp h with h | h
        · exact .inl (h ▸ List.mem_cons_self)
        · exact .inr h

/-- Deleting the keys of some items. -/
theorem GoMap.lookup_foldl_erase {α ν : Type} (keyOf : α → κ) (items : List α) (m : GoMap κ ν)
    (key : κ) : (items.foldl (fun m item => m.erase (keyOf item)) m).lookup key =
      if key ∈ items.map keyOf then none else m.lookup key := by
  induction items generalizing m with
  | nil => simp
  | cons first rest ih =>
      rw [List.foldl_cons, ih, List.map_cons]
      by_cases hrest : key ∈ rest.map keyOf
      · rw [if_pos hrest, if_pos (List.mem_cons_of_mem _ hrest)]
      · rw [if_neg hrest]
        by_cases hfirst : key = keyOf first
        · rw [hfirst, AList.lookup_erase, if_pos List.mem_cons_self]
        · have hnone := List.not_mem_cons_of_ne_of_not_mem hfirst hrest
          rw [AList.lookup_erase_ne hfirst, if_neg hnone]

end GoMap

end RaftKV
