import Mathlib.Data.List.Induction

/-!
# Bloom filters

A set of cells, some of them marked.  Adding an element marks the cells its hash
functions name, and an element whose cells are not all marked was never added.
-/

namespace RaftKV

/-- A filter of `m` cells; a cell is marked if its byte is not zero. -/
structure Bloom (m : ℕ) where
  bits : List UInt8
  length_bits : bits.length = m
  deriving DecidableEq

namespace Bloom

variable {m : ℕ}

/-- The filter to which nothing was added. -/
def new (m : ℕ) : Bloom m :=
  ⟨List.replicate m 0, List.length_replicate⟩

/-- The filter stored in the first `m` bytes. -/
def ofBytes (m : ℕ) (bs : List UInt8) : Option (Bloom m) :=
  if h : m ≤ bs.length then some ⟨bs.take m, by rw [List.length_take, Nat.min_eq_left h]⟩
  else none

def mark (b : Bloom m) (cell : Fin m) : Bloom m :=
  ⟨b.bits.modify cell (· ||| 1), by rw [List.length_modify, b.length_bits]⟩

/-- Marks the cells of an element. -/
def add (b : Bloom m) (cells : List (Fin m)) : Bloom m :=
  cells.foldl mark b

def marked (b : Bloom m) (cell : Fin m) : Bool :=
  b.bits.getD cell 0 != 0

def mightContain (b : Bloom m) (cells : List (Fin m)) : Bool :=
  cells.all b.marked

@[simp] theorem ofBytes_append (b : Bloom m) (rest : List UInt8) :
    ofBytes m (b.bits ++ rest) = some b := by
  obtain ⟨bits, rfl⟩ := b
  simp [ofBytes]

theorem marked_mark_self (b : Bloom m) (cell : Fin m) : (b.mark cell).marked cell := by
  have hlt : (cell : ℕ) < b.bits.length := by rw [b.length_bits]; exact cell.isLt
  simp [marked, mark, List.getD_eq_getElem?_getD, hlt]

theorem marked_mark {b : Bloom m} {cell : Fin m} (h : b.marked cell) (cell' : Fin m) :
    (b.mark cell').marked cell := by
  by_cases heq : cell' = cell
  · rw [heq]
    exact marked_mark_self b cell
  · have hne : (cell' : ℕ) ≠ cell := fun h => heq (Fin.ext h)
    simpa [marked, mark, List.getD_eq_getElem?_getD, List.getElem?_modify, hne] using h

theorem marked_add {b : Bloom m} {cell : Fin m} (h : b.marked cell) (cells : List (Fin m)) :
    (b.add cells).marked cell := by
  induction cells generalizing b with
  | nil => exact h
  | cons first rest ih => exact ih (marked_mark h first)

theorem mightContain_add_self (b : Bloom m) (cells : List (Fin m)) :
    (b.add cells).mightContain cells := by
  suffices h : ∀ cell ∈ cells, (b.add cells).marked cell by
    simpa [mightContain] using h
  induction cells generalizing b with
  | nil => simp
  | cons first rest ih =>
      intro cell hcell
      rcases List.mem_cons.mp hcell with rfl | hrest
      · exact marked_add (marked_mark_self b cell) rest
      · exact ih _ cell hrest

/-- What was added stays. -/
theorem mightContain_add {b : Bloom m} {cells : List (Fin m)} (h : b.mightContain cells)
    (cells' : List (Fin m)) : (b.add cells').mightContain cells := by
  rw [mightContain, List.all_eq_true] at h ⊢
  exact fun cell hcell => marked_add (h cell hcell) cells'

/-- No false negatives: adding a sequence of elements, each of them is found. -/
theorem mightContain_foldl_add {α : Type*} (cells : α → List (Fin m)) {l : List α} {a : α}
    (h : a ∈ l) (b : Bloom m) :
    (l.foldl (fun b a => b.add (cells a)) b).mightContain (cells a) := by
  induction l using List.reverseRecOn with
  | nil => simp at h
  | append_singleton front last ih =>
      rw [List.foldl_append, List.foldl_cons, List.foldl_nil]
      rcases List.mem_append.mp h with h | h
      · exact mightContain_add (ih h) _
      · rw [List.mem_singleton.mp h]
        exact mightContain_add_self _ _

end Bloom

end RaftKV
