import Mathlib.Algebra.Group.Int.Defs
import Mathlib.Algebra.Group.Nat.Defs

/-!
# Machine integers and slice accesses

The 64-bit integers of Go by the numbers they stand for.  The arithmetic of `uint64` is
taken modulo `2 ^ 64`, and a conversion between `uint64` and `int` keeps the bits.  A slice
access with an index outside the slice panics; that is a `Fault`, and so is a loop that never
ends.
-/

namespace RaftKV

/-! ## Integers -/

/-- The result of a `uint64` operation. -/
def wrap64 (n : ℕ) : ℕ := n % 2 ^ 64

/-- `a - b` on `uint64`. -/
def sub64 (a b : ℕ) : ℕ := (a + 2 ^ 64 - b) % 2 ^ 64

/-- `int(n)` of a `uint64`. -/
def toInt64 (n : ℕ) : ℤ := if n < 2 ^ 63 then n else (n : ℤ) - 2 ^ 64

/-- `uint64(i)` of an `int`. -/
def toUInt64 (i : ℤ) : ℕ := (i % 2 ^ 64).toNat

theorem wrap64_of_lt {n : ℕ} (h : n < 2 ^ 64) : wrap64 n = n :=
  Nat.mod_eq_of_lt h

theorem sub64_of_le {a b : ℕ} (h : b ≤ a) (hlt : a - b < 2 ^ 64) : sub64 a b = a - b := by
  unfold sub64
  rw [Nat.sub_add_comm h, Nat.add_mod_right, Nat.mod_eq_of_lt hlt]

theorem toInt64_of_lt {n : ℕ} (h : n < 2 ^ 63) : toInt64 n = n :=
  if_pos h

theorem toUInt64_natCast {n : ℕ} (h : n < 2 ^ 64) : toUInt64 n = n := by
  unfold toUInt64
  omega

/-! ## Slices -/

/-- What stops a program, or keeps it from going on. -/
inductive Fault
  | outOfRange
  | endless
  deriving DecidableEq, Repr

namespace GoSlice

variable {α : Type*}

/-- `l[i]`. -/
def index (l : List α) (i : ℤ) : Except Fault α :=
  if i < 0 then .error .outOfRange
  else match l[i.toNat]? with
    | some a => .ok a
    | none => .error .outOfRange

/-- `l[i:]`. -/
def suffix (l : List α) (i : ℤ) : Except Fault (List α) :=
  if 0 ≤ i ∧ i ≤ l.length then .ok (l.drop i.toNat) else .error .outOfRange

/-- `l[:i]`. -/
def front (l : List α) (i : ℤ) : Except Fault (List α) :=
  if 0 ≤ i ∧ i ≤ l.length then .ok (l.take i.toNat) else .error .outOfRange

variable {l : List α}

theorem index_natCast (pos : Fin l.length) : index l (pos : ℕ) = .ok (l.get pos) := by
  unfold index
  rw [if_neg (by omega), Int.toNat_natCast, List.getElem?_eq_getElem pos.isLt]
  rfl

theorem suffix_natCast {i : ℕ} (h : i ≤ l.length) : suffix l i = .ok (l.drop i) := by
  unfold suffix
  rw [if_pos (by omega), Int.toNat_natCast]

theorem front_natCast {i : ℕ} (h : i ≤ l.length) : front l i = .ok (l.take i) := by
  unfold front
  rw [if_pos (by omega), Int.toNat_natCast]

end GoSlice

end RaftKV
