import Mathlib.Algebra.Group.Nat.Defs
import Mathlib.Data.List.Lex
import Mathlib.Data.Nat.Log
import Mathlib.Order.Lattice

/-!
# Zero-padded decimal numerals

Numerals of a fixed number of digits compare as the numbers they stand for.
`padded w` is the format `%0wd`: at least `w` digits, more for a number that needs
them, and then the order is lost.
-/

namespace RaftKV

/-- The low `w` decimal digits of a number. -/
def decimal : ℕ → ℕ → List Char
  | 0, _ => []
  | w + 1, n => decimal w (n / 10) ++ [Nat.digitChar (n % 10)]

/-- The format `%0wd`. -/
def padded (w n : ℕ) : List Char :=
  if n < 10 ^ w then decimal w n else decimal (Nat.log 10 n + 1) n

/-- The value of a digit. -/
def digitValue (c : Char) : ℕ :=
  c.toNat - '0'.toNat

/-- The number that digits stand for. -/
def decimalValue (ds : List Char) : ℕ :=
  ds.foldl (fun n c => 10 * n + digitValue c) 0

@[simp] theorem length_decimal (w n : ℕ) : (decimal w n).length = w := by
  induction w generalizing n with
  | zero => rfl
  | succ w ih => rw [decimal, List.length_append, ih, List.length_singleton]

theorem padded_of_lt {w n : ℕ} (h : n < 10 ^ w) : padded w n = decimal w n :=
  if_pos h

theorem digitChar_lt : ∀ a < 10, ∀ b < 10, a < b → Nat.digitChar a < Nat.digitChar b := by
  decide

theorem digitValue_digitChar : ∀ a < 10, digitValue (Nat.digitChar a) = a := by
  decide

theorem isDigit_digitChar : ∀ a < 10, (Nat.digitChar a).isDigit := by
  decide

theorem isDigit_of_mem_decimal {w n : ℕ} {c : Char} (h : c ∈ decimal w n) : c.isDigit := by
  induction w generalizing n with
  | zero => simp [decimal] at h
  | succ w ih =>
      rw [decimal, List.mem_append, List.mem_singleton] at h
      rcases h with h | rfl
      · exact ih h
      · exact isDigit_digitChar _ (Nat.mod_lt _ (by decide))

theorem decimalValue_decimal {w n : ℕ} (h : n < 10 ^ w) : decimalValue (decimal w n) = n := by
  induction w generalizing n with
  | zero =>
      have : n = 0 := by simpa using h
      subst this
      rfl
  | succ w ih =>
      have hdiv : n / 10 < 10 ^ w := by
        rw [Nat.pow_succ, Nat.mul_comm] at h
        exact Nat.div_lt_of_lt_mul h
      unfold decimalValue at ih ⊢
      rw [decimal, List.foldl_append, ih hdiv, List.foldl_cons, List.foldl_nil,
        digitValue_digitChar _ (Nat.mod_lt _ (by decide))]
      omega

theorem decimalValue_padded (w n : ℕ) : decimalValue (padded w n) = n := by
  unfold padded
  split
  · next h => exact decimalValue_decimal h
  · exact decimalValue_decimal (Nat.lt_pow_succ_log_self (by decide) n)

/-- The order is lost with more digits, but not the number. -/
theorem padded_injective (w : ℕ) : Function.Injective (padded w) :=
  Function.LeftInverse.injective (decimalValue_padded w)

/-- Of lists of one length, the first difference decides, whatever follows. -/
theorem append_lt_append {l l' : List Char} (hlen : l.length = l'.length) (h : l < l')
    (x y : List Char) : l ++ x < l' ++ y := by
  induction h with
  | nil => simp at hlen
  | cons _ ih =>
      rw [List.cons_append, List.cons_append]
      exact List.Lex.cons (ih (by simpa using hlen))
  | rel hab =>
      rw [List.cons_append, List.cons_append]
      exact List.Lex.rel hab

theorem decimal_lt_decimal {w m n : ℕ} (hn : n < 10 ^ w) (h : m < n) :
    decimal w m < decimal w n := by
  induction w generalizing m n with
  | zero =>
      rw [Nat.pow_zero] at hn
      omega
  | succ w ih =>
      have hdiv : n / 10 < 10 ^ w := by
        rw [Nat.pow_succ, Nat.mul_comm] at hn
        exact Nat.div_lt_of_lt_mul hn
      rw [decimal, decimal]
      rcases Nat.lt_or_ge (m / 10) (n / 10) with hlt | hge
      · exact append_lt_append (by simp) (ih hdiv hlt) _ _
      · -- the same front, so the last digits decide
        have heq : m / 10 = n / 10 := by omega
        rw [heq]
        refine List.Lex.append_left _ (List.Lex.rel ?_) _
        exact digitChar_lt _ (Nat.mod_lt _ (by decide)) _ (Nat.mod_lt _ (by decide)) (by omega)

end RaftKV
