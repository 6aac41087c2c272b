import Mathlib.Order.Lattice
import Mathlib.Order.Nat

/-!
# Binary search

The search of Go's `sort.Search`: the smallest index below `n` at which a
predicate holds, or `n`.  It halves an interval; `search_spec` says what it finds
when the predicate is monotone, and with it that `n` rounds are enough.
-/

namespace RaftKV

/-- The loop of the search on `[i, j)`, for at most `fuel` rounds. -/
def searchLoop (f : ℕ → Bool) : ℕ → ℕ → ℕ → ℕ
  | 0, i, _ => i
  | fuel + 1, i, j =>
      if i < j then
        if f ((i + j) / 2) then searchLoop f fuel i ((i + j) / 2)
        else searchLoop f fuel ((i + j) / 2 + 1) j
      else i

def search (n : ℕ) (f : ℕ → Bool) : ℕ :=
  searchLoop f n 0 n

variable {f : ℕ → Bool} {n : ℕ}

/-- Whatever the predicate is, the search stays within its bounds. -/
theorem searchLoop_le {fuel i j : ℕ} (hij : i ≤ j) : searchLoop f fuel i j ≤ j := by
  induction fuel generalizing i j with
  | zero => exact hij
  | succ fuel ih =>
      rw [searchLoop]
      split
      · split
        · exact (ih (by omega)).trans (by omega)
        · exact ih (by omega)
      · exact hij

theorem search_le (n : ℕ) (f : ℕ → Bool) : search n f ≤ n :=
  searchLoop_le (Nat.zero_le n)

/-- The invariant of the loop: `f` fails below `i` and holds from `j` on. -/
theorem searchLoop_spec (hmono : ∀ a b, a ≤ b → b < n → f a → f b) {fuel i j : ℕ}
    (hfuel : j - i ≤ fuel) (hij : i ≤ j) (hj : j ≤ n) (hlow : ∀ a, a < i → f a = false)
    (hhigh : ∀ a, j ≤ a → a < n → f a) :
    searchLoop f fuel i j ≤ n ∧ (∀ a, a < searchLoop f fuel i j → f a = false) ∧
      ∀ a, searchLoop f fuel i j ≤ a → a < n → f a := by
  induction fuel generalizing i j with
  | zero =>
      obtain rfl : i = j := by omega
      exact ⟨hj, hlow, hhigh⟩
  | succ fuel ih =>
      rw [searchLoop]
      split
      · next hlt =>
          split
          · next hmid =>
              refine ih (by omega) (by omega) (by omega) hlow fun a ha han => ?_
              exact hmono _ a ha han hmid
          · next hmid =>
              refine ih (by omega) (by omega) hj (fun a ha => ?_) hhigh
              by_contra hfa
              exact hmid (hmono a _ (by omega) (by omega) (by simpa using hfa))
      · next hge =>
          obtain rfl : i = j := by omega
          exact ⟨hj, hlow, hhigh⟩

/-- The search splits `[0, n)` where a monotone predicate becomes true. -/
theorem search_spec (hmono : ∀ a b, a ≤ b → b < n → f a → f b) :
    search n f ≤ n ∧ (∀ a, a < search n f → f a = false) ∧
      ∀ a, search n f ≤ a → a < n → f a :=
  searchLoop_spec hmono (by omega) (by omega) le_rfl (by omega) fun a ha han => by omega

end RaftKV
