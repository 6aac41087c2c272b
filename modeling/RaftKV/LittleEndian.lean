import Mathlib.Algebra.Group.Nat.Defs
import RaftKV.GoData

/-!
# Little-endian numbers and streams of bytes

`encoding/binary` in little-endian order, and reading a fixed number of bytes from
the front of a stream.  A number that does not fit its width loses its high bytes,
as a conversion to a shorter integer type does.  The variable-length form has as many
bytes as its number needs.
-/

namespace RaftKV

/-- The low `w` bytes of a number, the lowest first. -/
def leBytes : ℕ → ℕ → Bytes
  | 0, _ => []
  | w + 1, n => UInt8.ofNat n :: leBytes w (n / 256)

/-- The number that bytes stand for. -/
def leNat : Bytes → ℕ
  | [] => 0
  | b :: bs => b.toNat + 256 * leNat bs

/-- `n` bytes from the front of a stream, `none` if there are fewer. -/
def readFull (n : ℕ) (bs : Bytes) : Option (Bytes × Bytes) :=
  if n ≤ bs.length then some (bs.take n, bs.drop n) else none

/-- A number of `w` bytes from the front of a stream. -/
def readLE (w : ℕ) (bs : Bytes) : Option (ℕ × Bytes) :=
  (readFull w bs).map fun r => (leNat r.1, r.2)

@[simp] theorem length_leBytes (w n : ℕ) : (leBytes w n).length = w := by
  induction w generalizing n with
  | zero => rfl
  | succ w ih => rw [leBytes, List.length_cons, ih]

/-- Reading back gives the number modulo its width. -/
theorem leNat_leBytes (w n : ℕ) : leNat (leBytes w n) = n % 256 ^ w := by
  induction w generalizing n with
  | zero => simp [leBytes, leNat, Nat.mod_one]
  | succ w ih =>
      have hlow : (UInt8.ofNat n).toNat = n % 256 := UInt8.toNat_ofNat'
      have hpow : 256 ^ (w + 1) = 256 * 256 ^ w := Nat.pow_succ'
      rw [leBytes, leNat, ih, hlow, hpow, Nat.mod_mul]

theorem leNat_leBytes_of_lt {w n : ℕ} (h : n < 256 ^ w) : leNat (leBytes w n) = n := by
  rw [leNat_leBytes, Nat.mod_eq_of_lt h]

/-- Bytes are determined by the number they stand for. -/
theorem leBytes_leNat (bs : Bytes) : leBytes bs.length (leNat bs) = bs := by
  induction bs with
  | nil => rfl
  | cons b bs ih =>
      have hbyte := b.toNat_lt
      have hlow : UInt8.ofNat (b.toNat + 256 * leNat bs) = b := by
        apply UInt8.toNat_inj.mp
        rw [UInt8.toNat_ofNat']
        omega
      have hhigh : (b.toNat + 256 * leNat bs) / 256 = leNat bs := by omega
      rw [List.length_cons, leNat, leBytes, hlow, hhigh, ih]

theorem leNat_lt (bs : Bytes) : leNat bs < 256 ^ bs.length := by
  induction bs with
  | nil => simp [leNat]
  | cons b bs ih =>
      have hbyte := b.toNat_lt
      rw [leNat, List.length_cons, Nat.pow_succ]
      omega

@[simp] theorem readFull_append (xs ys : Bytes) :
    readFull xs.length (xs ++ ys) = some (xs, ys) := by
  unfold readFull
  rw [if_pos (by simp)]
  simp

theorem readFull_append_of_eq {n : ℕ} {xs : Bytes} (h : xs.length = n) (ys : Bytes) :
    readFull n (xs ++ ys) = some (xs, ys) :=
  h ▸ readFull_append xs ys

/-- A successful read splits the stream. -/
theorem readFull_some {n : ℕ} {bs xs rest : Bytes} (h : readFull n bs = some (xs, rest)) :
    bs = xs ++ rest ∧ xs.length = n := by
  unfold readFull at h
  split at h
  · next hle =>
      rw [Option.some.injEq, Prod.mk.injEq] at h
      obtain ⟨rfl, rfl⟩ := h
      refine ⟨(List.take_append_drop n bs).symm, ?_⟩
      rw [List.length_take, Nat.min_eq_left hle]
  · simp at h

theorem readFull_eq_none {n : ℕ} {bs : Bytes} (h : bs.length < n) : readFull n bs = none :=
  if_neg (by omega)

theorem readLE_lt {w n : ℕ} {bs rest : Bytes} (h : readLE w bs = some (n, rest)) :
    n < 256 ^ w := by
  unfold readLE at h
  obtain ⟨⟨xs, rest'⟩, hread, heq⟩ := Option.map_eq_some_iff.mp h
  obtain ⟨rfl, rfl⟩ := Prod.mk.inj heq
  obtain ⟨-, rfl⟩ := readFull_some hread
  exact leNat_lt xs

theorem readLE_append {w n : ℕ} (h : n < 256 ^ w) (ys : Bytes) :
    readLE w (leBytes w n ++ ys) = some (n, ys) := by
  unfold readLE
  rw [readFull_append_of_eq (length_leBytes w n)]
  simp [leNat_leBytes_of_lt h]

/-- A number that is read stands at the front of the stream. -/
theorem readLE_some {w n : ℕ} {bs rest : Bytes} (h : readLE w bs = some (n, rest)) :
    bs = leBytes w n ++ rest ∧ n < 256 ^ w := by
  refine ⟨?_, readLE_lt h⟩
  unfold readLE at h
  obtain ⟨⟨xs, rest'⟩, hread, heq⟩ := Option.map_eq_some_iff.mp h
  obtain ⟨rfl, rfl⟩ := Prod.mk.inj heq
  obtain ⟨rfl, rfl⟩ := readFull_some hread
  rw [leBytes_leNat]

/-! ## Variable length -/

/-- Seven bits in each byte, the lowest first, in at most `rounds + 1` bytes; the high bit
says that more follow. -/
def varintUpTo : ℕ → ℕ → Bytes
  | 0, n => [UInt8.ofNat n]
  | rounds + 1, n =>
      if n < 128 then [UInt8.ofNat n]
      else UInt8.ofNat (n % 128 + 128) :: varintUpTo rounds (n / 128)

def varint (n : ℕ) : Bytes :=
  varintUpTo n n

def readVarint : Bytes → Option (ℕ × Bytes)
  | [] => none
  | b :: bs =>
      if b.toNat < 128 then some (b.toNat, bs)
      else (readVarint bs).map fun r => (b.toNat % 128 + 128 * r.1, r.2)

theorem readVarint_varint (n : ℕ) (rest : Bytes) :
    readVarint (varint n ++ rest) = some (n, rest) := by
  suffices ∀ rounds n, n ≤ rounds →
      readVarint (varintUpTo rounds n ++ rest) = some (n, rest) from this n n le_rfl
  intro rounds
  induction rounds with
  | zero =>
      intro n hn
      obtain rfl : n = 0 := by omega
      rfl
  | succ rounds ih =>
      intro n hn
      rw [varintUpTo]
      split
      · next hlt =>
          have hbyte : (UInt8.ofNat n).toNat = n :=
            UInt8.toNat_ofNat_of_lt (by unfold UInt8.size; omega)
          simp [readVarint, hbyte, hlt]
      · next hge =>
          have hbyte : (UInt8.ofNat (n % 128 + 128)).toNat = n % 128 + 128 :=
            UInt8.toNat_ofNat_of_lt (by unfold UInt8.size; omega)
          rw [List.cons_append, readVarint, hbyte, if_neg (by omega), ih (n / 128) (by omega)]
          simp only [Option.map_some, Option.some.injEq, Prod.mk.injEq, and_true]
          omega

end RaftKV
