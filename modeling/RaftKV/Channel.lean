import Mathlib.Data.List.Basic

/-!
# Bounded channels

A Go channel with a buffer.  Sending to a closed channel and closing a channel
twice panic; a `select` with a default branch finds a full buffer instead of
waiting.  Values leave in the order in which they came, and a closed channel is
drained before it reports that it is closed.
-/

namespace RaftKV

variable {α : Type*}

/-- `make(chan α, capacity)`. -/
structure Channel (α : Type*) where
  capacity : ℕ
  buffer : List α
  closed : Bool
  fits : buffer.length ≤ capacity

/-- What a non-blocking send comes to. -/
inductive SendOutcome (α : Type*)
  | panic
  | full
  | sent (c : Channel α)

namespace Channel

def make (capacity : ℕ) : Channel α :=
  ⟨capacity, [], false, Nat.zero_le _⟩

/-- `select { case c <- x: … default: … }`. -/
def trySend (c : Channel α) (x : α) : SendOutcome α :=
  if c.closed then .panic
  else if h : c.buffer.length < c.capacity then
    .sent { c with buffer := c.buffer ++ [x], fits := by rw [List.length_append]; exact h }
  else .full

/-- `close(c)`; `none` is a panic. -/
def close (c : Channel α) : Option (Channel α) :=
  if c.closed then none else some { c with closed := true }

/-- `<-c`; `none` if the buffer is empty, where an open channel blocks and a closed
one reports that it is closed. -/
def receive (c : Channel α) : Option (α × Channel α) :=
  match h : c.buffer with
  | [] => none
  | x :: rest =>
      some (x, { c with
        buffer := rest
        fits := by
          have := c.fits
          rw [h, List.length_cons] at this
          omega })

variable {c c' : Channel α} {x : α}

/-- On an open channel nothing panics. -/
theorem trySend_open (h : c.closed = false) (x : α) :
    c.trySend x = .full ∨
      ∃ c', c.trySend x = .sent c' ∧ c'.buffer = c.buffer ++ [x] ∧ c'.closed = false := by
  unfold trySend
  rw [if_neg (by simp [h])]
  split
  · exact .inr ⟨_, rfl, rfl, h⟩
  · exact .inl rfl

theorem close_open (h : c.closed = false) :
    ∃ c', c.close = some c' ∧ c'.buffer = c.buffer ∧ c'.closed = true := by
  unfold close
  rw [if_neg (by simp [h])]
  exact ⟨_, rfl, rfl, rfl⟩

theorem receive_some (h : c.receive = some (x, c')) :
    c.buffer = x :: c'.buffer ∧ c'.closed = c.closed := by
  unfold receive at h
  split at h
  · cases h
  · next y rest hbuffer =>
      cases h
      exact ⟨hbuffer, rfl⟩

end Channel

end RaftKV
