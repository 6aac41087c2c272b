import Mathlib.Order.Lattice
import Mathlib.Order.Nat

/-!
# Views of a history

A history gives the value of every key at every time.  A view of it need not be of one
time: each key may be seen as it was at some time of a window.  Whoever makes the
changes of the history again, from the beginning of the window to its end, has the
history's last state, whatever the view was.
-/

namespace RaftKV

variable {K V : Type*} {history : ℕ → K → V} {lo hi lo' hi' now : ℕ} {view view' : K → V}

/-- Every key is seen as it was at some time from `lo` to `hi`. -/
def Within (history : ℕ → K → V) (lo hi : ℕ) (view : K → V) : Prop :=
  ∀ key, ∃ time, lo ≤ time ∧ time ≤ hi ∧ view key = history time key

namespace Within

theorem refl (history : ℕ → K → V) (now : ℕ) : Within history now now (history now) :=
  fun _ => ⟨now, le_rfl, le_rfl, rfl⟩

theorem mono (h : Within history lo hi view) (hlo : lo' ≤ lo) (hhi : hi ≤ hi') :
    Within history lo' hi' view := by
  intro key
  obtain ⟨time, hle, hge, heq⟩ := h key
  exact ⟨time, hlo.trans hle, hge.trans hhi, heq⟩

/-- Only the times of the window matter. -/
theorem congr {history' : ℕ → K → V} (h : Within history lo hi view)
    (hsame : ∀ time ≤ hi, history' time = history time) : Within history' lo hi view := by
  intro key
  obtain ⟨time, hle, hge, heq⟩ := h key
  exact ⟨time, hle, hge, by rw [heq, hsame time hge]⟩

/-- A window of one time is the state at that time. -/
theorem eq (h : Within history now now view) : view = history now := by
  funext key
  obtain ⟨time, hle, hge, heq⟩ := h key
  rw [heq, le_antisymm hge hle]

/-- One change of the history, made to the view: a key is set to its new value, or it is
left alone by both. -/
theorem advance (h : Within history lo hi view)
    (hchange : ∀ key, view' key = history (lo + 1) key ∨
      view' key = view key ∧ history (lo + 1) key = history lo key) :
    Within history (lo + 1) (max hi (lo + 1)) view' := by
  intro key
  rcases hchange key with hset | ⟨hview, hhistory⟩
  · exact ⟨lo + 1, le_rfl, le_max_right _ _, hset⟩
  · obtain ⟨time, hle, hge, heq⟩ := h key
    rcases hle.eq_or_lt with rfl | hlt
    · exact ⟨lo + 1, le_rfl, le_max_right _ _, by rw [hview, heq, hhistory]⟩
    · exact ⟨time, hlt, hge.trans (le_max_left _ _), hview.trans heq⟩

end Within

end RaftKV
