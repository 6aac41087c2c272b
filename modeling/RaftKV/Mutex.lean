import Mathlib.Order.Basic

/-!
# Mutexes

A mutex knows the thread that holds it.  `Guards` is the discipline of a mutex: its holder is
the only thread that stands inside one of its critical sections, and it has no holder if no
thread does.  A step of one thread keeps the discipline if it does to the mutex what `Step`
allows.

A system of waiting threads gets on if they are ranked: when each thread that cannot take a step
waits for one of a higher rank, and ranks are bounded, some thread can take a step.
-/

namespace RaftKV

variable {T : Type*}

/-- The thread that holds the mutex. -/
abbrev Mutex (T : Type*) := Option T

namespace Mutex

/-- Exactly the holder stands inside. -/
def Guards (mu : Mutex T) (inside : T → Prop) : Prop :=
  ∀ t, inside t ↔ mu = some t

/-- What a step of the thread `t` does to a mutex, with whether `t` stands inside before and
after it. -/
inductive Step (t : T) : Mutex T → Mutex T → Prop → Prop → Prop
  | keep {mu : Mutex T} {before after : Prop} (same : after ↔ before) : Step t mu mu before after
  | lock {before after : Prop} (entered : after) : Step t none (some t) before after
  | unlock {mu : Mutex T} {before after : Prop} (held : before) (left : ¬ after) :
      Step t mu none before after

namespace Guards

variable {mu mu' : Mutex T} {inside inside' : T → Prop} {t u : T}

theorem step (h : mu.Guards inside) (hstep : Step t mu mu' (inside t) (inside' t))
    (hothers : ∀ u, u ≠ t → (inside' u ↔ inside u)) : mu'.Guards inside' := by
  intro u
  rcases eq_or_ne u t with rfl | hne
  · generalize inside' u = after at hstep
    generalize hbefore : inside u = before at hstep
    cases hstep with
    | keep same => rw [same, ← hbefore, h u]
    | lock entered => exact iff_of_true entered rfl
    | unlock _ left => exact iff_of_false left (by simp)
  · rw [hothers u hne, h u]
    generalize inside' t = after at hstep
    generalize hbefore : inside t = before at hstep
    cases hstep with
    | keep => rfl
    | lock => simp [Ne.symm hne]
    | unlock held =>
        have hmu : mu = some t := (h t).mp (hbefore ▸ held)
        simp [hmu, Ne.symm hne]

/-- There is at most one thread inside. -/
theorem unique (h : mu.Guards inside) (ht : inside t) (hu : inside u) : u = t :=
  Option.some.inj (((h u).mp hu).symm.trans ((h t).mp ht))

end Guards

end Mutex

/-- Progress by ranks. -/
theorem exists_ready {active ready : T → Prop} {rank : T → ℕ} {bound : ℕ}
    (hbound : ∀ t, rank t ≤ bound)
    (hwaits : ∀ t, active t → ready t ∨ ∃ u, active u ∧ rank t < rank u) {t : T}
    (ht : active t) : ∃ u, ready u := by
  -- the induction is on how far the rank is from the bound
  induction hd : bound - rank t using Nat.strongRecOn generalizing t with
  | ind d ih =>
      rcases hwaits t ht with hready | ⟨u, hu, hlt⟩
      · exact ⟨t, hready⟩
      · have hle := hbound u
        exact ih (bound - rank u) (by omega) hu rfl

end RaftKV
