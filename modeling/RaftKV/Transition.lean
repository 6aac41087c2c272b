import Mathlib.Logic.Basic

/-!
# Transition systems

A deterministic transition function over labelled actions, and the states that
runs reach when every action has to be allowed in the state it is taken in.
-/

namespace RaftKV

variable {S A : Type*}

/-- The states that runs from `init` reach by actions that `ok` allows. -/
inductive Reaches (step : S → A → S) (ok : S → A → Prop) (init : S) : S → Prop
  | refl : Reaches step ok init init
  | next {s : S} {a : A} (run : Reaches step ok init s) (allowed : ok s a) :
      Reaches step ok init (step s a)

namespace Reaches

variable {step : S → A → S} {ok : S → A → Prop} {init s : S}

/-- The invariant rule: what holds at first and is kept by every allowed action
holds in every reachable state. -/
theorem invariant {P : S → Prop} (hrun : Reaches step ok init s) (hinit : P init)
    (hstep : ∀ s a, P s → ok s a → P (step s a)) : P s := by
  induction hrun with
  | refl => exact hinit
  | next _ allowed ih => exact hstep _ _ ih allowed

/-- A run of a narrower system is one of the wider. -/
theorem mono {ok' : S → A → Prop} (hrun : Reaches step ok init s)
    (h : ∀ s a, ok s a → ok' s a) : Reaches step ok' init s := by
  induction hrun with
  | refl => exact .refl
  | next _ allowed ih => exact .next ih (h _ _ allowed)

/-- A run goes on from a state that it reaches. -/
theorem trans {s' : S} (hrun : Reaches step ok init s) (hrun' : Reaches step ok s s') :
    Reaches step ok init s' := by
  induction hrun' with
  | refl => exact hrun
  | next _ allowed ih => exact .next ih allowed

/-- What holds at the end and is gained by no step holds all along. -/
theorem throughout {Q : S → Prop} (hrun : Reaches step ok init s)
    (hback : ∀ s a, Reaches step ok init s → ok s a → Q (step s a) → Q s) (hend : Q s) :
    Reaches step (fun s a => ok s a ∧ Q s) init s := by
  induction hrun with
  | refl => exact .refl
  | next run allowed ih =>
      have hbefore := hback _ _ run allowed hend
      exact .next (ih hbefore) ⟨allowed, hbefore⟩

end Reaches

/-- Each action of a list is allowed in the state it is taken in. -/
def Allowed (step : S → A → S) (ok : S → A → Prop) : S → List A → Prop
  | _, [] => True
  | s, a :: as => ok s a ∧ Allowed step ok (step s a) as

instance Allowed.decide (step : S → A → S) (ok : S → A → Prop) [∀ s a, Decidable (ok s a)] :
    ∀ (s : S) (as : List A), Decidable (Allowed step ok s as)
  | _, [] => inferInstanceAs (Decidable True)
  | s, a :: as =>
      have := Allowed.decide step ok (step s a) as
      inferInstanceAs (Decidable (ok s a ∧ Allowed step ok (step s a) as))

theorem Allowed.mono {step : S → A → S} {ok ok' : S → A → Prop} {s : S} {as : List A}
    (has : Allowed step ok s as) (h : ∀ s a, ok s a → ok' s a) : Allowed step ok' s as := by
  induction as generalizing s with
  | nil => trivial
  | cons a as ih => exact ⟨h s a has.1, ih has.2⟩

/-- Such a list is a run. -/
theorem Reaches.foldl {step : S → A → S} {ok : S → A → Prop} {init s : S}
    (hrun : Reaches step ok init s) (as : List A) (has : Allowed step ok s as) :
    Reaches step ok init (as.foldl step s) := by
  induction as generalizing s with
  | nil => exact hrun
  | cons a as ih => exact ih (.next hrun has.1) has.2

end RaftKV
