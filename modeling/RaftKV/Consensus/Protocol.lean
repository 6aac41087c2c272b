import Mathlib.Data.Finset.Card
import Mathlib.Data.List.Infix
import Mathlib.Logic.Function.Basic
import Mathlib.Logic.Relation

/-!
# A replicated log, abstractly

The objects of a leader-based replicated log, without messages, roles or
timers.  A state records what each participant holds and, as history, what each
term's leader held:

* `base t` is the log a leader of term `t` was elected with, `none` if there was
  no leader of term `t`;
* `chain t` is the log of that leader as far as it has grown;
* `acks v t` is the longest prefix of `chain t` that `v` has acknowledged.

Four transitions are enough for everything a replicated log does: a participant
moves to a later term, a participant is elected, a leader appends one entry, a
participant takes over a prefix `P` of a leader's log.  The last one is
`overwrite`: a log that already extends `P` stays, any other becomes `P`.

The invariant `Inv` is stated with list prefixes only.  Its two central fields
are `log_rooted`, that a log up to an entry of term `t` is a prefix of `chain t`
(two logs holding the same index and term are then prefixes of one list), and
`kept`, that an acknowledged prefix is still held unless some later leader was
elected without it.
-/

namespace RaftKV.Consensus

open Function

/-- What the protocol is parametrised by: the term an entry carries, and a
family of quorums any two of which meet. -/
structure Rules (ι E : Type*) where
  termOf : E → ℕ
  Quorum : Finset ι → Prop
  meets : ∀ {A B : Finset ι}, Quorum A → Quorum B → ∃ v, v ∈ A ∧ v ∈ B

/-- Current terms and logs, and the history of leaders and acknowledgements. -/
structure State (ι E : Type*) where
  term : ι → ℕ
  log : ι → List E
  base : ℕ → Option (List E)
  chain : ℕ → List E
  acks : ι → ℕ → ℕ

variable {ι E : Type*} [DecidableEq ι]

/-! ## Logs -/

section Logs

variable (R : Rules ι E)

/-- The term of the last entry, `0` for the empty log. -/
def lastTerm (l : List E) : ℕ :=
  (l.getLast?.map R.termOf).getD 0

/-- `l'` is at least as up to date as `l`. -/
def UpToDate (l l' : List E) : Prop :=
  lastTerm R l < lastTerm R l' ∨ (lastTerm R l = lastTerm R l' ∧ l.length ≤ l'.length)

/-- Every prefix of `l` that ends in an entry of term `t` is a prefix of the log
of the leader of term `t`. -/
def Rooted (s : State ι E) (l : List E) : Prop :=
  ∀ front e, front ++ [e] <+: l → front ++ [e] <+: s.chain (R.termOf e)

open Classical in
/-- The log after taking over `P`: unchanged if it already extends `P`. -/
noncomputable def overwrite (l P : List E) : List E :=
  if P <+: l then l else P

/-- The first `m` entries of the leader log of term `t` are in `l`, unless a
leader of a term in `(t, u]` was elected without them. -/
def Kept (s : State ι E) (t m : ℕ) (l : List E) (u : ℕ) : Prop :=
  (s.chain t).take m <+: l ∨
    ∃ w, t < w ∧ w ≤ u ∧ ∃ b, s.base w = some b ∧ ¬ (s.chain t).take m <+: b

/-- `v` cast a vote of term `t` while holding `l`: its term has reached `t`, and
`l` keeps what `v` had acknowledged in earlier terms. -/
structure Voted (s : State ι E) (v : ι) (t : ℕ) (l : List E) : Prop where
  reached : t ≤ s.term v
  rooted : Rooted R s l
  kept : ∀ u, u < t → ∀ m, m ≤ s.acks v u → Kept s u m l t

end Logs

omit [DecidableEq ι] in
@[simp] theorem lastTerm_nil (R : Rules ι E) : lastTerm R [] = 0 :=
  rfl

omit [DecidableEq ι] in
@[simp] theorem lastTerm_concat (R : Rules ι E) (l : List E) (e : E) :
    lastTerm R (l ++ [e]) = R.termOf e := by
  simp [lastTerm]

theorem overwrite_of_extends {l P : List E} (h : P <+: l) : overwrite l P = l :=
  if_pos h

theorem overwrite_of_not_extends {l P : List E} (h : ¬ P <+: l) : overwrite l P = P :=
  if_neg h

theorem extends_overwrite (l P : List E) : P <+: overwrite l P := by
  unfold overwrite
  split
  · assumption
  · exact List.prefix_rfl

/-- A list between two prefixes of one list: if `C` is in `l` and comparable with
`P`, then overwriting with `P` does not lose it. -/
theorem extends_overwrite_of_comparable {C l P whole : List E} (hC : C <+: whole)
    (hP : P <+: whole) (hl : C <+: l) : C <+: overwrite l P := by
  by_cases h : P <+: l
  · rw [overwrite_of_extends h]
    exact hl
  · rw [overwrite_of_not_extends h]
    rcases List.prefix_or_prefix_of_prefix hC hP with hCP | hPC
    · exact hCP
    · exact absurd (hPC.trans hl) h

/-! ## Transitions -/

section Transitions

variable (R : Rules ι E)

namespace State

/-- `v` moves to term `t`. -/
def advance (s : State ι E) (v : ι) (t : ℕ) : State ι E :=
  { s with term := update s.term v t }

/-- `c` becomes the leader of term `t` with the log it holds. -/
def elect (s : State ι E) (c : ι) (t : ℕ) : State ι E :=
  { s with base := update s.base t (some (s.log c)), chain := update s.chain t (s.log c) }

/-- The leader `c` of term `t` appends `e` and counts as having acknowledged it. -/
def append (s : State ι E) (c : ι) (t : ℕ) (e : E) : State ι E :=
  { s with
    log := update s.log c (s.log c ++ [e])
    chain := update s.chain t (s.log c ++ [e])
    acks := update s.acks c (update (s.acks c) t ((s.log c).length + 1)) }

/-- `v` takes over the prefix `P` of the log of the leader of term `t`, and
acknowledges it. -/
noncomputable def accept (s : State ι E) (v : ι) (t : ℕ) (P : List E) : State ι E :=
  { s with
    log := update s.log v (overwrite (s.log v) P)
    acks := update s.acks v (update (s.acks v) t (max (s.acks v t) P.length)) }

end State

/-- The transitions with their guards. -/
inductive Step : State ι E → State ι E → Prop
  | advance {s : State ι E} {v : ι} {t : ℕ} (later : s.term v ≤ t) : Step s (s.advance v t)
  | elect {s : State ι E} {c : ι} {t : ℕ} {Q : Finset ι} (fresh : s.base t = none)
      (current : s.term c = t) (quorum : R.Quorum Q)
      (votes : ∀ v ∈ Q, ∃ l, Voted R s v t l ∧ UpToDate R l (s.log c)) : Step s (s.elect c t)
  | append {s : State ι E} {c : ι} {t : ℕ} {e : E} (leads : (s.base t).isSome)
      (current : s.term c = t) (whole : s.log c = s.chain t) (stamp : R.termOf e = t) :
      Step s (s.append c t e)
  | accept {s : State ι E} {v : ι} {t : ℕ} {P : List E} (leads : (s.base t).isSome)
      (current : s.term v = t) (part : P <+: s.chain t) : Step s (s.accept v t P)

/-- Any number of transitions. -/
abbrev Steps : State ι E → State ι E → Prop :=
  Relation.ReflTransGen (Step R)

end Transitions

/-! ## History only grows -/

/-- `s'` is a later state than `s`: terms, leader logs and acknowledgements have
grown, elections are as they were, and what a participant acknowledged in a term
it has left is final. -/
structure Later (s s' : State ι E) : Prop where
  term : ∀ v, s.term v ≤ s'.term v
  base : ∀ t b, s.base t = some b → s'.base t = some b
  chain : ∀ t, s.chain t <+: s'.chain t
  acks : ∀ v t, s.acks v t ≤ s'.acks v t
  settled : ∀ v t, t < s.term v → s'.acks v t = s.acks v t

namespace Later

omit [DecidableEq ι]

theorem refl (s : State ι E) : Later s s :=
  ⟨fun _ => le_rfl, fun _ _ h => h, fun _ => List.prefix_rfl, fun _ _ => le_rfl, fun _ _ _ => rfl⟩

theorem trans {s s' s'' : State ι E} (h : Later s s') (h' : Later s' s'') : Later s s'' where
  term v := (h.term v).trans (h'.term v)
  base t b hb := h'.base t b (h.base t b hb)
  chain t := (h.chain t).trans (h'.chain t)
  acks v t := (h.acks v t).trans (h'.acks v t)
  settled v t ht := (h'.settled v t (ht.trans_le (h.term v))).trans (h.settled v t ht)

theorem take_chain {s s' : State ι E} (h : Later s s') {t m : ℕ}
    (hm : m ≤ (s.chain t).length) : (s'.chain t).take m = (s.chain t).take m := by
  obtain ⟨tail, htail⟩ := h.chain t
  rw [← htail, List.take_append_of_le_length hm]

theorem kept {s s' : State ι E} (h : Later s s') {t m u : ℕ} {l : List E}
    (hm : m ≤ (s.chain t).length) (hk : Kept s t m l u) : Kept s' t m l u := by
  unfold Kept
  rw [h.take_chain hm]
  rcases hk with hk | ⟨w, hw, hwu, b, hb, hnot⟩
  · exact .inl hk
  · exact .inr ⟨w, hw, hwu, b, h.base w b hb, hnot⟩

theorem rooted {R : Rules ι E} {s s' : State ι E} (h : Later s s') {l : List E}
    (hl : Rooted R s l) : Rooted R s' l :=
  fun front e hfront => (hl front e hfront).trans (h.chain _)

end Later

omit [DecidableEq ι] in
theorem Kept.mono {s : State ι E} {t m u u' : ℕ} {l l' : List E} (h : Kept s t m l u)
    (hl : l <+: l') (hu : u ≤ u') : Kept s t m l' u' := by
  rcases h with h | ⟨w, hw, hwu, rest⟩
  · exact .inl (h.trans hl)
  · exact .inr ⟨w, hw, hwu.trans hu, rest⟩

omit [DecidableEq ι] in
theorem Rooted.mono {R : Rules ι E} {s : State ι E} {l l' : List E} (h : Rooted R s l')
    (hl : l <+: l') : Rooted R s l :=
  fun front e hfront => h front e (hfront.trans hl)

end RaftKV.Consensus
