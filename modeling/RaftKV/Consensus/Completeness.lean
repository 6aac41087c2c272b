import RaftKV.Consensus.Invariant

/-!
# Leader completeness, abstractly

An entry is *committed* in term `t` once a quorum has acknowledged, in that
term, a prefix of the leader's log that ends in an entry of term `t` itself.
`completeness` is the induction over terms: the votes of a later leader meet the
acknowledgements in one participant, and by induction nothing between the two
terms can have taken the prefix from it.

`Decided` is the consequence replicas use: a list that some commit covers.  All
decided lists are prefixes of one another (`Decided.comparable`), and every later
leader log extends them (`Decided.extends_chain`).  A participant that holds a
decided list keeps it (`Decided.kept_by_steps`), and a whole quorum does
(`Committed.held`).
-/

namespace RaftKV.Consensus

variable {ι E : Type*} {R : Rules ι E} {s s' : State ι E}

/-- A quorum has acknowledged the first `m` entries of the leader log of term
`t`, and the last of them is of term `t`. -/
def Committed (R : Rules ι E) (s : State ι E) (t m : ℕ) : Prop :=
  (∃ front e, (s.chain t).take m = front ++ [e] ∧ R.termOf e = t) ∧
    ∃ Q, R.Quorum Q ∧ ∀ v ∈ Q, m ≤ s.acks v t

/-- `l` is empty or part of what a leader of some term up to `u` has committed. -/
def Decided (R : Rules ι E) (s : State ι E) (u : ℕ) (l : List E) : Prop :=
  l = [] ∨ ∃ t ≤ u, ∃ m, Committed R s t m ∧ l <+: (s.chain t).take m

theorem Committed.le_length (hI : Inv R s) {t m : ℕ} (h : Committed R s t m) :
    m ≤ (s.chain t).length := by
  obtain ⟨-, Q, hQ, hacks⟩ := h
  obtain ⟨v, hv, -⟩ := R.meets hQ hQ
  exact (hacks v hv).trans (hI.ack_le v t)

theorem Committed.later (hI : Inv R s) (hlater : Later s s') {t m : ℕ} (h : Committed R s t m) :
    Committed R s' t m := by
  have hm := h.le_length hI
  obtain ⟨hlast, Q, hQ, hacks⟩ := h
  refine ⟨by rwa [hlater.take_chain hm], Q, hQ, fun v hv => ?_⟩
  exact (hacks v hv).trans (hlater.acks v t)

theorem Committed.leads (hI : Inv R s) {t m : ℕ} (h : Committed R s t m) :
    (s.base t).isSome := by
  obtain ⟨⟨front, e, hC, -⟩, -⟩ := h
  obtain ⟨b, hb⟩ := hI.base_of_chain_ne_nil (t := t) (by
    intro hnil
    simp [hnil] at hC)
  simp [hb]

/-- The up-to-dateness of a vote, read at its last entries: a nonempty log is
beaten only by a nonempty log, and the last terms are ordered. -/
theorem UpToDate.last {l b : List E} (h : UpToDate R l b) {lfront : List E} {llast : E}
    (hl : l = lfront ++ [llast]) : ∃ front last, b = front ++ [last] ∧
      R.termOf llast ≤ R.termOf last ∧
      (R.termOf llast = R.termOf last → l.length ≤ b.length) := by
  subst hl
  rcases b.eq_nil_or_concat with rfl | ⟨front, last, rfl⟩
  · rcases h with h | ⟨-, h⟩
    · simp at h
    · simp at h
  · refine ⟨front, last, by simp, ?_, ?_⟩
    · rcases h with h | ⟨h, -⟩ <;> simp at h <;> omega
    · intro heq
      rcases h with h | ⟨-, h⟩
      · simp at h
        omega
      · exact h

/-- A voter that still holds the committed prefix hands it on: the winner's log
is at least as up to date, and its last entry was created by a leader that is
either the committing one or, by the induction hypothesis, one that has the
prefix. -/
theorem extends_of_upToDate (hI : Inv R s) {t m t' : ℕ} {b l : List E}
    (hc : Committed R s t m) (hb : s.base t' = some b) (hl : Rooted R s l)
    (hup : UpToDate R l b) (hheld : (s.chain t).take m <+: l)
    (ih : ∀ w, t < w → w < t' → ∀ b', s.base w = some b' → (s.chain t).take m <+: b') :
    (s.chain t).take m <+: b := by
  obtain ⟨⟨cfront, clast, hC, hclast⟩, -⟩ := hc
  have hlne : l ≠ [] := by
    rintro rfl
    simp [hC] at hheld
  obtain ⟨lfront, llast, hlast⟩ := (l.eq_nil_or_concat).resolve_left hlne
  rw [List.concat_eq_append] at hlast
  have htl : t ≤ R.termOf llast := by
    rw [← hclast]
    refine hI.termOf_le_last (hlast ▸ hl) (hlast ▸ hheld.mem ?_)
    rw [hC]
    simp
  obtain ⟨bfront, blast, rfl, hle, hlen⟩ := hup.last hlast
  set w := R.termOf blast with hw
  have hwlt : w < t' := hI.base_lt t' _ hb blast (by simp)
  have hroot : bfront ++ [blast] <+: s.chain w :=
    (hI.chain_rooted t').mono (hI.base_extends_chain hb) bfront blast List.prefix_rfl
  rcases eq_or_lt_of_le (htl.trans hle) with heq | hlt
  · -- the winner's log ends inside the committing leader's own block
    have hlong : l.length ≤ (bfront ++ [blast]).length := hlen (by omega)
    rw [← heq] at hroot
    exact List.prefix_of_prefix_length_le ( List.take_prefix _ _) hroot
      (hheld.length_le.trans hlong)
  · obtain ⟨b', hb'⟩ := hI.base_of_chain_ne_nil (t := w) (by
      intro hnil
      rw [hnil] at hroot
      simp at hroot)
    have hin := ih w hlt hwlt b' hb'
    -- the winner's log reaches beyond what that leader was elected with
    rcases List.prefix_or_prefix_of_prefix (hI.base_extends_chain hb') hroot with hsub | hsub
    · exact hin.trans hsub
    · have := hI.base_lt w b' hb' blast (hsub.mem (by simp))
      omega

/-- **Leader completeness.**  What is committed in term `t` is in the log of
every leader elected in a later term. -/
theorem completeness (hI : Inv R s) {t m : ℕ} (hc : Committed R s t m) :
    ∀ t', t < t' → ∀ b, s.base t' = some b → (s.chain t).take m <+: b := by
  intro t'
  induction t' using Nat.strong_induction_on with
  | _ t' ih =>
      intro hlt b hb
      obtain ⟨Q, hQ, hacks⟩ := hc.2
      obtain ⟨Q', hQ', hvotes⟩ := hI.elected t' b hb
      obtain ⟨v, hv, hv'⟩ := R.meets hQ hQ'
      obtain ⟨-, l, hroot, hup, hkept⟩ := hvotes v hv'
      have ih' : ∀ w, t < w → w < t' → ∀ b', s.base w = some b' → (s.chain t).take m <+: b' :=
        fun w hw hwt b' hb' => ih w hwt hw b' hb'
      rcases hkept t hlt m (hacks v hv) with hheld | ⟨w, hw, hwt, b', hb', hnot⟩
      · exact extends_of_upToDate hI hc hb hroot hup hheld ih'
      · exact absurd (ih' w hw (by omega) b' hb') hnot

namespace Decided

theorem of_committed {t m u : ℕ} (h : Committed R s t m) (hu : t ≤ u) :
    Decided R s u ((s.chain t).take m) :=
  .inr ⟨t, hu, m, h, List.prefix_rfl⟩

theorem mono {u u' : ℕ} {l l' : List E} (h : Decided R s u l) (hl : l' <+: l) (hu : u ≤ u') :
    Decided R s u' l' := by
  rcases h with rfl | ⟨t, ht, m, hc, hlm⟩
  · exact .inl (List.prefix_nil.mp hl)
  · exact .inr ⟨t, ht.trans hu, m, hc, hl.trans hlm⟩

theorem later (hI : Inv R s) (hlater : Later s s') {u : ℕ} {l : List E} (h : Decided R s u l) :
    Decided R s' u l := by
  rcases h with rfl | ⟨t, ht, m, hc, hlm⟩
  · exact .inl rfl
  · refine .inr ⟨t, ht, m, hc.later hI hlater, ?_⟩
    rwa [hlater.take_chain (hc.le_length hI)]

/-- Every leader log of a term that is not earlier extends a decided list. -/
theorem extends_chain (hI : Inv R s) {u t : ℕ} {l : List E} (h : Decided R s u l) (hu : u ≤ t)
    (hleads : (s.base t).isSome) : l <+: s.chain t := by
  rcases h with rfl | ⟨t', ht', m, hc, hlm⟩
  · exact List.nil_prefix
  · rcases eq_or_lt_of_le (ht'.trans hu) with rfl | hlt
    · exact hlm.trans ( List.take_prefix _ _)
    · obtain ⟨b, hb⟩ := Option.isSome_iff_exists.mp hleads
      exact hlm.trans ((completeness hI hc t hlt b hb).trans (hI.base_extends_chain hb))

/-- **Agreement.**  Two decided lists are prefixes of one another. -/
theorem comparable (hI : Inv R s) {u u' : ℕ} {l l' : List E} (h : Decided R s u l)
    (h' : Decided R s u' l') : l <+: l' ∨ l' <+: l := by
  rcases h with rfl | ⟨t, ht, m, hc, hlm⟩
  · exact .inl List.nil_prefix
  rcases h' with rfl | ⟨t', ht', m', hc', hlm'⟩
  · exact .inr List.nil_prefix
  -- both are prefixes of the leader log of the later of the two terms
  rcases le_total t t' with htt | htt
  · exact List.prefix_or_prefix_of_prefix
      (((of_committed hc le_rfl).mono hlm le_rfl).extends_chain hI htt (hc'.leads hI))
      (hlm'.trans ( List.take_prefix _ _))
  · exact List.prefix_or_prefix_of_prefix (hlm.trans ( List.take_prefix _ _))
      (((of_committed hc' le_rfl).mono hlm' le_rfl).extends_chain hI htt (hc.leads hI))

/-- Decided lists hold one entry at one position. -/
theorem entry_unique (hI : Inv R s) {u u' k : ℕ} {l l' : List E} {e e' : E}
    (h : Decided R s u l) (h' : Decided R s u' l') (he : l[k]? = some e)
    (he' : l'[k]? = some e') : e = e' := by
  rcases h.comparable hI h' with ⟨rest, rfl⟩ | ⟨rest, rfl⟩
  · rw [List.getElem?_append_left (List.getElem?_eq_some_iff.mp he).1, he] at he'
    exact Option.some.inj he'
  · rw [List.getElem?_append_left (List.getElem?_eq_some_iff.mp he').1, he'] at he
    exact (Option.some.inj he).symm

end Decided

/-! ## What participants keep -/

/-- What is committed is held, from then on, by a whole quorum. -/
theorem Committed.held (hI : Inv R s) {t m : ℕ} (h : Committed R s t m) :
    ∃ Q, R.Quorum Q ∧ ∀ v ∈ Q, (s.chain t).take m <+: s.log v := by
  obtain ⟨Q, hQ, hacks⟩ := h.2
  refine ⟨Q, hQ, fun v hv => ?_⟩
  -- a later leader elected without the prefix would contradict completeness
  rcases hI.kept v t m (hacks v hv) with hheld | ⟨w, hw, -, b, hb, hnot⟩
  · exact hheld
  · exact absurd (completeness hI h w hw b hb) hnot

section Steps

variable [DecidableEq ι]

/-- A participant whose log extends a decided list never loses it: what it takes over
comes from a leader of its own term, and that leader's log extends the list too. -/
theorem Decided.kept_by_step (hI : Inv R s) (hstep : Step R s s') {v : ι} {l : List E}
    (h : Decided R s (s.term v) l) (hheld : l <+: s.log v) :
    Decided R s' (s'.term v) l ∧ l <+: s'.log v := by
  obtain ⟨-, hlater⟩ := hI.step hstep
  refine ⟨(h.later hI hlater).mono List.prefix_rfl (hlater.term v), ?_⟩
  cases hstep with
  | advance => exact hheld
  | elect => exact hheld
  | @append c t e leads current whole stamp =>
      by_cases hv : v = c
      · subst hv
        rw [Inv.append_log_self]
        exact hheld.trans (List.prefix_append _ _)
      · rw [Inv.append_log_of_ne hv]
        exact hheld
  | @accept w t P leads current part =>
      by_cases hv : v = w
      · subst hv
        have hchain : l <+: s.chain t := h.extends_chain hI current.le leads
        have hlog : (s.accept v t P).log v = overwrite (s.log v) P := Function.update_self ..
        rw [hlog]
        exact extends_overwrite_of_comparable hchain part hheld
      · have hlog : (s.accept w t P).log v = s.log v := Function.update_of_ne hv ..
        rw [hlog]
        exact hheld

theorem Decided.kept_by_steps (hI : Inv R s) (hsteps : Steps R s s') {v : ι} {l : List E}
    (h : Decided R s (s.term v) l) (hheld : l <+: s.log v) :
    Decided R s' (s'.term v) l ∧ l <+: s'.log v := by
  induction hsteps with
  | refl => exact ⟨h, hheld⟩
  | tail hrun hstep ih => exact ih.1.kept_by_step (hI.steps hrun).1 hstep ih.2

end Steps

end RaftKV.Consensus
