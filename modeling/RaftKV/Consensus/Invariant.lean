import RaftKV.Consensus.Protocol

/-!
# The invariant of the replicated log

`Inv` is inductive: it holds of the empty state and every transition keeps it.
Each transition has one lemma saying that history grew (`later_*`) and one per
field of the invariant that it could break; `Inv.step` puts them together.
-/

namespace RaftKV.Consensus

open Function

variable {ι E : Type*} [DecidableEq ι] {R : Rules ι E}

/-- The invariant.  `chain_some` and `base_lt` say what a leader log looks like:
the log it was elected with, older than its term, and then its own entries. -/
structure Inv (R : Rules ι E) (s : State ι E) : Prop where
  chain_none : ∀ t, s.base t = none → s.chain t = []
  chain_some : ∀ t b, s.base t = some b →
    ∃ own, s.chain t = b ++ own ∧ ∀ e ∈ own, R.termOf e = t
  base_lt : ∀ t b, s.base t = some b → ∀ e ∈ b, R.termOf e < t
  chain_rooted : ∀ t, Rooted R s (s.chain t)
  log_rooted : ∀ v, Rooted R s (s.log v)
  log_le : ∀ v, ∀ e ∈ s.log v, R.termOf e ≤ s.term v
  ack_le : ∀ v t, s.acks v t ≤ (s.chain t).length
  ack_term : ∀ v t, s.term v < t → s.acks v t = 0
  kept : ∀ v t m, m ≤ s.acks v t → Kept s t m (s.log v) (s.term v)
  elected : ∀ t b, s.base t = some b → ∃ Q, R.Quorum Q ∧ ∀ v ∈ Q, t ≤ s.term v ∧
    ∃ l, Rooted R s l ∧ UpToDate R l b ∧ ∀ u, u < t → ∀ m, m ≤ s.acks v u → Kept s u m l (t - 1)

/-- The state before anything has happened. -/
def State.initial : State ι E where
  term _ := 0
  log _ := []
  base _ := none
  chain _ := []
  acks _ _ := 0

omit [DecidableEq ι] in
theorem rooted_nil (s : State ι E) : Rooted R s [] := by
  intro front e h
  simp at h

omit [DecidableEq ι] in
theorem Inv.initial : Inv R (State.initial : State ι E) where
  chain_none _ _ := rfl
  chain_some t b h := by simp [State.initial] at h
  base_lt t b h := by simp [State.initial] at h
  chain_rooted _ := rooted_nil _
  log_rooted _ := rooted_nil _
  log_le v e he := by simp [State.initial] at he
  ack_le _ _ := le_rfl
  ack_term _ _ _ := rfl
  kept v t m hm := .inl (by simp [State.initial])
  elected t b h := by simp [State.initial] at h

namespace Inv

variable {s : State ι E}

/-! ## Reading the invariant -/

omit [DecidableEq ι] in
/-- The entries of the leader log of term `t` are at most `t`. -/
theorem chain_le (hI : Inv R s) {t : ℕ} {e : E} (he : e ∈ s.chain t) : R.termOf e ≤ t := by
  cases hb : s.base t with
  | none => simp [hI.chain_none t hb] at he
  | some b =>
      obtain ⟨own, hchain, hown⟩ := hI.chain_some t b hb
      rw [hchain, List.mem_append] at he
      rcases he with he | he
      · exact (hI.base_lt t b hb e he).le
      · exact (hown e he).le

omit [DecidableEq ι] in
theorem base_extends_chain (hI : Inv R s) {t : ℕ} {b : List E} (hb : s.base t = some b) :
    b <+: s.chain t := by
  obtain ⟨own, hchain, -⟩ := hI.chain_some t b hb
  exact ⟨own, hchain.symm⟩

omit [DecidableEq ι] in
theorem base_of_chain_ne_nil (hI : Inv R s) {t : ℕ} (h : s.chain t ≠ []) :
    ∃ b, s.base t = some b := by
  cases hb : s.base t with
  | none => exact absurd (hI.chain_none t hb) h
  | some b => exact ⟨b, rfl⟩

omit [DecidableEq ι] in
/-- Before term `t` has a leader, no rooted log holds an entry of term `t`. -/
theorem termOf_ne_of_unled (hI : Inv R s) {t : ℕ} (ht : s.base t = none) {l : List E}
    (hl : Rooted R s l) {e : E} (he : e ∈ l) : R.termOf e ≠ t := by
  rintro rfl
  obtain ⟨front, back, rfl⟩ := List.append_of_mem he
  have h := hl front e ⟨back, by simp⟩
  rw [hI.chain_none _ ht] at h
  simp at h

omit [DecidableEq ι] in
/-- The terms along a rooted log do not decrease: each is at most the last. -/
theorem termOf_le_last (hI : Inv R s) {front : List E} {last e : E}
    (hl : Rooted R s (front ++ [last])) (he : e ∈ front ++ [last]) :
    R.termOf e ≤ R.termOf last :=
  hI.chain_le ((hl front last List.prefix_rfl).mem he)

/-! ## Moving to a later term -/

theorem later_advance {v : ι} {t : ℕ} (h : s.term v ≤ t) : Later s (s.advance v t) where
  term u := by
    by_cases hu : u = v
    · subst hu
      simpa [State.advance] using h
    · simp [State.advance, hu]
  base _ _ hb := hb
  chain _ := List.prefix_rfl
  acks _ _ := le_rfl
  settled _ _ _ := rfl

theorem advance (hI : Inv R s) {v : ι} {t : ℕ} (h : s.term v ≤ t) : Inv R (s.advance v t) := by
  have hlater := later_advance h
  refine ⟨hI.chain_none, hI.chain_some, hI.base_lt, hI.chain_rooted, hI.log_rooted, ?_,
    hI.ack_le, ?_, ?_, ?_⟩
  · intro u e he
    exact (hI.log_le u e he).trans (hlater.term u)
  · intro u t' ht'
    exact hI.ack_term u t' ((hlater.term u).trans_lt ht')
  · intro u t' m hm
    exact (hI.kept u t' m hm).mono List.prefix_rfl (hlater.term u)
  · intro t' b hb
    obtain ⟨Q, hQ, hvotes⟩ := hI.elected t' b hb
    refine ⟨Q, hQ, fun u hu => ?_⟩
    obtain ⟨hreach, l, hl⟩ := hvotes u hu
    exact ⟨hreach.trans (hlater.term u), l, hl⟩

/-! ## Electing a leader -/

omit [DecidableEq ι] in
theorem later_elect (hI : Inv R s) {c : ι} {t : ℕ} (hfresh : s.base t = none) :
    Later s (s.elect c t) where
  term _ := le_rfl
  base u b hb := by
    have hne : u ≠ t := fun h => by simp [h, hfresh] at hb
    simpa [State.elect, hne] using hb
  chain u := by
    by_cases hu : u = t
    · subst hu
      rw [hI.chain_none u hfresh]
      exact List.nil_prefix
    · simp [State.elect, hu]
  acks _ _ := le_rfl
  settled _ _ _ := rfl

omit [DecidableEq ι] in
/-- The votes of an election bear on strictly earlier terms: term `t` itself has
no leader yet. -/
theorem kept_before_election {u m t : ℕ} {l : List E} (hfresh : s.base t = none)
    (h : Kept s u m l t) : Kept s u m l (t - 1) := by
  rcases h with h | ⟨w, hw, hwt, b, hb, hnot⟩
  · exact .inl h
  · have hne : w ≠ t := fun h => by simp [h, hfresh] at hb
    exact .inr ⟨w, hw, by omega, b, hb, hnot⟩

omit [DecidableEq ι] in
theorem elect (hI : Inv R s) {c : ι} {t : ℕ} {Q : Finset ι} (hfresh : s.base t = none)
    (hcurrent : s.term c = t) (hQ : R.Quorum Q)
    (hvotes : ∀ v ∈ Q, ∃ l, Voted R s v t l ∧ UpToDate R l (s.log c)) :
    Inv R (s.elect c t) := by
  have hlater := hI.later_elect (c := c) hfresh
  have hchain : ∀ u, u ≠ t → (s.elect c t).chain u = s.chain u := by
    intro u hu
    simp [State.elect, hu]
  refine ⟨?_, ?_, ?_, ?_, fun v => hlater.rooted (hI.log_rooted v), hI.log_le, ?_, hI.ack_term,
    ?_, ?_⟩
  · intro u hu
    by_cases hut : u = t
    · simp [State.elect, hut] at hu
    · rw [hchain u hut]
      exact hI.chain_none u (by simpa [State.elect, hut] using hu)
  · intro u b hb
    by_cases hut : u = t
    · subst hut
      have hb' : s.log c = b := by simpa [State.elect] using hb
      exact ⟨[], by simp [State.elect, hb'], by simp⟩
    · rw [hchain u hut]
      exact hI.chain_some u b (by simpa [State.elect, hut] using hb)
  · intro u b hb e he
    by_cases hut : u = t
    · subst hut
      have hb' : s.log c = b := by simpa [State.elect] using hb
      rw [← hb'] at he
      have hle := hI.log_le c e he
      have hne := hI.termOf_ne_of_unled hfresh (hI.log_rooted c) he
      omega
    · exact hI.base_lt u b (by simpa [State.elect, hut] using hb) e he
  · intro u
    by_cases hut : u = t
    · subst hut
      have hnew : (s.elect c u).chain u = s.log c := by simp [State.elect]
      rw [hnew]
      exact hlater.rooted (hI.log_rooted c)
    · rw [hchain u hut]
      exact hlater.rooted (hI.chain_rooted u)
  · intro v u
    exact (hI.ack_le v u).trans (hlater.chain u).length_le
  · intro v u m hm
    exact hlater.kept (hm.trans (hI.ack_le v u)) (hI.kept v u m hm)
  · intro u b hb
    by_cases hut : u = t
    · subst hut
      have hb' : s.log c = b := by simpa [State.elect] using hb
      refine ⟨Q, hQ, fun v hv => ?_⟩
      obtain ⟨l, hvoted, hup⟩ := hvotes v hv
      refine ⟨hvoted.reached, l, hlater.rooted hvoted.rooted, hb' ▸ hup, fun w hw m hm => ?_⟩
      exact hlater.kept (hm.trans (hI.ack_le v w))
        (kept_before_election hfresh (hvoted.kept w hw m hm))
    · obtain ⟨Q', hQ', hvotes'⟩ := hI.elected u b (by simpa [State.elect, hut] using hb)
      refine ⟨Q', hQ', fun v hv => ?_⟩
      obtain ⟨hreach, l, hroot, hup, hkept⟩ := hvotes' v hv
      exact ⟨hreach, l, hlater.rooted hroot, hup, fun w hw m hm =>
        hlater.kept (hm.trans (hI.ack_le v w)) (hkept w hw m hm)⟩

/-! ## Appending to the leader's log -/

omit [DecidableEq ι] in
/-- The elections on record survive any growth of the history. -/
theorem elected_later (hI : Inv R s) {s' : State ι E} (hlater : Later s s')
    (hbase : s'.base = s.base) : ∀ t b, s'.base t = some b → ∃ Q, R.Quorum Q ∧ ∀ v ∈ Q,
      t ≤ s'.term v ∧ ∃ l, Rooted R s' l ∧ UpToDate R l b ∧
        ∀ u, u < t → ∀ m, m ≤ s'.acks v u → Kept s' u m l (t - 1) := by
  intro t b hb
  rw [hbase] at hb
  obtain ⟨Q, hQ, hvotes⟩ := hI.elected t b hb
  refine ⟨Q, hQ, fun v hv => ?_⟩
  obtain ⟨hreach, l, hroot, hup, hkept⟩ := hvotes v hv
  refine ⟨hreach.trans (hlater.term v), l, hlater.rooted hroot, hup, fun u hu m hm => ?_⟩
  rw [hlater.settled v u (hu.trans_le hreach)] at hm
  exact hlater.kept (hm.trans (hI.ack_le v u)) (hkept u hu m hm)

theorem later_append (hI : Inv R s) {c : ι} {t : ℕ} {e : E} (hcurrent : s.term c = t)
    (hwhole : s.log c = s.chain t) : Later s (s.append c t e) where
  term _ := le_rfl
  base _ _ hb := hb
  chain u := by
    by_cases hu : u = t
    · subst hu
      simp [State.append, hwhole]
    · simp [State.append, hu]
  acks v u := by
    by_cases hv : v = c
    · subst hv
      by_cases hu : u = t
      · subst hu
        have := hI.ack_le v u
        simp only [State.append, update_self, hwhole]
        omega
      · simp [State.append, hu]
    · simp [State.append, hv]
  settled v u hu := by
    by_cases hv : v = c
    · subst hv
      have : u ≠ t := by omega
      simp [State.append, this]
    · simp [State.append, hv]

section Append

variable {c : ι} {t : ℕ} {e : E}

theorem append_chain_self : (s.append c t e).chain t = s.log c ++ [e] := by
  simp [State.append]

theorem append_chain_of_ne {u : ℕ} (hu : u ≠ t) : (s.append c t e).chain u = s.chain u := by
  simp [State.append, hu]

theorem append_log_self : (s.append c t e).log c = s.log c ++ [e] := by
  simp [State.append]

theorem append_log_of_ne {v : ι} (hv : v ≠ c) : (s.append c t e).log v = s.log v := by
  simp [State.append, hv]

/-- The one new log: its only new prefix ends in `e`, and is the whole leader log. -/
theorem rooted_append (hI : Inv R s) (hcurrent : s.term c = t) (hwhole : s.log c = s.chain t)
    (hstamp : R.termOf e = t) : Rooted R (s.append c t e) (s.log c ++ [e]) := by
  intro front x hx
  rcases List.prefix_concat_iff.mp hx with heq | hx
  · have hxe : x = e := by
      have := congrArg List.getLast? heq
      simpa using this
    rw [heq, hxe, hstamp, append_chain_self]
  · exact (hI.log_rooted c front x hx).trans ((hI.later_append hcurrent hwhole).chain _)

theorem chain_some_append (hI : Inv R s) (hwhole : s.log c = s.chain t)
    (hstamp : R.termOf e = t) (u : ℕ) (b : List E) (hb : s.base u = some b) :
    ∃ own, (s.append c t e).chain u = b ++ own ∧ ∀ x ∈ own, R.termOf x = u := by
  obtain ⟨own, hchain, hown⟩ := hI.chain_some u b hb
  by_cases hut : u = t
  · subst hut
    refine ⟨own ++ [e], by rw [append_chain_self, hwhole, hchain, List.append_assoc], ?_⟩
    intro x hx
    rcases List.mem_append.mp hx with hx | hx
    · exact hown x hx
    · rw [List.mem_singleton.mp hx, hstamp]
  · exact ⟨own, by rw [append_chain_of_ne hut, hchain], hown⟩

theorem kept_append (hI : Inv R s) (hcurrent : s.term c = t) (hwhole : s.log c = s.chain t)
    (v : ι) (u m : ℕ) (hm : m ≤ (s.append c t e).acks v u) :
    Kept (s.append c t e) u m ((s.append c t e).log v) (s.term v) := by
  have hlater := hI.later_append (e := e) hcurrent hwhole
  by_cases hv : v = c
  · subst hv
    rw [append_log_self]
    by_cases hut : u = t
    · -- the leader holds all of its own log
      subst hut
      exact .inl (by rw [append_chain_self]; exact List.take_prefix _ _)
    · have hm' : m ≤ s.acks v u := by simpa [State.append, hut] using hm
      exact (hlater.kept (hm'.trans (hI.ack_le v u)) (hI.kept v u m hm')).mono
        (List.prefix_append _ _) le_rfl
  · have hm' : m ≤ s.acks v u := by simpa [State.append, hv] using hm
    rw [append_log_of_ne hv]
    exact hlater.kept (hm'.trans (hI.ack_le v u)) (hI.kept v u m hm')

theorem append (hI : Inv R s) (hleads : (s.base t).isSome) (hcurrent : s.term c = t)
    (hwhole : s.log c = s.chain t) (hstamp : R.termOf e = t) : Inv R (s.append c t e) := by
  have hlater := hI.later_append (e := e) hcurrent hwhole
  have hnew := hI.rooted_append hcurrent hwhole hstamp
  refine ⟨?_, hI.chain_some_append hwhole hstamp, hI.base_lt, ?_, ?_, ?_, ?_, ?_,
    hI.kept_append hcurrent hwhole, hI.elected_later hlater rfl⟩
  · intro u hu
    have hut : u ≠ t := by
      rintro rfl
      have hu' : s.base u = none := hu
      simp [hu'] at hleads
    rw [append_chain_of_ne hut]
    exact hI.chain_none u hu
  · intro u
    by_cases hut : u = t
    · subst hut
      rw [append_chain_self]
      exact hnew
    · rw [append_chain_of_ne hut]
      exact hlater.rooted (hI.chain_rooted u)
  · intro v
    by_cases hv : v = c
    · subst hv
      rw [append_log_self]
      exact hnew
    · rw [append_log_of_ne hv]
      exact hlater.rooted (hI.log_rooted v)
  · intro v x hx
    by_cases hv : v = c
    · subst hv
      have hx' : x ∈ s.log v ∨ x = e := by simpa [State.append] using hx
      rcases hx' with hx' | rfl
      · exact hI.log_le v x hx'
      · exact (hstamp.trans hcurrent.symm).le
    · exact hI.log_le v x (by simpa [State.append, hv] using hx)
  · intro v u
    by_cases hv : v = c
    · subst hv
      by_cases hut : u = t
      · subst hut
        simp [State.append]
      · simpa [State.append, hut] using hI.ack_le v u
    · have hacks : (s.append c t e).acks v u = s.acks v u := by simp [State.append, hv]
      rw [hacks]
      exact (hI.ack_le v u).trans (hlater.chain u).length_le
  · intro v u hu
    have hu' : s.term v < u := hu
    by_cases hv : v = c
    · subst hv
      have hut : u ≠ t := by omega
      simpa [State.append, hut] using hI.ack_term v u hu'
    · simpa [State.append, hv] using hI.ack_term v u hu'

end Append

/-! ## Taking over a prefix of a leader's log -/

theorem later_accept {v : ι} {t : ℕ} {P : List E} (hcurrent : s.term v = t) :
    Later s (s.accept v t P) where
  term _ := le_rfl
  base _ _ hb := hb
  chain _ := List.prefix_rfl
  acks u w := by
    by_cases hu : u = v
    · subst hu
      by_cases hw : w = t
      · subst hw
        simp [State.accept]
      · simp [State.accept, hw]
    · simp [State.accept, hu]
  settled u w hw := by
    by_cases hu : u = v
    · subst hu
      have : w ≠ t := by omega
      simp [State.accept, this]
    · simp [State.accept, hu]

omit [DecidableEq ι] in
/-- What `v` had acknowledged survives the overwrite, or was missing from the
leader whose log is being taken over. -/
theorem kept_overwrite (hI : Inv R s) {v : ι} {t : ℕ} {P : List E} (hleads : (s.base t).isSome)
    (hcurrent : s.term v = t) (hpart : P <+: s.chain t) {u m : ℕ} (hm : m ≤ s.acks v u) :
    Kept s u m (overwrite (s.log v) P) t := by
  rcases hI.kept v u m hm with hlog | ⟨w, hw, hwt, rest⟩
  · rcases lt_trichotomy u t with hut | rfl | hut
    · obtain ⟨b, hb⟩ := Option.isSome_iff_exists.mp hleads
      by_cases hin : (s.chain u).take m <+: b
      · exact .inl (extends_overwrite_of_comparable (hin.trans (hI.base_extends_chain hb))
          hpart hlog)
      · exact .inr ⟨t, hut, le_rfl, b, hb, hin⟩
    · exact .inl (extends_overwrite_of_comparable ( List.take_prefix _ _) hpart hlog)
    · have h0 : m = 0 := by
        have := hI.ack_term v u (by omega)
        omega
      exact .inl (by simp [h0])
  · exact .inr ⟨w, hw, hcurrent ▸ hwt, rest⟩

theorem accept (hI : Inv R s) {v : ι} {t : ℕ} {P : List E} (hleads : (s.base t).isSome)
    (hcurrent : s.term v = t) (hpart : P <+: s.chain t) : Inv R (s.accept v t P) := by
  have hlater : Later s (s.accept v t P) := later_accept hcurrent
  have hlog : (s.accept v t P).log v = overwrite (s.log v) P := by simp [State.accept]
  have hlogs : ∀ u, u ≠ v → (s.accept v t P).log u = s.log u := by
    intro u hu
    simp [State.accept, hu]
  have hacks : ∀ u w, u ≠ v ∨ w ≠ t → (s.accept v t P).acks u w = s.acks u w := by
    rintro u w (hu | hw)
    · simp [State.accept, hu]
    · by_cases hu : u = v
      · subst hu
        simp [State.accept, hw]
      · simp [State.accept, hu]
  have hack : (s.accept v t P).acks v t = max (s.acks v t) P.length := by simp [State.accept]
  refine ⟨hI.chain_none, hI.chain_some, hI.base_lt, hI.chain_rooted, ?_, ?_, ?_, ?_, ?_,
    hI.elected_later hlater rfl⟩
  · intro u
    by_cases hu : u = v
    · subst hu
      rw [hlog]
      unfold overwrite
      split
      · exact hI.log_rooted u
      · exact (hI.chain_rooted t).mono hpart
    · rw [hlogs u hu]
      exact hI.log_rooted u
  · intro u e he
    by_cases hu : u = v
    · subst hu
      rw [hlog] at he
      unfold overwrite at he
      split at he
      · exact hI.log_le u e he
      · exact (hI.chain_le (hpart.mem he)).trans hcurrent.ge
    · rw [hlogs u hu] at he
      exact hI.log_le u e he
  · intro u w
    by_cases hnew : u = v ∧ w = t
    · obtain ⟨rfl, rfl⟩ := hnew
      rw [hack]
      exact max_le (hI.ack_le u w) hpart.length_le
    · rw [hacks u w (not_and_or.mp hnew)]
      exact hI.ack_le u w
  · intro u w hw
    have hw' : s.term u < w := hw
    rw [hacks u w (by rcases eq_or_ne u v with rfl | hu; exacts [.inr (by omega), .inl hu])]
    exact hI.ack_term u w hw'
  · intro u w m hm
    by_cases hu : u = v
    · subst hu
      rw [hlog]
      by_cases hw : w = t
      · subst hw
        rw [hack] at hm
        rcases le_max_iff.mp hm with hm | hm
        · exact (hI.kept_overwrite hleads hcurrent hpart hm).mono List.prefix_rfl hcurrent.ge
        · have htake : (s.chain w).take m <+: P :=
            List.prefix_of_prefix_length_le ( List.take_prefix _ _) hpart
              ((List.length_take_le _ _).trans hm)
          exact .inl (htake.trans (extends_overwrite _ _))
      · rw [hacks u w (.inr hw)] at hm
        exact (hI.kept_overwrite hleads hcurrent hpart hm).mono List.prefix_rfl hcurrent.ge
    · rw [hlogs u hu]
      rw [hacks u w (.inl hu)] at hm
      exact hI.kept u w m hm

/-! ## Every reachable state -/

theorem step {s' : State ι E} (hI : Inv R s) (h : Step R s s') : Inv R s' ∧ Later s s' := by
  cases h with
  | advance hle => exact ⟨hI.advance hle, later_advance hle⟩
  | elect hfresh hcurrent hQ hvotes =>
      exact ⟨hI.elect hfresh hcurrent hQ hvotes, hI.later_elect hfresh⟩
  | append hleads hcurrent hwhole hstamp =>
      exact ⟨hI.append hleads hcurrent hwhole hstamp, hI.later_append hcurrent hwhole⟩
  | accept hleads hcurrent hpart =>
      exact ⟨hI.accept hleads hcurrent hpart, later_accept hcurrent⟩

theorem steps {s' : State ι E} (hI : Inv R s) (h : Steps R s s') : Inv R s' ∧ Later s s' := by
  induction h with
  | refl => exact ⟨hI, Later.refl s⟩
  | tail _ hstep ih =>
      obtain ⟨hI', hlater⟩ := ih
      obtain ⟨hI'', hlater'⟩ := hI'.step hstep
      exact ⟨hI'', hlater.trans hlater'⟩

end Inv

omit [DecidableEq ι] in
/-- A vote stays on record. -/
theorem Voted.later {s s' : State ι E} (hI : Inv R s) (h : Later s s') {v : ι} {t : ℕ}
    {l : List E} (hv : Voted R s v t l) : Voted R s' v t l where
  reached := hv.reached.trans (h.term v)
  rooted := h.rooted hv.rooted
  kept u hu m hm := by
    rw [h.settled v u (hu.trans_le hv.reached)] at hm
    exact h.kept (hm.trans (hI.ack_le v u)) (hv.kept u hu m hm)

omit [DecidableEq ι] in
/-- What a participant holds at its own term is a vote it could cast. -/
theorem Voted.of_current {s : State ι E} (hI : Inv R s) (v : ι) :
    Voted R s v (s.term v) (s.log v) where
  reached := le_rfl
  rooted := hI.log_rooted v
  kept u _ m hm := hI.kept v u m hm

end RaftKV.Consensus
