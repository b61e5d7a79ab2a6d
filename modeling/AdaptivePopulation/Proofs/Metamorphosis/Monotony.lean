import AdaptivePopulation.Proofs.Metamorphosis.DeadZone

/-!
# Monotony of the local policy

In exact arithmetic a larger measure leaves a node with a strategy as high or higher, with one
exception.  The dead zone is tested for the region where the measure lies and for no other, so that
a measure just past a further threshold is granted no change, not even the one to the nearer region
that a smaller step would have been granted.
-/

namespace AdaptivePopulation

namespace LocalThresholds

section

variable {α : Type} [Scalar α] {t : LocalThresholds α} {current : Strategy}
  {phi stateEntropy : α}

/-- The strategy after a consultation: the proposed one, or else the current one. -/
def inForce (t : LocalThresholds α) (current : Strategy) (phi stateEntropy : α) : Strategy :=
  (t.propose current phi stateEntropy).getD current

/-- The measure calls for a change, also when it is moved back by the margin. -/
def Granted (t : LocalThresholds α) (current : Strategy) (phi : α) : Prop :=
  t.classify phi ≠ current ∧
    t.classify (t.withMargin current (t.classify phi) phi) = t.classify phi

instance : Decidable (t.Granted current phi) := inferInstanceAs (Decidable (_ ∧ _))

/-- A change is proposed at the measure `near`, and none at the measure `far`, which calls for a
region further on in the same direction. -/
structure FallsShort (t : LocalThresholds α) (current : Strategy) (stateEntropy near far : α) :
    Prop where
  granted : t.propose current near stateEntropy = some (t.classify near)
  refused : t.propose current far stateEntropy = none
  onward : rank current < rank (t.classify near) ∧
      rank (t.classify near) < rank (t.classify far) ∨
    rank (t.classify far) < rank (t.classify near) ∧ rank (t.classify near) < rank current

/-- The thresholds between the regions. -/
def bounds (t : LocalThresholds α) : List α := t.low :: t.high :: t.overload.toList

theorem propose_eq (awake : ¬ (current = .decay ∧ stateEntropy < t.minStateEntropy)) :
    t.propose current phi stateEntropy =
      if t.Granted current phi then some (t.classify phi) else none := by
  unfold propose
  rw [if_neg awake]
  dsimp only
  by_cases same : t.classify phi = current
  · rw [if_pos same, if_neg fun granted => granted.1 same]
  · simp only [Granted, ne_eq, same, not_false_eq_true, true_and, if_false]

theorem inForce_eq (awake : ¬ (current = .decay ∧ stateEntropy < t.minStateEntropy)) :
    t.inForce current phi stateEntropy =
      if t.Granted current phi then t.classify phi else current := by
  rw [inForce, propose_eq awake]
  split_ifs <;> rfl

section

variable {near far : α} (short : t.FallsShort current stateEntropy near far)

include short

theorem FallsShort.inForce_near : t.inForce current near stateEntropy = t.classify near := by
  rw [inForce, short.granted, Option.getD_some]

theorem FallsShort.inForce_far : t.inForce current far stateEntropy = current := by
  rw [inForce, short.refused, Option.getD_none]

end

end

variable {t : LocalThresholds ℝ} {current : Strategy} {phi psi stateEntropy : ℝ}

/-! ## Changes that are granted -/

section

variable (ordered : t.low ≤ t.high) (margin : 0 ≤ t.deadZone)

include ordered margin

theorem granted_upward_iff (up : rank current < rank (t.classify phi)) :
    t.Granted current phi ↔ rank (t.classify phi) ≤ rank (t.classify (phi - t.deadZone)) := by
  have back : t.withMargin current (t.classify phi) phi = phi - t.deadZone := if_pos up
  have falls : rank (t.classify (phi - t.deadZone)) ≤ rank (t.classify phi) :=
    rank_classify_mono ordered (sub_le_self phi margin)
  rw [Granted, back, ← rank_injective.eq_iff, falls.ge_iff_eq]
  exact and_iff_right fun same => up.ne (congrArg rank same.symm)

theorem granted_downward_iff (down : rank (t.classify phi) < rank current) :
    t.Granted current phi ↔ rank (t.classify (phi + t.deadZone)) ≤ rank (t.classify phi) := by
  have forth : t.withMargin current (t.classify phi) phi = phi + t.deadZone :=
    if_neg down.not_gt
  have rises : rank (t.classify phi) ≤ rank (t.classify (phi + t.deadZone)) :=
    rank_classify_mono ordered (le_add_of_nonneg_right margin)
  rw [Granted, forth, ← rank_injective.eq_iff, rises.ge_iff_eq']
  exact and_iff_right fun same => down.ne (congrArg rank same)

/-- A larger measure in the same region is granted what a smaller one is, upwards. -/
theorem Granted.of_le (granted : t.Granted current phi) (up : rank current < rank (t.classify phi))
    (le : phi ≤ psi) (same : rank (t.classify phi) = rank (t.classify psi)) :
    t.Granted current psi := by
  rw [granted_upward_iff ordered margin up] at granted
  rw [granted_upward_iff ordered margin (same ▸ up), ← same]
  exact granted.trans (rank_classify_mono ordered (sub_le_sub_right le _))

/-- A smaller measure in the same region is granted what a larger one is, downwards. -/
theorem Granted.of_ge (granted : t.Granted current psi)
    (down : rank (t.classify psi) < rank current) (le : phi ≤ psi)
    (same : rank (t.classify phi) = rank (t.classify psi)) : t.Granted current phi := by
  rw [granted_downward_iff ordered margin down] at granted
  rw [granted_downward_iff ordered margin (same ▸ down), same]
  exact (rank_classify_mono ordered (add_le_add_left le _)).trans granted

end

/-! ## Thresholds that are passed -/

/-- Between measures of different regions lies a threshold. -/
theorem exists_bound_between (le : phi ≤ psi) (ne : t.classify phi ≠ t.classify psi) :
    ∃ b ∈ t.bounds, phi ≤ b ∧ b ≤ psi := by
  by_contra! beside
  have same (b : ℝ) (hb : b ∈ t.bounds) : (phi < b ↔ psi < b) ∧ (b < phi ↔ b < psi) := by
    have notBeyond := beside b hb
    refine ⟨⟨fun h => notBeyond h.le, le.trans_lt⟩, fun h => h.trans_le le, fun h => ?_⟩
    by_contra! past
    exact (notBeyond past).not_gt h
  have low : t.low ∈ t.bounds := by simp [bounds]
  have high : t.high ∈ t.bounds := by simp [bounds]
  have overload : t.overload.any (· < phi) = t.overload.any (· < psi) := by
    cases h : t.overload with
    | none => rfl
    | some o =>
      have ho : o ∈ t.bounds := by simp [bounds, h]
      simp only [Option.any_some, (same o ho).2]
  simp only [classify, overload, (same _ low).1, (same _ high).2] at ne
  contradiction

/-- The measure that falls short lies in the dead zone of a threshold. -/
theorem FallsShort.exists_bound (margin : 0 ≤ t.deadZone)
    (awake : ¬ (current = .decay ∧ stateEntropy < t.minStateEntropy))
    (short : t.FallsShort current stateEntropy phi psi) :
    ∃ b ∈ t.bounds, |psi - b| ≤ t.deadZone := by
  have refused := short.refused
  rw [propose_eq awake] at refused
  have held : ¬ t.Granted current psi := by
    intro granted
    rw [if_pos granted] at refused
    contradiction
  have elsewhere : t.classify psi ≠ current := by
    rintro rfl
    obtain ⟨up, further⟩ | ⟨further, down⟩ := short.onward <;> omega
  -- The margin takes the measure to another region, and so across a threshold.
  have moved := fun same => held ⟨elsewhere, same⟩
  unfold withMargin at moved
  split_ifs at moved
  · obtain ⟨b, hb, above, below⟩ := exists_bound_between (sub_le_self psi margin) moved
    exact ⟨b, hb, abs_sub_le_iff.2 ⟨by linarith, by linarith⟩⟩
  · obtain ⟨b, hb, above, below⟩ :=
      exists_bound_between (le_add_of_nonneg_right margin) (Ne.symm moved)
    exact ⟨b, hb, abs_sub_le_iff.2 ⟨by linarith, by linarith⟩⟩

/-! ## Monotony -/

theorem FallsShort.rank_lt (short : t.FallsShort current stateEntropy phi psi)
    (ordered : t.low ≤ t.high) (le : phi ≤ psi) :
    rank (t.inForce current psi stateEntropy) < rank (t.inForce current phi stateEntropy) := by
  rw [short.inForce_near, short.inForce_far]
  obtain ⟨up, -⟩ | ⟨back, -⟩ := short.onward
  · exact up
  · exact absurd back (rank_classify_mono ordered le).not_gt

theorem FallsShort.lt_rank (short : t.FallsShort current stateEntropy psi phi)
    (ordered : t.low ≤ t.high) (le : phi ≤ psi) :
    rank (t.inForce current psi stateEntropy) < rank (t.inForce current phi stateEntropy) := by
  rw [short.inForce_near, short.inForce_far]
  obtain ⟨-, back⟩ | ⟨-, down⟩ := short.onward
  · exact absurd back (rank_classify_mono ordered le).not_gt
  · exact down

/-- Only a measure that falls short of the other one leaves the order. -/
theorem fallsShort_of_rank_lt (ordered : t.low ≤ t.high) (margin : 0 ≤ t.deadZone)
    (awake : ¬ (current = .decay ∧ stateEntropy < t.minStateEntropy)) (le : phi ≤ psi)
    (lower : rank (t.inForce current psi stateEntropy) <
      rank (t.inForce current phi stateEntropy)) :
    t.FallsShort current stateEntropy phi psi ∨ t.FallsShort current stateEntropy psi phi := by
  have mono : rank (t.classify phi) ≤ rank (t.classify psi) := rank_classify_mono ordered le
  rw [inForce_eq awake, inForce_eq awake] at lower
  -- Within one region the farther measure is granted what the nearer one is, so the regions differ.
  by_cases hphi : t.Granted current phi <;> by_cases hpsi : t.Granted current psi
  · rw [if_pos hphi, if_pos hpsi] at lower
    exact absurd lower mono.not_gt
  · rw [if_pos hphi, if_neg hpsi] at lower
    have further : rank (t.classify phi) < rank (t.classify psi) :=
      mono.lt_of_ne fun same => hpsi (hphi.of_le ordered margin lower le same)
    exact .inl ⟨by rw [propose_eq awake, if_pos hphi], by rw [propose_eq awake, if_neg hpsi],
      .inl ⟨lower, further⟩⟩
  · rw [if_neg hphi, if_pos hpsi] at lower
    have further : rank (t.classify phi) < rank (t.classify psi) :=
      mono.lt_of_ne fun same => hphi (hpsi.of_ge ordered margin lower le same)
    exact .inr ⟨by rw [propose_eq awake, if_pos hpsi], by rw [propose_eq awake, if_neg hphi],
      .inr ⟨further, lower⟩⟩
  · rw [if_neg hphi, if_neg hpsi] at lower
    exact absurd lower (lt_irrefl _)

/-- In exact arithmetic, for thresholds in order and a dead zone that is not negative, with any
overload, consult the policy for a node that is not revived from collapse.  The strategy in force
after the smaller of two measures is not higher than after the larger one, except when one of them
falls short of the other: a change is proposed at that one, and none at the measure that calls for a
region further on, which then lies within the dead zone of a threshold. -/
theorem monotone_unless_falls_short (t : LocalThresholds ℝ) (ordered : t.low ≤ t.high)
    (margin : 0 ≤ t.deadZone) (current : Strategy) (stateEntropy : ℝ)
    (awake : ¬ (current = .decay ∧ stateEntropy < t.minStateEntropy)) :
    (∀ phi psi, phi ≤ psi →
      (rank (t.inForce current phi stateEntropy) ≤ rank (t.inForce current psi stateEntropy) ↔
        ¬ t.FallsShort current stateEntropy phi psi ∧
          ¬ t.FallsShort current stateEntropy psi phi)) ∧
    ∀ near far, t.FallsShort current stateEntropy near far →
      t.inForce current far stateEntropy = current ∧ ∃ b ∈ t.bounds, |far - b| ≤ t.deadZone := by
  refine ⟨fun phi psi le => ⟨fun mono => ⟨fun short => ?_, fun short => ?_⟩, ?_⟩,
    fun near far short => ⟨short.inForce_far, short.exists_bound margin awake⟩⟩
  · exact (short.rank_lt ordered le).not_ge mono
  · exact (short.lt_rank ordered le).not_ge mono
  · rintro ⟨up, down⟩
    by_contra! lower
    exact (fallsShort_of_rank_lt ordered margin awake le lower).elim up down

/-- An exploring node synchronises at `1.9` and stabilises at `2.4`, and is left as it is just past
the threshold between them. -/
theorem monotone_unless_falls_short_standard :
    let t : LocalThresholds ℝ := .standard
    t.low ≤ t.high ∧ 0 ≤ t.deadZone ∧
      rank (t.inForce .explore 1.9 0.5) ≤ rank (t.inForce .explore 2.4 0.5) ∧
      t.FallsShort .explore 0.5 1.9 2.1 ∧ t.inForce .explore 2.1 0.5 = .explore ∧
      ∃ b ∈ t.bounds, |2.1 - b| ≤ t.deadZone := by
  intro t
  have ordered : t.low ≤ t.high := by norm_num [t, standard]
  have margin : 0 ≤ t.deadZone := by norm_num [t, standard]
  have near : t.classify 1.9 = .sync := by norm_num [t, classify, standard]
  have far : t.classify 2.1 = .stabilize := by norm_num [t, classify, standard]
  have distinct : Strategy.sync ≠ .explore ∧ Strategy.stabilize ≠ .explore ∧
      Strategy.sync ≠ .stabilize := by decide
  have moves : t.propose .explore 1.9 0.5 = some .sync ∧
      t.propose .explore 2.4 0.5 = some .stabilize := by
    norm_num [t, propose, classify, withMargin, rank, standard, distinct]
  have stays : t.propose .explore 2.1 0.5 = none := by
    norm_num [t, propose, classify, withMargin, rank, standard, distinct]
  have short : t.FallsShort .explore 0.5 1.9 2.1 :=
    ⟨by rw [moves.1, near], stays, .inl (by rw [near, far]; decide)⟩
  obtain ⟨mono, falls⟩ := monotone_unless_falls_short t ordered margin .explore 0.5 (by simp)
  refine ⟨ordered, margin, (mono 1.9 2.4 (by norm_num)).2 ⟨fun h => ?_, fun h => ?_⟩, short,
    falls 1.9 2.1 short⟩
  · exact Option.some_ne_none _ (moves.2.symm.trans h.refused)
  · exact Option.some_ne_none _ (moves.1.symm.trans h.refused)

/-- Past the high threshold an exploring node is not even synchronised, as it is before it, and
below the low one a stabilising node is not either. -/
theorem further_measures_are_refused :
    let t : LocalThresholds ℝ := .standard
    t.low ≤ t.high ∧ 0 ≤ t.deadZone ∧
      t.inForce .explore 1.9 0.5 = .sync ∧ t.inForce .explore 2.1 0.5 = .explore ∧
      ¬ rank (t.inForce .explore 1.9 0.5) ≤ rank (t.inForce .explore 2.1 0.5) ∧
      t.inForce .stabilize 1.0 0.5 = .stabilize ∧ t.inForce .stabilize 1.5 0.5 = .sync ∧
      ¬ rank (t.inForce .stabilize 1.0 0.5) ≤ rank (t.inForce .stabilize 1.5 0.5) := by
  intro t
  have distinct : Strategy.sync ≠ .explore ∧ Strategy.stabilize ≠ .explore ∧
      Strategy.explore ≠ .stabilize ∧ Strategy.sync ≠ .stabilize ∧ Strategy.stabilize ≠ .sync := by
    decide
  have up : t.inForce .explore 1.9 0.5 = .sync ∧ t.inForce .explore 2.1 0.5 = .explore := by
    norm_num [t, inForce, propose, classify, withMargin, rank, standard, distinct]
  have down : t.inForce .stabilize 1.0 0.5 = .stabilize ∧
      t.inForce .stabilize 1.5 0.5 = .sync := by
    norm_num [t, inForce, propose, classify, withMargin, rank, standard, distinct]
  refine ⟨by norm_num [t, standard], by norm_num [t, standard], up.1, up.2, ?_, down.1, down.2, ?_⟩
  · rw [up.1, up.2]
    decide
  · rw [down.1, down.2]
    decide

end LocalThresholds

end AdaptivePopulation
