import AdaptivePopulation.Proofs.Metamorphosis.Monotony

/-!
# Settling

A node that is asked about the same measure and the same state entropy again and again, and adopts
what it is proposed, changes at most twice.  The one exception is a collapsed state at a measure
well inside the region of decay.  Such a node is revived whatever its measure, and sent back into
decay whatever its state, so that it goes on changing forever.
-/

namespace AdaptivePopulation

namespace LocalThresholds

variable {α : Type} [Scalar α] {t : LocalThresholds α} {start current next : Strategy}
  {phi stateEntropy : α}

/-- The strategy of a node after a number of consultations about one measure. -/
def adopted (t : LocalThresholds α) (start : Strategy) (phi stateEntropy : α) (n : ℕ) : Strategy :=
  (t.inForce · phi stateEntropy)^[n] start

/-- The state has collapsed, and the measure calls for decay, also when it is moved back by the
margin. -/
def Relapses (t : LocalThresholds α) (phi stateEntropy : α) : Prop :=
  stateEntropy < t.minStateEntropy ∧ t.classify phi = .decay ∧
    t.classify (phi - t.deadZone) = .decay

instance : Decidable (t.Relapses phi stateEntropy) := inferInstanceAs (Decidable (_ ∧ _ ∧ _))

/-- The first `k` consultations are the ones that propose a change. -/
def SettlesAfter (t : LocalThresholds α) (start : Strategy) (phi stateEntropy : α) (k : ℕ) : Prop :=
  ∀ n, t.propose (t.adopted start phi stateEntropy n) phi stateEntropy = none ↔ k ≤ n

/-! ## One consultation -/

theorem inForce_of_propose (h : t.propose current phi stateEntropy = some next) :
    t.inForce current phi stateEntropy = next := by
  rw [inForce, h, Option.getD_some]

/-- What is proposed is a change. -/
theorem ne_of_propose (h : t.propose current phi stateEntropy = some next) : next ≠ current := by
  by_cases awake : current = .decay ∧ stateEntropy < t.minStateEntropy
  · rw [propose, if_pos awake] at h
    rw [← Option.some.inj h, awake.1]
    decide
  · exact (classify_of_propose h awake).1

theorem inForce_ne_iff : t.inForce current phi stateEntropy ≠ current ↔
    t.propose current phi stateEntropy ≠ none := by
  cases h : t.propose current phi stateEntropy with
  | none => simp [inForce, h]
  | some next => simpa [inForce, h] using ne_of_propose h

/-- A change that is no revival leads to the region of the measure, where nothing more is proposed,
unless the node is revived from there. -/
theorem propose_eq_none_of_propose (awake : ¬ (current = .decay ∧ stateEntropy < t.minStateEntropy))
    (steady : ¬ t.Relapses phi stateEntropy)
    (h : t.propose current phi stateEntropy = some next) :
    t.propose next phi stateEntropy = none := by
  obtain ⟨elsewhere, past⟩ := classify_of_propose h awake
  have region : t.classify phi = next := by
    rw [propose_eq awake] at h
    split_ifs at h
    exact Option.some.inj h
  have stays : ¬ (next = .decay ∧ stateEntropy < t.minStateEntropy) := by
    rintro ⟨rfl, collapsed⟩
    have up : rank current < rank .decay :=
      (rank_le current).lt_of_ne (rank_injective.ne elsewhere.symm)
    rw [withMargin, if_pos up] at past
    exact steady ⟨collapsed, region, past⟩
  rw [propose_eq stays, if_neg fun granted => granted.1 region]

/-- Where a relapsing node decays it is revived, and everywhere else it is sent into decay. -/
theorem Relapses.propose_eq (relapses : t.Relapses phi stateEntropy) (current : Strategy) :
    t.propose current phi stateEntropy =
      some (if current = .decay then .explore else .decay) := by
  obtain ⟨collapsed, region, past⟩ := relapses
  by_cases decays : current = .decay
  · rw [propose, if_pos ⟨decays, collapsed⟩, if_pos decays]
  · have up : rank current < rank .decay := (rank_le current).lt_of_ne (rank_injective.ne decays)
    have granted : t.Granted current phi := by
      rw [Granted, region, withMargin, if_pos up]
      exact ⟨Ne.symm decays, past⟩
    rw [LocalThresholds.propose_eq fun revived => decays revived.1, if_pos granted, region,
      if_neg decays]

/-! ## Repeated consultations -/

theorem adopted_succ (t : LocalThresholds α) (start : Strategy) (phi stateEntropy : α) (n : ℕ) :
    t.adopted start phi stateEntropy (n + 1) =
      t.inForce (t.adopted start phi stateEntropy n) phi stateEntropy :=
  Function.iterate_succ_apply' _ n start

theorem settlesAfter_zero (h : t.propose start phi stateEntropy = none) :
    t.SettlesAfter start phi stateEntropy 0 := by
  intro n
  have fixed : Function.IsFixedPt (t.inForce · phi stateEntropy) start := by
    rw [Function.IsFixedPt, inForce, h, Option.getD_none]
  have stays : t.adopted start phi stateEntropy n = start := fixed.iterate n
  simp [stays, h]

theorem SettlesAfter.succ {k : ℕ} (later : t.SettlesAfter next phi stateEntropy k)
    (h : t.propose start phi stateEntropy = some next) :
    t.SettlesAfter start phi stateEntropy (k + 1) := by
  intro n
  cases n with
  | zero => simp [adopted, h]
  | succ n =>
    rw [adopted, Function.iterate_succ_apply, inForce_of_propose h, Nat.succ_le_succ_iff]
    exact later n

/-- Only a revival can be followed by another change, and by no more than that one. -/
theorem exists_settlesAfter (steady : ¬ t.Relapses phi stateEntropy) (start : Strategy) :
    ∃ k ≤ 2, t.SettlesAfter start phi stateEntropy k := by
  -- A node that is not revived is led to the region of the measure at once.
  have awake_settles (s : Strategy) (awake : ¬ (s = .decay ∧ stateEntropy < t.minStateEntropy)) :
      ∃ k ≤ 1, t.SettlesAfter s phi stateEntropy k := by
    cases h : t.propose s phi stateEntropy with
    | none => exact ⟨0, zero_le_one, settlesAfter_zero h⟩
    | some next =>
      exact ⟨1, le_rfl, (settlesAfter_zero (propose_eq_none_of_propose awake steady h)).succ h⟩
  by_cases awake : start = .decay ∧ stateEntropy < t.minStateEntropy
  · have revived : t.propose start phi stateEntropy = some .explore := if_pos awake
    obtain ⟨k, le, settles⟩ := awake_settles .explore (by simp)
    exact ⟨k + 1, by omega, settles.succ revived⟩
  · obtain ⟨k, le, settles⟩ := awake_settles start awake
    exact ⟨k, by omega, settles⟩

/-- Whatever the thresholds and the arithmetic, consult the policy again and again about one measure
and one state entropy, and adopt each proposal.  Unless the node relapses, it changes at most twice,
with the first consultations, and is proposed nothing from then on.  If it relapses, each
consultation changes it, into decay and out of it in turn. -/
theorem settles_unless_relapsing (t : LocalThresholds α) (start : Strategy)
    (phi stateEntropy : α) :
    (¬ t.Relapses phi stateEntropy → ∃ k ≤ 2, ∀ n,
      (t.adopted start phi stateEntropy (n + 1) ≠ t.adopted start phi stateEntropy n ↔ n < k) ∧
      (t.propose (t.adopted start phi stateEntropy n) phi stateEntropy = none ↔ k ≤ n)) ∧
    (t.Relapses phi stateEntropy → ∀ n,
      t.propose (t.adopted start phi stateEntropy n) phi stateEntropy =
        some (if t.adopted start phi stateEntropy n = .decay then .explore else .decay)) := by
  refine ⟨fun steady => ?_, fun relapses n => relapses.propose_eq _⟩
  obtain ⟨k, le, settles⟩ := exists_settlesAfter steady start
  refine ⟨k, le, fun n => ⟨?_, settles n⟩⟩
  rw [adopted_succ, inForce_ne_iff, ne_eq, settles n, not_le]

/-- A collapsed node that decays at a measure of synchronisation is revived and then synchronises,
and this is all. -/
theorem settles_unless_relapsing_revived :
    let t : LocalThresholds Float := .standard
    ¬ t.Relapses 1.6 0.0 ∧ t.adopted .decay 1.6 0.0 1 = .explore ∧
      t.adopted .decay 1.6 0.0 2 = .sync ∧
      ∃ k ≤ 2, ∀ n, t.propose (t.adopted .decay 1.6 0.0 n) 1.6 0.0 = none ↔ k ≤ n := by
  intro t
  have steady : ¬ t.Relapses 1.6 0.0 := by decide
  obtain ⟨k, le, settles⟩ := (settles_unless_relapsing t .decay 1.6 0.0).1 steady
  exact ⟨steady, by decide, by decide, k, le, fun n => (settles n).2⟩

/-- At a measure past the overload and the dead zone a collapsed node never settles. -/
theorem collapse_and_overload_undo_each_other :
    let t : LocalThresholds Float := { standard with overload := some 4.0 }
    t.low ≤ t.high ∧ 0.0 ≤ t.deadZone ∧
      (∀ n, t.adopted .explore 4.5 0.0 (n + 1) ≠ t.adopted .explore 4.5 0.0 n) ∧
      ¬ ∃ k, ∀ n, k ≤ n → t.propose (t.adopted .explore 4.5 0.0 n) 4.5 0.0 = none := by
  intro t
  have relapses : t.Relapses 4.5 0.0 := by decide
  have proposed (n : ℕ) : t.propose (t.adopted .explore 4.5 0.0 n) 4.5 0.0 ≠ none := by
    rw [relapses.propose_eq]
    exact Option.some_ne_none _
  refine ⟨by decide, by decide, fun n => ?_, fun ⟨k, settled⟩ => proposed k (settled k le_rfl)⟩
  rw [adopted_succ]
  exact inForce_ne_iff.2 (proposed n)

end LocalThresholds

end AdaptivePopulation
