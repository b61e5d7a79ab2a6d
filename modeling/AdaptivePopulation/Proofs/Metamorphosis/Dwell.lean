import Mathlib.Tactic.SplitIfs
import AdaptivePopulation.Metamorphosis.PopulationController

/-!
# Dwelling in a mode

Along every sequence of samples a population controller switches no sooner than its dwell admits,
only across the end of its band that calls for the new mode, and as soon as the dwell admits: a
crossing that is held back is never forgotten.  The invariant of a run, `Dwells`, says what the
count since the last switch amounts to.
-/

namespace AdaptivePopulation

namespace HysteresisConfig

variable {α : Type} [Scalar α]

/-- The measure has fallen out of the band. -/
def Below (c : HysteresisConfig α) (s : α) : Prop := s < c.band.1

/-- The measure has risen out of the band. -/
def Above (c : HysteresisConfig α) (s : α) : Prop := c.band.2 < s

instance (c : HysteresisConfig α) (s : α) : Decidable (c.Below s) :=
  inferInstanceAs (Decidable (s < c.band.1))

instance (c : HysteresisConfig α) (s : α) : Decidable (c.Above s) :=
  inferInstanceAs (Decidable (c.band.2 < s))

/-- The switches that a measure outside the band calls for. -/
inductive Crosses (c : HysteresisConfig α) (s : α) : PopulationMode → PopulationMode → Prop where
  | consolidate (h : c.Above s) : Crosses c s .exploration .consolidation
  | transcend (h : c.Above s) : Crosses c s .consolidation .transcendence
  | retreat (h : c.Below s) : Crosses c s .consolidation .exploration
  | fall (h : c.Below s) : Crosses c s .transcendence .exploration

end HysteresisConfig

namespace PopulationController

variable {α : Type} [Scalar α]

/-! ## One observation -/

variable {c : PopulationController α} {s : α} {mode : PopulationMode}

theorem desired?_of_below (h : c.config.Below s) : c.desired? s = some .exploration :=
  if_pos h

theorem desired?_of_above (h : c.config.Above s) (hb : ¬ c.config.Below s) :
    c.desired? s = some (if c.mode = .exploration then .consolidation else .transcendence) := by
  refine (if_neg hb).trans ((if_pos h).trans ?_)
  cases c.mode <;> rfl

/-- Another mode is called for by a measure outside the band only. -/
theorem crosses_of_desired? (h : c.desired? s = some mode) (hne : mode ≠ c.mode) :
    c.config.Crosses s c.mode mode := by
  by_cases hb : c.config.Below s
  · rw [desired?_of_below hb] at h
    obtain rfl := Option.some.inj h
    cases hm : c.mode with
    | exploration => exact absurd hm.symm hne
    | consolidation => exact .retreat hb
    | transcendence => exact .fall hb
  · by_cases ha : c.config.Above s
    · rw [desired?_of_above ha hb] at h
      obtain rfl := Option.some.inj h
      cases hm : c.mode with
      | exploration => exact .consolidate ha
      | consolidation => exact .transcend ha
      | transcendence =>
        rw [hm] at hne
        exact absurd rfl hne
    · have undesired : c.desired? s = none := (if_neg hb).trans (if_neg ha)
      rw [undesired] at h
      contradiction

/-- The count since the last switch with the observation that is being made. -/
def counted (c : PopulationController α) : Nat := min (c.sinceSwitch + 1) countLimit

/-- The controller after an observation that leaves it in its mode. -/
def stay (c : PopulationController α) (phi : α) : PopulationController α :=
  { c with smoothed := some (c.smooth phi), sinceSwitch := c.counted }

/-- An observation leaves the mode as it is, because no other mode is called for or because the
dwell is not over, or else switches to the mode that is called for. -/
theorem observe_spec (c : PopulationController α) (phi : α) :
    (c.observe phi = (none, c.stay phi) ∧
      ∀ mode, c.desired? (c.smooth phi) = some mode → mode ≠ c.mode →
        c.counted < c.config.minDwell) ∨
    ∃ mode, c.desired? (c.smooth phi) = some mode ∧ mode ≠ c.mode ∧
      c.config.minDwell ≤ c.counted ∧
      c.observe phi = (some (c.mode, mode), ⟨c.config, mode, some (c.smooth phi), 0⟩) := by
  unfold observe
  dsimp only
  split
  case h_1 inside =>
    have inside : c.desired? (c.smooth phi) = none := inside
    refine Or.inl ⟨rfl, fun mode called => ?_⟩
    rw [inside] at called
    contradiction
  case h_2 mode called =>
    have called : c.desired? (c.smooth phi) = some mode := called
    split_ifs with held
    · refine Or.inl ⟨rfl, fun m hm hne => held.resolve_left fun e => hne ?_⟩
      rw [← e]
      exact Option.some.inj (hm.symm.trans called)
    · obtain ⟨hne, passed⟩ := not_or.1 held
      exact Or.inr ⟨mode, called, hne, Nat.le_of_not_lt passed, rfl⟩

/-! ## Runs -/

/-- The controller that has been fed samples from its start. -/
def fed (config : HysteresisConfig α) (samples : List α) : PopulationController α :=
  samples.foldl (fun c phi => (c.observe phi).2) (start config)

/-- The modes before and after the switch at the observation of a number, counted from zero. -/
def switchAt? (config : HysteresisConfig α) (samples : List α) (k : Nat) :
    Option (PopulationMode × PopulationMode) :=
  samples[k]?.bind fun phi => ((fed config (samples.take k)).observe phi).1

variable {config : HysteresisConfig α} {samples : List α} {k : Nat} {phi : α}

theorem fed_take_succ (config : HysteresisConfig α) (h : samples[k]? = some phi) :
    fed config (samples.take (k + 1)) = ((fed config (samples.take k)).observe phi).2 := by
  rw [List.take_add_one, h, fed, List.foldl_append]
  rfl

theorem switchAt?_eq (config : HysteresisConfig α) (h : samples[k]? = some phi) :
    switchAt? config samples k = ((fed config (samples.take k)).observe phi).1 := by
  rw [switchAt?, h]
  rfl

theorem lt_length_of_switchAt? {p : PopulationMode × PopulationMode}
    (h : switchAt? config samples k = some p) : k < samples.length := by
  refine Nat.lt_of_not_le fun hk => ?_
  rw [switchAt?, List.getElem?_eq_none hk] at h
  contradiction

/-- What a run has counted after `k` observations: no less than the dwell if there was no switch,
else the observations since the last one. -/
structure Dwells (config : HysteresisConfig α) (samples : List α) (k : Nat) : Prop where
  config_eq : (fed config (samples.take k)).config = config
  count : (config.minDwell ≤ (fed config (samples.take k)).sinceSwitch ∧
      ∀ j < k, switchAt? config samples j = none) ∨
    ∃ last < k, (switchAt? config samples last).isSome ∧
      (∀ j < k, last < j → switchAt? config samples j = none) ∧
      (fed config (samples.take k)).sinceSwitch = min (k - 1 - last) countLimit

theorem Dwells.step (h : Dwells config samples k) (hc : config.minDwell ≤ countLimit)
    (hk : samples[k]? = some phi) : Dwells config samples (k + 1) := by
  have next := fed_take_succ config hk
  have answer := switchAt?_eq config hk
  obtain ⟨config_eq, count⟩ := h
  generalize fed config (samples.take k) = c at next answer config_eq count
  rcases observe_spec c phi with ⟨stays, -⟩ | ⟨mode, -, -, -, switches⟩
  · rw [stays] at next answer
    have since : (fed config (samples.take (k + 1))).sinceSwitch = c.counted := by rw [next, stay]
    refine ⟨by rw [next]; exact config_eq, ?_⟩
    rw [since, counted]
    rcases count with ⟨passed, quiet⟩ | ⟨last, hlast, switched, quiet, count⟩
    · exact Or.inl ⟨by omega, Nat.forall_lt_succ_right.2 ⟨quiet, answer⟩⟩
    · refine Or.inr ⟨last, by omega, switched, ?_, by omega⟩
      exact Nat.forall_lt_succ_right.2 ⟨quiet, fun _ => answer⟩
  · rw [switches] at next answer
    refine ⟨by rw [next]; exact config_eq, Or.inr ⟨k, Nat.lt_succ_self k, ?_, ?_, ?_⟩⟩
    · rw [answer]
      rfl
    · intro j hj hlt
      omega
    · rw [next]
      simp

theorem dwells (hc : config.minDwell ≤ countLimit) (hk : k ≤ samples.length) :
    Dwells config samples k := by
  induction k with
  | zero => exact ⟨rfl, Or.inl ⟨Nat.le_refl _, fun _ h => absurd h (Nat.not_lt_zero _)⟩⟩
  | succ k ih => exact (ih (Nat.le_of_succ_le hk)).step hc (List.getElem?_eq_getElem hk)

/-- Between two switches the dwell passes. -/
theorem switches_apart (hc : config.minDwell ≤ countLimit) {i j : Nat} (hij : i < j)
    (hi : (switchAt? config samples i).isSome) (hj : (switchAt? config samples j).isSome) :
    i + config.minDwell ≤ j := by
  obtain ⟨p, hp⟩ := Option.isSome_iff_exists.1 hj
  have hlt := lt_length_of_switchAt? hp
  have answer := switchAt?_eq config (List.getElem?_eq_getElem hlt)
  obtain ⟨config_eq, count⟩ := dwells hc (Nat.le_of_lt hlt)
  generalize fed config (samples.take j) = c at answer config_eq count
  rcases observe_spec c samples[j] with ⟨stays, -⟩ | ⟨mode, -, -, passed, -⟩
  · rw [hp, stays] at answer
    contradiction
  · rw [config_eq, counted] at passed
    rcases count with ⟨-, quiet⟩ | ⟨last, hlast, -, quiet, count⟩
    · rw [quiet i hij] at hi
      contradiction
    · have hle : i ≤ last := by
        refine Nat.le_of_not_lt fun h => ?_
        rw [quiet i hij h] at hi
        contradiction
      omega

/-- A mode that is called for and not switched to is held back by the dwell after a switch. -/
theorem exists_switch_of_held (hc : config.minDwell ≤ countLimit) (hk : samples[k]? = some phi)
    (quiet : switchAt? config samples k = none)
    (called : (fed config (samples.take k)).desired? ((fed config (samples.take k)).smooth phi) =
      some mode) (hne : mode ≠ (fed config (samples.take k)).mode) :
    ∃ j < k, k < j + config.minDwell ∧ (switchAt? config samples j).isSome := by
  have answer := switchAt?_eq config hk
  obtain ⟨hlt, -⟩ := List.getElem?_eq_some_iff.1 hk
  obtain ⟨config_eq, count⟩ := dwells hc (Nat.le_of_lt hlt)
  generalize fed config (samples.take k) = c at answer config_eq count called hne
  rcases observe_spec c phi with ⟨-, held⟩ | ⟨_, -, -, -, switches⟩
  · have held := held mode called hne
    rw [config_eq, counted] at held
    rcases count with ⟨passed, -⟩ | ⟨last, hlast, switched, -, count⟩
    · omega
    · exact ⟨last, hlast, by omega, switched⟩
  · rw [quiet, switches] at answer
    contradiction

/-- A switch leads from the mode before it to another one that is called for. -/
theorem switch_spec (hk : samples[k]? = some phi) {source target : PopulationMode}
    (h : switchAt? config samples k = some (source, target)) :
    source = (fed config (samples.take k)).mode ∧
      target = (fed config (samples.take (k + 1))).mode ∧ target ≠ source ∧
      (fed config (samples.take k)).desired? ((fed config (samples.take k)).smooth phi) =
        some target := by
  have answer := switchAt?_eq config hk
  rw [fed_take_succ config hk]
  rcases observe_spec (fed config (samples.take k)) phi with
    ⟨stays, -⟩ | ⟨mode, called, hne, -, switches⟩
  · rw [h, stays] at answer
    contradiction
  · rw [h, switches] at answer
    obtain ⟨rfl, rfl⟩ := Prod.mk.inj (Option.some.inj answer)
    rw [switches]
    exact ⟨rfl, rfl, hne, called⟩

theorem mode_of_switchAt?_eq_none (hk : samples[k]? = some phi)
    (h : switchAt? config samples k = none) :
    (fed config (samples.take (k + 1))).mode = (fed config (samples.take k)).mode := by
  have answer := switchAt?_eq config hk
  rw [fed_take_succ config hk]
  rcases observe_spec (fed config (samples.take k)) phi with ⟨stays, -⟩ | ⟨_, -, -, -, switches⟩
  · rw [stays, stay]
  · rw [h, switches] at answer
    contradiction

/-- In every run, switches are at least the dwell and one observation apart, and each crosses the
end of the band that it belongs to.  Whenever the smoothed measure is outside the band and the mode
is not the one that it leads to, a switch less than the dwell ago holds it back.  The dwell is any
that sixty-four bits hold. -/
theorem switches_follow_band (config : HysteresisConfig α) (hc : config.minDwell ≤ countLimit)
    (samples : List α) :
    (∀ i j, i < j → (switchAt? config samples i).isSome → (switchAt? config samples j).isSome →
      i + max config.minDwell 1 ≤ j) ∧
    ∀ k < samples.length, ∃ s,
      (fed config (samples.take (k + 1))).smoothed = some s ∧
      (switchAt? config samples k = none →
        (fed config (samples.take (k + 1))).mode = (fed config (samples.take k)).mode) ∧
      (∀ source target, switchAt? config samples k = some (source, target) →
        source = (fed config (samples.take k)).mode ∧
        target = (fed config (samples.take (k + 1))).mode ∧ config.Crosses s source target) ∧
      (config.Below s → (fed config (samples.take (k + 1))).mode ≠ .exploration →
        ∃ j < k, k < j + config.minDwell ∧ (switchAt? config samples j).isSome) ∧
      (config.Above s → ¬ config.Below s → switchAt? config samples k = none →
        (fed config (samples.take (k + 1))).mode ≠ .transcendence →
        ∃ j < k, k < j + config.minDwell ∧ (switchAt? config samples j).isSome) := by
  refine ⟨fun i j hij hi hj => ?_, fun k hlt => ?_⟩
  · have := switches_apart hc hij hi hj
    omega
  have hk := List.getElem?_eq_getElem hlt
  have config_eq := (dwells hc (Nat.le_of_lt hlt)).config_eq
  refine ⟨(fed config (samples.take k)).smooth samples[k], ?_, mode_of_switchAt?_eq_none hk,
    fun source target h => ?_, fun below left => ?_, fun above hb quiet left => ?_⟩
  · rw [fed_take_succ config hk]
    rcases observe_spec (fed config (samples.take k)) samples[k] with ⟨e, -⟩ | ⟨_, -, -, -, e⟩
    · rw [e, stay]
    · rw [e]
  · obtain ⟨rfl, ht, hne, called⟩ := switch_spec hk h
    have crosses := crosses_of_desired? called hne
    rw [config_eq] at crosses
    exact ⟨rfl, ht, crosses⟩
  · have called := desired?_of_below (c := fed config (samples.take k)) (by rwa [config_eq])
    cases h : switchAt? config samples k with
    | none =>
      rw [mode_of_switchAt?_eq_none hk h] at left
      exact exists_switch_of_held hc hk h called left.symm
    | some p =>
      obtain ⟨-, ht, -, called'⟩ := switch_spec hk h
      rw [← ht] at left
      exact absurd (Option.some.inj (called'.symm.trans called)) left
  · rw [mode_of_switchAt?_eq_none hk quiet] at left
    have called := desired?_of_above (c := fed config (samples.take k)) (by rwa [config_eq])
      (by rwa [config_eq])
    refine exists_switch_of_held hc hk quiet called ?_
    split_ifs with hm
    · rw [hm]
      decide
    · exact left.symm

/-- A crossing back is held for the dwell of three observations, and then answered. -/
theorem switches_follow_band_standard :
    let config : HysteresisConfig Float := .standard
    let samples := [1.6, 2.6, 0.0, 0.0, 0.0]
    config.minDwell ≤ countLimit ∧
      switchAt? config samples 1 = some (.exploration, .consolidation) ∧
      switchAt? config samples 4 = some (.consolidation, .exploration) ∧
      1 + max config.minDwell 1 ≤ 4 ∧
      ∃ j < 3, 3 < j + config.minDwell ∧ (switchAt? config samples j).isSome := by
  intro config samples
  have up : switchAt? config samples 1 = some (.exploration, .consolidation) := by decide +kernel
  have back : switchAt? config samples 4 = some (.consolidation, .exploration) := by decide +kernel
  have below : (fed config (samples.take 4)).smoothed.all fun s => config.Below s := by
    decide +kernel
  have left : (fed config (samples.take 4)).mode ≠ .exploration := by decide +kernel
  have hc : config.minDwell ≤ countLimit := by decide
  obtain ⟨apart, held⟩ := switches_follow_band config hc samples
  obtain ⟨s, smoothed, -, -, forgotten, -⟩ := held 3 (by decide)
  rw [smoothed] at below
  exact ⟨hc, up, back, apart 1 4 (by decide) (up ▸ rfl) (back ▸ rfl),
    forgotten (of_decide_eq_true below) left⟩

end PopulationController

end AdaptivePopulation
