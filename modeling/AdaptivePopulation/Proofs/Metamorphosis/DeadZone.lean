import Mathlib.Data.List.Chain
import Mathlib.Data.Real.Basic
import AdaptivePopulation.Metamorphosis.LocalController
import AdaptivePopulation.Proofs.Exact

/-!
# Changes around the thresholds

A node that adopts whatever its thresholds propose leaves behind a list of changes.  In exact
arithmetic the region of a measure rises with the measure, and a change needs the measure to lie the
dead zone past the threshold it came over.  Hence a change back needs the measure to move by more
than twice the dead zone, and a measure that moves less changes a node at most three times.
-/

namespace AdaptivePopulation

namespace LocalThresholds

/-- A change that a node has adopted, with the measure and the state entropy that called for it. -/
structure Change (α : Type) where
  measure : α
  stateEntropy : α
  source : Strategy
  target : Strategy

namespace Change

variable {α : Type}

/-- The change revives a decaying node whose state has collapsed. -/
def IsRevival [Scalar α] (t : LocalThresholds α) (x : Change α) : Prop :=
  x.source = .decay ∧ x.stateEntropy < t.minStateEntropy

/-- The change is to a strategy of higher rank. -/
def IsUpward (x : Change α) : Prop := rank x.source < rank x.target

/-- The change is to a strategy of lower rank. -/
def IsDownward (x : Change α) : Prop := rank x.target < rank x.source

instance (x : Change α) : Decidable x.IsUpward := inferInstanceAs (Decidable (_ < _))

instance (x : Change α) : Decidable x.IsDownward := inferInstanceAs (Decidable (_ < _))

/-- The changes go in opposite directions. -/
def Opposes (x y : Change α) : Prop :=
  x.IsUpward ∧ y.IsDownward ∨ x.IsDownward ∧ y.IsUpward

end Change

section Runs

variable {α : Type} [Scalar α] {t : LocalThresholds α} {start current target : Strategy}
  {phi stateEntropy : α} {calls : List (α × α)}

/-- The changes that a node adopts when it is asked about measures and state entropies in turn. -/
def changes (t : LocalThresholds α) : Strategy → List (α × α) → List (Change α)
  | _, [] => []
  | current, (phi, stateEntropy) :: calls =>
    match t.propose current phi stateEntropy with
    | none => changes t current calls
    | some next => ⟨phi, stateEntropy, current, next⟩ :: changes t next calls

/-! ## One proposal -/

/-- A proposal that is no revival leads elsewhere, to the region where the measure lies also when it
is moved back by the margin. -/
theorem classify_of_propose (h : t.propose current phi stateEntropy = some target)
    (awake : ¬ (current = .decay ∧ stateEntropy < t.minStateEntropy)) :
    target ≠ current ∧ t.classify (t.withMargin current target phi) = target := by
  unfold propose at h
  rw [if_neg awake] at h
  dsimp only at h
  split_ifs at h with same past
  obtain rfl := Option.some.inj h
  exact ⟨same, past⟩

/-! ## The list of changes -/

theorem propose_of_mem_changes : ∀ x ∈ t.changes start calls,
    t.propose x.source x.measure x.stateEntropy = some x.target ∧
      (x.measure, x.stateEntropy) ∈ calls := by
  induction calls generalizing start with
  | nil => exact nofun
  | cons call calls ih =>
    obtain ⟨phi, stateEntropy⟩ := call
    intro x hx
    rw [changes] at hx
    split at hx
    case h_1 =>
      obtain ⟨proposed, hm⟩ := ih x hx
      exact ⟨proposed, List.mem_cons_of_mem _ hm⟩
    case h_2 next proposed =>
      rcases List.mem_cons.1 hx with rfl | hx
      · exact ⟨proposed, List.mem_cons_self⟩
      · obtain ⟨proposed, hm⟩ := ih x hx
        exact ⟨proposed, List.mem_cons_of_mem _ hm⟩

/-- Each change starts from the strategy that the one before it has led to. -/
theorem changes_linked : (t.changes start calls).IsChain (fun x y => y.source = x.target) ∧
    ∀ x ∈ (t.changes start calls).head?, x.source = start := by
  induction calls generalizing start with
  | nil => exact ⟨.nil, nofun⟩
  | cons call calls ih =>
    obtain ⟨phi, stateEntropy⟩ := call
    rw [changes]
    split
    case h_1 => exact ih
    case h_2 next _ =>
      obtain ⟨linked, first⟩ := @ih next
      refine ⟨linked.cons first, fun x hx => ?_⟩
      rw [← Option.some.inj hx]

end Runs

/-! ## Directions -/

theorem rank_injective : Function.Injective rank := by
  intro s s' h
  cases s <;> cases s' <;> first | rfl | cases h

theorem rank_le (s : Strategy) : rank s ≤ 3 := by
  cases s <;> decide

section Directions

variable {α : Type} {x : Change α} {l : List (Change α)}

theorem isUpward_or_isDownward (h : x.target ≠ x.source) : x.IsUpward ∨ x.IsDownward :=
  (Nat.lt_or_gt_of_ne (rank_injective.ne h)).symm

/-- A change follows another one without turning back. -/
def GoesOn (x y : Change α) : Prop := y.source = x.target ∧ ¬ x.Opposes y

/-- Changes of which each keeps the direction of the one before it all go in one direction, and no
more of them than there is room for from where they start. -/
theorem run_in_direction {Direction : Change α → Prop} (room : Strategy → ℕ)
    (narrows : ∀ y, Direction y → room y.target < room y.source)
    (run : (x :: l).IsChain fun x y => y.source = x.target ∧ (Direction x → Direction y))
    (hx : Direction x) : (∀ y ∈ x :: l, Direction y) ∧ l.length < room x.source := by
  induction l generalizing x with
  | nil => exact ⟨List.forall_mem_singleton.2 hx, Nat.zero_lt_of_lt (narrows x hx)⟩
  | cons y l ih =>
    obtain ⟨⟨link, onward⟩, run⟩ := List.isChain_cons_cons.1 run
    obtain ⟨all, fits⟩ := ih run (onward hx)
    have less := narrows x hx
    rw [link] at fits
    refine ⟨List.forall_mem_cons.2 ⟨hx, all⟩, ?_⟩
    rw [List.length_cons]
    omega

/-- Changes that never turn back go in one direction, and there are at most three. -/
theorem one_direction (run : l.IsChain GoesOn) (proper : ∀ y ∈ l, y.target ≠ y.source) :
    ((∀ y ∈ l, y.IsUpward) ∨ ∀ y ∈ l, y.IsDownward) ∧ l.length ≤ 3 := by
  cases l with
  | nil => exact ⟨.inl nofun, Nat.zero_le 3⟩
  | cons x l =>
    have direction : ∀ y ∈ x :: l, y.IsUpward ∨ y.IsDownward :=
      fun y hy => isUpward_or_isDownward (proper y hy)
    have top := rank_le x.source
    rw [List.length_cons]
    rcases direction x List.mem_cons_self with up | down
    · have onward : (x :: l).IsChain fun x y =>
          y.source = x.target ∧ (x.IsUpward → y.IsUpward) :=
        run.imp_of_mem_imp fun _ y _ hy ⟨link, on⟩ => ⟨link, fun up =>
          (direction y hy).resolve_right fun down => on (.inl ⟨up, down⟩)⟩
      have narrows : ∀ y : Change α, y.IsUpward → 3 - rank y.target < 3 - rank y.source :=
        fun y up => Nat.sub_lt_sub_left (up.trans_le (rank_le _)) up
      obtain ⟨all, fits⟩ := run_in_direction (3 - rank ·) narrows onward up
      exact ⟨.inl all, by omega⟩
    · have onward : (x :: l).IsChain fun x y =>
          y.source = x.target ∧ (x.IsDownward → y.IsDownward) :=
        run.imp_of_mem_imp fun _ y _ hy ⟨link, on⟩ => ⟨link, fun down =>
          (direction y hy).resolve_left fun up => on (.inr ⟨down, up⟩)⟩
      obtain ⟨all, fits⟩ := run_in_direction rank (fun _ down => down) onward down
      exact ⟨.inr all, by omega⟩

end Directions

/-! ## Measures -/

variable {t : LocalThresholds ℝ} {start : Strategy} {calls : List (ℝ × ℝ)} {x y : Change ℝ}

/-- The region rises with the measure, wherever the threshold of overload lies. -/
theorem rank_classify_mono (ordered : t.low ≤ t.high) :
    Monotone fun phi => rank (t.classify phi) := by
  intro phi psi le
  by_cases overload : t.overload.any (· < psi)
  · have top : t.classify psi = .decay := if_pos overload
    show rank _ ≤ rank _
    rw [top]
    exact rank_le _
  · have calm : ¬ t.overload.any (· < phi) := by
      cases h : t.overload with
      | none => simp
      | some o =>
        rw [h] at overload
        simp only [Option.any_some, decide_eq_true_eq, not_lt] at overload ⊢
        exact le.trans overload
    simp only [classify, overload, calm]
    split_ifs <;> first | decide | (exfalso; linarith)

/-- A change that is no revival leads to the region of the measure moved back by the margin. -/
theorem classify_of_mem_changes (awake : ∀ x ∈ t.changes start calls, ¬ x.IsRevival t)
    (hx : x ∈ t.changes start calls) :
    x.target ≠ x.source ∧ t.classify (t.withMargin x.source x.target x.measure) = x.target :=
  classify_of_propose (propose_of_mem_changes x hx).1 (awake x hx)

/-- An upward change to a higher strategy and a downward one to a lower strategy lie apart. -/
theorem apart_of_rank_lt (ordered : t.low ≤ t.high)
    (hx : t.classify (t.withMargin x.source x.target x.measure) = x.target)
    (hy : t.classify (t.withMargin y.source y.target y.measure) = y.target)
    (up : x.IsUpward) (down : y.IsDownward) (lower : rank y.target < rank x.target) :
    2 * t.deadZone < x.measure - y.measure := by
  have back : t.withMargin x.source x.target x.measure = x.measure - t.deadZone := if_pos up
  have forth : t.withMargin y.source y.target y.measure = y.measure + t.deadZone :=
    if_neg down.not_gt
  have falls : rank (t.classify (y.measure + t.deadZone)) <
      rank (t.classify (x.measure - t.deadZone)) := by
    rw [← back, ← forth, hx, hy]
    exact lower
  have := (rank_classify_mono ordered).reflect_lt falls
  linarith

/-- Between two changes in opposite directions the measure moves by more than twice the dead
zone. -/
theorem changes_turn (ordered : t.low ≤ t.high)
    (awake : ∀ x ∈ t.changes start calls, ¬ x.IsRevival t) :
    (t.changes start calls).IsChain fun x y => y.source = x.target ∧
      (x.Opposes y → 2 * t.deadZone < |x.measure - y.measure|) := by
  refine changes_linked.1.imp_of_mem_imp fun x y hx hy link => ⟨link, fun opposed => ?_⟩
  have px := (classify_of_mem_changes awake hx).2
  have py := (classify_of_mem_changes awake hy).2
  rcases opposed with ⟨up, down⟩ | ⟨down, up⟩
  · have lower : rank y.target < rank x.target := link ▸ down
    exact (apart_of_rank_lt ordered px py up down lower).trans_le (le_abs_self _)
  · have higher : rank x.target < rank y.target := link ▸ up
    rw [abs_sub_comm]
    exact (apart_of_rank_lt ordered py px up down higher).trans_le (le_abs_self _)

/-- In exact arithmetic and for thresholds in order, with any overload and any dead zone, take a
node that adopts what it is proposed and is never revived from collapse.  If two changes in a row go
in opposite directions, the measures at which they happened differ by more than twice the dead zone.
If all measures lie in an interval of at most that width, all changes go in one direction and there
are at most three. -/
theorem jitter_is_absorbed (t : LocalThresholds ℝ) (ordered : t.low ≤ t.high) (start : Strategy)
    (calls : List (ℝ × ℝ)) (awake : ∀ x ∈ t.changes start calls, ¬ x.IsRevival t) :
    ((t.changes start calls).IsChain fun x y =>
      x.Opposes y → 2 * t.deadZone < |x.measure - y.measure|) ∧
    ∀ lo hi, hi - lo ≤ 2 * t.deadZone → (∀ call ∈ calls, lo ≤ call.1 ∧ call.1 ≤ hi) →
      ((∀ x ∈ t.changes start calls, x.IsUpward) ∨
        ∀ x ∈ t.changes start calls, x.IsDownward) ∧
      (t.changes start calls).length ≤ 3 := by
  have turn := changes_turn ordered awake
  refine ⟨turn.imp fun _ _ => And.right, fun lo hi narrow within => ?_⟩
  have close : ∀ x ∈ t.changes start calls, lo ≤ x.measure ∧ x.measure ≤ hi := fun x hx =>
    within _ (propose_of_mem_changes x hx).2
  have run : (t.changes start calls).IsChain GoesOn := by
    refine turn.imp_of_mem_imp fun x y hx hy ⟨link, apart⟩ => ⟨link, fun opposed => ?_⟩
    obtain ⟨xlo, xhi⟩ := close x hx
    obtain ⟨ylo, yhi⟩ := close y hy
    have near : |x.measure - y.measure| ≤ hi - lo := abs_sub_le_iff.2 ⟨by linarith, by linarith⟩
    linarith [apart opposed]
  exact one_direction run fun x hx => (classify_of_mem_changes awake hx).1

/-- A node that stabilises and comes back has seen its measure fall by more than twice the dead
zone; a measure that stays within that width goes in one direction. -/
theorem jitter_is_absorbed_standard :
    let t : LocalThresholds ℝ := .standard
    let there : List (ℝ × ℝ) := [(1.9, 0.5), (2.4, 0.5)]
    let back : List (ℝ × ℝ) := [(1.9, 0.5), (2.4, 0.5), (1.6, 0.5)]
    t.low ≤ t.high ∧
      t.changes .explore there = [⟨1.9, 0.5, .explore, .sync⟩, ⟨2.4, 0.5, .sync, .stabilize⟩] ∧
      ((∀ x ∈ t.changes .explore there, x.IsUpward) ∨
        ∀ x ∈ t.changes .explore there, x.IsDownward) ∧
      t.changes .explore back = [⟨1.9, 0.5, .explore, .sync⟩, ⟨2.4, 0.5, .sync, .stabilize⟩,
        ⟨1.6, 0.5, .stabilize, .sync⟩] ∧
      2 * t.deadZone < |(2.4 : ℝ) - 1.6| := by
  intro t there back
  have ordered : t.low ≤ t.high := by norm_num [t, standard]
  have distinct : Strategy.sync ≠ .explore ∧ Strategy.stabilize ≠ .sync ∧
      Strategy.sync ≠ .stabilize := by decide
  have hthere : t.changes .explore there =
      [⟨1.9, 0.5, .explore, .sync⟩, ⟨2.4, 0.5, .sync, .stabilize⟩] := by
    norm_num [t, there, changes, propose, classify, withMargin, rank, standard, distinct]
  have hback : t.changes .explore back = [⟨1.9, 0.5, .explore, .sync⟩,
      ⟨2.4, 0.5, .sync, .stabilize⟩, ⟨1.6, 0.5, .stabilize, .sync⟩] := by
    norm_num [t, back, changes, propose, classify, withMargin, rank, standard, distinct]
  obtain ⟨-, narrow⟩ := jitter_is_absorbed t ordered .explore there (by
    rw [hthere]
    simp [Change.IsRevival])
  obtain ⟨turn, -⟩ := jitter_is_absorbed t ordered .explore back (by
    rw [hback]
    simp [Change.IsRevival])
  refine ⟨ordered, hthere, (narrow 1.9 2.4 ?_ ?_).1, hback, ?_⟩
  · norm_num [t, standard]
  · norm_num [there]
  · rw [hback] at turn
    have last := (List.isChain_cons_cons.1 (List.isChain_cons_cons.1 turn).2).1
    exact last (.inl ⟨by decide, by decide⟩)

end LocalThresholds

end AdaptivePopulation
