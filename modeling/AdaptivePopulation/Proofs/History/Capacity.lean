import AdaptivePopulation.Proofs.History
import AdaptivePopulation.Proofs.History.Text

/-!
# Windows that fit their capacity

A window gives up its oldest snapshot when it holds exactly as many as its capacity says.  Hence one
that fits its capacity goes on to hold the most recent snapshots, and one that does not, because
there is no room for any or because it holds too many, gives up none until it is cleared.  New
windows fit.  A window that is read from a text need not.
-/

namespace AdaptivePopulation

namespace HistoryWindow

/-- A call that changes what a window holds. -/
inductive Action (α : Type) where
  | push (snapshot : List α)
  | clear

variable {α : Type} {w : HistoryWindow α} {actions : List (Action α)}

/-- The window after a call. -/
def perform (w : HistoryWindow α) : Action α → HistoryWindow α
  | .push s => w.push s
  | .clear => w.clear

/-- The window after a list of actions. -/
def run (w : HistoryWindow α) (actions : List (Action α)) : HistoryWindow α :=
  actions.foldl perform w

/-- What has been recorded after a call, if everything is kept until it is cleared. -/
def Action.record (recorded : List (List α)) : Action α → List (List α)
  | .push s => recorded ++ [s]
  | .clear => []

/-- The snapshots that a window started with and those pushed into it, since it was last cleared. -/
def recorded (w : HistoryWindow α) (actions : List (Action α)) : List (List α) :=
  actions.foldl Action.record w.snapshots

/-- There is room for a snapshot, and no more of them than there is room for. -/
structure Fits (w : HistoryWindow α) : Prop where
  room : 0 < w.capacity
  within : w.length ≤ w.capacity

/-- The window holds the most recent snapshots: it fits, or has been cleared and has room. -/
def Bounded (w : HistoryWindow α) (actions : List (Action α)) : Prop :=
  w.Fits ∨ 0 < w.capacity ∧ .clear ∈ actions

theorem fits_empty (capacity : ℕ) : (empty capacity : HistoryWindow α).Fits :=
  ⟨lt_max_of_lt_right zero_lt_one, Nat.zero_le _⟩

theorem Fits.holds (h : w.Fits) : w.Holds w.snapshots :=
  (rtake_of_length_le h.within).symm

/-- A window that does not fit keeps its snapshots beside a new one, and still does not fit then. -/
theorem push_of_not_fits (h : ¬ w.Fits) (s : List α) :
    (w.push s).snapshots = w.snapshots ++ [s] ∧ ¬ (w.push s).Fits := by
  have kept : (if w.isFull then w.snapshots.drop 1 else w.snapshots) = w.snapshots := by
    split_ifs with full
    · -- A full window that does not fit has no room, and so there is nothing to give up.
      have length : w.length = w.capacity := by simpa [isFull] using full
      have empty : w.length = 0 := by
        by_contra occupied
        exact h ⟨by omega, length.le⟩
      rw [List.eq_nil_of_length_eq_zero empty, List.drop_nil]
    · rfl
  have pushed : (w.push s).snapshots = w.snapshots ++ [s] := congrArg (· ++ [s]) kept
  refine ⟨pushed, fun fits => h ⟨fits.room, ?_⟩⟩
  have within := fits.within
  rw [length, pushed, List.length_append] at within
  exact (Nat.le_add_right _ _).trans within

/-! ## Runs -/

theorem run_concat (w : HistoryWindow α) (actions : List (Action α)) (a : Action α) :
    w.run (actions ++ [a]) = (w.run actions).perform a :=
  List.foldl_concat ..

theorem recorded_concat (w : HistoryWindow α) (actions : List (Action α)) (a : Action α) :
    w.recorded (actions ++ [a]) = a.record (w.recorded actions) :=
  List.foldl_concat ..

@[simp] theorem capacity_run (w : HistoryWindow α) (actions : List (Action α)) :
    (w.run actions).capacity = w.capacity := by
  induction actions using List.reverseRecOn with
  | nil => rfl
  | append_singleton actions a ih =>
    rw [run_concat, ← ih]
    cases a <;> rfl

theorem bounded_nil : w.Bounded [] ↔ w.Fits := by
  simp [Bounded]

theorem bounded_concat_push {s : List α} :
    w.Bounded (actions ++ [.push s]) ↔ w.Bounded actions := by
  simp [Bounded]

theorem Bounded.room (h : w.Bounded actions) : 0 < w.capacity :=
  h.elim Fits.room And.left

/-- What a window holds that fits, or has room and has been cleared. -/
theorem Bounded.holds_run (h : w.Bounded actions) :
    (w.run actions).Holds (w.recorded actions) := by
  induction actions using List.reverseRecOn with
  | nil => exact (bounded_nil.1 h).holds
  | append_singleton actions a ih =>
    rw [run_concat, recorded_concat]
    cases a with
    | push s => exact (ih (bounded_concat_push.1 h)).push (by simpa using h.room) s
    | clear => exact holds_clear _

/-- What a window holds that does not fit and has not been cleared, or has no room. -/
theorem snapshots_run_of_not_bounded (h : ¬ w.Bounded actions) :
    (w.run actions).snapshots = w.recorded actions ∧ ¬ (w.run actions).Fits := by
  induction actions using List.reverseRecOn with
  | nil => exact ⟨rfl, bounded_nil.not.1 h⟩
  | append_singleton actions a ih =>
    rw [run_concat, recorded_concat]
    cases a with
    | push s =>
      obtain ⟨kept, unfit⟩ := ih (bounded_concat_push.not.1 h)
      rw [← kept]
      exact push_of_not_fits unfit s
    | clear =>
      refine ⟨rfl, fun fits => h (.inr ⟨?_, List.mem_concat_self⟩)⟩
      simpa [perform, HistoryWindow.clear] using fits.room

/-- Two snapshots are too many for a window that does not fit. -/
theorem lt_length_of_not_fits (h : ¬ w.Fits) (s : List α) :
    max w.capacity 1 < (w.run [.push s, .push s]).length := by
  have unbounded : ¬ w.Bounded [.push s, .push s] := by simpa [Bounded] using h
  rw [length, (snapshots_run_of_not_bounded unbounded).1]
  have : ¬ (0 < w.capacity ∧ w.snapshots.length ≤ w.capacity) := fun fits => h ⟨fits.1, fits.2⟩
  simp only [recorded, Action.record, List.foldl_cons, List.foldl_nil, List.length_append,
    List.length_singleton]
  omega

/-- New windows fit, and every window of finite values can be read from a text, whether it fits or
not.  The windows that hold, after any pushes and clears with one push at least, no more snapshots
than their capacity, and the most recent ones, are exactly the ones that fit to begin with.  A
window that does not fit gives up nothing until it is cleared, and one without room nothing even
then. -/
theorem most_recent_iff_fits (capacity : ℕ) (w : HistoryWindow Float) :
    (empty capacity : HistoryWindow Float).Fits ∧
    (w.capacity < 2 ^ 64 → ofText? w.toText = if w.IsFinite then some w else none) ∧
    (w.Fits ↔ ∀ actions, (∃ s, .push s ∈ actions) →
      (w.run actions).length ≤ max w.capacity 1 ∧
        (w.run actions).snapshots = (w.recorded actions).rtake (max w.capacity 1)) ∧
    ∀ actions,
      (w.Bounded actions → (w.run actions).snapshots = (w.recorded actions).rtake w.capacity) ∧
      (¬ w.Bounded actions → (w.run actions).snapshots = w.recorded actions) := by
  refine ⟨fits_empty capacity, ofText?_toText, ⟨fun fits actions _ => ?_, fun all => ?_⟩,
    fun actions => ⟨fun h => ?_, fun h => (snapshots_run_of_not_bounded h).1⟩⟩
  · have holds := Bounded.holds_run (.inl fits : w.Bounded actions)
    rw [max_eq_left fits.room, holds.length_eq, ← capacity_run w actions]
    exact ⟨min_le_right _ _, holds⟩
  · by_contra unfit
    have few := (all [.push [], .push []] ⟨[], List.mem_cons_self⟩).1
    exact (lt_length_of_not_fits unfit []).not_ge few
  · rw [← capacity_run w actions]
    exact h.holds_run

/-- A window with one snapshot and room for another one, read from its text. -/
theorem most_recent_iff_fits_reloaded :
    let w : HistoryWindow Float := ⟨2, [[0.1]]⟩
    let actions : List (Action Float) := [.push [0.2], .push [0.3]]
    ofText? w.toText = some w ∧ (w.run actions).length ≤ 2 ∧
      (w.run actions).snapshots = [[0.2], [0.3]] := by
  intro w actions
  obtain ⟨-, read, hold, -⟩ := most_recent_iff_fits 2 w
  have finite : w.IsFinite := by decide +kernel
  have fits : w.Fits := ⟨by decide, by decide⟩
  obtain ⟨few, recent⟩ := hold.1 fits actions ⟨[0.2], List.mem_cons_self⟩
  exact ⟨(read (by decide)).trans (if_pos finite), few, recent⟩

/-- A window with two snapshots and room for one, and a window without room, are read from texts,
and hold more than they may as soon as snapshots are pushed. -/
theorem loaded_windows_outgrow_capacity :
    let crowded : HistoryWindow Float := ⟨1, [[0.1], [0.2]]⟩
    let roomless : HistoryWindow Float := ⟨0, []⟩
    (ofText? "\x7b\"capacity\":1,\"snapshots\":[[0.1],[0.2]]\x7d" = some crowded ∧
      (crowded.run [.push [0.3]]).snapshots = [[0.1], [0.2], [0.3]] ∧
      max crowded.capacity 1 < (crowded.run [.push [0.3]]).length) ∧
    ofText? "\x7b\"capacity\":0,\"snapshots\":[]\x7d" = some roomless ∧
      (roomless.run [.push [0.1], .push [0.2]]).snapshots = [[0.1], [0.2]] ∧
      max roomless.capacity 1 < (roomless.run [.push [0.1], .push [0.2]]).length := by
  intro crowded roomless
  have read (w : HistoryWindow Float) (capacity : w.capacity < 2 ^ 64) (finite : w.IsFinite) :
      ofText? w.toText = some w := (ofText?_toText capacity).trans (if_pos finite)
  have crowdedText : crowded.toText =
      "\x7b\"capacity\":1,\"snapshots\":[[0.1],[0.2]]\x7d" := by decide +kernel
  have roomlessText : roomless.toText = "\x7b\"capacity\":0,\"snapshots\":[]\x7d" := by
    decide +kernel
  rw [← crowdedText, ← roomlessText]
  exact ⟨⟨read crowded (by decide) (by decide +kernel), rfl, by decide⟩,
    read roomless (by decide) (by decide +kernel), rfl, by decide⟩

end HistoryWindow

end AdaptivePopulation
