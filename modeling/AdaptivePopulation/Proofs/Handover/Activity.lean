import Mathlib.Tactic.FieldSimp
import AdaptivePopulation.Proofs.Exact
import AdaptivePopulation.Proofs.Handover
import AdaptivePopulation.Proofs.Retention

/-!
# Activity over a window

A log holds the handovers recorded last, in the order in which they were recorded and whatever their
times.  Either measure of a node's activity is taken over the handovers of the node that are not
older than the window.  These are the ones within the window, and also the ones that are later than
the moment of the question, since nothing bounds the window from above.
-/

namespace AdaptivePopulation

namespace HandoverLog

/-! ## What a log holds -/

section

variable {α : Type}

/-- The log that has recorded some handovers in turn. -/
def recorded (capacity : ℕ) (calls : List (Handover α)) : HandoverLog α :=
  calls.foldl record (empty capacity)

theorem recorded_spec (capacity : ℕ) (calls : List (Handover α)) :
    (recorded capacity calls).capacity = max capacity 1 ∧
      (recorded capacity calls).events = calls.rtake (max capacity 1) := by
  induction calls using List.reverseRecOn with
  | nil => exact ⟨rfl, (List.rtake_nil _).symm⟩
  | append_singleton calls h ih =>
    obtain ⟨bound, events⟩ := ih
    have kept := rtake_concat calls (lt_max_of_lt_right zero_lt_one : 0 < max capacity 1) h
    rw [← events, ← bound] at kept
    rw [recorded, List.foldl_concat]
    exact ⟨bound, kept.trans (by rw [bound])⟩

end

/-! ## What is counted -/

section

variable {α : Type} (log : HandoverLog α) (since now : Instant) (node : NodeId)

/-- The handovers of a node between two moments, both included. -/
def eventsWithin : List (Handover α) :=
  log.events.filter fun h => since ≤ h.time ∧ h.time ≤ now ∧ h.Involves node

/-- The handovers of a node that are not earlier than one moment and later than another one. -/
def eventsBeyond : List (Handover α) :=
  log.events.filter fun h => since ≤ h.time ∧ ¬ h.time ≤ now ∧ h.Involves node

theorem eventsWithin_eq : log.eventsWithin since now node =
    (log.eventsSince since node).filter fun h => h.time ≤ now := by
  rw [eventsWithin, eventsSince, List.filter_filter]
  congr 1
  funext h
  simp only [← Bool.decide_and, decide_eq_decide]
  tauto

theorem eventsBeyond_eq : log.eventsBeyond since now node =
    (log.eventsSince since node).filter fun h => !decide (h.time ≤ now) := by
  rw [eventsBeyond, eventsSince, List.filter_filter]
  congr 1
  funext h
  rw [← decide_not, ← Bool.decide_and, decide_eq_decide]
  tauto

/-- What is not earlier than a moment is either within the window or beyond it. -/
theorem length_eventsSince : (log.eventsSince since node).length =
    (log.eventsWithin since now node).length + (log.eventsBeyond since now node).length := by
  rw [eventsWithin_eq, eventsBeyond_eq, ← List.length_append]
  exact (List.filter_append_perm _ _).length_eq.symm

theorem eventsSince_eq_iff : log.eventsSince since node = log.eventsWithin since now node ↔
    log.eventsBeyond since now node = [] := by
  refine ⟨fun same => ?_, fun noneLater => ?_⟩
  · have := log.length_eventsSince since now node
    rw [same] at this
    exact List.eq_nil_of_length_eq_zero (by omega)
  · rw [eventsBeyond_eq, List.filter_eq_nil_iff] at noneLater
    rw [eventsWithin_eq, eq_comm, List.filter_eq_self]
    simpa using noneLater

end

/-! ## In exact arithmetic -/

theorem seconds_eq {window : Duration} (long : 1 ≤ window.millis) :
    (Scalar.ofNat window.millis.toNat / 1000.0 : ℝ) = window.millis / 1000 := by
  have whole : ((window.millis.toNat : ℤ) : ℝ) = window.millis := by
    rw [Int.toNat_of_nonneg (by omega)]
  show ((window.millis.toNat : ℕ) : ℝ) / 1000.0 = _
  rw [← Int.cast_natCast, whole]
  norm_num

theorem dvd_nanos_iff {window : Duration} :
    1000000 ∣ window.nanos ↔ (window.nanos : ℝ) = 1000000 * window.millis := by
  have untruncated : 1000000 ∣ window.nanos ↔ window.nanos = 1000000 * window.millis :=
    ⟨fun h => (Int.mul_tdiv_cancel' h).symm, fun h => h ▸ Int.dvd_mul_right _ _⟩
  exact untruncated.trans (by exact_mod_cast Iff.rfl)

variable (log : HandoverLog ℝ) {now : Instant} {window : Duration}

/-- The rate times the whole milliseconds of the window is the number of handovers.  Times the
window itself it is this number only without a part of a millisecond. -/
theorem exists_rate_eq (starts : (now.back window).InCalendar) (long : 1 ≤ window.millis)
    (node : NodeId) :
    let counted := log.eventsSince (now.back window) node
    ∃ rate, log.rate now window node = .ok rate ∧
      rate * (window.millis / 1000) = counted.length ∧
      (rate * (window.nanos / 1000000000) = counted.length ↔
        counted = [] ∨ 1000000 ∣ window.nanos) := by
  intro counted
  have positive : (0 : ℝ) < window.millis := by exact_mod_cast long
  refine ⟨counted.length / (window.millis / 1000), ?_, ?_, ?_⟩
  · rw [log.rate_eq starts long, rateOf, seconds_eq long]
    rfl
  · field_simp
  · have share : counted.length / (window.millis / 1000) * (window.nanos / 1000000000 : ℝ) =
        counted.length * (window.nanos / (1000000 * window.millis)) := by
      field_simp
      ring
    rw [share, mul_right_eq_self₀, div_eq_one_iff_eq (by positivity), ← dvd_nanos_iff,
      Nat.cast_eq_zero, List.length_eq_zero_iff, or_comm]

theorem exists_averageIntensity_eq (starts : (now.back window).InCalendar) (node : NodeId) :
    let counted := log.eventsSince (now.back window) node
    ∃ intensity, log.averageIntensity now window node = .ok intensity ∧
      intensity * counted.length = (counted.map Handover.intensity).sum ∧
      (counted = [] → intensity = 0) := by
  intro counted
  have mean := log.averageIntensity_eq starts node
  rw [Series.mean_eq_div, List.length_map] at mean
  refine ⟨_, mean, ?_, fun uncounted => ?_⟩
  · by_cases uncounted : counted = []
    · simp [counted, uncounted]
    · have count : (counted.length : ℝ) ≠ 0 := by simpa using uncounted
      exact div_mul_cancel₀ _ count
  · simp [counted, uncounted]

/-- In exact arithmetic a log, whatever was recorded with whatever times, holds the last handovers
in the order of recording.  Its two measures over a window of a millisecond or more are the number
of counted handovers over the whole milliseconds of the window, and the mean of their intensities.
The counted handovers are the ones of the node within the window and the ones of the node that are
later, each once, and so they are exactly the ones within the window if none is later. -/
theorem activity_over_window (capacity : ℕ) (calls : List (Handover ℝ)) (now : Instant)
    (window : Duration) (node : NodeId) (starts : (now.back window).InCalendar)
    (long : 1 ≤ window.millis) :
    let log := recorded capacity calls
    let since := now.back window
    let counted := log.eventsSince since node
    (log.events = calls.rtake (max capacity 1) ∧
      log.events.length = min calls.length (max capacity 1)) ∧
    (∃ rate, log.rate now window node = .ok rate ∧
      rate * (window.millis / 1000) = counted.length ∧
      (rate * (window.nanos / 1000000000) = counted.length ↔
        counted = [] ∨ 1000000 ∣ window.nanos)) ∧
    (∃ intensity, log.averageIntensity now window node = .ok intensity ∧
      intensity * counted.length = (counted.map Handover.intensity).sum ∧
      (counted = [] → intensity = 0)) ∧
    counted.length =
      (log.eventsWithin since now node).length + (log.eventsBeyond since now node).length ∧
    (counted = log.eventsWithin since now node ↔ log.eventsBeyond since now node = []) := by
  intro log since counted
  have held : log.events = calls.rtake (max capacity 1) := (recorded_spec capacity calls).2
  exact ⟨⟨held, by rw [held, length_rtake]⟩, log.exists_rate_eq starts long node,
    log.exists_averageIntensity_eq starts node, log.length_eventsSince since now node,
    log.eventsSince_eq_iff since now node⟩

/-- A handover of `a` with itself at the beginning of the window is counted once; the one recorded
before it, though later, is no longer held. -/
theorem activity_over_window_boundary :
    let calls : List (Handover ℝ) := [⟨"a", "b", 5, .destructive, ⟨99, 0⟩⟩,
      ⟨"a", "a", 0.4, .creative, ⟨90, 0⟩⟩, ⟨"b", "a", 0.8, .conservative, ⟨95, 0⟩⟩]
    let log := recorded 2 calls
    let now : Instant := ⟨100, 0⟩
    let window := Duration.ofSeconds 10
    (now.back window).InCalendar ∧ 1 ≤ window.millis ∧ log.events = calls.drop 1 ∧
      log.rate now window "a" = .ok 0.2 ∧ log.averageIntensity now window "a" = .ok 0.6 := by
  intro calls log now window
  have starts : (now.back window).InCalendar := by decide
  obtain ⟨⟨held, -⟩, ⟨rate, hrate, rate_mul, -⟩, ⟨intensity, hintensity, intensity_mul, -⟩, -, -⟩ :=
    activity_over_window 2 calls now window "a" starts (by decide)
  have counted : log.eventsSince (now.back window) "a" = calls.drop 1 := rfl
  have seconds : window.millis = 10000 := by decide
  rw [counted] at rate_mul intensity_mul
  norm_num [calls, seconds] at rate_mul intensity_mul
  refine ⟨starts, by decide, held, ?_, ?_⟩
  · rw [hrate]
    congr 1
    linarith
  · rw [hintensity]
    congr 1
    linarith

/-- A handover of the next second is counted over the second before, in which there is none; and
over a millisecond and a half one handover counts as a thousand in a second. -/
theorem later_handovers_are_counted :
    let handover (time : Instant) : Handover ℝ := ⟨"a", "b", 0.4, .creative, time⟩
    let later := recorded 10 [handover ⟨1, 0⟩]
    let atOnce := recorded 10 [handover .epoch]
    let second := Duration.ofSeconds 1
    let short := Duration.ofMicros 1500
    ((Instant.epoch.back second).InCalendar ∧ 1 ≤ second.millis ∧
      later.eventsWithin (Instant.epoch.back second) .epoch "a" = [] ∧
      later.rate .epoch second "a" = .ok 1 ∧ later.averageIntensity .epoch second "a" = .ok 0.4) ∧
    (Instant.epoch.back short).InCalendar ∧ 1 ≤ short.millis ∧
      (atOnce.eventsWithin (Instant.epoch.back short) .epoch "a").length = 1 ∧
      atOnce.rate .epoch short "a" = .ok 1000 ∧ (1000 : ℝ) * (short.nanos / 1000000000) ≠ 1 := by
  intro handover later atOnce second short
  have starts : (Instant.epoch.back second).InCalendar := by decide
  have begins : (Instant.epoch.back short).InCalendar := by decide
  have counted : later.eventsSince (Instant.epoch.back second) "a" = [handover ⟨1, 0⟩] := rfl
  have once : atOnce.eventsSince (Instant.epoch.back short) "a" = [handover .epoch] := rfl
  have millis : second.millis = 1000 ∧ short.millis = 1 := by decide
  obtain ⟨rate, hrate, value, -⟩ := later.exists_rate_eq starts (by decide) "a"
  obtain ⟨intensity, hintensity, mean, -⟩ := later.exists_averageIntensity_eq starts "a"
  obtain ⟨many, hmany, times, -⟩ := atOnce.exists_rate_eq begins (by decide) "a"
  rw [counted, millis.1] at value
  rw [counted] at mean
  rw [once, millis.2] at times
  norm_num [handover] at value mean times
  refine ⟨⟨starts, by decide, rfl, ?_, ?_⟩, begins, by decide, rfl, ?_, ?_⟩
  · rw [hrate, value]
  · rw [hintensity, mean]
    norm_num
  · rw [hmany]
    congr 1
    linarith
  · norm_num [short, Duration.ofMicros]

end HandoverLog

end AdaptivePopulation
