import AdaptivePopulation.Handover.Log
import AdaptivePopulation.Proofs.Fallible

/-!
# What a log answers

A log counts the handovers of a node since the beginning of the window before a reading of the
clock.  It answers for the activity of a node exactly if both windows, the one for the rate and the
one for the intensity, begin within the calendar.  For readings between the years 1970 and 9999 this
is a matter of the length of the window.
-/

namespace AdaptivePopulation

namespace Instant

/-- What a clock may read between the years 1970 and 9999. -/
def IsReading (t : Instant) : Prop :=
  0 ≤ t.seconds ∧ t.seconds < 86400 * Calendar.Date.toDays ⟨10000, 1, 1⟩ ∧ t.nanos < 2000000000

instance (t : Instant) : Decidable t.IsReading := inferInstanceAs (Decidable (_ ∧ _ ∧ _))

variable {s t : Instant} {n : Int}

/-- The nanoseconds of a leap second count as one more second. -/
theorem seconds_back (h : t.IsReading) (pos : 0 < n) :
    (t.back (.ofSeconds n)).seconds = t.seconds + t.nanos / 1000000000 - n := by
  obtain ⟨-, -, nanos⟩ := h
  have short : t.nanos < 1000000000 ∨
      (t.nanos : Int) - (Duration.ofSeconds n).nanos < 1000000000 := by
    refine .inr ?_
    show (t.nanos : Int) - 1000000000 * n < _
    omega
  unfold back
  dsimp only
  rw [if_pos short]
  show (1000000000 * t.seconds + (t.nanos - 1000000000 * n)) / 1000000000 = _
  omega

theorem inCalendar_back_iff (h : t.IsReading) (pos : 0 < n) :
    (t.back (.ofSeconds n)).InCalendar ↔ firstSecond + n ≤ t.seconds + t.nanos / 1000000000 := by
  have last : 86400 * Calendar.Date.toDays ⟨10000, 1, 1⟩ ≤ lastSecond := by decide
  rw [InCalendar, seconds_back h pos]
  obtain ⟨-, year, nanos⟩ := h
  omega

/-- A window that is not longer than the calendar was old in 1970 begins within it. -/
theorem inCalendar_back (h : t.IsReading) (pos : 0 < n) (fits : n ≤ -firstSecond) :
    (t.back (.ofSeconds n)).InCalendar := by
  rw [inCalendar_back_iff h pos]
  have := h.1
  omega

theorem le_trans {r : Instant} (h : r ≤ s) (h' : s ≤ t) : r ≤ t := by
  change NotLater _ _ at *
  unfold NotLater at *
  omega

/-- A window before a later reading begins later, unless the earlier reading is made within a leap
second. -/
theorem back_le_back (h : s ≤ t) (whole : s.nanos < 1000000000) (pos : 0 < n) :
    s.back (.ofSeconds n) ≤ t.back (.ofSeconds n) := by
  change NotLater _ _ at *
  unfold NotLater back ofNanos Duration.ofSeconds at *
  dsimp only
  split_ifs <;> dsimp only <;> omega

end Instant

theorem Duration.millis_ofSeconds (n : Int) : (ofSeconds n).millis = 1000 * n := by
  show (1000000000 * n).tdiv 1000000 = 1000 * n
  have whole : 1000000000 * n = 1000000 * (1000 * n) := by omega
  rw [whole]
  exact Int.mul_tdiv_cancel_left _ (by decide)

namespace Clock

variable (clock : Clock)

/-- The windows before both readings for a node begin within the calendar. -/
def BeginsInCalendar (window : Duration) (node : NodeId) : Prop :=
  ((clock (.rate node)).back window).InCalendar ∧
    ((clock (.intensity node)).back window).InCalendar

instance (window : Duration) (node : NodeId) : Decidable (clock.BeginsInCalendar window node) :=
  inferInstanceAs (Decidable (_ ∧ _))

/-- Between the two queries about a node the clock is not set back, and the first of them is not
made within a leap second. -/
def Forward : Prop :=
  ∀ node, clock (.rate node) ≤ clock (.intensity node) ∧ (clock (.rate node)).nanos < 1000000000

end Clock

namespace HandoverLog

section

variable {α : Type} (log : HandoverLog α) {now : Instant} {window : Duration}

/-- The handovers of a node that are not earlier than a moment. -/
def eventsSince (since : Instant) (node : NodeId) : List (Handover α) :=
  log.events.filter fun h => since ≤ h.time ∧ h.Involves node

/-- The earlier the moment, the more handovers are counted. -/
theorem eventsSince_subset {since since' : Instant} (h : since ≤ since') (node : NodeId) :
    log.eventsSince since' node ⊆ log.eventsSince since node := by
  intro e he
  rw [eventsSince, List.mem_filter, decide_eq_true_iff] at he ⊢
  exact ⟨he.1, Instant.le_trans h he.2.1, he.2.2⟩

theorem recent_eq (starts : (now.back window).InCalendar) (node : NodeId) :
    log.recent now window node = .ok (log.eventsSince (now.back window) node) := by
  have since : now.earlierBy window = .ok (now.back window) := if_pos starts
  rw [recent, since]
  rfl

theorem recent_eq_error (before : ¬ (now.back window).InCalendar) (node : NodeId) :
    log.recent now window node = .error .instantOutOfRange := by
  have since : now.earlierBy window = .error .instantOutOfRange := if_neg before
  rw [recent, since]
  rfl

variable [Scalar α]

/-- The number of handovers in a second, over the whole milliseconds of a window. -/
def rateOf (window : Duration) (events : List (Handover α)) : α :=
  Scalar.ofNat events.length / (Scalar.ofNat window.millis.toNat / 1000.0)

theorem rate_eq (starts : (now.back window).InCalendar) (long : 1 ≤ window.millis)
    (node : NodeId) :
    log.rate now window node = .ok (rateOf window (log.eventsSince (now.back window) node)) := by
  rw [rate, if_neg (by omega), log.recent_eq starts]
  rfl

theorem averageIntensity_eq (starts : (now.back window).InCalendar) (node : NodeId) :
    log.averageIntensity now window node =
      .ok (Series.mean ((log.eventsSince (now.back window) node).map Handover.intensity)) := by
  rw [averageIntensity, log.recent_eq starts]
  rfl

end

/-! ## Both queries about a node -/

section

variable {α : Type} [Scalar α] (log : HandoverLog α) {clock : Clock} {window : Duration}
  {node : NodeId}

theorem activity_eq (starts : clock.BeginsInCalendar window node) (long : 1 ≤ window.millis) :
    log.activity clock window node =
      .ok ⟨rateOf window (log.eventsSince ((clock (.rate node)).back window) node),
        Series.mean ((log.eventsSince ((clock (.intensity node)).back window) node).map
          Handover.intensity)⟩ := by
  rw [activity, log.rate_eq starts.1 long, log.averageIntensity_eq starts.2]
  rfl

theorem activity_eq_error (before : ¬ clock.BeginsInCalendar window node)
    (long : 1 ≤ window.millis) :
    log.activity clock window node = .error .instantOutOfRange := by
  by_cases first : ((clock (.rate node)).back window).InCalendar
  · have second : ¬ ((clock (.intensity node)).back window).InCalendar :=
      fun second => before ⟨first, second⟩
    rw [activity, log.rate_eq first long, averageIntensity, log.recent_eq_error second]
    rfl
  · rw [activity, rate, if_neg (by omega), log.recent_eq_error first]
    rfl

/-- A log breaks down in one way only. -/
theorem fault_of_activity_eq_error (long : 1 ≤ window.millis) {fault : Fault}
    (h : log.activity clock window node = .error fault) : fault = .instantOutOfRange := by
  by_cases begins : clock.BeginsInCalendar window node
  · rw [log.activity_eq begins long] at h
    cases h
  · rw [log.activity_eq_error begins long] at h
    exact (Except.error.inj h).symm

end

end HandoverLog

end AdaptivePopulation
