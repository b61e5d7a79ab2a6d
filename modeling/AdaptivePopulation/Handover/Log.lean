import AdaptivePopulation.Calendar.Clock
import AdaptivePopulation.Series.Statistics
import AdaptivePopulation.Tag

/-!
# Handovers

Directed interactions between two nodes, and a bounded log of them that gives up the oldest record
for a new one.  The activity of a node over a trailing window is the rate of its interactions and
their mean intensity.
-/

namespace AdaptivePopulation

/-- How a handover treats the information that it carries. -/
inductive PreservationProtocol where
  /-- Conserved quantities pass unchanged. -/
  | conservative
  /-- New structure emerges on the target. -/
  | creative
  /-- Information is dissipated. -/
  | destructive
  /-- The carried state changes its kind. -/
  | transmutative
  deriving DecidableEq, Repr

instance : Inhabited PreservationProtocol := ⟨.conservative⟩

instance : Tag PreservationProtocol where
  all := [.conservative, .creative, .destructive, .transmutative]
  name
    | .conservative => "Conservative"
    | .creative => "Creative"
    | .destructive => "Destructive"
    | .transmutative => "Transmutative"

/-- One interaction. -/
structure Handover (α : Type) where
  source : NodeId
  target : NodeId
  intensity : α
  protocol : PreservationProtocol
  time : Instant

/-- The node is the source or the target. -/
def Handover.Involves {α : Type} (h : Handover α) (node : NodeId) : Prop :=
  h.source = node ∨ h.target = node

instance {α : Type} (h : Handover α) (node : NodeId) : Decidable (h.Involves node) :=
  inferInstanceAs (Decidable (_ ∨ _))

/-- What a node did over a trailing window. -/
structure Activity (α : Type) where
  /-- Interactions per second. -/
  rate : α
  /-- The mean intensity of the interactions, zero without any. -/
  intensity : α

/-- Answers for the activity of a node over the window before the readings of a clock. -/
abbrev ActivitySource (α : Type) := Clock → Duration → NodeId → Except Fault (Activity α)

/-- The handovers recorded last, oldest first. -/
structure HandoverLog (α : Type) where
  capacity : Nat
  events : List (Handover α)

namespace HandoverLog

variable {α : Type}

/-- An empty log; a capacity of zero is raised to one. -/
def empty (capacity : Nat) : HandoverLog α := ⟨max capacity 1, []⟩

/-- An empty log of the usual capacity. -/
def standard : HandoverLog α := empty 10000

/-- Records a handover; a full log forgets its oldest one first. -/
def record (log : HandoverLog α) (h : Handover α) : HandoverLog α :=
  let kept := if log.events.length = log.capacity then log.events.drop 1 else log.events
  { log with events := kept ++ [h] }

/-- The handovers of a node that are not older than the window. -/
def recent (log : HandoverLog α) (now : Instant) (window : Duration) (node : NodeId) :
    Except Fault (List (Handover α)) := do
  let since ← now.earlierBy window
  return log.events.filter fun h => since ≤ h.time ∧ h.Involves node

variable [Scalar α]

/-- Interactions per second, zero for a window without a whole millisecond. -/
def rate (log : HandoverLog α) (now : Instant) (window : Duration) (node : NodeId) :
    Except Fault α :=
  if window.millis ≤ 0 then .ok 0.0
  else do
    let events ← log.recent now window node
    return Scalar.ofNat events.length / (Scalar.ofNat window.millis.toNat / 1000.0)

/-- The mean intensity of the interactions. -/
def averageIntensity (log : HandoverLog α) (now : Instant) (window : Duration) (node : NodeId) :
    Except Fault α := do
  let events ← log.recent now window node
  return Series.mean (events.map Handover.intensity)

/-- The activity of a node according to the log.  Each of the two queries reads the clock. -/
def activity (log : HandoverLog α) : ActivitySource α := fun clock window node => do
  let rate ← log.rate (clock (.rate node)) window node
  let intensity ← log.averageIntensity (clock (.intensity node)) window node
  return ⟨rate, intensity⟩

end HandoverLog

end AdaptivePopulation
