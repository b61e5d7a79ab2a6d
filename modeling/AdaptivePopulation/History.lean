/-!
# History windows

A bounded record of snapshots, oldest first.  A window that is full gives up its oldest snapshot for
a new one.
-/

namespace AdaptivePopulation

/-- The last snapshots of a state, oldest first, as many of them as the capacity allows. -/
structure HistoryWindow (α : Type) where
  capacity : Nat
  snapshots : List (List α)

namespace HistoryWindow

variable {α : Type}

/-- An empty window; a capacity of zero is raised to one. -/
def empty (capacity : Nat) : HistoryWindow α := ⟨max capacity 1, []⟩

/-- The number of snapshots kept. -/
def length (w : HistoryWindow α) : Nat := w.snapshots.length

/-- No snapshot is kept. -/
def isEmpty (w : HistoryWindow α) : Bool := w.snapshots.isEmpty

/-- Holds exactly as many snapshots as its capacity. -/
def isFull (w : HistoryWindow α) : Bool := w.length == w.capacity

/-- Records a snapshot; a full window forgets its oldest one first. -/
def push (w : HistoryWindow α) (snapshot : List α) : HistoryWindow α :=
  { w with snapshots := (if w.isFull then w.snapshots.drop 1 else w.snapshots) ++ [snapshot] }

/-- The snapshot recorded last. -/
def latest? (w : HistoryWindow α) : Option (List α) := w.snapshots.getLast?

/-- The window without its snapshots. -/
def clear (w : HistoryWindow α) : HistoryWindow α := { w with snapshots := [] }

end HistoryWindow

end AdaptivePopulation
