/-!
# Events

What a population tells about itself while it runs.  Each event has a level, a message and, where it
belongs to a tick as a whole, that tick.
-/

namespace AdaptivePopulation

/-- How much attention an event asks for. -/
inductive Level where
  | debug
  | info
  | warning
  deriving DecidableEq, Repr

/-- The name of a level. -/
def Level.name : Level → String
  | .debug => "DEBUG"
  | .info => "INFO"
  | .warning => "WARN"

/-- Something that a population tells about itself. -/
inductive Event where
  | initialised
  | blockAppended
  | changeProposed
  | strategyChanged
  | modeSwitched
  | signalClamped (tick : Nat)
  | statesReinitialised (tick : Nat)
  | status (tick : Nat)
  deriving DecidableEq, Repr

namespace Event

/-- The level that an event is told at. -/
def level : Event → Level
  | blockAppended | changeProposed => .debug
  | signalClamped _ => .warning
  | initialised | strategyChanged | modeSwitched | statesReinitialised _ | status _ => .info

/-- What is told of an event. -/
def message : Event → String
  | initialised => "Federation initialised"
  | blockAppended => "Ledger block appended"
  | changeProposed => "Metamorphosis proposed"
  | strategyChanged => "Node metamorphosis"
  | modeSwitched => "Population mode switch"
  | signalClamped _ => "Environmental signal out of range, clamping"
  | statesReinitialised _ => "Trauma: node states reinitialised"
  | status _ => "Federation status"

/-- The tick that the event is about. -/
def tick? : Event → Option Nat
  | signalClamped tick | statesReinitialised tick | status tick => some tick
  | _ => none

end Event

end AdaptivePopulation
