import AdaptivePopulation.Random.Stream

/-!
# Environmental signals

Sources of the one scalar per tick that a population takes from its environment.
-/

namespace AdaptivePopulation

/-- Where the signals of the environment come from, one for every tick. -/
inductive EntropySource where
  | constant (value : Float)
  /-- Uniform samples in `[0, 1)`. -/
  | uniform (stream : RandomStream)
  /-- Recorded values, repeated from the start when they are used up. -/
  | trace (values : List Float)

namespace EntropySource

/-- The sample for a tick, and the source after it. -/
def sample (s : EntropySource) (tick : Nat) : Float × EntropySource :=
  match s with
  | constant value => (value, s)
  | uniform g =>
    let (word, g) := g.next
    (Random.unitFraction word, uniform g)
  | trace values => (values.getD (tick % values.length) 0.0, s)

/-- Samples for the ticks from `tick` on. -/
def samples : (count : Nat) → (tick : Nat) → EntropySource → List Float
  | 0, _, _ => []
  | count + 1, tick, s =>
    let (value, s) := s.sample tick
    value :: samples count (tick + 1) s

end EntropySource

end AdaptivePopulation
