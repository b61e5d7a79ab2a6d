import AdaptivePopulation.Dynamics.Site
import AdaptivePopulation.Tag
import AdaptivePopulation.Random.Stream

/-!
# Strategies

The dynamics of a single node.  A strategy moves every element of a state, coupled to the matching
element of a field, and clamps the result to `[0, 1]`.  Only exploration is noisy: it takes one draw
per element, in order.
-/

namespace AdaptivePopulation

/-- The rule that a node's state evolves under. -/
inductive Strategy where
  /-- Reaction and diffusion with a logistic reaction and noise. -/
  | explore
  /-- Relaxation towards a target with weak coupling. -/
  | stabilize
  /-- Phase coupling to the field. -/
  | sync
  /-- Exponential relaxation towards zero. -/
  | decay
  deriving DecidableEq, Repr

namespace Strategy

instance : Inhabited Strategy := ⟨explore⟩

instance : Tag Strategy where
  all := [explore, stabilize, sync, decay]
  name
    | explore => "Explore"
    | stabilize => "Stabilize"
    | sync => "Sync"
    | decay => "Decay"

variable {α : Type} [Scalar α]

/-- One value after a step of reaction and diffusion with the noise of a draw. -/
def exploreAt (dt complexity : α) (s : Site α) (draw : α) : α :=
  let reaction := 3.8 * s.value * (1.0 - s.value) - s.value
  let coupling := 0.05 * (s.field - s.value)
  let noise := draw * 0.1 * complexity
  Scalar.clampUnit (s.value + dt * (0.5 * s.laplacian + reaction + coupling) + noise)

/-- One value after a step of relaxation towards the target. -/
def stabilizeAt (target dt : α) (s : Site α) : α :=
  Scalar.clampUnit (s.value +
    dt * (0.2 * s.laplacian - 1.5 * (s.value - target) + 0.2 * (s.field - s.value)))

/-- One value after a step of phase coupling to the field and the external input. -/
def syncAt (external dt : α) (s : Site α) : α :=
  Scalar.clampUnit (s.value +
    dt * (0.1 * s.laplacian + Scalar.sin (s.field - s.value) + 0.1 * external))

/-- One value after a step of decay. -/
def decayAt (dt value : α) : α :=
  Scalar.clampUnit (Scalar.positivePart (value - 0.1 * value * dt))

/-- One step towards `target` where the strategy has one. -/
def evolve (target : α) (strategy : Strategy) (state field : List α) (external dt complexity : α)
    (g : RandomStream) : List α × RandomStream :=
  match strategy with
  | explore =>
    let (noise, g) := g.draws Random.signedFraction state.length
    (List.zipWith (exploreAt dt complexity) (sites state field) noise, g)
  | stabilize => ((sites state field).map (stabilizeAt target dt), g)
  | sync => ((sites state field).map (syncAt external dt), g)
  | decay => (state.map (decayAt dt), g)

/-- One step of length `dt`, and the stream after its draws. -/
def apply (strategy : Strategy) (state field : List α) (external dt complexity : α)
    (g : RandomStream) : List α × RandomStream :=
  evolve goldenTarget strategy state field external dt complexity g

end Strategy

end AdaptivePopulation
