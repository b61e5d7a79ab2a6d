import AdaptivePopulation.Dynamics.Site
import AdaptivePopulation.Tag
import AdaptivePopulation.Random.Stream
import AdaptivePopulation.Series.Statistics

/-!
# Population modes

The dynamics of the population as a whole.  A mode moves every element of the mean field, coupled to
the mean of that field, and clamps the result to `[0, 1]`.
-/

namespace AdaptivePopulation

/-- The regime that the mean field of a population evolves under. -/
inductive PopulationMode where
  | exploration
  | consolidation
  | transcendence
  deriving DecidableEq, Repr

namespace PopulationMode

instance : Inhabited PopulationMode := ⟨exploration⟩

instance : Tag PopulationMode where
  all := [exploration, consolidation, transcendence]
  name
    | exploration => "Exploration"
    | consolidation => "Consolidation"
    | transcendence => "Transcendence"

variable {α : Type} [Scalar α]

/-- One value of the field after a step of reaction and diffusion with the noise of a draw. -/
def exploreAt (dt complexity : α) (s : Site α) (draw : α) : α :=
  let reaction := 3.5 * s.value * (1.0 - s.value) - s.value
  let noise := draw * 0.05 * complexity
  Scalar.clampUnit
    (s.value + dt * (0.3 * s.laplacian + reaction + 0.1 * (s.field - s.value)) + noise)

/-- One value of the field after a step of relaxation towards the target. -/
def consolidateAt (target dt : α) (s : Site α) : α :=
  Scalar.clampUnit
    (s.value + dt * (0.1 * s.laplacian - (s.value - target) + 0.3 * (s.field - s.value)))

/-- One value of the field after a step of phase coupling to the mean of the field. -/
def transcendAt (external dt : α) (s : Site α) : α :=
  Scalar.clampUnit (s.value +
    dt * (0.05 * s.laplacian + 0.5 * Scalar.sin (s.field - s.value) + 0.2 * external))

/-- One step towards `target` where the mode has one. -/
def evolve (target : α) (mode : PopulationMode) (field : List α) (external dt complexity : α)
    (g : RandomStream) : List α × RandomStream :=
  let around := sites field (List.replicate field.length (Series.mean field))
  match mode with
  | exploration =>
    let (noise, g) := g.draws Random.signedFraction field.length
    (List.zipWith (exploreAt dt complexity) around noise, g)
  | consolidation => (around.map (consolidateAt target dt), g)
  | transcendence => (around.map (transcendAt external dt), g)

/-- One step of length `dt`, and the stream after its draws. -/
def apply (mode : PopulationMode) (field : List α) (external dt complexity : α)
    (g : RandomStream) : List α × RandomStream :=
  evolve goldenTarget mode field external dt complexity g

end PopulationMode

end AdaptivePopulation
