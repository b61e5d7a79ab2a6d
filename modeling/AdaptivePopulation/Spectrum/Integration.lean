import AdaptivePopulation.History
import AdaptivePopulation.Series.Entropy
import AdaptivePopulation.Spectrum.Covariance
import AdaptivePopulation.Spectrum.Jacobi

/-!
# Integration measure

How differentiated a window of snapshots is: the base-2 entropy of the normalised positive
eigenvalues of the covariance between its snapshots.  For `H` snapshots it is at most `log2 H`.
-/

namespace AdaptivePopulation

open Series

variable {α : Type} [Scalar α]

/-- Settings of the spectral analysis. -/
structure SpectralConfig (α : Type) where
  /-- With fewer snapshots the measure is `defaultValue`. -/
  minSamples : Nat
  defaultValue : α
  /-- Entries below it count as annihilated, eigenvalues up to it as zero. -/
  epsilon : α
  /-- The largest number of rotations. -/
  maxRotations : Nat

/-- The analysis of a standard configuration. -/
def SpectralConfig.standard : SpectralConfig α := ⟨10, 0.0, 1e-10, 200⟩

namespace Spectrum

/-- The base-2 entropy of the eigenvalues above `floor`, taken as weights. -/
def spectralEntropy (eigenvalues : List α) (floor : α) : α :=
  let kept := eigenvalues.filter (floor < ·)
  let weight := total kept
  if kept.isEmpty ∨ weight ≤ 0.0 ∨ ¬ Scalar.isFinite weight then 0.0
  else total (kept.map fun l => entropyTerm (l / weight))

/-- The integration measure of a list of snapshots. -/
def integrationOf (config : SpectralConfig α) (samples : List (List α)) : α :=
  if h : samples.length < max config.minSamples 1 then config.defaultValue
  else
    have nonempty : 0 < samples.length := by omega
    match covariance samples with
    | none => 0.0
    | some C =>
      spectralEntropy (eigenvalues nonempty C config.epsilon config.maxRotations) config.epsilon

/-- The integration measure of a history. -/
def integration (config : SpectralConfig α) (window : HistoryWindow α) : α :=
  integrationOf config window.snapshots

/-- A measure of `samples` snapshots relative to its ceiling `log2 samples`, in `[0, 1]`. -/
def normalised (phi : α) (samples : Nat) : α :=
  if samples < 2 then 0.0
  else Scalar.clamp 0.0 1.0 (phi / Scalar.log2 (Scalar.ofNat samples))

end Spectrum

end AdaptivePopulation
