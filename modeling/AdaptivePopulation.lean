import AdaptivePopulation.Calendar.Clock
import AdaptivePopulation.Calendar.Date
import AdaptivePopulation.Calendar.Instant
import AdaptivePopulation.Calendar.Text
import AdaptivePopulation.Config.Basic
import AdaptivePopulation.Config.Environment
import AdaptivePopulation.Config.Json
import AdaptivePopulation.Decimal.Numeral
import AdaptivePopulation.Decimal.Shortest
import AdaptivePopulation.Decimal.Text
import AdaptivePopulation.Dynamics.PopulationMode
import AdaptivePopulation.Dynamics.Site
import AdaptivePopulation.Dynamics.Strategy
import AdaptivePopulation.Fault
import AdaptivePopulation.Federation.Basic
import AdaptivePopulation.Federation.Event
import AdaptivePopulation.Federation.Report
import AdaptivePopulation.Federation.Signal
import AdaptivePopulation.Federation.Tick
import AdaptivePopulation.Handover.Json
import AdaptivePopulation.Handover.Log
import AdaptivePopulation.Hash.ContentHash
import AdaptivePopulation.Hash.Sha256
import AdaptivePopulation.History
import AdaptivePopulation.History.Json
import AdaptivePopulation.Hypergraph.Basic
import AdaptivePopulation.Hypergraph.Coherence
import AdaptivePopulation.Hypergraph.Components
import AdaptivePopulation.Hypergraph.Json
import AdaptivePopulation.Hypergraph.Snapshot
import AdaptivePopulation.Json.Basic
import AdaptivePopulation.Json.Decoder
import AdaptivePopulation.Json.Document
import AdaptivePopulation.Json.Token
import AdaptivePopulation.Json.Writer
import AdaptivePopulation.Ledger.Basic
import AdaptivePopulation.Ledger.Edit
import AdaptivePopulation.Ledger.Json
import AdaptivePopulation.Metamorphosis.LocalController
import AdaptivePopulation.Metamorphosis.PopulationController
import AdaptivePopulation.Node
import AdaptivePopulation.NodeId
import AdaptivePopulation.Proofs.Calendar.Date
import AdaptivePopulation.Proofs.Calendar.Text
import AdaptivePopulation.Proofs.Config.Environment
import AdaptivePopulation.Proofs.Config.Text
import AdaptivePopulation.Proofs.Config.Validation
import AdaptivePopulation.Proofs.Decimal.Digits
import AdaptivePopulation.Proofs.Decimal.Doubles
import AdaptivePopulation.Proofs.Double.Arithmetic
import AdaptivePopulation.Proofs.Double.Order
import AdaptivePopulation.Proofs.Double.Rounding
import AdaptivePopulation.Proofs.Double.Sums
import AdaptivePopulation.Proofs.Dynamics
import AdaptivePopulation.Proofs.Dynamics.Consolidation
import AdaptivePopulation.Proofs.Dynamics.Contraction
import AdaptivePopulation.Proofs.Dynamics.Sites
import AdaptivePopulation.Proofs.Dynamics.Symmetry
import AdaptivePopulation.Proofs.Exact
import AdaptivePopulation.Proofs.Extended
import AdaptivePopulation.Proofs.Fallible
import AdaptivePopulation.Proofs.Federation.Alike
import AdaptivePopulation.Proofs.Federation.Bounded
import AdaptivePopulation.Proofs.Federation.Built
import AdaptivePopulation.Proofs.Federation.Course
import AdaptivePopulation.Proofs.Federation.Draws
import AdaptivePopulation.Proofs.Federation.Graph
import AdaptivePopulation.Proofs.Federation.Observation
import AdaptivePopulation.Proofs.Federation.Replay
import AdaptivePopulation.Proofs.Federation.Schedule
import AdaptivePopulation.Proofs.Federation.Tick
import AdaptivePopulation.Proofs.Federation.Windows
import AdaptivePopulation.Proofs.Handover
import AdaptivePopulation.Proofs.Handover.Activity
import AdaptivePopulation.Proofs.History
import AdaptivePopulation.Proofs.History.Capacity
import AdaptivePopulation.Proofs.History.Text
import AdaptivePopulation.Proofs.Hypergraph.Coherence
import AdaptivePopulation.Proofs.Hypergraph.Connectivity
import AdaptivePopulation.Proofs.Hypergraph.Construction
import AdaptivePopulation.Proofs.Hypergraph.Persistence
import AdaptivePopulation.Proofs.Hypergraph.PlainCoherence
import AdaptivePopulation.Proofs.Hypergraph.Rearrangement
import AdaptivePopulation.Proofs.Hypergraph.Restoration
import AdaptivePopulation.Proofs.Hypergraph.Search
import AdaptivePopulation.Proofs.Hypergraph.Text
import AdaptivePopulation.Proofs.Json.Records
import AdaptivePopulation.Proofs.Json.Spelling
import AdaptivePopulation.Proofs.Ledger.Commitment
import AdaptivePopulation.Proofs.Ledger.Content
import AdaptivePopulation.Proofs.Ledger.Tampering
import AdaptivePopulation.Proofs.Ledger.Text
import AdaptivePopulation.Proofs.Ledger.Verification
import AdaptivePopulation.Proofs.MeanField
import AdaptivePopulation.Proofs.Metamorphosis.Band
import AdaptivePopulation.Proofs.Metamorphosis.DeadZone
import AdaptivePopulation.Proofs.Metamorphosis.Dwell
import AdaptivePopulation.Proofs.Metamorphosis.Monotony
import AdaptivePopulation.Proofs.Metamorphosis.Settling
import AdaptivePopulation.Proofs.Node
import AdaptivePopulation.Proofs.NodeId
import AdaptivePopulation.Proofs.Retention
import AdaptivePopulation.Proofs.Series.Derivative
import AdaptivePopulation.Proofs.Series.Diffusion
import AdaptivePopulation.Proofs.Series.Entropy
import AdaptivePopulation.Proofs.Series.Histogram
import AdaptivePopulation.Proofs.Spectrum.Covariance
import AdaptivePopulation.Proofs.Spectrum.Diagonal
import AdaptivePopulation.Proofs.Spectrum.Entropy
import AdaptivePopulation.Proofs.Spectrum.Jacobi
import AdaptivePopulation.Proofs.Spectrum.RankOne
import AdaptivePopulation.Proofs.Spectrum.Rotation
import AdaptivePopulation.Proofs.Unit
import AdaptivePopulation.Random.ChaCha
import AdaptivePopulation.Random.Stream
import AdaptivePopulation.Scalar
import AdaptivePopulation.Series.Derivative
import AdaptivePopulation.Series.Entropy
import AdaptivePopulation.Series.Statistics
import AdaptivePopulation.Spectrum.Covariance
import AdaptivePopulation.Spectrum.Integration
import AdaptivePopulation.Spectrum.Jacobi
import AdaptivePopulation.Spectrum.SquareMatrix
import AdaptivePopulation.Tag
import AdaptivePopulation.Text.Blank
