import Metropolis.Scalar.Double
import Metropolis.Scalar.Lawful
import Metropolis.Scalar.Comparison
import Metropolis.Scalar.Special
import Metropolis.Scalar.Double.Laws
import Metropolis.Scalar.Double.Special
import Metropolis.Scalar.Double.SortOrder
import Metropolis.Decimal.Scientific
import Metropolis.Decimal.Shortest
import Metropolis.Draws.Report
import Metropolis.Model.Gaussian
import Metropolis.Model.Counts
import Metropolis.Model.Counts.Simulation
import Metropolis.Fit
import Metropolis.Ranking
import Metropolis.Proofs.Evaluation
import Metropolis.Proofs.Registration
import Metropolis.Proofs.Transition
import Metropolis.Proofs.Coherence
import Metropolis.Proofs.Level
import Metropolis.Proofs.Record
import Metropolis.Proofs.Coverage
import Metropolis.Proofs.Running
import Metropolis.Proofs.Release
import Metropolis.Proofs.Selection
import Metropolis.Proofs.Driving
import Metropolis.Proofs.Links
import Metropolis.Proofs.Order
import Metropolis.Proofs.Failure
import Metropolis.Proofs.Totality
import Metropolis.Proofs.Seeds
import Metropolis.Proofs.Factorization
import Metropolis.Proofs.Balance
import Metropolis.Proofs.Dialogue
import Metropolis.Proofs.Interleaving
import Metropolis.Proofs.Ensemble
import Metropolis.Proofs.Rates
import Metropolis.Proofs.Adaptation
import Metropolis.Proofs.Grouping
import Metropolis.Proofs.Diagonal
import Metropolis.Proofs.Estimates
import Metropolis.Proofs.Layout
import Metropolis.Proofs.Contract
import Metropolis.Proofs.Feasibility
import Metropolis.Proofs.Scales
import Metropolis.Proofs.Budget
import Metropolis.Proofs.FirstBest
import Metropolis.Proofs.Consultation
import Metropolis.Proofs.LogSumExp
import Metropolis.Proofs.Score
import Metropolis.Proofs.Triangle
import Metropolis.Proofs.PositiveDefinite
import Metropolis.Proofs.Jitter
import Metropolis.Proofs.Spread
import Metropolis.Proofs.Ordinates
import Metropolis.Proofs.Moments
import Metropolis.Proofs.EffectiveSize
import Metropolis.Proofs.Quantiles
import Metropolis.Proofs.ScaleReduction
import Metropolis.Proofs.Invariance
import Metropolis.Proofs.InfiniteOrdinates
import Metropolis.Proofs.Ranks
import Metropolis.Proofs.Separation
import Metropolis.Proofs.Truncation
import Metropolis.Proofs.QuantileOrder
import Metropolis.Proofs.RealPoints
import Metropolis.Proofs.Pooling
import Metropolis.Proofs.Distributions
import Metropolis.Proofs.Normalization
import Metropolis.Proofs.InfeasiblePriors
import Metropolis.Proofs.LaplaceQuantile
import Metropolis.Proofs.SufficientCounts
import Metropolis.Proofs.Integrand
import Metropolis.Proofs.ModeSearch
import Metropolis.Proofs.Overshoot
import Metropolis.Proofs.AdaptiveQuadrature
import Metropolis.Proofs.CentredIntercepts
import Metropolis.Proofs.Partition
import Metropolis.Proofs.ExtendedSums
import Metropolis.Proofs.ReportText
import Metropolis.Proofs.Saturation
import Metropolis.Proofs.Arrivals
import Metropolis.Proofs.SimulatedCounts
import Metropolis.Proofs.HermiteRecurrence
