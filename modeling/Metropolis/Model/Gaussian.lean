import Metropolis.Model
import Metropolis.Series.Moments

/-!
Independent normal outcomes with unknown mean and variance.

Every outcome is a subject of its own. The parameters are the mean and the variance.
-/

namespace Metropolis

structure Gaussian (α : Type) where
  outcomes : List α
  meanPrior : Prior α
  variancePrior : Prior α

namespace Gaussian

variable {α : Type} [Scalar α]

def standardMeanPrior : Prior α := .normal 0 10000

def standardVariancePrior : Prior α := .inverseGamma 0.001 0.001

/-- The model of labelled outcomes, whose labels play no part in it. -/
def ofOutcomes (data : Outcomes α) : Except ModelError (Gaussian α) := do
  data.check.mapError .outcomes
  return ⟨data.values, standardMeanPrior, standardVariancePrior⟩

def ofValues (values : List α) : Except ModelError (Gaussian α) :=
  ofOutcomes (.independent values)

/-- Refuses a parameter vector that has not two components, and a subject that is not there. -/
def check (g : Gaussian α) (θ : List α) (subject : Nat) : Except ModelError (α × α × α) :=
  match θ with
  | [mean, variance] =>
    match g.outcomes[subject]? with
    | some y => .ok (y, mean, variance)
    | none => .error (.noSuchSubject subject g.outcomes.length)
  | _ => .error (.dimension 2 θ.length)

def logDensity (g : Gaussian α) (θ : List α) (subject : Nat) : Except ModelError α := do
  let (y, mean, variance) ← g.check θ subject
  return logNormalDensity y mean variance

/-- The sample mean and the sample variance, which is kept away from zero. -/
def estimates (g : Gaussian α) : List α :=
  [Series.mean g.outcomes, Scalar.larger (Series.sampleVariance g.outcomes) 1.0e-6]

def model {σ : Type} (g : Gaussian α) : Model α σ where
  observations := g.outcomes.length
  subjects := g.outcomes.length
  effects := ["mean"]
  others := ["variance"]
  interceptOnly := true
  priors := [.fixed 0 g.meanPrior, .fixed 1 g.variancePrior]
  start := fun coefficient => (Start.ofCoefficient g.estimates coefficient).mapError .start
  likelihood := .ofPure fun θ subject => (g.logDensity θ subject).map Scalar.exp
  logLikelihood := .ofPure g.logDensity
  logPredictive := .ofPure g.logDensity

def simulate (mean deviation : α) : Nat → Sampling α (List α)
  | 0 => return []
  | n + 1 => do
    let z ← standardNormal
    let rest ← simulate mean deviation n
    return (deviation * z + mean) :: rest

end Gaussian

end Metropolis
