import Metropolis.Model
import Metropolis.Quadrature.Rule

/-!
Poisson counts of subjects, with one rate for all of them or with an intercept for each.

With one rate the parameter is the logarithm of the rate. With intercepts the parameters are the
logarithm of the rate, the intercept of every subject, which shifts that logarithm, and the
standard deviation of the intercepts. A subject's likelihood needs its counts only through their
number, their sum and the sum of the logarithms of their factorials.

Predictions are scored with the subject's intercept integrated out.
-/

namespace Metropolis

/-- What the counts of one subject amount to. -/
structure Tally (α : Type) where
  label : Nat
  observations : Nat
  total : α
  logFactorials : α

/-- Whether subjects differ in their rates. -/
inductive Intercepts where
  | none
  | perSubject
deriving Repr, DecidableEq

instance : Inhabited Intercepts := ⟨.none⟩

structure Counts (α : Type) where
  tallies : List (Tally α)
  observations : Nat
  intercepts : Intercepts
  logMeanPrior : Prior α
  deviationPrior : Prior α
  rule : Quadrature.Rule α

namespace Tally

variable {α : Type} [Scalar α]

open Scalar (exp log)

def ofRows (values : List α) (subject : Subject) : Tally α :=
  let counts := subject.rows.map fun row => values.getD row 0
  { label := subject.label
    observations := counts.length
    total := Series.sum counts
    logFactorials := Series.sum (counts.map fun y => Scalar.logGamma (y + 1)) }

/-- The logarithm of the probability of the counts when `η` is the logarithm of the rate. -/
def logProbability (t : Tally α) (η : α) : α :=
  t.total * η + -Scalar.ofCount t.observations * exp η - t.logFactorials

/-- The mean count, which is kept away from zero. -/
def rate (t : Tally α) : α := Scalar.larger (t.total / Scalar.ofCount t.observations) 0.1

/-- The length of a Newton step that ends the search for the mode. -/
def modeTolerance : α := 1.0e-10

/-- The curvature, with its sign changed, of the logarithm of the integrand at intercept `u`. -/
def curvature (t : Tally α) (logMean precision u : α) : α :=
  Scalar.ofCount t.observations * exp (logMean + u) + precision

def modeStep (t : Tally α) (logMean precision u : α) : α :=
  (t.total - Scalar.ofCount t.observations * exp (logMean + u) - u * precision) /
    t.curvature logMean precision u

/-- Newton's method for the mode of the integrand, at most `limit` steps. Gives the mode and the
curvature that the last step used. -/
def seekMode (t : Tally α) (logMean precision : α) :
    (limit : Nat) → (mode lastCurvature : α) → α × α
  | 0, mode, last => (mode, last)
  | limit + 1, mode, _ =>
    let step := t.modeStep logMean precision mode
    let here := t.curvature logMean precision mode
    if Scalar.abs step ≤ modeTolerance then (mode + step, here)
    else seekMode t logMean precision limit (mode + step) here

/-- The intercept at which the data alone would have their mode. -/
def firstGuess (t : Tally α) (logMean : α) : α :=
  log (Scalar.larger t.total 0.5 / Scalar.ofCount t.observations) - logMean

/-- The logarithm of the integrand: the counts given intercept `u`, times the density of `u`. -/
def logIntegrand (t : Tally α) (logMean deviation u : α) : α :=
  t.logProbability (logMean + u) + Effect.normal.logDensity u deviation

/-- The logarithm of the probability of the counts with the intercept integrated out. -/
def logMarginal (t : Tally α) (rule : Quadrature.Rule α) (logMean deviation : α) : α :=
  if 0 < deviation ∧ Scalar.isFinite deviation then
    let precision := 1 / (deviation * deviation)
    let (mode, curvature) := t.seekMode logMean precision 50 (t.firstGuess logMean) precision
    if Scalar.isFinite mode then
      rule.logIntegral mode (1 / Scalar.sqrt curvature) (t.logIntegrand logMean deviation)
    else -Scalar.infinity
  else -Scalar.infinity

end Tally

namespace Counts

variable {α : Type} [Scalar α]

open Scalar (log)

def standardLogMeanPrior : Prior α := .normal 0 100

def standardDeviationPrior : Prior α := .uniform 0 10

/-- The degree of the quadrature rule unless another one is asked for. -/
def standardDegree : Nat := 20

def ofOutcomes (data : Outcomes α) (intercepts : Intercepts) : Except ModelError (Counts α) := do
  data.checkCounts.mapError .outcomes
  return {
    tallies := data.subjects.map (Tally.ofRows data.values)
    observations := data.size
    intercepts := intercepts
    logMeanPrior := standardLogMeanPrior
    deviationPrior := standardDeviationPrior
    rule := .ofDegree standardDegree }

/-- The same model with another quadrature rule. -/
def withDegree (c : Counts α) (degree : Nat) : Except ModelError (Counts α) :=
  match Quadrature.Rule.ofDegree? degree with
  | some rule => .ok { c with rule }
  | none => .error (.noQuadrature degree)

def subjects (c : Counts α) : Nat := c.tallies.length

def dimension (c : Counts α) : Nat :=
  match c.intercepts with
  | .none => 1
  | .perSubject => c.subjects + 2

/-- The index of the standard deviation of the intercepts, after all of them. -/
def deviationIndex (c : Counts α) : Nat := c.subjects + 1

/-- The tally of a subject, for a parameter vector of the right length. -/
def check (c : Counts α) (θ : List α) (subject : Nat) : Except ModelError (Tally α) :=
  if θ.length ≠ c.dimension then .error (.dimension c.dimension θ.length)
  else
    match c.tallies[subject]? with
    | some t => .ok t
    | none => .error (.noSuchSubject subject c.subjects)

def logMean (θ : List α) : α := θ.getD 0 0

def intercept (c : Counts α) (θ : List α) (subject : Nat) : α :=
  match c.intercepts with
  | .none => 0
  | .perSubject => θ.getD (1 + subject) 0

def logProbability (c : Counts α) (θ : List α) (subject : Nat) : Except ModelError α := do
  let t ← c.check θ subject
  return t.logProbability (logMean θ + c.intercept θ subject)

/-- The same with the intercept integrated out, if there is one. -/
def logPredictive (c : Counts α) (θ : List α) (subject : Nat) : Except ModelError α :=
  match c.intercepts with
  | .none => c.logProbability θ subject
  | .perSubject => do
    let t ← c.check θ subject
    return t.logMarginal c.rule (logMean θ) (θ.getD c.deviationIndex 0)

/-- The logarithm of the common rate, kept away from the one of zero. -/
def commonLogRate (c : Counts α) : α :=
  log (Scalar.larger (Series.sum (c.tallies.map Tally.total) / Scalar.ofCount c.observations) 0.1)

/-- Point estimates of the parameters. The intercepts are centred, and what that takes off them
is added to the common logarithm of the rate. -/
def estimates (c : Counts α) : List α :=
  let common := c.commonLogRate
  match c.intercepts with
  | .none => [common]
  | .perSubject =>
    let raw := c.tallies.map fun t => log t.rate - common
    let centre := Series.mean raw
    let deviation := Scalar.larger (Scalar.sqrt (Series.sampleVariance raw)) 0.1
    (common + centre) :: raw.map (fun u => u - centre) ++ [deviation]

def otherNames (c : Counts α) : List String :=
  match c.intercepts with
  | .none => []
  | .perSubject => c.tallies.map (fun t => "u_" ++ toString t.label) ++ ["tau"]

def priors (c : Counts α) : List (Registration α) :=
  match c.intercepts with
  | .none => [.fixed 0 c.logMeanPrior]
  | .perSubject =>
    .fixed 0 c.logMeanPrior ::
      (List.range c.subjects).map fun i =>
        .realization (i + 1) .normal c.deviationIndex c.deviationPrior

def model {σ : Type} (c : Counts α) : Model α σ where
  observations := c.observations
  subjects := c.subjects
  effects := ["log_mean"]
  others := c.otherNames
  interceptOnly := true
  priors := c.priors
  start := fun coefficient => (Start.ofCoefficient c.estimates coefficient).mapError .start
  likelihood := .ofPure fun θ subject => (c.logProbability θ subject).map Scalar.exp
  logLikelihood := .ofPure c.logProbability
  logPredictive := .ofPure c.logPredictive

end Counts

end Metropolis
