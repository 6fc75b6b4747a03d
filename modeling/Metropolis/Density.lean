import Metropolis.Scalar

/-!
Logarithms of probability densities, `-infinity` outside the support.
-/

namespace Metropolis

variable {α : Type} [Scalar α]

open Scalar (log logGamma)

/-- The squared distance to the mean in units of the variance. -/
def squaredDeviation (x mean variance : α) : α := (x - mean) * (x - mean) / variance

def logNormalDensity (x mean variance : α) : α :=
  if variance ≤ 0 then -Scalar.infinity
  else -0.5 * (log (2 * Scalar.pi) + log variance + squaredDeviation x mean variance)

/-- The uniform distribution on `[low, high]`, undefined for an interval without length. -/
def logUniformDensity (x low high : α) : α :=
  if low < high then
    if low ≤ x ∧ x ≤ high then -log (high - low) else -Scalar.infinity
  else Scalar.undefined

def logGammaDensity (x shape rate : α) : α :=
  if 0 < x ∧ 0 < shape ∧ 0 < rate then
    shape * log rate + -logGamma shape + ((shape - 1) * log x + -rate * x)
  else -Scalar.infinity

/-- The distribution of the inverse of a gamma variable whose rate is `scale`. -/
def logInverseGammaDensity (x shape scale : α) : α :=
  if 0 < x ∧ 0 < shape ∧ 0 < scale then
    shape * log scale + -logGamma shape - ((shape + 1) * log x + scale / x)
  else -Scalar.infinity

/-- The normal distribution about zero, folded onto the positive numbers. -/
def logHalfNormalDensity (x scale : α) : α :=
  if x < 0 then -Scalar.infinity else log 2 + logNormalDensity x 0 (scale * scale)

/-- The distribution of a variable whose logarithm is normal. -/
def logLogNormalDensity (x mu sigma : α) : α :=
  if 0 < x then logNormalDensity (log x) mu (sigma * sigma) - log x else -Scalar.infinity

/-- The Laplace distribution about zero. -/
def logLaplaceDensity (x scale : α) : α := -log (2 * scale) - Scalar.abs x / scale

end Metropolis
