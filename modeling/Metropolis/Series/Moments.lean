import Metropolis.Scalar

/-!
Sums, means and variances of a series.
-/

namespace Metropolis.Series

variable {α : Type} [Scalar α]

/-- The sum from the left. It starts at minus zero, which added to a number leaves that number
also where zeros have a sign: minus zeros add up to minus zero. -/
def sum (xs : List α) : α := xs.foldl (· + ·) (-0)

/-- The arithmetic mean, undefined for no numbers. -/
def mean (xs : List α) : α :=
  if xs.isEmpty then Scalar.undefined else sum xs / Scalar.ofCount xs.length

/-- The sum of the squared distances to `center`. -/
def squaredDistances (center : α) (xs : List α) : α :=
  sum (xs.map fun x => (x - center) * (x - center))

/-- The unbiased variance, zero for fewer than two numbers. -/
def sampleVariance (xs : List α) : α :=
  if xs.length < 2 then 0
  else squaredDistances (mean xs) xs / (Scalar.ofCount xs.length - 1)

/-- The mean squared distance to the mean. -/
def populationVariance (xs : List α) : α :=
  squaredDistances (mean xs) xs / Scalar.larger (Scalar.ofCount xs.length) 1

end Metropolis.Series
