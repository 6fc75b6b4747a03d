import Metropolis.Series.Moments

/-!
The logarithm of a sum of exponentials, taken about the largest exponent.
-/

namespace Metropolis.Series

variable {α : Type} [Scalar α]

/-- The largest number of a series that is not undefined, `-infinity` if there is none. -/
def maximum (xs : List α) : α := xs.foldl Scalar.larger (-Scalar.infinity)

/-- `log (Σ exp x)`. A maximum that is not finite is the answer itself. -/
def logSumExp (xs : List α) : α :=
  let top := maximum xs
  if Scalar.isFinite top then top + Scalar.log (sum (xs.map fun x => Scalar.exp (x - top)))
  else top

end Metropolis.Series
