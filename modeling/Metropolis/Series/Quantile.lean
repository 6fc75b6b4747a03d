import Metropolis.Scalar

/-!
Quantiles of a series by linear interpolation between order statistics.
-/

namespace Metropolis.Series

variable {α : Type} [Scalar α]

/-- The series in ascending order. -/
def sorted (xs : List α) : List α := xs.mergeSort Scalar.totalLe

/-- The number at an index of an ordered series. -/
def orderStatistic (xs : List α) (i : Nat) : α := xs.getD i Scalar.undefined

/-- The value at the fraction `p` of the way through an ordered series. -/
def quantile (ordered : List α) (p : α) : α :=
  if ordered.isEmpty then Scalar.undefined
  else
    let position := Scalar.clamp p 0 1 * Scalar.ofCount (ordered.length - 1)
    let below := Scalar.floor position
    let above := Scalar.ceil position
    if below = above then orderStatistic ordered below
    else
      let weight := position - Scalar.ofCount below
      (1 - weight) * orderStatistic ordered below + weight * orderStatistic ordered above

end Metropolis.Series
