import Metropolis.Series.Moments

/-!
Autocorrelation and the effective number of independent draws in a series.
-/

namespace Metropolis.Series

variable {α : Type} [Scalar α]

/-- The correlation of a series with itself `lag` places on, zero for a lag past the end and for
a series without spread. -/
def autocorrelation (xs : List α) (lag : Nat) : α :=
  if xs.length ≤ lag then 0
  else
    let center := mean xs
    let spread := squaredDistances center xs
    if spread ≤ 0 then 0
    else
      let products := (xs.zip (xs.drop lag)).map fun p => (p.1 - center) * (p.2 - center)
      sum products / spread

/-- Adds `f k` for the leading `k` of a list at which it is not `≤ 0`. -/
def sumWhilePositive (f : Nat → α) : List Nat → α → α
  | [], total => total
  | k :: ks, total =>
    let term := f k
    if term ≤ 0 then total else sumWhilePositive f ks (total + term)

/-- The number of independent draws worth as much as the series: its length over
`1 + 2 Σ autocorrelation`, the sum ending at the first lag without positive correlation. -/
def effectiveSize (xs : List α) : α :=
  let n := xs.length
  if n < 2 then Scalar.ofCount n
  else
    let total := sumWhilePositive (autocorrelation xs) ((List.range n).drop 1) 0
    Scalar.ofCount n / Scalar.larger (2 * total + 1) 1

end Metropolis.Series
