import Metropolis.Decimal.Binary
import Metropolis.Decimal.Rounding

/-!
Text of a double with a fixed number of decimal places. The exact value is rounded, ties to even,
and the sign stays also where everything else is rounded away.
-/

namespace Metropolis.Decimal

/-- A natural number of units of the last place, with `places` digits after the point. -/
def placed (places units : Nat) : List Char :=
  let ds := digits units
  let padded := List.replicate (places + 1 - ds.length) '0' ++ ds
  let whole := padded.take (padded.length - places)
  if places = 0 then whole else whole ++ '.' :: padded.drop (padded.length - places)

def fixed (places : Nat) (x : Float) : String :=
  if x.isNaN then "NaN"
  else if x.isInf then (if x < 0 then "-inf" else "inf")
  else
    let b := Binary.ofFloat x
    let sign := if b.negative then "-" else ""
    sign ++ String.ofList (placed places (roundDiv (b.ratio.1 * Nat.pow 10 places) b.ratio.2))

end Metropolis.Decimal
