import Metropolis.Decimal.Binary
import Metropolis.Decimal.Rounding

/-!
Scientific text with a fixed number of significant digits: one digit, a point, the other digits,
`e` and the exponent. Both zeros are `0`.
-/

namespace Metropolis.Decimal

/-- The first `count` significant digits of a positive quotient, correctly rounded, and the
exponent of the first of them. -/
def significant (count : Nat) (num den : Nat) : Nat × Int :=
  let e := leadingExponent num den
  let (n, d) := shift num den (Int.ofNat count - 1 - e)
  let r := roundDiv n d
  if r = Nat.pow 10 count then (Nat.pow 10 (count - 1), e + 1) else (r, e)

/-- Scientific text of a double with `count` significant digits. -/
def scientific (count : Nat) (x : Float) : String :=
  if x.isNaN then "nan"
  else if x.isInf then (if x < 0 then "-inf" else "inf")
  else
    let b := Binary.ofFloat x
    if b.significand = 0 then "0"
    else
      let (r, e) := significant count b.ratio.1 b.ratio.2
      let ds := digits r
      let sign := if b.negative then "-" else ""
      sign ++ String.ofList (ds.take 1 ++ '.' :: ds.drop 1) ++ "e" ++ toString e

end Metropolis.Decimal
