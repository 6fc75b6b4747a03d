import Metropolis.Decimal.Binary
import Metropolis.Decimal.Rounding

/-!
Text of a double with the fewest digits that read back.

A decimal reads back when it lies in the interval of reals that round to the double. The first
grid of 1, 2, … 17 significant digits on which one of the two neighbours of the value does so
gives the text; of two such neighbours the nearer is taken, and the upper one at equal distance.
The text is positional for every exponent.
-/

namespace Metropolis.Decimal

/-- A decimal `significand * 10 ^ exponent`. -/
structure Numeral where
  significand : Nat
  exponent : Int

/-- Whether `significand * 10 ^ exponent` rounds to the magnitude of `b`. The interval reaches
half a unit of the last place up and down, a quarter down from a power of two, and holds its ends
if the significand is even. -/
def readsBack (b : Binary) (c : Numeral) : Bool :=
  let m := b.significand
  let down : Nat := if m = Nat.pow 2 52 ∧ -1074 < b.exponent then 1 else 2
  let (cn, cd) := shift c.significand 1 c.exponent
  -- all three sides times `4 * cd`, without a fraction
  let up := Nat.pow 2 b.exponent.toNat
  let value := 4 * cn * Nat.pow 2 (-b.exponent).toNat
  let low := (4 * m - down) * up * cd
  let high := (4 * m + 2) * up * cd
  if m % 2 = 0 then decide (low ≤ value ∧ value ≤ high) else decide (low < value ∧ value < high)

/-- The neighbour of the value on the grid of multiples of `10 ^ exponent` that reads back. -/
def onGrid? (b : Binary) (exponent : Int) : Option Numeral :=
  let (n, d) := shift b.ratio.1 b.ratio.2 (-exponent)
  let below : Numeral := ⟨n / d, exponent⟩
  let above : Numeral := ⟨n / d + 1, exponent⟩
  match readsBack b below, readsBack b above with
  | false, false => none
  | true, false => some below
  | false, true => some above
  | true, true => if 2 * (n % d) < d then some below else some above

/-- The shortest decimal for the magnitude of a number that is not zero. -/
def shortest (b : Binary) : Numeral :=
  let e := leadingExponent b.ratio.1 b.ratio.2
  ((List.range 17).findSome? fun (k : Nat) => onGrid? b (e - Int.ofNat k)).getD
    ⟨b.significand, 0⟩

/-- A decimal written out without an exponent. -/
def positional (c : Numeral) : List Char :=
  let ds := digits c.significand
  if 0 ≤ c.exponent then ds ++ List.replicate c.exponent.toNat '0'
  else
    let places := (-c.exponent).toNat
    let padded := List.replicate (places + 1 - ds.length) '0' ++ ds
    let fraction := padded.drop (padded.length - places)
    let kept := (fraction.reverse.dropWhile (· == '0')).reverse
    let whole := padded.take (padded.length - places)
    if kept.isEmpty then whole else whole ++ '.' :: kept

/-- The shortest positional text that reads back to the same double. -/
def shortestText (x : Float) : String :=
  if x.isNaN then "NaN"
  else if x.isInf then (if x < 0 then "-inf" else "inf")
  else
    let b := Binary.ofFloat x
    let sign := if b.negative then "-" else ""
    if b.significand = 0 then sign ++ "0"
    else sign ++ String.ofList (positional (shortest b))

end Metropolis.Decimal
