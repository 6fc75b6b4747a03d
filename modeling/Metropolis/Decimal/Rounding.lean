/-!
Quotients of natural numbers on a decimal grid, rounded to the nearest grid point with ties to the
even one.
-/

namespace Metropolis.Decimal

/-- The integer nearest to `num / den`, the even one of two. -/
def roundDiv (num den : Nat) : Nat :=
  let q := num / den
  let r := num % den
  if 2 * r < den then q
  else if den < 2 * r then q + 1
  else if q % 2 = 0 then q
  else q + 1

/-- A quotient scaled by `10 ^ places`, as numerator and denominator. -/
def shift (num den : Nat) (places : Int) : Nat × Nat :=
  (num * Nat.pow 10 places.toNat, den * Nat.pow 10 (-places).toNat)

/-- The decimal digits of a natural number, most significant first. -/
def digits (n : Nat) : List Char := Nat.toDigits 10 n

/-- The exponent of the leading decimal digit of a positive quotient: the `e` with
`10 ^ e ≤ num / den < 10 ^ (e + 1)`. -/
def leadingExponent (num den : Nat) : Int :=
  let e : Int := Int.ofNat (digits num).length - Int.ofNat (digits den).length
  let (n, d) := shift num den (-e)
  if d ≤ n then e else e - 1

end Metropolis.Decimal
