/-!
Numbers the sampler computes with.

Every numerical definition of the library is written once over a `Scalar`. Doubles are the scalar
that runs; the class asks for nothing a field of real numbers, or of real numbers with infinities
and an undefined value, could not give as well.
-/

namespace Metropolis

/-- Arithmetic with the elementary functions, the special values and the two orders that the
sampler needs: `<` and `≤` for numbers, `totalLe` for sorting, where the undefined value has a
place too. -/
class Scalar (α : Type) where
  add : Add α
  sub : Sub α
  mul : Mul α
  div : Div α
  neg : Neg α
  lt : LT α
  le : LE α
  beq : BEq α
  decidableLT : DecidableLT α
  decidableLE : DecidableLE α
  decimal : OfScientific α
  ofNat : Nat → α
  /-- The integer part of a number that is finite and not negative. -/
  floor : α → Nat
  abs : α → α
  sqrt : α → α
  exp : α → α
  log : α → α
  cos : α → α
  /-- The logarithm of the gamma function. -/
  logGamma : α → α
  pi : α
  infinity : α
  /-- The result of an undefined operation, unequal to every number. -/
  undefined : α
  isUndefined : α → Bool
  isFinite : α → Bool
  totalLe : α → α → Bool

namespace Scalar

variable {α : Type} [Scalar α]

instance (priority := low) : Add α := add

instance (priority := low) : Sub α := sub

instance (priority := low) : Mul α := mul

instance (priority := low) : Div α := div

instance (priority := low) : Neg α := neg

instance (priority := low) : LT α := lt

instance (priority := low) : LE α := le

instance (priority := low) : BEq α := beq

instance (priority := low) : DecidableLT α := decidableLT

instance (priority := low) : DecidableLE α := decidableLE

instance (priority := low) : OfScientific α := decimal

instance (priority := low) (n : Nat) : OfNat α n := ⟨ofNat n⟩

instance (priority := low) : Inhabited α := ⟨0⟩

/-- The largest number of things that `ofCount` tells apart. -/
def countLimit : Nat := 4294967295

/-- A number of things as a scalar. Counts are kept in 32 bits and stay at the limit above it. -/
def ofCount (n : Nat) : α := ofNat (min n countLimit)

/-- The larger of two numbers; an undefined one gives way to the other. -/
def larger (x y : α) : α :=
  if isUndefined x then y else if isUndefined y then x else if x < y then y else x

/-- The nearest number between `low` and `high`; an undefined one stays. -/
def clamp (x low high : α) : α :=
  if x < low then low else if high < x then high else x

/-- Whether a finite number that is not negative is an integer. -/
def isWhole (x : α) : Bool := ofNat (floor x) == x

/-- The integer part, or the next integer for a number that has a fraction. -/
def ceil (x : α) : Nat := if isWhole x then floor x else floor x + 1

/-- A positive number to any power. -/
def power (base exponent : α) : α := exp (exponent * log base)

/-- The smallest normal double, below which no argument of a logarithm is let. -/
def tiny : α := 2.2250738585072014e-308

end Scalar

end Metropolis
