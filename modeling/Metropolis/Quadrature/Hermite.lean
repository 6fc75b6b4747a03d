import Metropolis.Scalar

/-!
Orthonormal Hermite polynomials and their roots.

The polynomials are orthonormal for the weight `exp (-x²)`. The derivative of the polynomial of
degree `n` is `√(2 n)` times the one of degree `n - 1`, so one run of the recurrence gives a Newton
step. Roots are found from the largest down, each from a guess made of the two before it.
-/

namespace Metropolis.Quadrature

variable {α : Type} [Scalar α]

open Scalar (sqrt)

/-- The constant polynomial, `π ^ (-1/4)`. -/
def hermiteConstant : α := 0.7511255444649425

/-- The orthonormal Hermite polynomials of degree `n` and `n - 1` at `z`. -/
def hermite : Nat → α → α × α
  | 0, _ => (hermiteConstant, 0)
  | j + 1, z =>
    let (current, previous) := hermite j z
    let k : α := Scalar.ofCount j
    (z * sqrt (2 / (k + 1)) * current - sqrt (k / (k + 1)) * previous, current)

/-- The value and the derivative of the polynomial of degree `n` at `z`. -/
def valueAndDerivative (n : Nat) (z : α) : α × α :=
  let (value, previous) := hermite n z
  (value, sqrt (2 * Scalar.ofCount n) * previous)

/-- The length of a Newton step that ends the search for a root. -/
def rootTolerance : α := 3.0e-14

/-- Newton's method on the polynomial of degree `n`, at most `limit` steps. Gives the root and the
derivative that the last step used. -/
def polishRoot (n : Nat) : (limit : Nat) → (root derivative : α) → α × α
  | 0, z, derivative => (z, derivative)
  | limit + 1, z, _ =>
    let (value, slope) := valueAndDerivative n z
    let step := value / slope
    if Scalar.abs step ≤ rootTolerance then (z - step, slope)
    else polishRoot n limit (z - step) slope

/-- The guess for the next smaller root, from those found, the smallest first. -/
def guessRoot (n : Nat) (found : List α) : α :=
  let degree : α := Scalar.ofCount n
  match found with
  | [] => sqrt (2 * degree + 1) - 1.85575 * Scalar.power (2 * degree + 1) (-0.16667)
  | [z] => z - 1.14 * Scalar.power degree 0.426 / z
  | [z, first] => 1.86 * z - 0.86 * first
  | [z, second, _] => 1.91 * z - 0.91 * second
  | z :: before :: _ => 2 * z - before

/-- The `count` largest roots of the polynomial of degree `n`, the smallest first, each with the
derivative there. -/
def largestRoots (n : Nat) : Nat → List (α × α)
  | 0 => []
  | count + 1 =>
    let found := largestRoots n count
    polishRoot n 100 (guessRoot n (found.map Prod.fst)) 1 :: found

end Metropolis.Quadrature
