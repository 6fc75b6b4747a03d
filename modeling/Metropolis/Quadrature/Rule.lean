import Metropolis.Quadrature.Hermite
import Metropolis.Series.LogSumExp

/-!
Gauss-Hermite rules for the weight `exp (-x²)`: the weights of a rule add up to `√π`.
-/

namespace Metropolis.Quadrature

variable {α : Type} [Scalar α]

open Scalar (sqrt log)

/-- Nodes in ascending order, each with its weight. -/
structure Rule (α : Type) where
  points : List (α × α)

namespace Rule

def nodes (r : Rule α) : List α := r.points.map Prod.fst

def weights (r : Rule α) : List α := r.points.map Prod.snd

def size (r : Rule α) : Nat := r.points.length

/-- The rule whose nodes are the roots of the Hermite polynomial of degree `n`. The roots lie
symmetrically about zero, so only the half that is not negative is searched for. -/
def ofDegree (n : Nat) : Rule α :=
  let upper := largestRoots n ((n + 1) / 2) |>.map fun p => (p.1, 2 / (p.2 * p.2))
  let lower := upper.reverse.map fun p => (-p.1, p.2)
  ⟨lower ++ upper.drop (n % 2)⟩

/-- The degrees for which there is a rule. -/
def degrees : List Nat := [5, 10, 20, 32]

def ofDegree? (n : Nat) : Option (Rule α) := if n ∈ degrees then some (ofDegree n) else none

/-- The expectation of `f` under the normal distribution. -/
def normalExpectation (r : Rule α) (mean deviation : α) (f : α → α) : α :=
  let scale := sqrt 2 * deviation
  Series.sum (r.points.map fun p => p.2 * f (scale * p.1 + mean)) / sqrt Scalar.pi

/-- `log ∫ exp (g u) du` with the rule centred at `mode` and stretched by `scale`. Exact where
`g` is quadratic with its maximum at `mode` and curvature `-1 / scale²`; undefined for a centre
that is not finite or a scale that is not positive and finite. -/
def logIntegral (r : Rule α) (mode scale : α) (g : α → α) : α :=
  if 0 < scale ∧ Scalar.isFinite scale ∧ Scalar.isFinite mode then
    let stretch := sqrt 2 * scale
    let terms := r.points.map fun p => p.1 * p.1 + log p.2 + g (stretch * p.1 + mode)
    log stretch + Series.logSumExp terms
  else Scalar.undefined

end Rule

end Metropolis.Quadrature
