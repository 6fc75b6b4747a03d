import Metropolis.Engine

/-!
The search for the point that a chain starts from.

The candidates are the centre of the starting distribution and a number of draws from it. The
first of the best feasible candidates is taken.
-/

namespace Metropolis.Search

variable {α σ : Type} [Scalar α]

/-- The better of the best point so far and a later candidate, which has to be feasible, and
strictly better than a feasible best. -/
def better (best candidate : Point α) : Point α :=
  if candidate.isFeasible ∧ (best.isFeasible = false ∨ best.logPosterior < candidate.logPosterior)
  then candidate else best

/-- Draws and evaluates a number of candidates, one after another. -/
def improve (t : Target α σ) (start : Start α) : Nat → Point α → Engine α σ (Point α)
  | 0, best => return best
  | n + 1, best => do
    let θ ← Engine.ofSampling start.sample
    let candidate ← Engine.ofModel (t.evaluate θ)
    improve t start n (better best candidate)

/-- The best of the centre and `gridSize` draws. Without draws no random number is used. -/
def run (t : Target α σ) (start : Start α) (gridSize : Nat) : Engine α σ (Point α) := do
  let centre ← Engine.ofModel (t.evaluate start.mean)
  let best ← improve t start gridSize centre
  if best.isFeasible then return best else throw (.noFeasibleStart (gridSize + 1))

end Metropolis.Search
