import Metropolis.Engine
import Metropolis.RandomWalk

/-!
One iteration of the sampler: propose a point, evaluate it, and move to it or stay.
-/

namespace Metropolis

/-- Where a chain stands, how it proposes, and how often it moved. -/
structure Walker (α : Type) where
  current : Point α
  walk : RandomWalk α
  counts : Acceptance

variable {α σ : Type} [Scalar α]

/-- The Metropolis test on the logarithm of the ratio of the densities. A ratio of at least one
is accepted without a random number. -/
def accepts (logRatio : α) : Sampling α Bool :=
  if 0 ≤ logRatio then return true
  else do
    let u ← uniform
    return decide (Scalar.log u < logRatio)

namespace Walker

omit [Scalar α] in
def ofPoint (current : Point α) (walk : RandomWalk α) : Walker α := ⟨current, walk, {}⟩

/-- Whether to move to an evaluated candidate, never to one that is not feasible. -/
def decideMove (w : Walker α) (candidate : Point α) : Sampling α Bool :=
  if candidate.isFeasible then accepts (candidate.logPosterior - w.current.logPosterior)
  else return false

omit [Scalar α] in
def move (w : Walker α) (candidate : Point α) (accepted : Bool) : Walker α where
  current := if accepted then candidate else w.current
  walk := w.walk.record accepted
  counts := w.counts.record accepted

/-- One iteration: whether the walker moved, and the walker after it. -/
def iterate (t : Target α σ) (w : Walker α) : Engine α σ (Bool × Walker α) := do
  let θ ← Engine.ofSampling (w.walk.propose w.current.parameters)
  let candidate ← Engine.ofModel (t.evaluate θ)
  let accepted ← Engine.ofSampling (w.decideMove candidate)
  return (accepted, w.move candidate accepted)

end Walker

end Metropolis
