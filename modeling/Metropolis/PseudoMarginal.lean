import Metropolis.Draws
import Metropolis.Series.LogSumExp

/-!
The logarithm of the pseudo-marginal likelihood of a model.

A subject's conditional predictive ordinate is the harmonic mean of its predictive likelihoods
over the draws. The sum of their logarithms over the subjects scores the model.
-/

namespace Metropolis

structure PseudoMarginal (α : Type) where
  total : α
  /-- The logarithm of the conditional predictive ordinate of every subject. -/
  logOrdinates : List α

namespace PseudoMarginal

variable {α σ : Type} [Scalar α]

/-- The logarithm of the harmonic mean, from the logarithms of the numbers. -/
def logHarmonicMean (logs : List α) : α :=
  Scalar.log (Scalar.ofCount logs.length) - Series.logSumExp (logs.map fun x => -x)

omit [Scalar α] in
/-- A subject's predictive likelihoods at the draws, on the log scale. -/
def predictions (m : Model α σ) (subject : Nat) : List (Point α) → EStateM ModelError σ (List α)
  | [] => return []
  | p :: rest => do
    let value ← m.logPredictive p.parameters subject
    let values ← predictions m subject rest
    return value :: values

/-- The logarithms of the ordinates of the listed subjects. -/
def ordinates (m : Model α σ) (draws : List (Point α)) :
    List Nat → EStateM ModelError σ (List α)
  | [] => return []
  | subject :: rest => do
    let logs ← predictions m subject draws
    let others ← ordinates m draws rest
    return logHarmonicMean logs :: others

/-- Scores a model by its draws, of which there has to be one. -/
def ofDraws (m : Model α σ) (d : Draws α) : EStateM (Error α) σ (PseudoMarginal α) :=
  if d.isEmpty then throw .noDraws
  else do
    let logs ← EStateM.adaptExcept .model (ordinates m d.points (List.range m.subjects))
    return ⟨Series.sum logs, logs⟩

end PseudoMarginal

end Metropolis
