import Metropolis.Scalar.Double
import Metropolis.Decimal.Fixed
import Metropolis.Text.Table

/-!
Comparison of models by the logarithms of their pseudo-marginal likelihoods.

Models are ranked by their scores as they are stored, so that undefined scores of either sign have
their places, and compared by the numbers.
-/

namespace Metropolis

/-- The logarithm of the pseudo Bayes factor of one score over another. -/
def logBayesFactor {α : Type} [Scalar α] (a b : α) : α := a - b

/-- Above one for the first score the larger. -/
def bayesFactor {α : Type} [Scalar α] (a b : α) : α := Scalar.exp (logBayesFactor a b)

/-- A model in a ranking. -/
structure Ranked (α : Type) where
  name : String
  score : α
  /-- The logarithm of the Bayes factor over the best model. -/
  versusBest : Float

namespace Ranked

open Double (Bits)

/-- Models by descending score, those of one score in the order given. -/
def byScore (models : List (String × Bits)) : List (String × Bits) :=
  models.mergeSort fun a b => b.2.totalLe a.2

/-- Ranks models by their scores as they are stored, the best first. -/
def rankStored (models : List (String × Bits)) : List (Ranked Bits) :=
  let ordered := byScore models
  let best := (ordered.head?.map fun m => m.2.toFloat).getD Scalar.undefined
  ordered.map fun m => ⟨m.1, m.2, logBayesFactor m.2.toFloat best⟩

/-- Ranks models, the best first. -/
def rank (models : List (String × Float)) : List (Ranked Float) :=
  (rankStored (models.map fun m => (m.1, .ofFloat m.2))).map fun m =>
    ⟨m.name, m.score.toFloat, m.versusBest⟩

def tableHeader : List String := ["model", "lpml", "log pbf vs best"]

/-- A ranking as a table with three decimal places. -/
def table (ranking : List (Ranked Float)) : String :=
  Text.Table.render tableHeader <| ranking.map fun m =>
    [m.name, Decimal.fixed 3 m.score, Decimal.fixed 3 m.versusBest]

end Ranked

end Metropolis
