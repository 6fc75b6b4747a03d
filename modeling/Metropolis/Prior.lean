import Metropolis.Density

/-!
Priors on a single parameter.
-/

namespace Metropolis

inductive Prior (α : Type) where
  | flat
  | normal (mean variance : α)
  | uniform (lower upper : α)
  | gamma (shape rate : α)
  | inverseGamma (shape scale : α)
  | halfNormal (scale : α)
  | logNormal (mu sigma : α)
deriving BEq

namespace Prior

variable {α : Type} [Scalar α]

/-- Whether the hyperparameters describe a distribution. -/
def isValid : Prior α → Bool
  | .flat => true
  | .normal mean variance => Scalar.isFinite mean && decide (0 < variance)
  | .uniform lower upper =>
    Scalar.isFinite lower && Scalar.isFinite upper && decide (lower < upper)
  | .gamma shape rate => decide (0 < shape) && decide (0 < rate)
  | .inverseGamma shape scale => decide (0 < shape) && decide (0 < scale)
  | .halfNormal scale => decide (0 < scale) && Scalar.isFinite scale
  | .logNormal mu sigma => Scalar.isFinite mu && decide (0 < sigma)

def logDensity (p : Prior α) (x : α) : α :=
  match p with
  | .flat => 0
  | .normal mean variance => logNormalDensity x mean variance
  | .uniform lower upper => logUniformDensity x lower upper
  | .gamma shape rate => logGammaDensity x shape rate
  | .inverseGamma shape scale => logInverseGammaDensity x shape scale
  | .halfNormal scale => logHalfNormalDensity x scale
  | .logNormal mu sigma => logLogNormalDensity x mu sigma

end Prior

end Metropolis
