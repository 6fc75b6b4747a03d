import Metropolis.Series.Moments

/-!
The potential scale reduction of several series: how much wider they are together than each
alone.
-/

namespace Metropolis

/-- Why several chains cannot be run or compared. -/
inductive EnsembleError where
  | tooFewChains (minimum found : Nat)
  | zeroStride
  | tooFewDraws (minimum found : Nat)
  | mismatched
deriving Repr, DecidableEq

def EnsembleError.message : EnsembleError → String
  | .tooFewChains minimum found =>
    s!"multi-chain workflows require at least {minimum} chains; found {found}"
  | .zeroStride => "multi-chain seed stride must be positive"
  | .tooFewDraws minimum found =>
    s!"each chain must retain at least {minimum} draws; minimum found {found}"
  | .mismatched => "posterior dimensions differ across chains"

namespace Series

variable {α : Type} [Scalar α]

/-- The mean of the unbiased variances within the chains. -/
def withinVariance (chains : List (List α)) : α :=
  sum (chains.map sampleVariance) / Scalar.ofCount chains.length

/-- The length of a chain times the unbiased variance of the chain means. -/
def betweenVariance (n : Nat) (chains : List (List α)) : α :=
  let means := chains.map mean
  let grand := sum means / Scalar.ofCount chains.length
  Scalar.ofCount n * squaredDistances grand means / Scalar.ofCount (chains.length - 1)

/-- The scale reduction of chains of length `n`, at least one, and one for chains without spread
or of infinite spread. -/
def scaleReduction (n : Nat) (chains : List (List α)) : α :=
  let within := withinVariance chains
  let between := betweenVariance n chains
  if Scalar.isFinite within ∧ 0 < within ∧ Scalar.isFinite between then
    let length : α := Scalar.ofCount n
    let pooled := (length - 1) / length * within + between / length
    if Scalar.isFinite pooled ∧ ¬ pooled ≤ 0 then
      Scalar.larger (Scalar.sqrt (pooled / within)) 1
    else 1
  else 1

/-- The scale reduction of at least two chains of one length, which is at least two. -/
def splitRhat (chains : List (List α)) : Except EnsembleError α :=
  let n := (chains.head?.map List.length).getD 0
  if chains.length < 2 then .error (.tooFewChains 2 chains.length)
  else if n < 2 then .error (.tooFewDraws 2 n)
  else if chains.any (fun c => c.length != n) then .error .mismatched
  else .ok (scaleReduction n chains)

end Series

end Metropolis
