import Metropolis.Density
import Metropolis.Random.Normal

/-!
Random effects: realizations about zero whose standard deviation is itself a parameter.
-/

namespace Metropolis

/-- The distribution of a random effect's realizations. -/
inductive Effect where
  | normal
  | laplace
deriving Repr, DecidableEq

instance : Inhabited Effect := ⟨.normal⟩

namespace Effect

variable {α : Type} [Scalar α]

/-- The scale of the Laplace distribution with a standard deviation. -/
def laplaceScale (deviation : α) : α := deviation / Scalar.sqrt 2

/-- The logarithm of the density of a realization, `-infinity` unless the standard deviation is
positive and finite. -/
def logDensity (e : Effect) (x deviation : α) : α :=
  if 0 < deviation ∧ Scalar.isFinite deviation then
    match e with
    | .normal => logNormalDensity x 0 (deviation * deviation)
    | .laplace => logLaplaceDensity x (laplaceScale deviation)
  else -Scalar.infinity

/-- The quantile of the Laplace distribution at `u`. -/
def laplaceOfUniform (deviation u : α) : α :=
  let centred := u - 0.5
  let tail := Scalar.larger (1 - 2 * Scalar.abs centred) Scalar.tiny
  let side : α := if centred < 0 then 1 else -1
  laplaceScale deviation * side * Scalar.log tail

/-- A realization: two uniforms make a normal one, one uniform a Laplace one. -/
def sample (e : Effect) (deviation : α) : Sampling α α :=
  match e with
  | .normal => do
    let z ← standardNormal
    return deviation * z
  | .laplace => do
    let u ← uniform
    return laplaceOfUniform deviation u

end Effect

end Metropolis
