import Metropolis.Random.Tape

/-!
Standard normal draws, each from two uniforms by the polar transformation.
-/

namespace Metropolis

variable {α : Type} [Scalar α]

open Scalar (sqrt log cos)

/-- The radius of a normal pair from a uniform `u`. The logarithm is taken of `1 - u`, which is
never zero on `[0, 1)` and is kept away from it in any case. -/
def normalRadius (u : α) : α := sqrt (-2 * log (Scalar.larger (1 - u) Scalar.tiny))

/-- The normal number made of two uniforms. -/
def normalOfUniforms (u v : α) : α := normalRadius u * cos (2 * Scalar.pi * v)

/-- A standard normal draw. -/
def standardNormal : Sampling α α := do
  let u ← uniform
  let v ← uniform
  return normalOfUniforms u v

/-- Independent standard normal draws. -/
def standardNormals : Nat → Sampling α (List α)
  | 0 => return []
  | n + 1 => do
    let z ← standardNormal
    let zs ← standardNormals n
    return z :: zs

end Metropolis
