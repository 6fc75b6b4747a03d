import Metropolis.Error

/-!
Models: what the sampler has to be told to estimate the parameters of a distribution of data.

A likelihood may depend on what was computed before: it reads and changes the model's memory, of a
type `σ` that is the model's own. A model without a memory leaves it as it is.
-/

namespace Metropolis

/-- A likelihood of one subject at a parameter vector. -/
abbrev Likelihood (α σ : Type) := List α → Nat → EStateM ModelError σ α

structure Model (α σ : Type) where
  observations : Nat
  subjects : Nat
  /-- The names of the fixed effects, which come first in the parameter vector. -/
  effects : List String
  /-- The names of the other parameters. -/
  others : List String
  /-- Whether there is nothing but an intercept. -/
  interceptOnly : Bool
  priors : List (Registration α)
  /-- The starting distribution for a coefficient of variation. -/
  start : α → Except (Error α) (Start α)
  likelihood : Likelihood α σ
  logLikelihood : Likelihood α σ
  /-- The likelihood by which predictions are scored. -/
  logPredictive : Likelihood α σ

/-- A likelihood that keeps no memory. -/
def Likelihood.ofPure {α σ : Type} (f : List α → Nat → Except ModelError α) : Likelihood α σ :=
  fun θ subject memory =>
    match f θ subject with
    | .ok value => .ok value memory
    | .error cause => .error cause memory

namespace Model

variable {α σ : Type}

def parameterNames (m : Model α σ) : List String := m.effects ++ m.others

def dimension (m : Model α σ) : Nat := m.parameterNames.length

def logOf [Scalar α] (likelihood : Likelihood α σ) : Likelihood α σ := fun θ subject => do
  let value ← likelihood θ subject
  return Scalar.log value

end Model

/-- What a chain can tell of the model that it estimates. -/
structure ModelInfo where
  observations : Nat
  subjects : Nat
  dimension : Nat
  parameterNames : List String
  interceptOnly : Bool

def Model.info {α σ : Type} (m : Model α σ) : ModelInfo where
  observations := m.observations
  subjects := m.subjects
  dimension := m.dimension
  parameterNames := m.parameterNames
  interceptOnly := m.interceptOnly

end Metropolis
