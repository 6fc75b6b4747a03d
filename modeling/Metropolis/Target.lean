import Metropolis.Model

/-!
The posterior density of a model, up to a constant factor.

A target is a model with a prior for each of its parameters. The prior is evaluated first: a point
outside its support is settled without a call of the model, and the sum over the subjects ends at
the first of likelihood zero.
-/

namespace Metropolis

structure Point (α : Type) where
  parameters : List α
  logLikelihood : α
  logPosterior : α

namespace Point

variable {α : Type} [Scalar α]

/-- Whether the posterior density is positive and finite. -/
def isFeasible (p : Point α) : Bool := Scalar.isFinite p.logPosterior

/-- A point of posterior density zero. -/
def impossible (θ : List α) : Point α := ⟨θ, -Scalar.infinity, -Scalar.infinity⟩

end Point

structure Target (α σ : Type) where
  model : Model α σ
  registry : Registry α

namespace Target

variable {α σ : Type} [Scalar α]

def dimension (t : Target α σ) : Nat := t.model.dimension

omit [Scalar α] in
/-- The target with given priors, which must be those of the model's parameters. -/
def ofRegistry (m : Model α σ) (r : Registry α) : Except PriorError (Target α σ) := do
  r.checkCoverage m.dimension
  return ⟨m, r⟩

/-- The target with the model's own priors. -/
def ofModel (m : Model α σ) : Except PriorError (Target α σ) := do
  let registry ← Registry.ofRegistrations m.priors
  ofRegistry m registry

/-- Refuses a parameter vector of a wrong length. -/
def checkDimension (t : Target α σ) (θ : List α) : Except (Error α) Unit :=
  if θ.length = t.dimension then .ok () else .error (.dimension t.dimension θ.length)

def logPrior (t : Target α σ) (θ : List α) : Except (Error α) α := do
  t.checkDimension θ
  (t.registry.logPrior θ).mapError .prior

/-- Adds the likelihoods of the listed subjects to `total`, up to the first of zero. -/
def addSubjects (m : Model α σ) (θ : List α) : List Nat → α → EStateM ModelError σ α
  | [], total => return total
  | subject :: rest, total => do
    let term ← m.logLikelihood θ subject
    if term == -Scalar.infinity then return -Scalar.infinity
    else addSubjects m θ rest (total + term)

def subjectSum (t : Target α σ) (θ : List α) : EStateM (Error α) σ α :=
  EStateM.adaptExcept .model (addSubjects t.model θ (List.range t.model.subjects) 0)

def logLikelihood (t : Target α σ) (θ : List α) : EStateM (Error α) σ α := do
  MonadExcept.ofExcept (t.checkDimension θ)
  t.subjectSum θ

def evaluate (t : Target α σ) (θ : List α) : EStateM (Error α) σ (Point α) := do
  let logPrior ← MonadExcept.ofExcept (t.logPrior θ)
  if logPrior == -Scalar.infinity then return .impossible θ
  else
    let logLikelihood ← t.logLikelihood θ
    return ⟨θ, logLikelihood, logPrior + logLikelihood⟩

def logPosterior (t : Target α σ) (θ : List α) : EStateM (Error α) σ α := do
  let point ← t.evaluate θ
  return point.logPosterior

end Target

end Metropolis
