import Metropolis.Outcomes
import Metropolis.Schedule
import Metropolis.Series.SplitRhat
import Metropolis.Prior.Registry
import Metropolis.Start

/-!
Everything that can go wrong when a model is estimated.
-/

namespace Metropolis

/-- A model that cannot be evaluated. A point that the data rule out is no error: its likelihood
is zero. -/
inductive ModelError where
  | noSuchSubject (subject subjects : Nat)
  | dimension (expected found : Nat)
  | noQuadrature (degree : Nat)
  | outcomes (cause : OutcomeError)
  | evaluation (text : String)
deriving Repr, DecidableEq

def ModelError.message : ModelError → String
  | .noSuchSubject subject subjects =>
    s!"subject index {subject} out of range for {subjects} subjects"
  | .dimension expected found =>
    s!"parameter vector length ({found}) does not match model dimension ({expected})"
  | .noQuadrature degree => s!"no Gauss-Hermite rule of order {degree}"
  | .outcomes cause => "invalid model input: " ++ cause.message
  | .evaluation text => "model evaluation failed: " ++ text

inductive Error (α : Type) where
  | schedule (cause : ScheduleError)
  | tuning
  | model (cause : ModelError)
  | prior (cause : PriorError)
  | start (cause : StartError α)
  | dimension (expected found : Nat)
  /-- None of the candidates has a finite posterior density. -/
  | noFeasibleStart (candidates : Nat)
  | notReleased
  | incomplete (completed required : Nat)
  | alreadyReleased
  | noDraws
  | ensemble (cause : EnsembleError)

/-- The wording of an error, with a text for numbers. -/
def Error.message {α : Type} (number : α → String) : Error α → String
  | .schedule cause => cause.message
  | .tuning => "invalid proposal tuning configuration"
  | .model cause => "model evaluation failed: " ++ cause.message
  | .prior cause => cause.message
  | .start cause => cause.message number
  | .dimension expected found =>
    s!"parameter vector length ({found}) does not match expected length ({expected})"
  | .noFeasibleStart candidates => s!"no feasible starting point among {candidates} candidates"
  | .notReleased => "final sample selection has not been released"
  | .incomplete completed required =>
    s!"chain has completed {completed} of {required} iterations"
  | .alreadyReleased => "chain is finalized; no further iterations can run"
  | .noDraws => "posterior draws are required"
  | .ensemble cause => cause.message

end Metropolis
