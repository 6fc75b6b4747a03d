import Metropolis.Scalar

/-!
Observed outcomes, each with the label of the subject it was observed on.

Main definitions: the checks that the models make of their data, and `Outcomes.subjects`, which
gathers the rows of every subject.
-/

namespace Metropolis

/-- What is wrong with observed outcomes. -/
inductive OutcomeError where
  | empty
  | labelCount (labels rows : Nat)
  | nonFinite
  | negative
  | fractional
deriving Repr, DecidableEq

def OutcomeError.message : OutcomeError → String
  | .empty => "input must contain at least one observation"
  | .labelCount labels rows =>
    s!"subject id length ({labels}) must equal number of observations ({rows})"
  | .nonFinite => "outcome contains non-finite values"
  | .negative => "outcome contains negative values"
  | .fractional => "outcome contains non-integer values"

/-- The rows of one subject, in ascending order. -/
structure Subject where
  label : Nat
  rows : List Nat
deriving Repr, DecidableEq

structure Outcomes (α : Type) where
  values : List α
  labels : List Nat

namespace Outcomes

variable {α : Type}

/-- Outcomes of which each is a subject of its own. -/
def independent (values : List α) : Outcomes α := ⟨values, List.range values.length⟩

def size (o : Outcomes α) : Nat := o.values.length

/-- The positions of a label. -/
def rowsOf (labels : List Nat) (label : Nat) : List Nat :=
  (List.range labels.length).filter fun row => labels[row]? == some label

/-- The labels that occur, ascending and without repetition. -/
def distinct (labels : List Nat) : List Nat := (labels.mergeSort (· ≤ ·)).eraseReps

/-- The subjects in ascending order of their labels. -/
def subjects (o : Outcomes α) : List Subject :=
  (distinct o.labels).map fun label => ⟨label, rowsOf o.labels label⟩

variable [Scalar α]

/-- Refuses outcomes that are empty, not labelled one by one, or not finite. -/
def check (o : Outcomes α) : Except OutcomeError Unit :=
  if o.values.isEmpty then .error .empty
  else if o.labels.length ≠ o.values.length then
    .error (.labelCount o.labels.length o.values.length)
  else if o.values.any fun y => !Scalar.isFinite y then .error .nonFinite
  else .ok ()

/-- Refuses outcomes that are not counts either. -/
def checkCounts (o : Outcomes α) : Except OutcomeError Unit := do
  o.check
  if o.values.any fun y => decide (y < 0) then throw .negative
  if o.values.any fun y => !Scalar.isWhole y then throw .fractional

end Outcomes

end Metropolis
