import Metropolis.Scalar

/-!
Counts of proposals made and accepted.
-/

namespace Metropolis

structure Acceptance where
  proposed : Nat := 0
  accepted : Nat := 0
deriving Repr, DecidableEq

namespace Acceptance

def record (a : Acceptance) (accepted : Bool) : Acceptance :=
  ⟨a.proposed + 1, if accepted then a.accepted + 1 else a.accepted⟩

/-- What was counted after `earlier`. -/
def since (a earlier : Acceptance) : Acceptance :=
  ⟨a.proposed - earlier.proposed, a.accepted - earlier.accepted⟩

/-- The accepted proposals as a part of all, zero before any was made. -/
def rate {α : Type} [Scalar α] (a : Acceptance) : α :=
  if a.proposed = 0 then 0 else Scalar.ofCount a.accepted / Scalar.ofCount a.proposed

end Acceptance

end Metropolis
