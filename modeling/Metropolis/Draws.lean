import Metropolis.Target

/-!
Retained draws of a chain.
-/

namespace Metropolis

structure Draws (α : Type) where
  names : List String
  points : List (Point α)

namespace Draws

variable {α : Type}

def empty : Draws α := ⟨[], []⟩

def size (d : Draws α) : Nat := d.points.length

def isEmpty (d : Draws α) : Bool := d.points.isEmpty

/-- The values of a parameter, none for a parameter without a name. -/
def column [Scalar α] (d : Draws α) (index : Nat) : List α :=
  if d.names.length ≤ index then []
  else d.points.map fun p => p.parameters.getD index Scalar.undefined

/-- The draws of several chains one after another, under the names of the first. -/
def pool (chains : List (Draws α)) : Draws α :=
  ⟨(chains.head?.map names).getD [], chains.flatMap points⟩

end Draws

end Metropolis
