import Metropolis.Scalar
import Metropolis.Random.ChaCha

/-!
The random tape: a sequence of uniform numbers on `[0, 1)` that is read from the front.

How many uniforms a computation uses is the distance that it moves the tape's position.
-/

namespace Metropolis

/-- An endless sequence of uniform numbers and the position of the next one to read. -/
structure Tape (α : Type) where
  cell : Nat → α
  position : Nat

/-- Computations that read the random tape. -/
abbrev Sampling (α : Type) := StateM (Tape α)

namespace Tape

variable {α : Type}

/-- Reads the next uniform number. -/
def next (t : Tape α) : α × Tape α := (t.cell t.position, { t with position := t.position + 1 })

@[simp] theorem next_fst (t : Tape α) : t.next.1 = t.cell t.position := rfl

@[simp] theorem next_snd_cell (t : Tape α) : t.next.2.cell = t.cell := rfl

@[simp] theorem next_snd_position (t : Tape α) : t.next.2.position = t.position + 1 := rfl

variable [Scalar α]

/-- The number on `[0, 1)` that the highest 53 bits of a word stand for. -/
def unitOfWord (word : UInt64) : α :=
  Scalar.ofNat (word >>> 11).toNat / Scalar.ofNat (Nat.pow 2 53)

/-- The tape of a seed. -/
def ofSeed (seed : UInt64) : Tape α :=
  let key := ChaCha.keyOfSeed seed
  { cell := fun i => unitOfWord (ChaCha.word key i), position := 0 }

end Tape

/-- The next uniform number on `[0, 1)`. -/
def uniform {α : Type} : Sampling α α := Tape.next

end Metropolis
