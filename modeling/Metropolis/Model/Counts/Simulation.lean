import Metropolis.Outcomes
import Metropolis.Effect

/-!
Simulated Poisson counts.

A count is the number of arrivals, a unit exponential time apart, up to its rate. Nothing bounds
the arrivals that a sequence of uniforms can hold, so the search for the end of one count need not
end.
-/

namespace Metropolis

variable {α : Type} [Scalar α]

open Scalar (exp log)

/-- Counts the arrivals on a tape, on from `count`, where the next arrival is at `elapsed`. -/
def Tape.arrivals (tape : Tape α) (rate count elapsed : α) : Option (α × Tape α) :=
  if elapsed ≤ rate then
    let drawn := tape.next
    drawn.2 |>.arrivals rate (count + 1) (elapsed - log (1 - drawn.1))
  else some (count, tape)
partial_fixpoint

namespace Counts

/-- Computations that read the random tape and may not end. -/
abbrev Searching (α : Type) := StateT (Tape α) Option

def Searching.ofSampling {α β : Type} (x : Sampling α β) : Searching α β := fun tape =>
  some (x tape)

/-- A Poisson count. -/
def poisson (rate : α) : Searching α α := do
  let u ← Searching.ofSampling uniform
  fun tape => tape.arrivals rate 0 (-log (1 - u))

def poissons (rate : α) : Nat → Searching α (List α)
  | 0 => return []
  | n + 1 => do
    let k ← poisson rate
    let ks ← poissons rate n
    return k :: ks

/-- Counts of the subjects from number `first` on, each of `perSubject` observations. -/
def simulateFrom (logMean deviation : α) (perSubject : Nat) :
    (subjects first : Nat) → Searching α (Outcomes α)
  | 0, _ => return ⟨[], []⟩
  | subjects + 1, first => do
    let u ← Searching.ofSampling (Effect.normal.sample deviation)
    let here ← poissons (exp (logMean + u)) perSubject
    let rest ← simulateFrom logMean deviation perSubject subjects (first + 1)
    return ⟨here ++ rest.values, List.replicate perSubject first ++ rest.labels⟩

/-- Counts whose rates vary between the subjects, with a normal intercept for each. -/
def simulate (logMean deviation : α) (subjects perSubject : Nat) : Searching α (Outcomes α) :=
  simulateFrom logMean deviation perSubject subjects 0

end Counts

end Metropolis
