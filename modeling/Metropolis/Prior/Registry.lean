import Metropolis.Prior
import Metropolis.Effect

/-!
The prior of every parameter of a model.

A parameter is given a prior of its own, or it is a realization of a random effect: then its
density depends on another parameter, the effect's standard deviation, whose hyper-prior is
registered along with it and shared by all realizations of the effect. Registrations that would
give a parameter two roles are refused and change nothing.
-/

namespace Metropolis

/-- The role of one parameter. -/
inductive Entry (α : Type) where
  | fixed (prior : Prior α)
  /-- A realization whose standard deviation is the parameter `spread`. -/
  | realization (effect : Effect) (spread : Nat)
  /-- The standard deviation of the realizations `governed`, in the order of registration. -/
  | hyper (prior : Prior α) (governed : List Nat)

/-- A request to give a parameter a role. -/
inductive Registration (α : Type) where
  | fixed (index : Nat) (prior : Prior α)
  | realization (index : Nat) (effect : Effect) (spread : Nat) (hyperPrior : Prior α)

inductive PriorError where
  | unregistered (index : Nat)
  | duplicate (index : Nat)
  | invalid (index : Nat)
  | outOfRange (index dimension : Nat)
deriving Repr, DecidableEq

def PriorError.message : PriorError → String
  | .unregistered index => s!"no prior registered for parameter {index}"
  | .duplicate index => s!"parameter {index} already has a prior"
  | .invalid index => s!"prior for parameter {index} has invalid hyperparameters"
  | .outOfRange index dimension =>
    s!"prior registered for parameter {index} outside a parameter vector of length {dimension}"

/-- The entries in ascending order of the parameters. -/
structure Registry (α : Type) where
  entries : List (Nat × Entry α)

/-- A computation on a registry. What it changed stays changed also when it fails. -/
abbrev RegistryM (α : Type) := EStateM PriorError (Registry α)

namespace Registry

variable {α : Type}

def empty : Registry α := ⟨[]⟩

def size (r : Registry α) : Nat := r.entries.length

def get? (r : Registry α) (index : Nat) : Option (Entry α) := r.entries.lookup index

/-- Puts an entry in its place in an ordered list, in place of one that is there. -/
def insertEntry (index : Nat) (entry : Entry α) : List (Nat × Entry α) → List (Nat × Entry α)
  | [] => [(index, entry)]
  | (i, e) :: rest =>
    if index < i then (index, entry) :: (i, e) :: rest
    else if index = i then (index, entry) :: rest
    else (i, e) :: insertEntry index entry rest

def insert (r : Registry α) (index : Nat) (entry : Entry α) : Registry α :=
  ⟨insertEntry index entry r.entries⟩

/-- The entry of a parameter, which must have one. -/
def prior (r : Registry α) (index : Nat) : Except PriorError (Entry α) :=
  match r.get? index with
  | some entry => .ok entry
  | none => .error (.unregistered index)

/-- The realizations of random effects, in ascending order. -/
def realizations (r : Registry α) : List Nat :=
  r.entries.filterMap fun
    | (index, .realization _ _) => some index
    | _ => none

/-- The first number from `start` on that is not the index of an entry in an ordered list. -/
def firstGap : Nat → List (Nat × Entry α) → Nat
  | start, [] => start
  | start, (i, _) :: rest => if i = start then firstGap (start + 1) rest else start

/-- Refuses a registry that has an entry outside a vector of length `dimension`, or none for a
parameter in it. -/
def checkCoverage (r : Registry α) (dimension : Nat) : Except PriorError Unit :=
  match r.entries.find? fun p => decide (dimension ≤ p.1) with
  | some (index, _) => .error (.outOfRange index dimension)
  | none =>
    let gap := firstGap 0 r.entries
    if gap < dimension then .error (.unregistered gap) else .ok ()

variable [Scalar α]

/-- Gives parameter `index` a prior of its own. -/
def addFixed (r : Registry α) (index : Nat) (prior : Prior α) :
    Except PriorError (Registry α) :=
  if !prior.isValid then .error (.invalid index)
  else if (r.get? index).isSome then .error (.duplicate index)
  else .ok (r.insert index (.fixed prior))

/-- Makes parameter `index` a realization with the standard deviation `spread`, which must be
free or have the same hyper-prior already. -/
def addRealization (r : Registry α) (index : Nat) (effect : Effect) (spread : Nat)
    (hyperPrior : Prior α) : Except PriorError (Registry α) :=
  if !hyperPrior.isValid then .error (.invalid spread)
  else if index = spread ∨ (r.get? index).isSome then .error (.duplicate index)
  else
    let realization : Entry α := .realization effect spread
    match r.get? spread with
    | none => .ok ((r.insert spread (.hyper hyperPrior [index])).insert index realization)
    | some (.hyper prior governed) =>
      if prior == hyperPrior then
        .ok ((r.insert spread (.hyper prior (governed ++ [index]))).insert index realization)
      else .error (.duplicate spread)
    | some _ => .error (.duplicate spread)

def add (r : Registry α) : Registration α → Except PriorError (Registry α)
  | .fixed index prior => r.addFixed index prior
  | .realization index effect spread hyperPrior =>
    r.addRealization index effect spread hyperPrior

/-- The same in place, one entry after another. -/
def register : Registration α → RegistryM α Unit
  | .fixed index prior => do
    let r ← get
    if !prior.isValid then throw (.invalid index)
    else if (r.get? index).isSome then throw (.duplicate index)
    else set (r.insert index (.fixed prior))
  | .realization index effect spread hyperPrior => do
    let r ← get
    if !hyperPrior.isValid then throw (.invalid spread)
    else if index = spread ∨ (r.get? index).isSome then throw (.duplicate index)
    else
      match r.get? spread with
      | none => set (r.insert spread (.hyper hyperPrior [index]))
      | some (.hyper prior governed) =>
        if prior == hyperPrior then set (r.insert spread (.hyper prior (governed ++ [index])))
        else throw (.duplicate spread)
      | some _ => throw (.duplicate spread)
      modify fun r => r.insert index (.realization effect spread)

/-- The registry of a list of registrations, all of which must succeed. -/
def ofRegistrations (regs : List (Registration α)) : Except PriorError (Registry α) :=
  regs.foldlM add empty

/-- The number at an index of the parameter vector. -/
def valueAt (θ : List α) (index : Nat) : Except PriorError α :=
  match θ[index]? with
  | some x => .ok x
  | none => .error (.outOfRange index θ.length)

/-- The term of one entry in the joint density. -/
def logTerm (θ : List α) (index : Nat) (entry : Entry α) : Except PriorError α := do
  let x ← valueAt θ index
  match entry with
  | .fixed prior => return prior.logDensity x
  | .hyper prior _ => return prior.logDensity x
  | .realization effect spread => return effect.logDensity x (← valueAt θ spread)

/-- Adds the terms of entries to `total`, up to the first that is not finite. -/
def addTerms (θ : List α) : List (Nat × Entry α) → α → Except PriorError α
  | [], total => .ok total
  | (index, entry) :: rest, total => do
    let term ← logTerm θ index entry
    if Scalar.isFinite term then addTerms θ rest (total + term) else return -Scalar.infinity

/-- The logarithm of the joint prior density, `-infinity` if some term is not finite. -/
def logPrior (r : Registry α) (θ : List α) : Except PriorError α := addTerms θ r.entries 0

end Registry

end Metropolis
