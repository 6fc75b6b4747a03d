import Metropolis.Error

/-!
Settings of a sampler and of an ensemble of chains.
-/

namespace Metropolis

/-- How the scale of the proposal is tuned. -/
structure Tuning (α : Type) where
  /-- The acceptance rate that tuning steers towards. -/
  target : α
  /-- The proposals between two changes of the scale. -/
  interval : Nat
  /-- The factor of the scale when more is accepted than the target. -/
  increase : α
  /-- The factor of the scale when less is accepted than the target. -/
  decrease : α
  minScale : α
  maxScale : α

structure Settings (α : Type) where
  schedule : Schedule
  tuning : Tuning α
  /-- Given to the model for its starting distribution. -/
  coefficient : α

/-- Several chains that differ in nothing but their seeds. -/
structure Ensemble where
  chains : Nat := 4
  /-- The distance of the seeds of adjacent chains. -/
  stride : UInt64 := 10000

namespace Ensemble

def check (e : Ensemble) : Except EnsembleError Unit :=
  if e.chains < 2 then .error (.tooFewChains 2 e.chains)
  else if e.stride = 0 then .error .zeroStride
  else .ok ()

/-- The distance of the seed of a chain from the first one, at most the largest word. -/
def offset (e : Ensemble) (chain : Nat) : UInt64 :=
  UInt64.ofNat (min (chain * e.stride.toNat) (Nat.pow 2 64 - 1))

/-- The seed of a chain. The sum wraps around. -/
def seed (e : Ensemble) (base : UInt64) (chain : Nat) : UInt64 := base + e.offset chain

end Ensemble

variable {α : Type} [Scalar α]

namespace Tuning

def standard : Tuning α where
  target := 0.234
  interval := 100
  increase := 1.25
  decrease := 0.8
  minScale := 1.0e-4
  maxScale := 100

def isValid (t : Tuning α) : Bool :=
  decide (0 < t.target) && decide (t.target < 1) && decide (0 < t.interval) &&
    decide (1 ≤ t.increase) && decide (0 < t.decrease) && decide (t.decrease ≤ 1) &&
    decide (0 < t.minScale) && decide (t.minScale ≤ t.maxScale) && Scalar.isFinite t.maxScale

end Tuning

namespace Settings

def standard : Settings α where
  schedule := {}
  tuning := .standard
  coefficient := 0.1

/-- The first fault of the schedule, the tuning and the coefficient of variation. -/
def check (s : Settings α) : Except (Error α) Unit := do
  s.schedule.check.mapError .schedule
  if !s.tuning.isValid then throw .tuning
  if !Start.isCoefficient s.coefficient then throw (.start (.coefficient s.coefficient))

theorem check_eq_ok_iff (s : Settings α) : s.check = .ok () ↔
    s.schedule.Valid ∧ s.tuning.isValid = true ∧ Start.isCoefficient s.coefficient = true := by
  rw [← Schedule.check_eq_ok_iff]
  unfold check
  cases s.schedule.check with
  | error cause =>
    constructor <;> intro h
    · cases h
    · cases h.1
  | ok u =>
    cases s.tuning.isValid with
    | false =>
      constructor <;> intro h
      · cases h
      · cases h.2.1
    | true =>
      cases Start.isCoefficient s.coefficient with
      | false =>
        constructor <;> intro h
        · cases h
        · cases h.2.2
      | true => exact ⟨fun _ => ⟨rfl, rfl, rfl⟩, fun _ => rfl⟩

end Settings

end Metropolis
