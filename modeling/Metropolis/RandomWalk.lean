import Metropolis.Acceptance
import Metropolis.Settings

/-!
The random-walk proposal: normal steps whose scale is tuned until the proposal is frozen.
-/

namespace Metropolis

structure RandomWalk (α : Type) where
  /-- The lower factor that correlates the components of a step. -/
  factor : DenseMatrix α
  scale : α
  tuning : Tuning α
  /-- The proposals since the scale was last tuned. -/
  batch : Acceptance
  frozen : Bool

namespace RandomWalk

variable {α : Type} [Scalar α]

/-- The scale that is best for normal targets of a dimension, which is taken to be at least one. -/
def bestScale (dimension : Nat) : α := 2.38 / Scalar.sqrt (Scalar.ofCount (max dimension 1))

/-- The proposal before any tuning. -/
def ofFactor (factor : DenseMatrix α) (tuning : Tuning α) : RandomWalk α where
  factor := factor
  scale := Scalar.clamp (bestScale factor.rows) tuning.minScale tuning.maxScale
  tuning := tuning
  batch := {}
  frozen := false

/-- The point to which standard normal noise leads from `current`. -/
def stepBy (w : RandomWalk α) (current noise : List α) : List α :=
  List.zipWith (fun step x => w.scale * step + x) (w.factor.lowerTimes noise) current

/-- A proposed point, from two uniforms for each component. -/
def propose (w : RandomWalk α) (current : List α) : Sampling α (List α) := do
  let noise ← standardNormals current.length
  return w.stepBy current noise

omit [Scalar α] in
/-- Counts a proposal, unless the proposal is frozen. -/
def record (w : RandomWalk α) (accepted : Bool) : RandomWalk α :=
  if w.frozen then w else { w with batch := w.batch.record accepted }

/-- The factor by which the scale changes after an acceptance rate. -/
def factorFor (t : Tuning α) (rate : α) : α :=
  if t.target < rate then t.increase else if rate < t.target then t.decrease else 1

/-- Whether a full batch of proposals waits for a change of the scale. -/
def isDue (w : RandomWalk α) : Bool :=
  !w.frozen && decide (w.tuning.interval ≤ w.batch.proposed)

/-- Changes the scale, if it is due, by the acceptance rate of the batch. -/
def retune (w : RandomWalk α) : RandomWalk α :=
  if w.isDue then
    let scale := w.scale * factorFor w.tuning w.batch.rate
    { w with
      scale := Scalar.clamp scale w.tuning.minScale w.tuning.maxScale
      batch := {} }
  else w

omit [Scalar α] in
def freeze (w : RandomWalk α) : RandomWalk α := { w with frozen := true, batch := {} }

section Fields

variable (w : RandomWalk α) (accepted : Bool)

omit [Scalar α] in
theorem record_of_frozen (h : w.frozen = true) : w.record accepted = w := if_pos h

omit [Scalar α] in
@[simp] theorem frozen_record : (w.record accepted).frozen = w.frozen := by
  unfold record
  split <;> rfl

omit [Scalar α] in
@[simp] theorem scale_record : (w.record accepted).scale = w.scale := by
  unfold record
  split <;> rfl

omit [Scalar α] in
@[simp] theorem factor_record : (w.record accepted).factor = w.factor := by
  unfold record
  split <;> rfl

omit [Scalar α] in
@[simp] theorem tuning_record : (w.record accepted).tuning = w.tuning := by
  unfold record
  split <;> rfl

@[simp] theorem tuning_retune : w.retune.tuning = w.tuning := by
  unfold retune
  split <;> rfl

@[simp] theorem frozen_retune : w.retune.frozen = w.frozen := by
  unfold retune
  split <;> rfl

@[simp] theorem factor_retune : w.retune.factor = w.factor := by
  unfold retune
  split <;> rfl

omit [Scalar α] in
@[simp] theorem frozen_freeze : w.freeze.frozen = true := rfl

omit [Scalar α] in
@[simp] theorem factor_freeze : w.freeze.factor = w.factor := rfl

@[simp] theorem frozen_ofFactor (factor : DenseMatrix α) (tuning : Tuning α) :
    (ofFactor factor tuning).frozen = false := rfl

@[simp] theorem factor_ofFactor (factor : DenseMatrix α) (tuning : Tuning α) :
    (ofFactor factor tuning).factor = factor := rfl

end Fields

end RandomWalk

end Metropolis
