import Metropolis.Target
import Metropolis.Random.Tape

/-!
Computations that evaluate a model and draw random numbers.
-/

namespace Metropolis

/-- What such a computation uses up: the model's memory and the random tape. -/
structure World (α σ : Type) where
  memory : σ
  tape : Tape α

/-- A computation that evaluates a model and draws random numbers. What was used up stays so also
when it fails. -/
abbrev Engine (α σ : Type) := EStateM (Error α) (World α σ)

namespace Engine

variable {α σ β : Type}

/-- A computation that draws no random numbers. -/
def ofModel (x : EStateM (Error α) σ β) : Engine α σ β := fun w =>
  match x w.memory with
  | .ok value memory => .ok value { w with memory }
  | .error cause memory => .error cause { w with memory }

/-- A computation that does not evaluate the model. -/
def ofSampling (x : Sampling α β) : Engine α σ β := fun w =>
  match x w.tape with
  | (value, tape) => .ok value { w with tape }

theorem ofModel_of_ok {x : EStateM (Error α) σ β} {value : β} {memory memory' : σ}
    (h : x memory = .ok value memory') (tape : Tape α) :
    (ofModel x : Engine α σ β) ⟨memory, tape⟩ = .ok value ⟨memory', tape⟩ := by
  unfold ofModel
  rw [h]

theorem ofModel_of_error {x : EStateM (Error α) σ β} {cause : Error α} {memory memory' : σ}
    (h : x memory = .error cause memory') (tape : Tape α) :
    (ofModel x : Engine α σ β) ⟨memory, tape⟩ = .error cause ⟨memory', tape⟩ := by
  unfold ofModel
  rw [h]

@[simp] theorem ofSampling_apply (x : Sampling α β) (w : World α σ) :
    (ofSampling x : Engine α σ β) w = .ok (x w.tape).1 { w with tape := (x w.tape).2 } := rfl

end Engine

end Metropolis
