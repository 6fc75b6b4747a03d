import Metropolis.Proofs.Result
import Metropolis.Search
import Metropolis.Walker

/-!
# Evaluated points, the search for a start, and one iteration

What a successful evaluation says of the point it gives, that the search ends at a feasible
evaluated point, and what one iteration of a walker can do. For a model that answers the same
question always the same way, all of these see nothing of the model's memory.
-/

namespace Metropolis

variable {α σ : Type}

/-- Whether the likelihood of a subject at a point is always the same. -/
def Model.IsConsistent (m : Model α σ) : Prop :=
  ∀ θ subject memory memory',
    answer (m.logLikelihood θ subject memory) = answer (m.logLikelihood θ subject memory')

variable [Scalar α] {t : Target α σ}

namespace Target

/-! ## Evaluation -/

omit [Scalar α] in
theorem checkDimension_eq_ok {θ : List α} (h : t.checkDimension θ = .ok ()) :
    θ.length = t.dimension := by
  unfold checkDimension at h
  split at h
  · assumption
  · cases h

theorem logPrior_eq_ok {θ : List α} {x : α} (h : t.logPrior θ = .ok x) :
    θ.length = t.dimension := by
  apply checkDimension_eq_ok
  unfold logPrior at h
  cases hcheck : t.checkDimension θ with
  | ok u => rfl
  | error cause => rw [hcheck] at h; cases h

/-- A vector that can be evaluated has the length of the target's parameter vector, and the point
carries it. -/
theorem evaluate_eq_ok {θ : List α} {p : Point α} {memory memory' : σ}
    (h : t.evaluate θ memory = .ok p memory') :
    p.parameters = θ ∧ θ.length = t.dimension := by
  obtain ⟨logPrior, middle, hprior, h⟩ := bind_eq_ok h
  have hlength := logPrior_eq_ok (ofExcept_eq_ok hprior).1
  split at h
  · cases h
    exact ⟨rfl, hlength⟩
  · obtain ⟨logLikelihood, last, -, h⟩ := bind_eq_ok h
    cases h
    exact ⟨rfl, hlength⟩

/-- A feasible point that evaluation gave for its own parameters, with some memory. -/
structure Stored (t : Target α σ) (p : Point α) : Prop where
  isFeasible : p.isFeasible = true
  evaluated : ∃ memory memory', t.evaluate p.parameters memory = .ok p memory'

theorem stored_of_evaluate {θ : List α} {p : Point α} {memory memory' : σ}
    (h : t.evaluate θ memory = .ok p memory') (hfeasible : p.isFeasible = true) : t.Stored p :=
  ⟨hfeasible, memory, memory', by rw [(evaluate_eq_ok h).1]; exact h⟩

theorem Stored.length_parameters {p : Point α} (h : t.Stored p) :
    p.parameters.length = t.dimension := by
  obtain ⟨memory, memory', heval⟩ := h.evaluated
  exact (evaluate_eq_ok heval).2

theorem seesOnly_addSubjects {m : Model α σ} (hm : m.IsConsistent) (θ : List α)
    (subjects : List Nat) (total : α) :
    SeesOnly (fun _ => ()) (addSubjects m θ subjects total) := by
  induction subjects generalizing total with
  | nil => exact SeesOnly.pure total
  | cons subject rest ih =>
    refine SeesOnly.bind (fun memory memory' _ => ⟨hm θ subject memory memory', rfl⟩) fun term => ?_
    split
    · exact SeesOnly.pure _
    · exact ih _

theorem seesOnly_evaluate (ht : t.model.IsConsistent) (θ : List α) :
    SeesOnly (fun _ => ()) (t.evaluate θ) := by
  refine SeesOnly.bind (SeesOnly.ofExcept _) fun logPrior => ?_
  split
  · -- Outside the prior's support the model is not asked at all.
    exact SeesOnly.pure _
  · refine SeesOnly.bind (SeesOnly.bind (SeesOnly.ofExcept _) fun _ => ?_) fun _ => SeesOnly.pure _
    exact SeesOnly.adaptExcept _ (seesOnly_addSubjects ht θ _ _)

theorem answer_evaluate (ht : t.model.IsConsistent) (θ : List α) (memory memory' : σ) :
    answer (t.evaluate θ memory) = answer (t.evaluate θ memory') :=
  (seesOnly_evaluate ht θ rfl).1

theorem Stored.answer_evaluate {p : Point α} (h : t.Stored p) (ht : t.model.IsConsistent)
    (memory : σ) : answer (t.evaluate p.parameters memory) = .ok p := by
  obtain ⟨memory₀, memory₁, heval⟩ := h.evaluated
  rw [Target.answer_evaluate ht _ memory memory₀, heval]
  rfl

theorem evaluate_of_ofModel {θ : List α} {p : Point α} {w w' : World α σ}
    (h : (Engine.ofModel (t.evaluate θ) : Engine α σ (Point α)) w = .ok p w') :
    t.evaluate θ w.memory = .ok p w'.memory ∧ w'.tape = w.tape := by
  unfold Engine.ofModel at h
  split at h
  next value memory heval =>
    cases h
    exact ⟨heval, rfl⟩
  next => cases h

theorem evaluate_of_ofModel_error {θ : List α} {cause : Error α} {w w' : World α σ}
    (h : (Engine.ofModel (t.evaluate θ) : Engine α σ (Point α)) w = .error cause w') :
    t.evaluate θ w.memory = .error cause w'.memory := by
  unfold Engine.ofModel at h
  split at h
  next => cases h
  next cause memory heval =>
    cases h
    exact heval

theorem seesOnly_ofModel_evaluate (ht : t.model.IsConsistent) (θ : List α) :
    SeesOnly World.tape (Engine.ofModel (t.evaluate θ) : Engine α σ (Point α)) :=
  Engine.seesOnly_ofModel fun _ _ => answer_evaluate ht θ _ _

end Target

/-! ## The search for a start -/

namespace Search

/-- The better of two points is one of them, and the candidate only if that is feasible. -/
theorem better_cases (best candidate : Point α) :
    better best candidate = best ∨
      better best candidate = candidate ∧ candidate.isFeasible = true := by
  unfold better
  split
  next h => exact .inr ⟨rfl, h.1⟩
  next => exact .inl rfl

/-- The best point so far is evaluated, also when it is not feasible. -/
theorem improve_evaluated {start : Start α} {n : Nat} {best p : Point α} {w w' : World α σ}
    (hbest : ∃ memory memory', t.evaluate best.parameters memory = .ok best memory')
    (h : improve t start n best w = .ok p w') :
    ∃ memory memory', t.evaluate p.parameters memory = .ok p memory' := by
  induction n generalizing best w with
  | zero => cases h; exact hbest
  | succ n ih =>
    obtain ⟨θ, w₁, -, h⟩ := bind_eq_ok h
    obtain ⟨candidate, w₂, heval, h⟩ := bind_eq_ok h
    -- The candidate takes the place of the best point only if it is feasible.
    apply ih ?_ h
    obtain hb | ⟨hb, hfeasible⟩ := better_cases best candidate
    · rw [hb]
      exact hbest
    · rw [hb]
      exact (Target.stored_of_evaluate (Target.evaluate_of_ofModel heval).1 hfeasible).evaluated

/-- The search ends only at a feasible evaluated point. -/
theorem run_stored {start : Start α} {gridSize : Nat} {p : Point α} {w w' : World α σ}
    (h : run t start gridSize w = .ok p w') : t.Stored p := by
  obtain ⟨centre, w₁, hcentre, h⟩ := bind_eq_ok h
  obtain ⟨best, w₂, hbest, h⟩ := bind_eq_ok h
  obtain ⟨heval, -⟩ := Target.evaluate_of_ofModel hcentre
  -- The best point may still be the centre, which is evaluated but need not be feasible.
  split at h
  next hfeasible =>
    cases h
    refine ⟨hfeasible, improve_evaluated ⟨w.memory, w₁.memory, ?_⟩ hbest⟩
    rw [(Target.evaluate_eq_ok heval).1]
    exact heval
  next => cases h

theorem seesOnly_improve (ht : t.model.IsConsistent) (start : Start α) (n : Nat) (best : Point α) :
    SeesOnly World.tape (improve t start n best) := by
  induction n generalizing best with
  | zero => exact SeesOnly.pure best
  | succ n ih =>
    exact SeesOnly.bind (Engine.seesOnly_ofSampling _) fun θ =>
      SeesOnly.bind (Target.seesOnly_ofModel_evaluate ht θ) fun _ => ih _

theorem seesOnly_run (ht : t.model.IsConsistent) (start : Start α) (gridSize : Nat) :
    SeesOnly World.tape (run t start gridSize) := by
  refine SeesOnly.bind (Target.seesOnly_ofModel_evaluate ht _) fun centre =>
    SeesOnly.bind (seesOnly_improve ht start gridSize centre) fun best => ?_
  split
  · exact SeesOnly.pure _
  · exact SeesOnly.throw _

end Search

/-! ## One iteration -/

namespace Walker

variable {w w' : Walker α} {world world' : World α σ} {accepted : Bool}

/-- The point that a walker proposes from where it stands, with the noise that is next on a
tape. -/
def proposal (w : Walker α) (tape : Tape α) : List α :=
  (w.walk.propose w.current.parameters tape).1

/-- An iteration evaluates the proposal, may accept it only if it is feasible, and moves there
exactly if it accepts. -/
theorem iterate_eq_ok (h : w.iterate t world = .ok (accepted, w') world') :
    ∃ candidate, t.evaluate (w.proposal world.tape) world.memory = .ok candidate world'.memory ∧
      (accepted = true → candidate.isFeasible = true) ∧ w' = w.move candidate accepted := by
  obtain ⟨θ, w₁, hθ, h⟩ := bind_eq_ok h
  obtain ⟨candidate, w₂, heval, h⟩ := bind_eq_ok h
  obtain ⟨decision, w₃, hdecision, h⟩ := bind_eq_ok h
  simp only [Engine.ofSampling_apply, EStateM.Result.ok.injEq] at hθ hdecision
  obtain ⟨rfl, rfl⟩ := hθ
  obtain ⟨rfl, rfl⟩ := hdecision
  cases h
  refine ⟨candidate, (Target.evaluate_of_ofModel heval).1, fun haccepted => ?_, rfl⟩
  -- A candidate that is not feasible is refused without a random number.
  by_contra hfeasible
  rw [decideMove, if_neg hfeasible] at haccepted
  cases haccepted

/-- An iteration fails only if its proposal cannot be evaluated. -/
theorem iterate_eq_error {cause : Error α} (h : w.iterate t world = .error cause world') :
    t.evaluate (w.proposal world.tape) world.memory = .error cause world'.memory := by
  rcases bind_eq_error h with h | ⟨θ, w₁, hθ, h⟩
  · cases h
  · simp only [Engine.ofSampling_apply, EStateM.Result.ok.injEq] at hθ
    obtain ⟨rfl, rfl⟩ := hθ
    rcases bind_eq_error h with h | ⟨candidate, w₂, -, h⟩
    · have heval := Target.evaluate_of_ofModel_error h
      exact heval
    · -- Neither the decision nor the move can fail.
      rcases bind_eq_error h with h | ⟨accepted, w₃, -, h⟩
      · cases h
      · cases h

theorem seesOnly_iterate (ht : t.model.IsConsistent) (w : Walker α) :
    SeesOnly World.tape (w.iterate t) :=
  SeesOnly.bind (Engine.seesOnly_ofSampling _) fun θ =>
    SeesOnly.bind (Target.seesOnly_ofModel_evaluate ht θ) fun _ =>
      SeesOnly.bind (Engine.seesOnly_ofSampling _) fun _ => SeesOnly.pure _

end Walker

end Metropolis
