import Mathlib.Tactic.NormNum
import Metropolis.Chain
import Metropolis.Proofs.Evaluation
import Metropolis.Scalar.Exact

/-!
# A level target

A model with one parameter, a flat prior and likelihood one everywhere, over the exact numbers. It
counts how often it was asked, and with a limit it cannot be evaluated once it was asked more
often: then its answers depend on the calls before. Without one its answers are always the same,
although its memory is not.
-/

namespace Metropolis

/-- The likelihood of the level model on the scale of logarithms. -/
noncomputable def levelLikelihood (limit : Option Nat) : Likelihood Exact Nat := fun _ _ calls =>
  if limit.any (· ≤ calls) then .error (.evaluation "worn out") (calls + 1)
  else .ok 0 (calls + 1)

noncomputable def levelStart : Start Exact where
  mean := [0]
  covariance := .identity 1
  factor := .identity 1
  rows_factor := rfl

noncomputable def levelModel (limit : Option Nat) : Model Exact Nat where
  observations := 1
  subjects := 1
  effects := ["x"]
  others := []
  interceptOnly := true
  priors := [.fixed 0 .flat]
  start := fun _ => .ok levelStart
  likelihood := fun _ _ calls => .ok 1 (calls + 1)
  logLikelihood := levelLikelihood limit
  logPredictive := levelLikelihood limit

noncomputable def levelSampler (limit : Option Nat) (schedule : Schedule) : Sampler Exact Nat where
  target := ⟨levelModel limit, ⟨[(0, .fixed .flat)]⟩⟩
  settings := { Settings.standard with schedule }

/-- A schedule with a warm-up, a burn-in and a last stride that is cut short. -/
def shortSchedule : Schedule where
  iterations := 4
  burnIn := 1
  thin := 2
  warmUp := 1

theorem shortSchedule_valid : shortSchedule.Valid := by
  constructor <;> decide

theorem standard_isValid : (Tuning.standard : Tuning Exact).isValid = true := by
  simp only [Tuning.isValid, Tuning.standard, Exact.ofNat_eq, Exact.ofScientific_eq, Exact.real_lt,
    Exact.real_le, Exact.isFinite_real, Bool.and_true, Bool.and_eq_true, decide_eq_true_eq]
  norm_num

theorem standard_isCoefficient :
    Start.isCoefficient (Settings.standard : Settings Exact).coefficient = true := by
  simp only [Start.isCoefficient, Settings.standard, Exact.ofNat_eq, Exact.ofScientific_eq,
    Exact.real_lt, Exact.isFinite_real, Bool.and_true, decide_eq_true_eq]
  norm_num

/-- The standard settings pass on any valid schedule. -/
theorem check_standard {schedule : Schedule} (valid : schedule.Valid) :
    ({ Settings.standard with schedule } : Settings Exact).check = .ok () := by
  have hschedule : schedule.check = .ok () := (Schedule.check_eq_ok_iff schedule).2 valid
  unfold Settings.check
  dsimp only
  rw [hschedule, show (Settings.standard : Settings Exact).tuning.isValid = true from
    standard_isValid, standard_isCoefficient]
  rfl

/-- The sampler of the level model with the standard settings on any valid schedule. -/
theorem ofModel_level (limit : Option Nat) {schedule : Schedule} (valid : schedule.Valid) :
    Sampler.ofModel (levelModel limit) { Settings.standard with schedule } =
      .ok (levelSampler limit schedule) := by
  have htarget : Target.ofModel (levelModel limit) = .ok (levelSampler limit schedule).target := rfl
  unfold Sampler.ofModel
  rw [check_standard valid, htarget]
  rfl

theorem isConsistent_level : (levelModel none).IsConsistent := fun _ _ _ _ => rfl

/-- A point of the level target can always be evaluated. -/
theorem evaluate_level {schedule : Schedule} (x : Exact) (memory : Nat) : ∃ p memory',
    (levelSampler none schedule).target.evaluate [x] memory = .ok p memory' :=
  ⟨_, _, rfl⟩

/-- A point of the level target. -/
noncomputable def levelPoint (x : Exact) : Point Exact := ⟨[x], .real 0, .real 0⟩

theorem evaluate_level_eq {schedule : Schedule} (x : Exact) (memory : Nat) :
    (levelSampler none schedule).target.evaluate [x] memory =
      .ok (levelPoint x) (memory + 1) := by
  have h : (levelSampler none schedule).target.evaluate [x] memory =
      .ok ⟨[x], 0 + 0, 0 + 0 + (0 + 0)⟩ (memory + 1) := rfl
  rw [h, levelPoint]
  simp only [Exact.ofNat_eq, Exact.real_add, Nat.cast_zero, add_zero]

theorem Target.Stored.eq_levelPoint {schedule : Schedule} {p : Point Exact}
    (h : (levelSampler none schedule).target.Stored p) : ∃ x, p = levelPoint x := by
  obtain ⟨memory, memory', heval⟩ := h.evaluated
  obtain ⟨x, hx⟩ := List.length_eq_one_iff.1 h.length_parameters
  rw [hx, evaluate_level_eq] at heval
  exact ⟨x, (EStateM.Result.ok.inj heval).1.symm⟩

/-- A walker on the level target accepts whatever it proposes, without a random number. -/
theorem iterate_level {schedule : Schedule} {w : Walker Exact} {world : World Exact Nat}
    (hcurrent : (levelSampler none schedule).target.Stored w.current)
    (hproposal : (w.proposal world.tape).length = 1) : ∃ w' world',
      w.iterate (levelSampler none schedule).target world = .ok (true, w') world' := by
  obtain ⟨x, hx⟩ := hcurrent.eq_levelPoint
  obtain ⟨y, hy⟩ := List.length_eq_one_iff.1 hproposal
  have hratio : (0 : Exact) ≤ (levelPoint y).logPosterior - (levelPoint x).logPosterior := by
    rw [levelPoint, levelPoint, Exact.ofNat_eq, Exact.real_sub, Exact.real_le, Nat.cast_zero,
      sub_zero]
  have hdecision (tape : Tape Exact) : w.decideMove (levelPoint y) tape = (true, tape) := by
    have hfeasible : (levelPoint y).isFeasible = true := rfl
    unfold Walker.decideMove accepts
    rw [if_pos hfeasible, hx, if_pos hratio]
    rfl
  -- Proposed, evaluated, and accepted.
  let world₁ : World Exact Nat :=
    { world with tape := (w.walk.propose w.current.parameters world.tape).2 }
  let world₂ : World Exact Nat := { world₁ with memory := world₁.memory + 1 }
  refine ⟨w.move (levelPoint y) true, world₂, ?_⟩
  unfold Walker.iterate
  rw [bind_of_ok _ (Engine.ofSampling_apply _ world)]
  change (Engine.ofModel (Target.evaluate _ (w.proposal world.tape)) >>= _) world₁ = _
  rw [hy, bind_of_ok _ (Engine.ofModel_of_ok (evaluate_level_eq y _) _),
    bind_of_ok _ (Engine.ofSampling_apply _ world₂), hdecision]
  rfl

/-- Without a search the start is found at once. -/
theorem prepare_levelSampler {schedule : Schedule} (hgrid : schedule.gridSize = 0)
    (hwarm : schedule.warmUp ≠ 0) : ∃ trace world, trace.history = #[] ∧
      (levelSampler none schedule).prepare ((levelSampler none schedule).newChain 0) =
        .ok () ⟨world, .warmingUp trace⟩ := by
  obtain ⟨iterations, burnIn, thin, warmUp, gridSize, seed⟩ := schedule
  subst hgrid
  obtain ⟨n, rfl⟩ := Nat.exists_eq_succ_of_ne_zero hwarm
  exact ⟨_, _, rfl, rfl⟩

theorem prepare_level : ∃ trace world, trace.history = #[] ∧
    (levelSampler none shortSchedule).prepare ((levelSampler none shortSchedule).newChain 0) =
      .ok () ⟨world, .warmingUp trace⟩ :=
  prepare_levelSampler rfl (by decide)

end Metropolis
