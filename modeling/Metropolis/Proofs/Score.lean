import Metropolis.Proofs.LogSumExp
import Metropolis.Proofs.Scales
import Metropolis.Proofs.Selection

/-!
# The score of a finished chain

A chain keeps only feasible points, and at a feasible point no subject's likelihood is zero,
infinite or undefined. So the draws of a chain that is done give every subject finite predictive
likelihoods, if a model predicts by the likelihood that it was sampled with; there is a draw, and
over the exact numbers the ordinates and their sum are finite then.
-/

namespace Metropolis

variable {σ : Type}

namespace PseudoMarginal

theorem ofDraws_of_ordinates {α : Type} [Scalar α] {m : Model α σ} {d : Draws α} {logs : List α}
    {memory memory' : σ} (hne : d.points ≠ [])
    (h : ordinates m d.points (List.range m.subjects) memory = .ok logs memory') :
    ofDraws m d memory = .ok ⟨Series.sum logs, logs⟩ memory' := by
  have hsome : ¬ d.isEmpty = true := mt List.isEmpty_iff.1 hne
  unfold ofDraws
  rw [if_neg hsome, bind_of_ok _ (adaptExcept_of_ok Error.model h)]
  rfl

variable {m : Model Exact σ} {points : List (Point Exact)}

theorem logHarmonicMean_real {xs : List ℝ} (hne : xs ≠ []) :
    logHarmonicMean (xs.map Exact.real) = Exact.real
      (Real.log (min xs.length Scalar.countLimit : ℕ) -
        Real.log (xs.map fun x => Real.exp (-x)).sum) := by
  have hpos := Exact.min_countLimit_pos (List.length_pos_iff.2 hne)
  have hnegated : (xs.map Exact.real).map (fun x => -x) = (xs.map fun x => -x).map Exact.real := by
    rw [List.map_map, List.map_map]
    rfl
  unfold logHarmonicMean
  rw [List.length_map, Exact.ofCount_eq, Exact.log_real hpos, hnegated,
    Series.logSumExp_real (mt List.map_eq_nil_iff.1 hne), Exact.real_sub, List.map_map]
  rfl

theorem isFinite_logHarmonicMean {logs : List Exact} (hne : logs ≠ [])
    (h : ∀ x ∈ logs, Scalar.isFinite x = true) : Scalar.isFinite (logHarmonicMean logs) = true := by
  -- Finite numbers are real ones, of which the mean is known.
  rw [← Exact.map_real_toReal h, logHarmonicMean_real (mt List.map_eq_nil_iff.1 hne)]
  rfl

/-- Whether a model predicts a finite number for a subject at each of some points, whatever it was
asked before. -/
def Predicts (m : Model Exact σ) (points : List (Point Exact)) (subject : Nat) : Prop :=
  ∀ p ∈ points, ∀ memory, ∃ x memory',
    m.logPredictive p.parameters subject memory = .ok x memory' ∧ Scalar.isFinite x = true

theorem predictions_finite {subject : Nat} (h : Predicts m points subject) (memory : σ) :
    ∃ logs memory', predictions m subject points memory = .ok logs memory' ∧
      logs.length = points.length ∧ ∀ x ∈ logs, Scalar.isFinite x = true := by
  induction points generalizing memory with
  | nil => exact ⟨[], memory, rfl, rfl, List.forall_mem_nil _⟩
  | cons p rest ih =>
    -- The rest is predicted with the memory that this point leaves.
    obtain ⟨x, middle, hx, hfinite⟩ := h p List.mem_cons_self memory
    obtain ⟨logs, memory', hlogs, hlength, hrest⟩ :=
      ih (fun q hq => h q (List.mem_cons_of_mem _ hq)) middle
    refine ⟨x :: logs, memory', ?_, by rw [List.length_cons, hlength, List.length_cons],
      List.forall_mem_cons.2 ⟨hfinite, hrest⟩⟩
    unfold predictions
    rw [bind_of_ok _ hx, bind_of_ok _ hlogs]
    rfl

theorem ordinates_finite (hne : points ≠ []) {subjects : List Nat}
    (h : ∀ subject ∈ subjects, Predicts m points subject) (memory : σ) :
    ∃ logs memory', ordinates m points subjects memory = .ok logs memory' ∧
      logs.length = subjects.length ∧ ∀ x ∈ logs, Scalar.isFinite x = true := by
  induction subjects generalizing memory with
  | nil => exact ⟨[], memory, rfl, rfl, List.forall_mem_nil _⟩
  | cons subject rest ih =>
    obtain ⟨logs, middle, hlogs, hlength, hfinite⟩ :=
      predictions_finite (h subject List.mem_cons_self) memory
    obtain ⟨others, memory', hothers, hotherslength, hrest⟩ :=
      ih (fun other hother => h other (List.mem_cons_of_mem _ hother)) middle
    have hlogsne : logs ≠ [] := by
      rw [← List.length_pos_iff, hlength]
      exact List.length_pos_iff.2 hne
    refine ⟨logHarmonicMean logs :: others, memory', ?_,
      by rw [List.length_cons, hotherslength, List.length_cons],
      List.forall_mem_cons.2 ⟨isFinite_logHarmonicMean hlogsne hfinite, hrest⟩⟩
    unfold ordinates
    rw [bind_of_ok _ hlogs, bind_of_ok _ hothers]
    rfl

/-- Draws at which every subject is predicted a finite number have a finite score. -/
theorem ofDraws_finite {d : Draws Exact} (hne : d.points ≠ [])
    (h : ∀ subject < m.subjects, Predicts m d.points subject) (memory : σ) :
    ∃ score memory', ofDraws m d memory = .ok score memory' ∧
      score.logOrdinates.length = m.subjects ∧
      (∀ x ∈ score.logOrdinates, Scalar.isFinite x = true) ∧
      Scalar.isFinite score.total = true := by
  obtain ⟨logs, memory', hlogs, hlength, hfinite⟩ :=
    ordinates_finite hne (fun subject hsubject => h subject (List.mem_range.1 hsubject)) memory
  exact ⟨⟨Series.sum logs, logs⟩, memory', ofDraws_of_ordinates hne hlogs,
    hlength.trans List.length_range, hfinite, Series.isFinite_sum hfinite⟩

end PseudoMarginal

/-- At stored points a model predicts finite numbers if it does so by a likelihood that is always
the same. -/
theorem Target.Stored.predicts {t : Target Exact σ} {points : List (Point Exact)}
    (h : ∀ p ∈ points, t.Stored p) (predictive : t.model.logPredictive = t.model.logLikelihood)
    (consistent : t.model.IsConsistent) {subject : Nat} (hsubject : subject < t.model.subjects) :
    PseudoMarginal.Predicts t.model points subject := by
  intro p hp memory
  obtain ⟨x, memory₀, memory₁, hx, hfinite⟩ := (h p hp).finite.2 subject hsubject
  -- The answer was finite when the point was stored, and it is still the same.
  have hanswer := consistent p.parameters subject memory memory₀
  rw [hx, answer_ok] at hanswer
  rw [predictive]
  exact ⟨x, _, answer_eq_ok hanswer, hfinite⟩

namespace Sampler

variable {s : Sampler Exact σ}

/-- The draws of a finalized chain: there is one, and all are stored points. -/
theorem draws_of_finalized (valid : s.settings.schedule.Valid) (memory : σ) (calls : List Call)
    (finalized : (s.after memory calls).phase = .finalized) :
    ∃ selection, (s.after memory calls).draws = .ok selection ∧ selection.points ≠ [] ∧
      ∀ p ∈ selection.points, s.target.Stored p := by
  have hsound := sound_after valid memory calls
  have hstored := stored_after s memory calls
  rcases hc : s.after memory calls with ⟨world, stage⟩
  rw [hc] at finalized hsound hstored
  cases stage with
  | finalized trace selection =>
    obtain ⟨-, hsize, rfl⟩ := hsound
    refine ⟨_, rfl, ?_, fun p hp => hstored p (.inr (.inr ⟨_, rfl, hp⟩))⟩
    exact List.length_pos_iff.1 (isSelection_select valid hsize).size_pos
  | _ => cases finalized

theorem pseudoMarginal_of_ofDraws {c : Chain Exact σ} {draws : Draws Exact}
    {score : PseudoMarginal Exact} {memory : σ} (hdraws : c.draws = .ok draws)
    (h : PseudoMarginal.ofDraws s.target.model draws c.world.memory = .ok score memory) :
    s.pseudoMarginal c = .ok score { c with world := { c.world with memory } } := by
  unfold pseudoMarginal
  rw [hdraws]
  dsimp only
  rw [h]

/-- The score of a finalized chain exists, with a finite logarithm of the ordinate of each subject
and a finite sum of them, for every model that predicts by its likelihood if that is always the
same. -/
theorem pseudoMarginal_finite {m : Model Exact σ} {settings : Settings Exact}
    (accepted : ofModel m settings = .ok s) (predictive : m.logPredictive = m.logLikelihood)
    (consistent : m.IsConsistent) (memory : σ) (calls : List Call)
    (finalized : (s.after memory calls).phase = .finalized) :
    ∃ score d, s.pseudoMarginal (s.after memory calls) = .ok score d ∧
      d.stage = (s.after memory calls).stage ∧ score.logOrdinates.length = m.subjects ∧
      (∀ x ∈ score.logOrdinates, Scalar.isFinite x = true) ∧
      Scalar.isFinite score.total = true := by
  obtain rfl := (Target.holds_of_ofModel (ofModel_eq_ok accepted).2.2).1
  obtain ⟨selection, hdraws, hne, hstored⟩ :=
    draws_of_finalized (valid_of_ofModel accepted) memory calls finalized
  obtain ⟨score, memory', hscore, hfinite⟩ := PseudoMarginal.ofDraws_finite hne
    (fun subject => Target.Stored.predicts hstored predictive consistent)
    (s.after memory calls).world.memory
  exact ⟨score, _, pseudoMarginal_of_ofDraws hdraws hscore, rfl, hfinite⟩

/-- The score of the level model after a run and a release. -/
theorem pseudoMarginal_finite_level :
    let s := levelSampler none shortSchedule
    let c := s.after 0 [.run, .release]
    ofModel (levelModel none) { Settings.standard with schedule := shortSchedule } = .ok s ∧
      (levelModel none).logPredictive = (levelModel none).logLikelihood ∧
      (levelModel none).IsConsistent ∧ c.phase = .finalized ∧
      ∃ score d, s.pseudoMarginal c = .ok score d ∧ score.logOrdinates.length = 1 ∧
        Scalar.isFinite score.total = true := by
  intro s c
  obtain ⟨e, hrun, hcompleted⟩ := run_level
  have hafter : s.after 0 [.run] = e := by
    rw [after_singleton, call, hrun, leaves_ok]
  have accepted := ofModel_level none shortSchedule_valid
  obtain ⟨selection, d, hrelease⟩ :=
    release_complete (s := s) shortSchedule_valid (hcompleted : e.completed = 4)
  have finalized : c.phase = .finalized := by
    obtain ⟨trace, -, -, -, -, rfl⟩ :=
      release_eq_ok shortSchedule_valid (hafter ▸ sound_after shortSchedule_valid 0 [.run]) hrelease
    have hc : c = leaves (s.release e) := by
      rw [← hafter]
      exact after_append s 0 [.run] [.release]
    rw [hc, hrelease]
    rfl
  obtain ⟨score, d, hscore, -, hlength, -, htotal⟩ :=
    pseudoMarginal_finite accepted rfl isConsistent_level 0 [.run, .release] finalized
  exact ⟨accepted, rfl, isConsistent_level, finalized, score, d, hscore, hlength, htotal⟩

end Sampler

end Metropolis
