import Metropolis.Proofs.Layout
import Metropolis.Proofs.Record
import Metropolis.Proofs.Totality

/-!
# Models that fit the sampler

If the parts of a model agree on its parameters then every vector that a chain asks about can be
evaluated. No error is left to the chain but that it finds no feasible start, or that it is asked
too early or too late. The normal model and the model of counts are such models, for all data that
pass their checks and all valid priors.
-/

namespace Metropolis

variable {α σ : Type} [Scalar α]

/-! ## Vectors of the right length can be evaluated -/

namespace Target

variable {t : Target α σ} {θ : List α}

theorem addSubjects_eq_ok {m : Model α σ} (total : m.IsTotal) (hθ : θ.length = m.dimension)
    {subjects : List Nat} (h : ∀ subject ∈ subjects, subject < m.subjects) (sum : α) (memory : σ) :
    ∃ x memory', addSubjects m θ subjects sum memory = .ok x memory' := by
  induction subjects generalizing sum memory with
  | nil => exact ⟨sum, memory, rfl⟩
  | cons subject rest ih =>
    obtain ⟨term, middle, hterm⟩ :=
      total.logLikelihood θ subject memory hθ (h subject List.mem_cons_self)
    unfold addSubjects
    rw [bind_of_ok _ hterm]
    -- The sum may end early, at a likelihood of zero.
    split
    · exact ⟨_, _, rfl⟩
    · exact ih (fun other hother => h other (List.mem_cons_of_mem _ hother)) _ _

theorem logLikelihood_of_addSubjects (hθ : θ.length = t.dimension) {x : α} {memory memory' : σ}
    (h : addSubjects t.model θ (List.range t.model.subjects) 0 memory = .ok x memory') :
    t.logLikelihood θ memory = .ok x memory' := by
  unfold logLikelihood checkDimension
  rw [if_pos hθ, bind_ofExcept]
  exact adaptExcept_of_ok Error.model h

theorem logLikelihood_of_addSubjects_error (hθ : θ.length = t.dimension) {cause : ModelError}
    {memory memory' : σ}
    (h : addSubjects t.model θ (List.range t.model.subjects) 0 memory = .error cause memory') :
    t.logLikelihood θ memory = .error (.model cause) memory' := by
  unfold logLikelihood checkDimension
  rw [if_pos hθ, bind_ofExcept]
  exact adaptExcept_of_error Error.model h

theorem exists_evaluate (covered : t.IsCovered) (total : t.model.IsTotal)
    (hθ : θ.length = t.dimension) (memory : σ) :
    ∃ p memory', t.evaluate θ memory = .ok p memory' := by
  obtain ⟨x, hprior⟩ := covered θ hθ
  obtain ⟨y, memory', hsum⟩ :=
    addSubjects_eq_ok total hθ (fun _ => List.mem_range.1) 0 memory
  unfold evaluate
  rw [hprior, bind_ofExcept]
  split
  · exact ⟨_, _, rfl⟩
  · rw [bind_of_ok _ (logLikelihood_of_addSubjects hθ hsum)]
    exact ⟨_, _, rfl⟩

/-- A registry with an entry for every parameter makes the target of its model. -/
theorem ofModel_of_registers {m : Model α σ} {r : Registry α} (h : m.Registers r) :
    ofModel m = .ok ⟨m, r⟩ := by
  unfold ofModel ofRegistry
  rw [h.registered]
  show (r.checkCoverage m.dimension >>= fun _ => _) = _
  rw [h.covered]
  rfl

end Target

namespace Search

variable {t : Target α σ} {start : Start α}

theorem improve_eq_ok (covered : t.IsCovered) (total : t.model.IsTotal)
    (hstart : start.dimension = t.dimension) (n : Nat) (best : Point α) (w : World α σ) :
    ∃ p w', improve t start n best w = .ok p w' := by
  induction n generalizing best w with
  | zero => exact ⟨best, w, rfl⟩
  | succ n ih =>
    unfold improve
    rw [bind_of_ok _ (Engine.ofSampling_apply _ w)]
    have hlength := (start.length_sample w.tape).trans hstart
    obtain ⟨p, memory', heval⟩ := Target.exists_evaluate covered total hlength w.memory
    rw [bind_of_ok _ (Engine.ofModel_of_ok heval _)]
    exact ih _ _

/-- A search fails only because no candidate is feasible. -/
theorem run_eq_error (covered : t.IsCovered) (total : t.model.IsTotal)
    (hstart : start.dimension = t.dimension) {gridSize : Nat} {w w' : World α σ} {cause : Error α}
    (h : run t start gridSize w = .error cause w') : cause = .noFeasibleStart (gridSize + 1) := by
  rcases bind_eq_error h with h | ⟨centre, w₁, -, h⟩
  · obtain ⟨p, memory', heval⟩ := Target.exists_evaluate covered total hstart w.memory
    cases heval.symm.trans (Target.evaluate_of_ofModel_error h)
  · rcases bind_eq_error h with h | ⟨best, w₂, -, h⟩
    · obtain ⟨p, w', himprove⟩ := improve_eq_ok covered total hstart gridSize centre w₁
      cases himprove.symm.trans h
    · split at h
      · cases h
      · cases h
        rfl

end Search

namespace PseudoMarginal

variable {m : Model α σ} {points : List (Point α)}

omit [Scalar α] in
theorem predictions_eq_ok (total : m.IsTotal)
    (hpoints : ∀ p ∈ points, p.parameters.length = m.dimension) {subject : Nat}
    (hsubject : subject < m.subjects) (memory : σ) :
    ∃ values memory', predictions m subject points memory = .ok values memory' := by
  induction points generalizing memory with
  | nil => exact ⟨[], memory, rfl⟩
  | cons p rest ih =>
    obtain ⟨value, middle, hvalue⟩ :=
      total.logPredictive p.parameters subject memory (hpoints p List.mem_cons_self) hsubject
    obtain ⟨values, memory', hvalues⟩ :=
      ih (fun q hq => hpoints q (List.mem_cons_of_mem _ hq)) middle
    unfold predictions
    rw [bind_of_ok _ hvalue, bind_of_ok _ hvalues]
    exact ⟨_, _, rfl⟩

theorem ordinates_eq_ok (total : m.IsTotal)
    (hpoints : ∀ p ∈ points, p.parameters.length = m.dimension) {subjects : List Nat}
    (h : ∀ subject ∈ subjects, subject < m.subjects) (memory : σ) :
    ∃ logs memory', ordinates m points subjects memory = .ok logs memory' := by
  induction subjects generalizing memory with
  | nil => exact ⟨[], memory, rfl⟩
  | cons subject rest ih =>
    obtain ⟨values, middle, hvalues⟩ :=
      predictions_eq_ok total hpoints (h subject List.mem_cons_self) memory
    obtain ⟨logs, memory', hlogs⟩ :=
      ih (fun other hother => h other (List.mem_cons_of_mem _ hother)) middle
    unfold ordinates
    rw [bind_of_ok _ hvalues, bind_of_ok _ hlogs]
    exact ⟨_, _, rfl⟩

/-- A score fails only without a draw. -/
theorem ofDraws_eq_error {d : Draws α} (total : m.IsTotal)
    (hpoints : ∀ p ∈ d.points, p.parameters.length = m.dimension) {memory memory' : σ}
    {cause : Error α} (h : ofDraws m d memory = .error cause memory') : cause = .noDraws := by
  unfold ofDraws at h
  split at h
  · cases h
    rfl
  · obtain ⟨logs, last, hlogs⟩ :=
      ordinates_eq_ok total hpoints (fun _ => List.mem_range.1) memory
    rw [bind_of_ok _ (adaptExcept_of_ok Error.model hlogs)] at h
    cases h

end PseudoMarginal

/-! ## Questions for the draws -/

namespace Chain

variable {c : Chain α σ} {cause : Error α}

omit [Scalar α] in
theorem draws_eq_error (h : c.draws = .error cause) : cause = .notReleased := by
  unfold draws at h
  split at h <;> cases h
  rfl

omit [Scalar α] in
theorem map_draws_eq_error {β : Type} {f : Draws α → β} (h : c.draws.map f = .error cause) :
    cause = .notReleased := by
  cases hdraws : c.draws with
  | ok selection => rw [hdraws] at h; cases h
  | error cause' =>
    rw [hdraws] at h
    cases h
    exact draws_eq_error hdraws

theorem report_eq_error (h : c.report = .error cause) : cause = .notReleased := by
  unfold report at h
  cases hsummary : c.summary with
  | ok summary => rw [hsummary] at h; cases h
  | error cause' =>
    rw [hsummary] at h
    cases h
    exact map_draws_eq_error hsummary

end Chain

/-! ## What is left to go wrong -/

namespace Sampler

variable {s : Sampler α σ} {c d : Chain α σ} {trace : Trace α} {cause : Error α}

omit [Scalar α] in
/-- The errors that a call may return on a chain that its model never stops: no candidate for the
start is feasible, or the call comes too late or too early. -/
inductive Call.Refuses : Call → Error α → Prop where
  | start {k : Call} (hk : k.Advances) (candidates : Nat) : Refuses k (.noFeasibleStart candidates)
  | released {k : Call} (hk : k.Advances) : Refuses k .alreadyReleased
  | incomplete (completed required : Nat) : Refuses .release (.incomplete completed required)
  | notReleased : Refuses .score .notReleased
  | noDraws : Refuses .score .noDraws

/-- Whether the model of a sampler has a starting distribution of the right dimension and can
evaluate every vector of that length. -/
structure IsReady (s : Sampler α σ) : Prop where
  start : ∃ distribution, s.target.model.start s.settings.coefficient = .ok distribution ∧
    distribution.dimension = s.target.dimension
  covered : s.target.IsCovered
  total : s.target.model.IsTotal

/-- With a starting distribution of the right dimension, only the search is left of a start. -/
theorem start_eq_search {distribution : Start α}
    (hstart : s.target.model.start s.settings.coefficient = .ok distribution)
    (hdimension : distribution.dimension = s.target.dimension) (w : World α σ) :
    s.start w = (Search.run s.target distribution s.settings.schedule.gridSize >>=
      fun point => pure (s.firstStage distribution point)) w := by
  unfold Sampler.start
  rw [hstart, bind_ofExcept, if_neg (not_not.2 hdimension)]
  refine congrFun (congrArg _ (funext fun point => ?_)) w
  unfold firstStage
  dsimp only
  split <;> rfl

namespace IsReady

theorem start_eq_error (ready : s.IsReady) {w w' : World α σ} (h : s.start w = .error cause w') :
    cause = .noFeasibleStart (s.settings.schedule.gridSize + 1) := by
  obtain ⟨distribution, hstart, hdimension⟩ := ready.start
  rw [start_eq_search hstart hdimension] at h
  rcases bind_eq_error h with h | ⟨point, w₁, -, h⟩
  · exact Search.run_eq_error ready.covered ready.total hdimension h
  · cases h

theorem not_canFail (ready : s.IsReady) : ¬ s.CanFail cause := by
  rintro ⟨walker, w, w', hfits, hiterate⟩
  obtain ⟨p, memory', heval⟩ := Target.exists_evaluate ready.covered ready.total
    (Walker.length_proposal hfits w.tape) w.memory
  cases heval.symm.trans (Walker.iterate_eq_error hiterate)

theorem refuses_of_prepare (ready : s.IsReady) (unfailed : c.phase ≠ .failed) {k : Call}
    (hk : k.Advances) (h : s.prepare c = .error cause d) : k.Refuses cause := by
  rcases c with ⟨w, _ | trace | trace | ⟨trace, selection⟩ | ⟨trace?, reason⟩⟩
  case initializing =>
    cases hstart : s.start w with
    | ok stage w' =>
      rw [prepare_of_start_ok hstart] at h
      cases h
    | error cause' w' =>
      rw [prepare_of_start_error hstart] at h
      cases h
      rw [ready.start_eq_error hstart]
      exact .start hk _
  case warmingUp => cases h
  case sampling => cases h
  case finalized =>
    cases h
    exact .released hk
  case failed => exact absurd rfl unfailed

theorem refuses_of_advances (ready : s.IsReady) (unfailed : c.phase ≠ .failed)
    (fitting : s.IsFitting c.stage) {k : Call} (hk : k.Advances) (h : s.Fails c k cause d) :
    k.Refuses cause := by
  cases hprepare : s.prepare c with
  | error cause' d' =>
    obtain ⟨rfl, rfl⟩ := h.unique (fails_of_prepare hk hprepare)
    exact ready.refuses_of_prepare unfailed hk hprepare
  | ok u first =>
    -- The start was found, and no iteration can fail.
    obtain ⟨trace, running⟩ := running_of_prepare hprepare
    have hfirst := isFitting_of_prepare hprepare fitting
    refine absurd (?_ : s.CanFail cause) ready.not_canFail
    rcases hk with rfl | rfl | rfl
    · cases hprepare.symm.trans h
    · exact canFail_of_step running hfirst ((step_eq_of_prepared hprepare).symm.trans h)
    · exact canFail_of_run running hfirst ((run_eq_of_prepared hprepare).symm.trans h)

theorem refuses_of_score (ready : s.IsReady) (stored : ∀ p, c.Stores p → s.target.Stored p)
    (h : s.pseudoMarginal c = .error cause d) : Call.score.Refuses cause := by
  unfold pseudoMarginal Chain.draws at h
  cases hselection : c.stage.selection? with
  | none =>
    rw [hselection] at h
    cases h
    exact .notReleased
  | some selection =>
    have hpoints : ∀ p ∈ selection.points, p.parameters.length = s.target.model.dimension :=
      fun p hp => (stored p (.inr (.inr ⟨selection, hselection, hp⟩))).length_parameters
    rw [hselection] at h
    dsimp only at h
    split at h
    · cases h
    next hscore =>
      cases h
      rw [PseudoMarginal.ofDraws_eq_error ready.total hpoints hscore]
      exact .noDraws

/-- On a chain that has not failed a call is refused for nothing that the model decides. -/
theorem refuses_of_fails (ready : s.IsReady) (unfailed : c.phase ≠ .failed)
    (fitting : s.IsFitting c.stage) (stored : ∀ p, c.Stores p → s.target.Stored p) {k : Call}
    (h : s.Fails c k cause d) : k.Refuses cause := by
  have advances (hk : k.Advances) := ready.refuses_of_advances unfailed fitting hk h
  cases k with
  | prepare => exact advances (.inl rfl)
  | step => exact advances (.inr (.inl rfl))
  | run => exact advances (.inr (.inr rfl))
  | release =>
    rcases release_cases s c with
      ⟨selection, -, hrelease⟩ | ⟨-, ⟨completed, hrelease⟩ | ⟨trace, -, -, hrelease⟩⟩ <;>
      cases hrelease.symm.trans h
    exact .incomplete _ _
  | score => exact ready.refuses_of_score stored h

end IsReady

theorem stored_after (s : Sampler α σ) (memory : σ) (calls : List Call) (p : Point α)
    (h : (s.after memory calls).Stores p) : s.target.Stored p := by
  obtain ⟨log, path⟩ := after_path s memory calls
  exact stored_of_stores (isRecorded_of_path path) h

/-- No sequence of calls makes the chain fail. -/
theorem IsReady.unfailed_after (ready : s.IsReady) (memory : σ) (calls : List Call) :
    (s.after memory calls).phase ≠ .failed := by
  induction calls using List.reverseRecOn with
  | nil => exact fun h => by cases h
  | append_singleton calls k ih =>
    intro hfailed
    rw [after_append] at hfailed
    -- The last call would have returned an error of the model.
    have fitting := isFitting_after s memory calls
    obtain ⟨-, reason, h⟩ := fails_of_failed fitting ih hfailed
    cases ready.refuses_of_fails ih fitting (stored_after s memory calls) h

/-- Whether chains never fail, and what is asked of them is refused for nothing that the model
decides. -/
structure IsSafe (s : Sampler α σ) : Prop where
  unfailed : ∀ memory calls, (s.after memory calls).phase ≠ .failed
  refuses : ∀ memory calls k cause d, s.Fails (s.after memory calls) k cause d → k.Refuses cause
  asked : ∀ memory calls number cause,
    (s.after memory calls).draws = .error cause ∨
      (s.after memory calls).text number = .error cause ∨
      (s.after memory calls).summary = .error cause ∨
      (s.after memory calls).report = .error cause → cause = .notReleased

theorem IsReady.isSafe (ready : s.IsReady) : s.IsSafe where
  unfailed := ready.unfailed_after
  refuses memory calls _ _ _ h :=
    ready.refuses_of_fails (ready.unfailed_after memory calls) (isFitting_after s memory calls)
      (stored_after s memory calls) h
  asked memory calls number cause := by
    rintro (h | h | h | h)
    · exact Chain.draws_eq_error h
    · exact Chain.map_draws_eq_error h
    · exact Chain.map_draws_eq_error h
    · exact Chain.report_eq_error h

theorem exists_ofModel_iff {m : Model α σ}
    (registers : ∀ r, Registry.ofRegistrations m.priors = .ok r → m.Registers r)
    (settings : Settings α) : (∃ s, ofModel m settings = .ok s) ↔
      settings.check = .ok () ∧ ∃ r, Registry.ofRegistrations m.priors = .ok r := by
  constructor
  · rintro ⟨s, h⟩
    obtain ⟨r, hr, -⟩ := Target.ofModel_eq_ok (ofModel_eq_ok h).2.2
    exact ⟨check_of_ofModel h, r, hr⟩
  · rintro ⟨hcheck, r, hr⟩
    refine ⟨⟨⟨m, r⟩, settings⟩, ?_⟩
    unfold ofModel
    rw [hcheck, Target.ofModel_of_registers (registers r hr)]
    rfl

end Sampler

/-! ## The models -/

/-- Whether a model can be sampled with any settings that pass, if its priors are valid. -/
structure Model.Fits (m : Model Exact σ) (valid : Prop) : Prop extends m.IsLaidOut where
  registrable : (∃ r, Registry.ofRegistrations m.priors = .ok r) ↔ valid
  registers : ∀ r, Registry.ofRegistrations m.priors = .ok r → m.Registers r
  accepted : ∀ settings, (∃ s, Sampler.ofModel m settings = .ok s) ↔ settings.check = .ok () ∧ valid
  safe : ∀ settings s, Sampler.ofModel m settings = .ok s → s.IsSafe

namespace Model

variable {m : Model Exact σ}

theorem IsLaidOut.isReady (h : m.IsLaidOut) {settings : Settings Exact} {s : Sampler Exact σ}
    (hs : Sampler.ofModel m settings = .ok s) : s.IsReady := by
  obtain ⟨hsettings, -, htarget⟩ := Sampler.ofModel_eq_ok hs
  have hmodel : s.target.model = m := (Target.holds_of_ofModel htarget).1
  refine ⟨?_, Sampler.isCovered_of_ofModel hs, by rw [hmodel]; exact h.total⟩
  obtain ⟨v, hv, hpos⟩ := Start.coefficient_eq_real
    ((Settings.check_eq_ok_iff settings).1 (Sampler.check_of_ofModel hs)).2.2
  obtain ⟨distribution, hstart, hlength, -⟩ := h.start v hpos
  refine ⟨distribution, ?_, ?_⟩
  · rw [hmodel, hsettings, hv]
    exact hstart
  · rw [Target.dimension, hmodel]
    exact hlength

theorem IsLaidOut.fits {valid : Prop} (h : m.IsLaidOut)
    (registrable : (∃ r, Registry.ofRegistrations m.priors = .ok r) ↔ valid)
    (registers : ∀ r, Registry.ofRegistrations m.priors = .ok r → m.Registers r) :
    m.Fits valid where
  toIsLaidOut := h
  registrable := registrable
  registers := registers
  accepted settings := by rw [Sampler.exists_ofModel_iff registers, registrable]
  safe _ _ hs := (h.isReady hs).isSafe

end Model

theorem Gaussian.fits_model {data : Outcomes Exact} {g : Gaussian Exact}
    (hg : ofOutcomes data = .ok g) (meanPrior variancePrior : Prior Exact) :
    ({ g with meanPrior, variancePrior }.model : Model Exact σ).Fits
      (meanPrior.isValid = true ∧ variancePrior.isValid = true) := by
  obtain ⟨hcheck, houtcomes⟩ := ofOutcomes_eq_ok hg
  obtain ⟨hvalues, -, hfinite⟩ := Outcomes.check_eq_ok hcheck
  rw [← houtcomes] at hvalues hfinite
  have laidOut : ({ g with meanPrior, variancePrior }.model : Model Exact σ).IsLaidOut :=
    isLaidOut_model hvalues hfinite
  exact laidOut.fits registrable_iff fun r hr => (registers_of_ofRegistrations hr).1

/-- What the data of a model of counts make sure of does not depend on its priors and its rule. -/
theorem Counts.isObserved_update {data : Outcomes Exact} {intercepts : Intercepts}
    {c : Counts Exact} (hc : ofOutcomes data intercepts = .ok c)
    (logMeanPrior deviationPrior : Prior Exact) (rule : Quadrature.Rule Exact) :
    { c with logMeanPrior, deviationPrior, rule }.IsObserved := by
  have observed := isObserved_of_ofOutcomes hc
  exact ⟨observed.labels_nodup, observed.tallies_ne_nil, observed.observations_pos,
    observed.isFinite_total, observed.isFinite_logFactorials, observed.tally_pos⟩

theorem Counts.fits_model {data : Outcomes Exact} {intercepts : Intercepts} {c : Counts Exact}
    (hc : ofOutcomes data intercepts = .ok c) (logMeanPrior deviationPrior : Prior Exact)
    (rule : Quadrature.Rule Exact) :
    ({ c with logMeanPrior, deviationPrior, rule }.model : Model Exact σ).Fits
      (logMeanPrior.isValid = true ∧
        (intercepts = .perSubject → deviationPrior.isValid = true)) := by
  have observed := isObserved_update hc logMeanPrior deviationPrior rule
  have hsubjects := observed.subjects_pos
  have hintercepts : c.intercepts = intercepts := (ofOutcomes_eq_ok hc).2.2.2
  refine (isLaidOut_model observed).fits ?_ fun r hr =>
    (registers_of_ofRegistrations hsubjects hr).1
  rw [← hintercepts]
  exact registrable_iff hsubjects

/-- For all data that pass its checks, the parts of a model agree on its parameters, and with valid
priors it can be sampled with any settings that pass, on any chain without an error that the model
decides. Everything that is read of a parameter vector and of the data is there. -/
theorem Model.fits_of_outcomes (data : Outcomes Exact) :
    (∀ (g : Gaussian Exact) (meanPrior variancePrior : Prior Exact),
      Gaussian.ofOutcomes data = .ok g →
        let g' := { g with meanPrior, variancePrior }
        (g'.model : Model Exact σ).Fits (meanPrior.isValid = true ∧ variancePrior.isValid = true) ∧
          (g'.model : Model Exact σ).dimension = 2 ∧
          (∀ r, Registry.ofRegistrations (g'.model : Model Exact σ).priors = .ok r →
            r.realizations = []) ∧
          ∀ θ subject x, g'.check θ subject = .ok x →
            θ.length = 2 ∧ subject < g'.outcomes.length) ∧
      ∀ (c : Counts Exact) (intercepts : Intercepts) (logMeanPrior deviationPrior : Prior Exact)
        (rule : Quadrature.Rule Exact), Counts.ofOutcomes data intercepts = .ok c →
          let c' := { c with logMeanPrior, deviationPrior, rule }
          (c'.model : Model Exact σ).Fits (logMeanPrior.isValid = true ∧
              (intercepts = .perSubject → deviationPrior.isValid = true)) ∧
            (c'.model : Model Exact σ).dimension = c'.dimension ∧
            (∀ r, Registry.ofRegistrations (c'.model : Model Exact σ).priors = .ok r →
              c'.HasEffects r) ∧
            (∀ θ subject t, c'.check θ subject = .ok t → subject < c'.subjects ∧ 0 < θ.length ∧
              (intercepts = .perSubject →
                1 + subject < θ.length ∧ c'.deviationIndex < θ.length)) ∧
            ∀ subject ∈ data.subjects, ∀ row ∈ subject.rows, row < data.values.length := by
  refine ⟨fun g meanPrior variancePrior hg => ⟨Gaussian.fits_model hg meanPrior variancePrior, rfl,
      fun r hr => (Gaussian.registers_of_ofRegistrations (σ := σ) hr).2,
      fun θ subject x => Gaussian.bounds_of_check⟩,
    fun c intercepts logMeanPrior deviationPrior rule hc => ?_⟩
  obtain ⟨hcounts, -, -, hintercepts⟩ := Counts.ofOutcomes_eq_ok hc
  have hsubjects := (Counts.isObserved_update hc logMeanPrior deviationPrior rule).subjects_pos
  refine ⟨Counts.fits_model hc logMeanPrior deviationPrior rule, Counts.dimension_model _,
    fun r hr => (Counts.registers_of_ofRegistrations (σ := σ) hsubjects hr).2,
    fun θ subject t ht => ?_, fun subject hsubject row hrow =>
      Outcomes.lt_of_mem_rows (Outcomes.check_of_checkCounts hcounts) hsubject hrow⟩
  rw [← hintercepts]
  exact Counts.bounds_of_check ht

/-! ## Three counts on two subjects -/

noncomputable def pairedCounts : Outcomes Exact := ⟨[2, 0, 1], [7, 3, 7]⟩

theorem Exact.isWhole_real (n : Nat) : Scalar.isWhole (Exact.real n) = true := by
  show decide (((⌊(n : ℝ)⌋₊ : Nat) : ℝ) = n) = true
  rw [Nat.floor_natCast]
  exact decide_eq_true rfl

theorem checkCounts_pairedCounts : pairedCounts.checkCounts = .ok () := by
  have hcheck : pairedCounts.check = .ok () := rfl
  have hnegative : (pairedCounts.values.any fun y => decide (y < 0)) = false := by
    simp only [pairedCounts, Exact.ofNat_eq, Exact.real_lt, List.any_cons, List.any_nil]
    norm_num
  have hwhole : (pairedCounts.values.any fun y => !Scalar.isWhole y) = false := by
    simp only [pairedCounts, Exact.ofNat_eq, Exact.isWhole_real, List.any_cons, List.any_nil]
    rfl
  unfold Outcomes.checkCounts
  rw [hcheck, hnegative, hwhole]
  rfl

theorem subjects_pairedCounts : pairedCounts.subjects = [⟨3, [1]⟩, ⟨7, [0, 2]⟩] := by
  have hsorted : [7, 3, 7].mergeSort (fun a b : Nat => decide (a ≤ b)) = [3, 7, 7] := by
    simp [List.mergeSort]
  unfold pairedCounts Outcomes.subjects Outcomes.distinct
  rw [hsorted]
  rfl

theorem Gaussian.exists_pairedCounts : ∃ g, ofOutcomes pairedCounts = .ok g := by
  unfold ofOutcomes
  rw [Outcomes.check_of_checkCounts checkCounts_pairedCounts]
  exact ⟨_, rfl⟩

theorem Counts.exists_pairedCounts : ∃ c, ofOutcomes pairedCounts .perSubject = .ok c := by
  unfold ofOutcomes
  rw [checkCounts_pairedCounts]
  exact ⟨_, rfl⟩

/-- The model with an intercept for each of two subjects has the parameters 0 to 3, whatever their
labels. -/
theorem fits_of_outcomes_pairedCounts :
    let settings := { Settings.standard with schedule := shortSchedule }
    (∃ g s, Gaussian.ofOutcomes pairedCounts = .ok g ∧
      Sampler.ofModel ({ g with meanPrior := .flat, variancePrior := .flat }.model :
        Model Exact Unit) settings = .ok s ∧ s.IsSafe ∧ s.target.dimension = 2) ∧
      ∃ c s, Counts.ofOutcomes pairedCounts .perSubject = .ok c ∧
        let c' := { c with logMeanPrior := .flat, deviationPrior := .flat }
        Sampler.ofModel (c'.model : Model Exact Unit) settings = .ok s ∧ s.IsSafe ∧
          (c'.model : Model Exact Unit).parameterNames = ["log_mean", "u_3", "u_7", "tau"] ∧
          s.target.registry.realizations = [1, 2] ∧
          s.target.registry.get? 3 = some (.hyper .flat [1, 2]) := by
  intro settings
  have hsettings : settings.check = .ok () := check_standard shortSchedule_valid
  obtain ⟨gaussian, counts⟩ := Model.fits_of_outcomes (σ := Unit) pairedCounts
  constructor
  · obtain ⟨g, hg⟩ := Gaussian.exists_pairedCounts
    obtain ⟨fits, -⟩ := gaussian g .flat .flat hg
    obtain ⟨s, hs⟩ := (fits.accepted settings).2 ⟨hsettings, rfl, rfl⟩
    have hmodel := (Target.holds_of_ofModel (Sampler.ofModel_eq_ok hs).2.2).1
    exact ⟨g, s, hg, hs, fits.safe settings s hs, by rw [Target.dimension, hmodel]; rfl⟩
  · obtain ⟨c, hc⟩ := Counts.exists_pairedCounts
    obtain ⟨-, htallies, -, hintercepts⟩ := Counts.ofOutcomes_eq_ok hc
    obtain ⟨fits, -, effects, -⟩ := counts c .perSubject .flat .flat c.rule hc
    obtain ⟨s, hs⟩ := (fits.accepted settings).2 ⟨hsettings, rfl, fun _ => rfl⟩
    obtain ⟨r, hr, htarget⟩ := Target.ofModel_eq_ok (Sampler.ofModel_eq_ok hs).2.2
    have hregistry : s.target.registry = r := by rw [(Target.ofRegistry_eq_ok htarget).1]
    have heffects := effects r hr
    have hindices : Counts.interceptIndices
        { c with logMeanPrior := .flat, deviationPrior := .flat } = [1, 2] := by
      unfold Counts.interceptIndices Counts.subjects
      dsimp only
      rw [hintercepts, htallies, subjects_pairedCounts]
      rfl
    have hdeviation := heffects.deviation hintercepts
    rw [hindices, Counts.deviationIndex, Counts.subjects] at hdeviation
    refine ⟨c, s, hc, hs, fits.safe settings s hs, ?_, ?_, ?_⟩
    · show "log_mean" :: Counts.otherNames _ = _
      unfold Counts.otherNames
      dsimp only
      rw [hintercepts, htallies, subjects_pairedCounts]
      rfl
    · rw [hregistry, heffects.realizations, hindices]
    · rw [hregistry]
      rw [htallies, subjects_pairedCounts] at hdeviation
      exact hdeviation

end Metropolis
