import Metropolis.Proofs.Contract

/-!
# Starts that are feasible

Over the exact numbers a sum of finite terms is finite, so that a point is feasible if its prior
and all its likelihoods are. The estimates of both models are such points under flat priors. Since a
search never gives up a feasible point, chains on them always find their start.
-/

namespace Metropolis

variable {α σ : Type}

/-! ## Finite densities -/

theorem isFinite_logNormalDensity {x mean : Exact} {variance : ℝ} (hx : Scalar.isFinite x = true)
    (hmean : Scalar.isFinite mean = true) (hvariance : 0 < variance) :
    Scalar.isFinite (logNormalDensity x mean (.real variance)) = true := by
  rw [Exact.eq_real_of_isFinite hx, Exact.eq_real_of_isFinite hmean,
    logNormalDensity_real _ _ hvariance]
  rfl

theorem Tally.isFinite_logProbability {t : Tally Exact} {η : Exact}
    (htotal : Scalar.isFinite t.total = true) (hfactorials : Scalar.isFinite t.logFactorials = true)
    (hη : Scalar.isFinite η = true) : Scalar.isFinite (t.logProbability η) = true := by
  have hcount : Scalar.isFinite (-Scalar.ofCount t.observations : Exact) = true := rfl
  have hexp : Scalar.isFinite (Scalar.exp η) = true := by
    rw [Exact.eq_real_of_isFinite hη]
    rfl
  unfold logProbability
  exact Exact.isFinite_sub (Exact.isFinite_add (Exact.isFinite_mul htotal hη)
    (Exact.isFinite_mul hcount hexp)) hfactorials

namespace Target

variable {t : Target Exact σ} {θ : List Exact}

/-- Whether a vector has a finite prior and finite likelihoods. -/
structure IsFiniteAt (t : Target Exact σ) (θ : List Exact) : Prop where
  length_eq : θ.length = t.dimension
  prior : ∃ x, t.registry.logPrior θ = .ok x ∧ Scalar.isFinite x = true
  likelihood : ∀ subject < t.model.subjects, ∀ memory, ∃ x memory',
    t.model.logLikelihood θ subject memory = .ok x memory' ∧ Scalar.isFinite x = true

theorem addSubjects_finite {m : Model Exact σ} {subjects : List Nat}
    (h : ∀ subject ∈ subjects, ∀ memory, ∃ x memory',
      m.logLikelihood θ subject memory = .ok x memory' ∧ Scalar.isFinite x = true)
    {sum : Exact} (hsum : Scalar.isFinite sum = true) (memory : σ) :
    ∃ x memory', addSubjects m θ subjects sum memory = .ok x memory' ∧
      Scalar.isFinite x = true := by
  induction subjects generalizing sum memory with
  | nil => exact ⟨sum, memory, rfl, hsum⟩
  | cons subject rest ih =>
    obtain ⟨term, middle, hterm, hfinite⟩ := h subject List.mem_cons_self memory
    obtain ⟨x, memory', hx, hxfinite⟩ := ih
      (fun other hother => h other (List.mem_cons_of_mem _ hother))
      (Exact.isFinite_add hsum hfinite) middle
    have hnonzero : ¬ (term == -Scalar.infinity) = true := by
      rw [Exact.eq_real_of_isFinite hfinite]
      exact Bool.false_ne_true
    refine ⟨x, memory', ?_, hxfinite⟩
    unfold addSubjects
    rw [bind_of_ok _ hterm, if_neg hnonzero]
    exact hx

/-- The converse of what is known of stored points. -/
theorem IsFiniteAt.evaluate (h : t.IsFiniteAt θ) (memory : σ) :
    ∃ p memory', t.evaluate θ memory = .ok p memory' ∧ p.isFeasible = true := by
  obtain ⟨x, hx, hxfinite⟩ := h.prior
  have hzero : Scalar.isFinite (0 : Exact) = true := rfl
  obtain ⟨y, memory', hy, hyfinite⟩ := addSubjects_finite
    (fun subject hsubject => h.likelihood subject (List.mem_range.1 hsubject)) hzero memory
  have hprior : t.logPrior θ = .ok x := by
    rw [logPrior_of_length h.length_eq, hx]
    rfl
  have hnonzero : ¬ (x == -Scalar.infinity) = true := by
    rw [Exact.eq_real_of_isFinite hxfinite]
    exact Bool.false_ne_true
  refine ⟨⟨θ, y, x + y⟩, memory', ?_, Exact.isFinite_add hxfinite hyfinite⟩
  unfold Target.evaluate
  rw [hprior, bind_ofExcept, if_neg hnonzero,
    bind_of_ok _ (logLikelihood_of_addSubjects h.length_eq hy)]
  rfl

end Target

/-! ## Searches that start from a feasible point -/

section FeasibleCentre

variable [Scalar α] {t : Target α σ} {start : Start α}

namespace Search

theorem isFeasible_improve {n : Nat} {best p : Point α} {w w' : World α σ}
    (hbest : best.isFeasible = true) (h : improve t start n best w = .ok p w') :
    p.isFeasible = true := by
  induction n generalizing best w with
  | zero =>
    cases h
    exact hbest
  | succ n ih =>
    obtain ⟨θ, w₁, -, h⟩ := bind_eq_ok h
    obtain ⟨candidate, w₂, -, h⟩ := bind_eq_ok h
    refine ih ?_ h
    rcases better_cases best candidate with hb | ⟨hb, hfeasible⟩ <;> rw [hb]
    · exact hbest
    · exact hfeasible

theorem run_eq_ok (covered : t.IsCovered) (total : t.model.IsTotal)
    (hstart : start.dimension = t.dimension) {w : World α σ} {centre : Point α} {memory : σ}
    (heval : t.evaluate start.mean w.memory = .ok centre memory)
    (hfeasible : centre.isFeasible = true) (gridSize : Nat) :
    ∃ p w', run t start gridSize w = .ok p w' := by
  obtain ⟨p, w', himprove⟩ :=
    improve_eq_ok covered total hstart gridSize centre ⟨memory, w.tape⟩
  unfold run
  rw [bind_of_ok _ (Engine.ofModel_of_ok heval _), bind_of_ok _ himprove,
    if_pos (isFeasible_improve hfeasible himprove)]
  exact ⟨p, w', rfl⟩

end Search

/-- A chain whose starting distribution has a feasible centre finds its start. -/
theorem Sampler.IsReady.starts {s : Sampler α σ} (ready : s.IsReady)
    (hfeasible : ∀ distribution, s.target.model.start s.settings.coefficient = .ok distribution →
      ∀ memory, ∃ p memory', s.target.evaluate distribution.mean memory = .ok p memory' ∧
        p.isFeasible = true) (memory : σ) :
    ∃ p, (s.after memory [.prepare]).initial? = some p := by
  obtain ⟨distribution, hdistribution, hdimension⟩ := ready.start
  obtain ⟨centre, memory', heval, hcentre⟩ := hfeasible distribution hdistribution memory
  obtain ⟨p, w', hrun⟩ := Search.run_eq_ok ready.covered ready.total hdimension
    (w := (s.newChain memory).world) heval hcentre s.settings.schedule.gridSize
  have hstart : s.start (s.newChain memory).world = .ok (s.firstStage distribution p) w' := by
    rw [start_eq_search hdistribution hdimension, bind_of_ok _ hrun]
    rfl
  have hprepare : s.prepare (s.newChain memory) = .ok () ⟨w', s.firstStage distribution p⟩ :=
    prepare_of_start_ok hstart
  obtain ⟨trace, running⟩ := running?_firstStage s distribution p
  refine ⟨trace.initial, ?_⟩
  rw [after_singleton, call, hprepare, leaves_ok, Chain.initial?, Stage.trace?_of_running running,
    Option.map_some]

end FeasibleCentre

/-! ## The estimates under flat priors -/

theorem Start.ofCovariance_of_ofCoefficient [Scalar α] {mean : List α} {coefficient : α}
    {distribution : Start α}
    (h : (ofCoefficient mean coefficient).mapError Error.start = .ok distribution) :
    ∃ covariance, ofCovariance mean covariance = .ok distribution := by
  have hvariances := (ofCoefficient_eq_ok_iff.1 (mapError_eq_ok h)).2
  exact ⟨_, (ofVariances_eq_ok_iff.1 hvariances).2⟩

theorem Start.mean_of_ofCoefficient [Scalar α] {mean : List α} {coefficient : α}
    {distribution : Start α}
    (h : (ofCoefficient mean coefficient).mapError Error.start = .ok distribution) :
    distribution.mean = mean := by
  obtain ⟨covariance, haccepted⟩ := ofCovariance_of_ofCoefficient h
  exact (ofCovariance_eq_ok haccepted).2.1

theorem Target.logPrior_finite_of_ofModel {m : Model Exact σ} {t : Target Exact σ}
    {θ : List Exact} (h : ofModel m = .ok t) (hθ : θ.length = m.dimension)
    (hentries : ∀ i entry, t.registry.get? i = some entry →
      Scalar.isFinite (entry.logDensity θ i) = true) :
    ∃ x, t.registry.logPrior θ = .ok x ∧ Scalar.isFinite x = true := by
  obtain ⟨-, holds, hcoverage⟩ := holds_of_ofModel h
  refine Registry.logPrior_finite Exact.noOverflow holds.isClosed ?_ fun p hp => ?_
  · rw [hθ]
    exact Registry.lt_of_checkCoverage hcoverage
  · exact hentries p.1 p.2 ((Registry.get?_eq_some_iff holds.ordered).2 hp)

namespace Gaussian

variable {g : Gaussian Exact}

theorem estimates_eq (hne : g.outcomes ≠ []) (h : ∀ y ∈ g.outcomes, Scalar.isFinite y = true) :
    ∃ m v : ℝ, g.estimates = [.real m, .real v] ∧ 0 < v := by
  have hmean := Series.isFinite_mean hne h
  obtain ⟨v, hv, hle⟩ := Exact.larger_eq_real (.inl (Series.isFinite_sampleVariance h)) (1.0e-6 : ℝ)
  refine ⟨(Series.mean g.outcomes).toReal, v, ?_, lt_of_lt_of_le (by norm_num) hle⟩
  unfold estimates
  rw [← Exact.eq_real_of_isFinite hmean, Exact.ofScientific_eq, hv]

theorem isFiniteAt_estimates {t : Target Exact σ} (ht : Target.ofModel g.model = .ok t)
    (hmean : g.meanPrior = .flat) (hvariance : g.variancePrior = .flat) (hne : g.outcomes ≠ [])
    (h : ∀ y ∈ g.outcomes, Scalar.isFinite y = true) : t.IsFiniteAt g.estimates := by
  obtain ⟨hmodel, holds, -⟩ := Target.holds_of_ofModel ht
  obtain ⟨m, v, hestimates, hv⟩ := estimates_eq hne h
  have hlength : g.estimates.length = (g.model : Model Exact σ).dimension := rfl
  refine ⟨by rw [Target.dimension, hmodel]; exact hlength, ?_, fun subject hsubject memory => ?_⟩
  · apply Target.logPrior_finite_of_ofModel ht hlength
    intro i entry hi
    rcases holds.only i entry hi with ⟨reg, hmem, -, rfl⟩ | ⟨j, effect, prior, hmem, -⟩
    · rcases List.mem_cons.1 hmem with rfl | hmem
      · rw [hmean]
        rfl
      · rw [List.mem_singleton.1 hmem, hvariance]
        rfl
    · exact absurd hmem (realization_not_mem_priors _ _ _ _)
  · rw [hmodel] at hsubject ⊢
    have hlt : subject < g.outcomes.length := hsubject
    refine ⟨logNormalDensity g.outcomes[subject] (.real m) (.real v), memory, ?_,
      isFinite_logNormalDensity (h _ (List.getElem_mem hlt)) rfl hv⟩
    show Likelihood.ofPure g.logDensity _ _ _ = _
    unfold Likelihood.ofPure logDensity check
    rw [hestimates]
    dsimp only
    rw [List.getElem?_eq_getElem hlt]
    rfl

/-- Under flat priors every chain on data that pass finds its start. -/
theorem starts_flat {data : Outcomes Exact} (hg : ofOutcomes data = .ok g)
    {settings : Settings Exact} {s : Sampler Exact σ}
    (hs : Sampler.ofModel { g with meanPrior := .flat, variancePrior := .flat }.model settings =
      .ok s) (memory : σ) : ∃ p, (s.after memory [.prepare]).initial? = some p := by
  obtain ⟨hcheck, houtcomes⟩ := ofOutcomes_eq_ok hg
  obtain ⟨hvalues, -, hfinite⟩ := Outcomes.check_eq_ok hcheck
  rw [← houtcomes] at hvalues hfinite
  have ht := (Sampler.ofModel_eq_ok hs).2.2
  have fits :
      ({ g with meanPrior := .flat, variancePrior := .flat }.model : Model Exact σ).Fits _ :=
    fits_model hg .flat .flat
  refine (fits.isReady hs).starts (fun distribution hdistribution => ?_) memory
  rw [(Target.holds_of_ofModel ht).1] at hdistribution
  rw [Start.mean_of_ofCoefficient hdistribution]
  exact (isFiniteAt_estimates ht rfl rfl hvalues hfinite).evaluate

end Gaussian

namespace Counts

variable {c : Counts Exact}

theorem isFinite_getD_estimates (h : c.IsObserved) (i : Nat) :
    Scalar.isFinite (c.estimates.getD i 0) = true := by
  rw [List.getD_eq_getElem?_getD]
  cases hi : c.estimates[i]? with
  | none => rfl
  | some x => exact isFinite_estimates h x (List.mem_of_getElem? hi)

/-- The estimate of the standard deviation is kept away from zero. -/
theorem deviation_estimates (h : c.IsObserved) (hintercepts : c.intercepts = .perSubject) :
    ∃ d : ℝ, c.estimates[c.deviationIndex]? = some (.real d) ∧ 0 < d := by
  have hfinite : ∀ u ∈ c.tallies.map fun t => Scalar.log t.rate - c.commonLogRate,
      Scalar.isFinite u = true := by
    intro u hu
    obtain ⟨t, ht, rfl⟩ := List.mem_map.1 hu
    exact Exact.isFinite_sub (isFinite_logRate h ht) (isFinite_commonLogRate h)
  obtain ⟨d, hd, hle⟩ :=
    Exact.larger_eq_real (Exact.sqrt_cases (Series.isFinite_sampleVariance hfinite)) (0.1 : ℝ)
  refine ⟨d, ?_, lt_of_lt_of_le (by norm_num) hle⟩
  unfold estimates
  rw [hintercepts]
  dsimp only
  rw [List.getElem?_append_right (by simp [deviationIndex, subjects]), Exact.ofScientific_eq, hd]
  simp [deviationIndex, subjects]

theorem isFinite_interceptPrior (h : c.IsObserved) {i : Nat} (hi : i ∈ c.interceptIndices) :
    Scalar.isFinite ((c.interceptPrior i).entry.logDensity c.estimates (c.interceptPrior i).index) =
      true := by
  obtain ⟨hintercepts, -, hlt⟩ := mem_interceptIndices.1 hi
  obtain ⟨d, hd, hpos⟩ := deviation_estimates h hintercepts
  have hdeviation : coordinate c.estimates c.deviationIndex = .real d := by
    rw [coordinate, List.getD_eq_getElem?_getD, hd, Option.getD_some]
  have hi : i < c.estimates.length :=
    Nat.lt_trans hlt (List.getElem?_eq_some_iff.1 hd).1
  have hfinite : Scalar.isFinite (coordinate c.estimates i) = true := by
    rw [Registry.coordinate_of_lt hi]
    exact isFinite_estimates h _ (List.getElem_mem hi)
  show Scalar.isFinite (Effect.normal.logDensity (coordinate c.estimates i)
    (coordinate c.estimates c.deviationIndex)) = true
  rw [hdeviation, Exact.eq_real_of_isFinite hfinite]
  exact Effect.isFinite_logDensity .normal _ hpos

/-- The estimates are feasible if the two priors of a model are finite there. -/
theorem isFiniteAt_estimates {t : Target Exact σ} (ht : Target.ofModel c.model = .ok t)
    (h : c.IsObserved)
    (hlogMean : Scalar.isFinite (c.logMeanPrior.logDensity (coordinate c.estimates 0)) = true)
    (hdeviation : c.intercepts = .perSubject → Scalar.isFinite
      (c.deviationPrior.logDensity (coordinate c.estimates c.deviationIndex)) = true) :
    t.IsFiniteAt c.estimates := by
  obtain ⟨hmodel, holds, -⟩ := Target.holds_of_ofModel ht
  have hlength : c.estimates.length = (c.model : Model Exact σ).dimension := by
    rw [length_estimates, dimension_model]
  refine ⟨by rw [Target.dimension, hmodel]; exact hlength, ?_, fun subject hsubject memory => ?_⟩
  · apply Target.logPrior_finite_of_ofModel ht hlength
    intro i entry hi
    rcases holds.only i entry hi with ⟨reg, hmem, rfl, rfl⟩ | ⟨j, effect, prior, hmem, rfl⟩
    · change reg ∈ c.priors at hmem
      rw [priors_eq] at hmem
      rcases List.mem_cons.1 hmem with rfl | hmem
      · exact hlogMean
      · obtain ⟨j, hj, rfl⟩ := List.mem_map.1 hmem
        exact isFinite_interceptPrior h hj
    · obtain ⟨hj, -, rfl, rfl⟩ := mem_priors_iff.1 hmem
      exact hdeviation (mem_interceptIndices.1 hj).1
  · rw [hmodel] at hsubject ⊢
    have hlt : subject < c.tallies.length := hsubject
    have hmember := List.getElem_mem hlt
    have hrate :
        Scalar.isFinite (logMean c.estimates + c.intercept c.estimates subject) = true := by
      unfold logMean intercept
      refine Exact.isFinite_add (isFinite_getD_estimates h 0) ?_
      split
      · rfl
      · exact isFinite_getD_estimates h _
    refine ⟨_, memory, ?_, Tally.isFinite_logProbability (h.isFinite_total _ hmember)
      (h.isFinite_logFactorials _ hmember) hrate⟩
    show Likelihood.ofPure c.logProbability _ _ _ = _
    unfold Likelihood.ofPure logProbability check
    rw [if_neg (not_not.2 c.length_estimates), List.getElem?_eq_getElem hlt]
    rfl

/-- Under flat priors every chain on counts that pass finds its start. -/
theorem starts_flat {data : Outcomes Exact} {intercepts : Intercepts}
    (hc : ofOutcomes data intercepts = .ok c) {settings : Settings Exact} {s : Sampler Exact σ}
    (hs : Sampler.ofModel { c with logMeanPrior := .flat, deviationPrior := .flat }.model settings =
      .ok s) (memory : σ) : ∃ p, (s.after memory [.prepare]).initial? = some p := by
  have observed := isObserved_update hc .flat .flat c.rule
  have ht := (Sampler.ofModel_eq_ok hs).2.2
  refine ((isLaidOut_model observed).isReady hs).starts (fun distribution hdistribution => ?_)
    memory
  rw [(Target.holds_of_ofModel ht).1] at hdistribution
  rw [Start.mean_of_ofCoefficient hdistribution]
  exact (isFiniteAt_estimates ht observed rfl fun _ => rfl).evaluate

end Counts

end Metropolis
