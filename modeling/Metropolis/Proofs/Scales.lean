import Metropolis.Proofs.Feasibility

/-!
# Scale parameters

Nothing checks the variance of a normal model or the standard deviation of the intercepts. But a
point that a chain stores is feasible, so that all terms of its log-posterior are finite, and a term
with a scale is finite only where the scale is positive and finite.
-/

namespace Metropolis

variable {α σ : Type} [Scalar α] [Scalar.Lawful α]

/-! ## Finite terms -/

theorem scale_of_logNormalDensity {x mean variance : α}
    (h : Scalar.isFinite (logNormalDensity x mean variance) = true) :
    0 < variance ∧ Scalar.isFinite variance = true := by
  unfold logNormalDensity at h
  split at h
  · rw [Scalar.Lawful.not_isFinite_neg_infinity] at h
    cases h
  · have hsum := (Scalar.Lawful.isFinite_of_mul h).2
    have hlogs := (Scalar.Lawful.isFinite_of_add hsum).1
    exact Scalar.Lawful.isFinite_of_log (Scalar.Lawful.isFinite_of_add hlogs).2

theorem Effect.scale_of_logDensity {e : Effect} {x deviation : α}
    (h : Scalar.isFinite (e.logDensity x deviation) = true) :
    0 < deviation ∧ Scalar.isFinite deviation = true := by
  unfold logDensity at h
  split at h
  next hscale => exact hscale
  next =>
    rw [Scalar.Lawful.not_isFinite_neg_infinity] at h
    cases h

theorem Effect.variance_of_logDensity {x deviation : α}
    (h : Scalar.isFinite (Effect.normal.logDensity x deviation) = true) :
    0 < deviation * deviation ∧ Scalar.isFinite (deviation * deviation) = true := by
  have hscale := scale_of_logDensity h
  unfold logDensity at h
  rw [if_pos hscale] at h
  exact scale_of_logNormalDensity h

namespace Registry

/-- A finite prior has no term that is not finite. -/
theorem finite_of_logPrior {r : Registry α} {θ : List α} {x : α} (closed : r.IsClosed)
    (covered : ∀ i ∈ r.indices, i < θ.length) (h : r.logPrior θ = .ok x)
    (hx : Scalar.isFinite x = true) :
    ∀ p ∈ r.entries, Scalar.isFinite (p.2.logDensity θ p.1) = true := by
  rcases logPrior_cases closed covered h with rfl | hfinite
  · rw [Scalar.Lawful.not_isFinite_neg_infinity] at hx
    cases hx
  · exact hfinite

end Registry

namespace Target

variable {t : Target α σ} {θ : List α}

/-- A finite sum over subjects has no term that is not finite. -/
theorem finite_of_addSubjects {m : Model α σ} {subjects : List Nat} {total x : α}
    {memory memory' : σ} (h : addSubjects m θ subjects total memory = .ok x memory')
    (hx : Scalar.isFinite x = true) :
    Scalar.isFinite total = true ∧ ∀ subject ∈ subjects, ∃ term memory₁ memory₂,
      m.logLikelihood θ subject memory₁ = .ok term memory₂ ∧ Scalar.isFinite term = true := by
  induction subjects generalizing total memory with
  | nil =>
    cases h
    exact ⟨hx, nofun⟩
  | cons subject rest ih =>
    obtain ⟨term, middle, hterm, h⟩ := bind_eq_ok h
    split at h
    · cases h
      rw [Scalar.Lawful.not_isFinite_neg_infinity] at hx
      cases hx
    · obtain ⟨hsum, hrest⟩ := ih h
      obtain ⟨htotal, hfinite⟩ := Scalar.Lawful.isFinite_of_add hsum
      refine ⟨htotal, fun other hother => ?_⟩
      rcases List.mem_cons.1 hother with rfl | hother
      · exact ⟨term, memory, middle, hterm, hfinite⟩
      · exact hrest other hother

omit [Scalar.Lawful α] in
theorem registry_logPrior_of_ok {x : α} (h : t.logPrior θ = .ok x) :
    t.registry.logPrior θ = .ok x := by
  rw [logPrior_of_length (logPrior_eq_ok h)] at h
  cases hprior : t.registry.logPrior θ with
  | ok y =>
    rw [hprior] at h
    exact congrArg _ (Except.ok.inj h)
  | error cause =>
    rw [hprior] at h
    cases h

/-- The prior and the likelihood of every subject are finite at a stored point. -/
theorem Stored.finite {p : Point α} (h : t.Stored p) :
    (∃ x, t.registry.logPrior p.parameters = .ok x ∧ Scalar.isFinite x = true) ∧
      ∀ subject < t.model.subjects, ∃ term memory memory',
        t.model.logLikelihood p.parameters subject memory = .ok term memory' ∧
          Scalar.isFinite term = true := by
  have hfeasible : Scalar.isFinite p.logPosterior = true := h.isFeasible
  obtain ⟨memory, memory', heval⟩ := h.evaluated
  obtain ⟨logPrior, middle, hprior, hrest⟩ := bind_eq_ok heval
  obtain ⟨hprior, -⟩ := ofExcept_eq_ok hprior
  split at hrest
  · -- A point outside the prior's support is not feasible.
    obtain ⟨hp, -⟩ := EStateM.Result.ok.inj hrest
    rw [← hp, Point.impossible, Scalar.Lawful.not_isFinite_neg_infinity] at hfeasible
    cases hfeasible
  · obtain ⟨logLikelihood, last, hsubjects, hlast⟩ := bind_eq_ok hrest
    obtain ⟨hp, -⟩ := EStateM.Result.ok.inj hlast
    rw [← hp] at hfeasible
    obtain ⟨hx, hsum⟩ := Scalar.Lawful.isFinite_of_add hfeasible
    refine ⟨⟨logPrior, registry_logPrior_of_ok hprior, hx⟩, fun subject hsubject => ?_⟩
    obtain ⟨u, first, -, hterms⟩ := bind_eq_ok hsubjects
    unfold subjectSum EStateM.adaptExcept at hterms
    split at hterms <;> cases hterms
    next hterms => exact (finite_of_addSubjects hterms hsum).2 subject (List.mem_range.2 hsubject)

end Target

/-! ## The variance of a normal model -/

namespace Gaussian

variable {g : Gaussian α} {data : Outcomes α}

/-- Whether a parameter vector has a variance by which every outcome can be judged. -/
def IsScaled (g : Gaussian α) (θ : List α) : Prop :=
  ∃ mean variance, θ = [mean, variance] ∧ 0 < variance ∧ Scalar.isFinite variance = true ∧
    ∀ subject y, g.outcomes[subject]? = some y →
      g.logDensity θ subject = .ok (logNormalDensity y mean variance)

omit [Scalar.Lawful α] in
theorem outcomes_ne_nil (h : ofOutcomes data = .ok g) : g.outcomes ≠ [] := by
  obtain ⟨hcheck, houtcomes⟩ := ofOutcomes_eq_ok h
  rw [houtcomes]
  exact (Outcomes.check_eq_ok hcheck).1

theorem isScaled_of_stored {t : Target α σ} (hmodel : t.model = g.model)
    (houtcomes : g.outcomes ≠ []) {p : Point α} (h : t.Stored p) : g.IsScaled p.parameters := by
  have hlength : p.parameters.length = 2 := by
    rw [h.length_parameters, Target.dimension, hmodel]
    rfl
  obtain ⟨mean, variance, hθ⟩ := List.length_eq_two.1 hlength
  have hpos : 0 < t.model.subjects := by
    rw [hmodel]
    exact List.length_pos_iff.2 houtcomes
  -- The first outcome has a finite density.
  obtain ⟨term, memory, memory', hterm, hfinite⟩ := h.finite.2 0 hpos
  obtain ⟨y, hy⟩ : ∃ y, g.outcomes[0]? = some y :=
    ⟨_, List.getElem?_eq_getElem (List.length_pos_iff.2 houtcomes)⟩
  have hdensity (subject : Nat) (y : α) (hy : g.outcomes[subject]? = some y) :
      g.logDensity p.parameters subject = .ok (logNormalDensity y mean variance) := by
    unfold logDensity check
    rw [hθ]
    dsimp only
    rw [hy]
    rfl
  have hvalue : Likelihood.ofPure g.logDensity p.parameters 0 memory =
      .ok (logNormalDensity y mean variance) memory := by
    unfold Likelihood.ofPure
    rw [hdensity 0 y hy]
  rw [hmodel] at hterm
  cases hvalue.symm.trans hterm
  obtain ⟨hvariance, hbounded⟩ := scale_of_logNormalDensity hfinite
  exact ⟨mean, variance, hθ, hvariance, hbounded, hdensity⟩

end Gaussian

/-! ## The standard deviation of the intercepts -/

namespace Counts

variable {c : Counts α} {data : Outcomes α}

/-- Whether a parameter vector has a standard deviation by which every intercept can be judged, and
with which every intercept can be integrated out. -/
def IsScaled (c : Counts α) (r : Registry α) (θ : List α) : Prop :=
  ∃ tau, θ[c.deviationIndex]? = some tau ∧ 0 < tau ∧ Scalar.isFinite tau = true ∧
    0 < tau * tau ∧ Scalar.isFinite (tau * tau) = true ∧
    (∀ i effect spread, r.get? i = some (.realization effect spread) →
      ∃ u, θ[i]? = some u ∧
        Registry.logTerm θ i (.realization effect spread) = .ok (effect.logDensity u tau)) ∧
    ∀ subject t, c.tallies[subject]? = some t →
      c.logPredictive θ subject = .ok (t.logMarginal c.rule (logMean θ) tau)

omit [Scalar.Lawful α] in
theorem subjects_pos {intercepts : Intercepts} (h : ofOutcomes data intercepts = .ok c) :
    0 < c.subjects := by
  obtain ⟨hcounts, htallies, -⟩ := ofOutcomes_eq_ok h
  rw [subjects, htallies, List.length_map, List.length_pos_iff]
  exact Outcomes.subjects_ne_nil (Outcomes.check_of_checkCounts hcounts)

theorem isScaled_of_stored {t : Target α σ} (ht : Target.ofModel c.model = .ok t)
    (hintercepts : c.intercepts = .perSubject) (hsubjects : 0 < c.subjects) {p : Point α}
    (h : t.Stored p) : c.IsScaled t.registry p.parameters := by
  obtain ⟨hmodel, hregistry, hcoverage⟩ := Target.holds_of_ofModel ht
  have hdimension : c.dimension = c.subjects + 2 := by rw [dimension, hintercepts]
  have hlength : p.parameters.length = c.dimension := by
    rw [h.length_parameters, Target.dimension, hmodel, dimension_model]
  have hdeviation : c.deviationIndex < p.parameters.length := by
    rw [hlength, hdimension, deviationIndex]
    omega
  have hcovered : ∀ i ∈ t.registry.indices, i < p.parameters.length := by
    rw [hlength, ← dimension_model (σ := σ)]
    exact Registry.lt_of_checkCoverage hcoverage
  have htau := Registry.coordinate_of_lt hdeviation
  -- The intercept of the first subject has a finite density.
  obtain ⟨x, hprior, hx⟩ := h.finite.1
  have hfirst : t.registry.get? 1 = some (.realization .normal c.deviationIndex) :=
    (hasEffects_of_holds hregistry hsubjects).intercept 1
      (first_mem_interceptIndices hintercepts hsubjects)
  have hterm : Scalar.isFinite (Effect.normal.logDensity (coordinate p.parameters 1)
      (coordinate p.parameters c.deviationIndex)) = true :=
    Registry.finite_of_logPrior hregistry.isClosed hcovered hprior hx _
      ((Registry.get?_eq_some_iff hregistry.ordered).1 hfirst)
  obtain ⟨hpos, hfinite⟩ := Effect.scale_of_logDensity hterm
  obtain ⟨hsquare, hbounded⟩ := Effect.variance_of_logDensity hterm
  rw [htau] at hpos hfinite hsquare hbounded
  refine ⟨_, List.getElem?_eq_getElem hdeviation, hpos, hfinite, hsquare, hbounded,
    fun i effect spread hi => ?_, fun subject tally htally => ?_⟩
  · obtain ⟨prior, hmem⟩ := hregistry.realization hi
    obtain ⟨hmember, -, rfl, -⟩ := mem_priors_iff.1 hmem
    have hindex : i < p.parameters.length :=
      Nat.lt_trans (mem_interceptIndices.1 hmember).2.2 hdeviation
    refine ⟨_, List.getElem?_eq_getElem hindex, ?_⟩
    rw [Registry.logTerm_eq_logDensity hindex fun _ _ h => by cases h; exact hdeviation,
      Entry.logDensity, Registry.coordinate_of_lt hindex, htau]
  · have hcheck : c.check p.parameters subject = .ok tally := by
      unfold check
      rw [if_neg (not_not.2 hlength), htally]
    unfold logPredictive
    rw [hintercepts, List.getD_eq_getElem?_getD, List.getElem?_eq_getElem hdeviation,
      Option.getD_some]
    dsimp only
    rw [hcheck]
    rfl

end Counts

namespace Sampler

/-- Whatever priors were accepted, every point that a chain stores has a positive finite variance if
the model is normal, and a positive finite standard deviation if it has intercepts. Everything that
is computed at such a point uses that scale. -/
theorem scales_after (settings : Settings α) (memory : σ) (calls : List Call) :
    (∀ (data : Outcomes α) (g : Gaussian α) (meanPrior variancePrior : Prior α)
        (s : Sampler α σ), Gaussian.ofOutcomes data = .ok g →
        ofModel { g with meanPrior, variancePrior }.model settings = .ok s →
          ∀ p, (s.after memory calls).Stores p → g.IsScaled p.parameters) ∧
      ∀ (data : Outcomes α) (c : Counts α) (logMeanPrior deviationPrior : Prior α)
        (rule : Quadrature.Rule α) (s : Sampler α σ), Counts.ofOutcomes data .perSubject = .ok c →
        let c' := { c with logMeanPrior, deviationPrior, rule }
        ofModel c'.model settings = .ok s →
          ∀ p, (s.after memory calls).Stores p → c'.IsScaled s.target.registry p.parameters := by
  refine ⟨fun data g meanPrior variancePrior s hg hs p hp => ?_,
    fun data c logMeanPrior deviationPrior rule s hc hs p hp => ?_⟩
  · have hmodel := (Target.holds_of_ofModel (ofModel_eq_ok hs).2.2).1
    have houtcomes : g.outcomes ≠ [] := Gaussian.outcomes_ne_nil hg
    exact Gaussian.isScaled_of_stored hmodel houtcomes (stored_after s memory calls p hp)
  · have hintercepts : c.intercepts = .perSubject := (Counts.ofOutcomes_eq_ok hc).2.2.2
    have hsubjects : 0 < c.subjects := Counts.subjects_pos hc
    exact Counts.isScaled_of_stored (ofModel_eq_ok hs).2.2 hintercepts hsubjects
      (stored_after s memory calls p hp)

/-- Under flat priors the start of a chain on three counts is a point with a scale. -/
theorem scales_after_pairedCounts :
    let settings := { Settings.standard with schedule := shortSchedule }
    (∃ g s p, Gaussian.ofOutcomes pairedCounts = .ok g ∧
      let g' := { g with meanPrior := .flat, variancePrior := .flat }
      ofModel (g'.model : Model Exact Unit) settings = .ok s ∧ (s.after () [.prepare]).Stores p ∧
        g'.IsScaled p.parameters) ∧
      ∃ c s p, Counts.ofOutcomes pairedCounts .perSubject = .ok c ∧
        let c' := { c with logMeanPrior := .flat, deviationPrior := .flat }
        ofModel (c'.model : Model Exact Unit) settings = .ok s ∧ (s.after () [.prepare]).Stores p ∧
          c'.IsScaled s.target.registry p.parameters := by
  intro settings
  have hsettings : settings.check = .ok () := check_standard shortSchedule_valid
  obtain ⟨gaussian, counts⟩ := scales_after settings () [.prepare]
  constructor
  · obtain ⟨g, hg⟩ := Gaussian.exists_pairedCounts
    have fits : ({ g with meanPrior := .flat, variancePrior := .flat }.model :
      Model Exact Unit).Fits _ := Gaussian.fits_model hg .flat .flat
    obtain ⟨s, hs⟩ := (fits.accepted settings).2 ⟨hsettings, rfl, rfl⟩
    obtain ⟨p, hp⟩ := Gaussian.starts_flat hg hs ()
    exact ⟨g, s, p, hg, hs, .inl hp, gaussian pairedCounts g .flat .flat s hg hs p (.inl hp)⟩
  · obtain ⟨c, hc⟩ := Counts.exists_pairedCounts
    have fits : ({ c with logMeanPrior := .flat, deviationPrior := .flat }.model :
      Model Exact Unit).Fits _ := Counts.fits_model hc .flat .flat c.rule
    obtain ⟨s, hs⟩ := (fits.accepted settings).2 ⟨hsettings, rfl, fun _ => rfl⟩
    obtain ⟨p, hp⟩ := Counts.starts_flat hc hs ()
    exact ⟨c, s, p, hc, hs, .inl hp, counts pairedCounts c .flat .flat c.rule s hc hs p (.inl hp)⟩

end Sampler

end Metropolis
