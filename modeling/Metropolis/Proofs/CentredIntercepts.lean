import Metropolis.Proofs.Feasibility
import Metropolis.Proofs.InfeasiblePriors
import Metropolis.Proofs.Separation
import Metropolis.Proofs.SufficientCounts

/-!
# Centred intercepts

Over the exact numbers the estimates of a model with intercepts are functions of the logarithms of
the subjects' own rates: their mean, their distances to it and their standard deviation. The common
rate that the program starts from cancels. So the intercepts are centred, and with the mean they
give every subject its own rate.
-/

namespace Metropolis

/-! ## Distances to the mean -/

namespace Series

variable {xs : List ℝ}

theorem sum_sub_average (hne : xs ≠ []) (h : xs.length ≤ Scalar.countLimit) :
    (xs.map fun x => x - average xs).sum = 0 := by
  have hpos : (0 : ℝ) < xs.length := Nat.cast_pos.2 (List.length_pos_iff.2 hne)
  simp only [sub_eq_add_neg]
  rw [List.sum_map_add, List.map_id', List.map_const', List.sum_replicate, nsmul_eq_mul, mul_neg,
    average_of_le h, mul_div_cancel₀ _ hpos.ne', add_neg_cancel]

theorem average_map_sub (c : ℝ) (hne : xs ≠ []) (h : xs.length ≤ Scalar.countLimit) :
    average (xs.map fun x => x - c) = average xs - c := by
  have haffine := average_map_affine 1 (-c) hne h
  simp only [one_mul, ← sub_eq_add_neg] at haffine
  exact haffine

theorem variance_map_sub (c : ℝ) (hne : xs ≠ []) (h : xs.length ≤ Scalar.countLimit) :
    variance (xs.map fun x => x - c) = variance xs := by
  have haffine := variance_map_affine 1 (-c) hne h
  simp only [one_mul, one_pow, ← sub_eq_add_neg] at haffine
  exact haffine

end Series

/-! ## Labelled counts -/

namespace Outcomes

variable {rows : List (ℕ × ℕ)} {label : ℕ}

theorem length_distinct_le (rows : List (ℕ × ℕ)) :
    (distinct (rows.map Prod.snd)).length ≤ rows.length := by
  have hnodup : (distinct (rows.map Prod.snd)).Nodup := (pairwise_distinct _).imp Nat.ne_of_lt
  have hsubset : distinct (rows.map Prod.snd) ⊆ rows.map Prod.snd :=
    fun label hlabel => mem_distinct.1 hlabel
  rw [← List.length_map (f := Prod.snd)]
  exact (hnodup.subperm hsubset).length_le

theorem countsOf_ne_nil (h : label ∈ distinct (rows.map Prod.snd)) : countsOf rows label ≠ [] := by
  obtain ⟨row, hrow, rfl⟩ := List.mem_map.1 (mem_distinct.1 h)
  have hmem : row ∈ rows.filter fun r => r.2 = row.2 :=
    List.mem_filter.2 ⟨hrow, decide_eq_true rfl⟩
  exact mt List.map_eq_nil_iff.1 (List.ne_nil_of_mem hmem)

end Outcomes

/-! ## The estimates -/

/-- The logarithm of the mean count, which is kept away from that of zero. -/
noncomputable def logMeanCount (counts : List ℕ) : ℝ :=
  Real.log (max ((counts.sum : ℝ) / counts.length) 0.1)

theorem Tally.log_rate_ofCounts (label : ℕ) {counts : List ℕ} (hne : counts ≠ [])
    (hsize : counts.length ≤ Scalar.countLimit) :
    Scalar.log (ofCounts label counts).rate = .real (logMeanCount counts) := by
  have hpos : (0 : ℝ) < counts.length := Nat.cast_pos.2 (List.length_pos_iff.2 hne)
  have hrate : 0 < max ((counts.sum : ℝ) / counts.length) 0.1 :=
    lt_max_of_lt_right (by norm_num)
  have htotal : (counts.map fun y : ℕ => (y : ℝ)).sum = (counts.sum : ℝ) :=
    (Nat.cast_list_sum counts).symm
  unfold rate ofCounts
  dsimp only
  rw [htotal, Exact.ofCount_of_le hsize, Exact.real_div _ hpos.ne', Exact.ofScientific_eq,
    Exact.larger_real, Exact.log_real hrate]
  rfl

namespace Counts

variable {c : Counts Exact} {logs : List ℝ} {rows : List (ℕ × ℕ)}

/-- The estimates for the logarithms of the subjects' own rates. -/
noncomputable def estimatesOf (logs : List ℝ) : List ℝ :=
  Series.average logs :: (logs.map fun x => x - Series.average logs) ++
    [max (√(Series.variance logs)) 0.1]

theorem estimates_eq (h : c.IsObserved) (hintercepts : c.intercepts = .perSubject)
    (hlogs : c.tallies.map (fun t => Scalar.log t.rate) = logs.map .real)
    (hlength : logs.length ≤ Scalar.countLimit) :
    c.estimates = (estimatesOf logs).map .real := by
  have hne : logs ≠ [] := by
    rintro rfl
    exact h.tallies_ne_nil (List.map_eq_nil_iff.1 hlogs)
  -- The program takes the common logarithm off before it centres.
  obtain ⟨common, hcommon⟩ : ∃ x, c.commonLogRate = .real x :=
    ⟨_, Exact.eq_real_of_isFinite (isFinite_commonLogRate h)⟩
  have hraw : c.tallies.map (fun t => Scalar.log t.rate - .real common) =
      (logs.map fun x => x - common).map .real := by
    have hsub := congrArg (List.map fun x => x - Exact.real common) hlogs
    rw [List.map_map, List.map_map] at hsub
    rw [List.map_map]
    refine hsub.trans (List.map_congr_left fun x _ => ?_)
    exact Exact.real_sub x common
  have hne' : logs.map (fun x => x - common) ≠ [] := mt List.map_eq_nil_iff.1 hne
  unfold estimates
  rw [hcommon, hintercepts]
  dsimp only
  rw [hraw, Series.mean_real hne', Series.sampleVariance_real, Series.average_map_sub _ hne hlength,
    Series.variance_map_sub _ hne hlength, Exact.sqrt_real (Series.variance_nonneg _),
    Exact.ofScientific_eq, Exact.larger_real, Exact.real_add, add_sub_cancel, estimatesOf,
    List.map_append, List.map_cons, List.map_singleton]
  simp only [List.map_map]
  congr 2
  refine List.map_congr_left fun x _ => ?_
  show Exact.real (x - common) - .real (Series.average logs - common) = _
  rw [Exact.real_sub, sub_sub_sub_cancel_right]
  rfl

/-! ## The standard priors -/

theorem isValid_standard : (standardLogMeanPrior : Prior Exact).isValid = true ∧
    (standardDeviationPrior : Prior Exact).isValid = true := by
  constructor
  · show (Scalar.isFinite (0 : Exact) && decide ((0 : Exact) < 100)) = true
    rw [Bool.and_eq_true, decide_eq_true_eq, Exact.ofNat_eq 100, Exact.zero_lt_real_iff]
    exact ⟨rfl, by norm_num⟩
  · show (Scalar.isFinite (0 : Exact) && Scalar.isFinite (10 : Exact) &&
      decide ((0 : Exact) < 10)) = true
    rw [Bool.and_eq_true, decide_eq_true_eq, Exact.ofNat_eq 10, Exact.zero_lt_real_iff]
    exact ⟨rfl, by norm_num⟩

theorem isFinite_standardLogMeanPrior (x : ℝ) :
    Scalar.isFinite ((standardLogMeanPrior : Prior Exact).logDensity (.real x)) = true := by
  have hfinite : ∀ y ∈ (standardLogMeanPrior : Prior Exact).hyperparameters,
      Scalar.isFinite y = true :=
    List.forall_mem_cons.2 ⟨rfl, List.forall_mem_singleton.2 rfl⟩
  exact (Prior.isFinite_logDensity_iff isValid_standard.1 x).2 ⟨Set.mem_univ x, hfinite⟩

theorem isFinite_standardDeviationPrior {x : ℝ} (hx : x ∈ Set.Icc 0 10) :
    Scalar.isFinite ((standardDeviationPrior : Prior Exact).logDensity (.real x)) = true := by
  have hsupport : (standardDeviationPrior : Prior Exact).support = Set.Icc 0 10 := by
    show Set.Icc ((0 : ℕ) : ℝ) ((10 : ℕ) : ℝ) = _
    norm_num
  have hfinite : ∀ y ∈ (standardDeviationPrior : Prior Exact).hyperparameters,
      Scalar.isFinite y = true :=
    List.forall_mem_cons.2 ⟨rfl, List.forall_mem_singleton.2 rfl⟩
  exact (Prior.isFinite_logDensity_iff isValid_standard.2 x).2 ⟨hsupport ▸ hx, hfinite⟩

theorem priors_of_ofOutcomes {data : Outcomes Exact} {intercepts : Intercepts}
    (h : ofOutcomes data intercepts = .ok c) :
    c.logMeanPrior = standardLogMeanPrior ∧ c.deviationPrior = standardDeviationPrior := by
  unfold ofOutcomes at h
  rw [(ofOutcomes_eq_ok h).1] at h
  cases h
  exact ⟨rfl, rfl⟩

theorem exists_target {σ : Type} {data : Outcomes Exact} {intercepts : Intercepts}
    (hc : ofOutcomes data intercepts = .ok c) :
    ∃ t, Target.ofModel (c.model : Model Exact σ) = .ok t := by
  have hsubjects := (isObserved_of_ofOutcomes hc).subjects_pos
  obtain ⟨hlogMean, hdeviation⟩ := priors_of_ofOutcomes hc
  obtain ⟨r, hr⟩ := (registrable_iff (σ := σ) hsubjects).2
    ⟨hlogMean ▸ isValid_standard.1, fun _ => hdeviation ▸ isValid_standard.2⟩
  exact ⟨_, Target.ofModel_of_registers (registers_of_ofRegistrations hsubjects hr).1⟩

/-! ## Starts of the model of labelled counts -/

theorem estimates_of_isTallied (h : c.IsTallied rows) (observed : c.IsObserved)
    (hintercepts : c.intercepts = .perSubject) (hsize : rows.length ≤ Scalar.countLimit) :
    c.estimates = (estimatesOf ((Outcomes.distinct (rows.map Prod.snd)).map fun label =>
      logMeanCount (Outcomes.countsOf rows label))).map .real := by
  apply estimates_eq observed hintercepts
  · rw [h, List.map_map, List.map_map]
    exact List.map_congr_left fun label hlabel =>
      Tally.log_rate_ofCounts label (Outcomes.countsOf_ne_nil hlabel)
        ((Outcomes.length_countsOf_le rows label).trans hsize)
  · rw [List.length_map]
    exact (Outcomes.length_distinct_le rows).trans hsize

/-- The estimates are feasible under the standard priors if that of the standard deviation is in the
support of its prior. -/
theorem logPrior_estimates {σ : Type} {data : Outcomes Exact}
    (hc : ofOutcomes data .perSubject = .ok c) {t : Target Exact σ}
    (ht : Target.ofModel c.model = .ok t) (hestimates : c.estimates = (estimatesOf logs).map .real)
    (hle : max (√(Series.variance logs)) 0.1 ≤ 10) :
    ∃ x : ℝ, t.logPrior c.estimates = .ok (.real x) := by
  have observed := isObserved_of_ofOutcomes hc
  obtain ⟨hlogMean, hdeviation⟩ := priors_of_ofOutcomes hc
  have hsubjects : c.deviationIndex = logs.length + 1 := by
    have hlength := c.length_estimates
    rw [hestimates, List.length_map, dimension, (ofOutcomes_eq_ok hc).2.2.2] at hlength
    simp only [estimatesOf, List.length_append, List.length_cons, List.length_map,
      List.length_nil] at hlength
    exact (Nat.succ_injective hlength).symm
  have hmean : coordinate c.estimates 0 = .real (Series.average logs) := by
    rw [hestimates]
    rfl
  have hspread : coordinate c.estimates c.deviationIndex =
      .real (max (√(Series.variance logs)) 0.1) := by
    rw [coordinate, hestimates, hsubjects, List.getD_eq_getElem?_getD, List.getElem?_map,
      estimatesOf, List.getElem?_append_right (by simp)]
    simp
  have hfinite := isFiniteAt_estimates ht observed
    (by rw [hlogMean, hmean]; exact isFinite_standardLogMeanPrior _)
    (fun _ => by
      rw [hdeviation, hspread]
      exact isFinite_standardDeviationPrior ⟨le_max_of_le_right (by norm_num), hle⟩)
  obtain ⟨x, hx, hxfinite⟩ := hfinite.prior
  refine ⟨x.toReal, ?_⟩
  rw [Target.logPrior_of_length hfinite.length_eq, hx, ← Exact.eq_real_of_isFinite hxfinite]
  rfl

/-- The estimates that a chain on labelled counts starts from, for every number of subjects. The
intercepts add up to zero, and the mean with an intercept is the logarithm of the subject's own
rate. The estimate of the standard deviation is that of the intercepts, kept away from zero. The
likelihood is finite there, and under the standard priors so is the prior, if the estimate of the
standard deviation is not above ten. -/
theorem start_centred (data : Outcomes Exact) (accepted : data.checkCounts = .ok ())
    (hsize : data.size < 2 ^ 32) :
    (∃ rows, data = .ofCounts rows) ∧ ∀ rows, data = .ofCounts rows →
      let labels := Outcomes.distinct data.labels
      ∃ c, ofOutcomes data .perSubject = .ok c ∧ ∃ (logMean : ℝ) (us : List ℝ) (tau : ℝ),
        let θ := (logMean :: us ++ [tau]).map Exact.real
        (∀ (σ : Type) (coefficient : ℝ), 0 < coefficient → ∃ distribution,
          (c.model : Model Exact σ).start (.real coefficient) = .ok distribution ∧
            distribution.mean = θ) ∧
        us.length = labels.length ∧ us.sum = 0 ∧
        (∀ (i label : ℕ) (u : ℝ), labels[i]? = some label → us[i]? = some u →
          let counts := Outcomes.countsOf rows label
          counts ≠ [] ∧
            logMean + u = Real.log (max ((counts.sum : ℝ) / counts.length) 0.1)) ∧
        0.1 ≤ tau ∧ tau = max 0.1 √(Series.unbiasedVariance us) ∧
        ∀ σ : Type, ∃ t, Target.ofModel (c.model : Model Exact σ) = .ok t ∧
          (tau ≤ 10 → ∃ x : ℝ, t.logPrior θ = .ok (.real x)) ∧
          ∀ memory, ∃ y : ℝ, t.logLikelihood θ memory = .ok (.real y) memory := by
  obtain ⟨rows, -, hdata⟩ := Outcomes.checkCounts_eq_ok_iff_exists.1 accepted
  refine ⟨⟨rows, hdata⟩, ?_⟩
  rintro rows rfl labels
  have hrows : rows ≠ [] := by
    rintro rfl
    cases accepted
  have hlimit : rows.length ≤ Scalar.countLimit := by
    rw [Outcomes.size, Outcomes.ofCounts, List.length_map] at hsize
    exact Nat.le_of_lt_succ hsize
  obtain ⟨c, hc⟩ := exists_ofOutcomes hrows .perSubject
  have observed := isObserved_of_ofOutcomes hc
  have htallied := isTallied_of_ofOutcomes hc
  have hintercepts : c.intercepts = .perSubject := (ofOutcomes_eq_ok hc).2.2.2
  have hestimates := estimates_of_isTallied htallied observed hintercepts hlimit
  generalize hlogs : (Outcomes.distinct (rows.map Prod.snd)).map
    (fun label => logMeanCount (Outcomes.countsOf rows label)) = logs at hestimates
  have hlength : logs.length ≤ Scalar.countLimit := by
    rw [← hlogs, List.length_map]
    exact (Outcomes.length_distinct_le rows).trans hlimit
  have hne : logs ≠ [] := by
    rintro rfl
    apply observed.tallies_ne_nil
    rw [htallied, List.map_eq_nil_iff.1 hlogs, List.map_nil]
  refine ⟨c, hc, Series.average logs, logs.map fun x => x - Series.average logs,
    max (√(Series.variance logs)) 0.1, fun σ coefficient hpos => ?_, ?_,
    Series.sum_sub_average hne hlength, fun i label u hlabel hu => ?_, le_max_right _ _, ?_,
    fun σ => ?_⟩
  · obtain ⟨distribution, hstart, -⟩ :=
      (isLaidOut_model observed : (c.model : Model Exact σ).IsLaidOut).start coefficient hpos
    exact ⟨distribution, hstart, (Start.mean_of_ofCoefficient hstart).trans hestimates⟩
  · rw [List.length_map, ← hlogs, List.length_map]
    rfl
  · have hlog : logs[i]? = some (logMeanCount (Outcomes.countsOf rows label)) := by
      rw [← hlogs, List.getElem?_map]
      exact congrArg (Option.map _) hlabel
    rw [List.getElem?_map, hlog] at hu
    cases hu
    exact ⟨Outcomes.countsOf_ne_nil (List.mem_of_getElem? hlabel), add_sub_cancel _ _⟩
  · rw [max_comm, ← Series.variance_map_sub (Series.average logs) hne hlength,
      Series.variance_of_le (by rwa [List.length_map])]
  · obtain ⟨t, ht⟩ := exists_target (σ := σ) hc
    have hmodel := (Target.holds_of_ofModel ht).1
    have hθ : (estimatesOf logs).length = c.dimension := by
      rw [← length_estimates, hestimates, List.length_map]
    exact ⟨t, ht, fun hle => hestimates ▸ logPrior_estimates hc ht hestimates hle,
      fun memory => ⟨_, total_of_isTallied htallied hlimit hmodel hθ memory⟩⟩

/-- One count of zero on the subject 3, two counts on the subject 7. -/
theorem start_centred_pairedCounts :
    pairedCounts.checkCounts = .ok () ∧ pairedCounts.size < 2 ^ 32 ∧
      ∃ c, ofOutcomes pairedCounts .perSubject = .ok c ∧ ∃ logMean u u' tau : ℝ,
        let θ := [logMean, u, u', tau].map Exact.real
        (∃ distribution, (c.model : Model Exact Unit).start (.real 1) = .ok distribution ∧
          distribution.mean = θ) ∧
        u + u' = 0 ∧ logMean + u = Real.log (1 / 10) ∧ logMean + u' = Real.log (3 / 2) ∧
        ∃ t, Target.ofModel (c.model : Model Exact Unit) = .ok t ∧
          ∃ x : ℝ, t.logPrior θ = .ok (.real x) := by
  have hsize : pairedCounts.size < 2 ^ 32 := by decide
  have hlabels : Outcomes.distinct pairedCounts.labels = [3, 7] := by
    rw [← Outcomes.labels_subjects, subjects_pairedCounts]
    rfl
  obtain ⟨-, starts⟩ := start_centred pairedCounts checkCounts_pairedCounts hsize
  obtain ⟨c, hc, logMean, us, tau, start, hlength, hsum, rates, -, htau, target⟩ :=
    starts [(2, 7), (0, 3), (1, 7)] rfl
  rw [hlabels] at hlength rates
  obtain ⟨u, u', rfl⟩ := List.length_eq_two.1 hlength
  have hfirst : logMean + u = Real.log (1 / 10) := by
    rw [(rates 0 3 u rfl rfl).2]
    norm_num [Outcomes.countsOf]
  have hsecond : logMean + u' = Real.log (3 / 2) := by
    rw [(rates 1 7 u' rfl rfl).2]
    norm_num [Outcomes.countsOf]
  have hsum' : u + u' = 0 := by simpa using hsum
  have hle : tau ≤ 10 := by
    have hupper := Real.log_le_sub_one_of_pos (x := 3 / 2) (by norm_num)
    have hlower := Real.one_sub_inv_le_log_of_pos (x := 1 / 10) (by norm_num)
    have hpositive : Real.log (1 / 10) ≤ Real.log (3 / 2) :=
      Real.log_le_log (by norm_num) (by norm_num)
    norm_num at hlower
    have hbounds : 0 ≤ u' ∧ u' ≤ 5 := ⟨by linarith, by linarith⟩
    obtain rfl : u = -u' := by linarith
    rw [htau]
    refine max_le (by norm_num) (Real.sqrt_le_iff.2 ⟨by norm_num, ?_⟩)
    simp only [Series.unbiasedVariance, Series.arithmeticMean, List.map_cons, List.map_nil,
      List.sum_cons, List.sum_nil, List.length_cons, List.length_nil]
    norm_num
    nlinarith
  obtain ⟨t, ht, hprior, -⟩ := target Unit
  exact ⟨checkCounts_pairedCounts, hsize, c, hc, logMean, u, u', tau, start Unit 1 one_pos, hsum',
    hfirst, hsecond, t, ht, hprior hle⟩

end Counts

end Metropolis
