import Mathlib.Analysis.SpecialFunctions.Exp
import Mathlib.Analysis.SpecialFunctions.ExpDeriv
import Mathlib.Topology.Order.IntermediateValue

/-!
# The integrand of a marginal probability

The logarithm of the integrand is strictly concave in the intercept: its slope falls, and falls ever
faster. So there is one mode, where the slope is zero, and a tangent of the slope lies above it. A
step of Newton's method from any intercept therefore ends at the mode or above it, and a step from
above the mode goes down, by almost one or more as long as the mode is far.
-/

namespace Metropolis

/-- The integrand of a marginal probability up to a factor: the probability of counts with a
`total`, in `count` observations at a rate that the intercept shifts, times a normal density of the
intercept. -/
structure Integrand where
  total : ℝ
  count : ℝ
  logMean : ℝ
  precision : ℝ
  count_pos : 0 < count
  precision_pos : 0 < precision

namespace Integrand

variable (f : Integrand) {u v : ℝ}

/-- The logarithm at intercept `u`, up to a constant. -/
noncomputable def log (u : ℝ) : ℝ :=
  f.total * (f.logMean + u) - f.count * Real.exp (f.logMean + u) - 0.5 * f.precision * u ^ 2

/-- The expected total at intercept `u`. -/
noncomputable def expected (u : ℝ) : ℝ := f.count * Real.exp (f.logMean + u)

/-- The derivative of the logarithm. -/
noncomputable def slope (u : ℝ) : ℝ := f.total - f.expected u - u * f.precision

/-- The second derivative of the logarithm, with its sign changed. -/
noncomputable def curvature (u : ℝ) : ℝ := f.expected u + f.precision

/-- A step of Newton's method for a zero of the slope. -/
noncomputable def next (u : ℝ) : ℝ := u + f.slope u / f.curvature u

theorem expected_pos (u : ℝ) : 0 < f.expected u := mul_pos f.count_pos (Real.exp_pos _)

theorem curvature_pos (u : ℝ) : 0 < f.curvature u := add_pos (f.expected_pos u) f.precision_pos

theorem log_eq {deviation : ℝ} (h : f.precision = (deviation ^ 2)⁻¹) (u : ℝ) :
    f.log u = f.total * (f.logMean + u) - f.count * Real.exp (f.logMean + u) -
      u ^ 2 / (2 * deviation ^ 2) := by
  have hhalf : (0.5 : ℝ) = 2⁻¹ := by norm_num
  rw [log, h, hhalf, ← mul_inv, mul_comm (_⁻¹), ← div_eq_mul_inv]

/-! ## The mode -/

theorem expected_add (u d : ℝ) : f.expected (u + d) = f.expected u * Real.exp d := by
  rw [expected, ← add_assoc, Real.exp_add, ← mul_assoc]
  rfl

theorem slope_add (u d : ℝ) :
    f.slope (u + d) = f.slope u - f.expected u * (Real.exp d - 1) - d * f.precision := by
  rw [slope, slope, expected_add]
  ring

theorem log_add (u d : ℝ) : f.log (u + d) =
    f.log u + d * f.slope u - f.expected u * (Real.exp d - 1 - d) - 0.5 * f.precision * d ^ 2 := by
  have hexpected := f.expected_add u d
  unfold expected at hexpected
  rw [log, hexpected, log, slope, expected]
  ring

theorem slope_strictAnti : StrictAnti f.slope := by
  intro u v huv
  obtain ⟨d, rfl⟩ : ∃ d, v = u + d := ⟨v - u, by ring⟩
  have hd : 0 < d := by linarith
  have hexp : 0 < Real.exp d - 1 := sub_pos.2 (Real.one_lt_exp_iff.2 hd)
  rw [slope_add]
  have hcounts := mul_pos (f.expected_pos u) hexp
  have hprior := mul_pos hd f.precision_pos
  linarith

theorem continuous_slope : Continuous f.slope := by
  unfold slope expected
  fun_prop

/-- The slope is not negative far below, where the counts expect less than the prior takes, and
not positive far above. -/
theorem exists_slope_eq_zero : ∃ u, f.slope u = 0 := by
  let low := min 0 ((f.total - f.expected 0) / f.precision)
  let high := max 0 (f.total / f.precision)
  have hlow : 0 ≤ f.slope low := by
    have hexpected : f.expected low ≤ f.expected 0 := by
      unfold expected
      gcongr
      · exact f.count_pos.le
      · exact min_le_left _ _
    have hprior : low * f.precision ≤ f.total - f.expected 0 :=
      (le_div_iff₀ f.precision_pos).1 (min_le_right _ _)
    unfold slope
    linarith
  have hhigh : f.slope high ≤ 0 := by
    have hprior : f.total ≤ high * f.precision :=
      (div_le_iff₀ f.precision_pos).1 (le_max_right _ _)
    have hexpected := f.expected_pos high
    unfold slope
    linarith
  have hle : low ≤ high := (min_le_left _ _).trans (le_max_left _ _)
  obtain ⟨u, -, hu⟩ :=
    intermediate_value_Icc' hle f.continuous_slope.continuousOn ⟨hhigh, hlow⟩
  exact ⟨u, hu⟩

/-- The intercept at which the integrand is largest. -/
noncomputable def mode : ℝ := f.exists_slope_eq_zero.choose

theorem slope_mode : f.slope f.mode = 0 := f.exists_slope_eq_zero.choose_spec

theorem log_lt_log_mode (h : u ≠ f.mode) : f.log u < f.log f.mode := by
  obtain ⟨d, rfl⟩ : ∃ d, u = f.mode + d := ⟨u - f.mode, by ring⟩
  have hd : d ≠ 0 := fun hd => h (by rw [hd, add_zero])
  have hexp : 0 ≤ Real.exp d - 1 - d := by linarith [Real.add_one_le_exp d]
  have hcounts := mul_nonneg (f.expected_pos f.mode).le hexp
  have hprior := mul_pos f.precision_pos (sq_pos_of_ne_zero hd)
  rw [log_add, slope_mode]
  linarith

theorem mode_le_iff : f.mode ≤ u ↔ f.slope u ≤ 0 := by
  rw [← f.slope_mode, f.slope_strictAnti.le_iff_ge]

/-! ## A step of Newton's method -/

/-- The tangent of the slope lies above the slope. -/
theorem mode_le_next (u : ℝ) : f.mode ≤ f.next u := by
  have hcurvature := f.curvature_pos u
  generalize hd : f.slope u / f.curvature u = d
  have hslope : f.slope u = d * (f.expected u + f.precision) := by
    rw [← hd, ← curvature, div_mul_cancel₀ _ hcurvature.ne']
  have hexp : 0 ≤ Real.exp d - 1 - d := by linarith [Real.add_one_le_exp d]
  have hcounts := mul_nonneg (f.expected_pos u).le hexp
  rw [mode_le_iff, next, hd, slope_add, hslope]
  linarith

theorem next_le (h : f.mode ≤ u) : f.next u ≤ u := by
  have hstep := div_nonpos_of_nonpos_of_nonneg (f.mode_le_iff.1 h) (f.curvature_pos u).le
  unfold next
  linarith

/-- From a distance `d` above the mode a step goes down by at least `1 - exp (-d)`: by almost all of
a short distance, and by almost one if it is long. -/
theorem one_sub_exp_le (h : f.mode ≤ u) : 1 - Real.exp (f.mode - u) ≤ u - f.next u := by
  obtain ⟨d, rfl⟩ : ∃ d, u = f.mode + d := ⟨u - f.mode, by ring⟩
  have hcancel : Real.exp (-d) * Real.exp d = 1 := by
    rw [← Real.exp_add, neg_add_cancel, Real.exp_zero]
  have hexp : 1 - Real.exp (-d) ≤ d := by linarith [Real.add_one_le_exp (-d)]
  have hstep : f.mode + d - f.next (f.mode + d) =
      (f.expected f.mode * (Real.exp d - 1) + d * f.precision) / f.curvature (f.mode + d) := by
    rw [next, slope_add, slope_mode]
    ring
  rw [hstep, sub_add_cancel_left, le_div_iff₀ (f.curvature_pos _), curvature, expected_add]
  calc (1 - Real.exp (-d)) * (f.expected f.mode * Real.exp d + f.precision)
      = f.expected f.mode * (Real.exp d - Real.exp (-d) * Real.exp d) +
          (1 - Real.exp (-d)) * f.precision := by ring
    _ ≤ f.expected f.mode * (Real.exp d - 1) + d * f.precision := by
        rw [hcancel]
        gcongr
        exact f.precision_pos.le

/-- A short step ends near the mode. -/
theorem next_sub_mode_le {ε : ℝ} (hε : ε ≤ 1 / 2) (h : |f.next u - u| ≤ ε) :
    f.next u - f.mode ≤ 2 * ε := by
  obtain ⟨hdown, hup⟩ := abs_le.1 h
  rcases le_total u f.mode with hu | hu
  · linarith [f.mode_le_next u]
  -- From above the mode, the distance of `u` itself is not larger than that.
  suffices hdistance : u - f.mode ≤ 2 * ε by linarith [f.next_le hu]
  by_contra hfar
  have hε' : 0 ≤ ε := by linarith [f.next_le hu]
  have hexp : 1 + 2 * ε < Real.exp (u - f.mode) := by
    linarith [Real.add_one_le_exp (u - f.mode)]
  have hinverse : Real.exp (f.mode - u) < (1 + 2 * ε)⁻¹ := by
    rw [← neg_sub, Real.exp_neg]
    exact inv_strictAnti₀ (by linarith) hexp
  have hbound : (1 + 2 * ε)⁻¹ ≤ 1 - ε := by
    rw [inv_le_comm₀ (by linarith) (by linarith), inv_eq_one_div, div_le_iff₀ (by linarith)]
    nlinarith
  linarith [f.one_sub_exp_le hu]

theorem abs_next_sub_mode_le {ε : ℝ} (hε : ε ≤ 1 / 2) (h : |f.next u - u| ≤ ε) :
    |f.next u - f.mode| ≤ 2 * ε := by
  rw [abs_of_nonneg (sub_nonneg.2 (f.mode_le_next u))]
  exact f.next_sub_mode_le hε h

end Integrand

end Metropolis
