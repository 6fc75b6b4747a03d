import Mathlib.MeasureTheory.Measure.Lebesgue.Integral
import Mathlib.Probability.Distributions.Gamma
import Mathlib.Probability.Distributions.Gaussian.Real

/-!
# Textbook densities

The densities of the distributions that priors and random effects are named for, as real functions,
with their logarithms written out. Each is positive on its support and has total one there: the
normal and the gamma density by their integrals, and the others because they are the densities of
`|X|` and `exp X` for a normal `X` and of `1 / X` for a gamma `X`, by a change of variables.
-/

namespace Metropolis

open MeasureTheory ProbabilityTheory Set

/-- Whether a function is the density of a distribution with a support. -/
structure IsDensityOn (f : ℝ → ℝ) (support : Set ℝ) : Prop where
  measurable : MeasurableSet support
  pos : ∀ x ∈ support, 0 < f x
  total : ∫ x in support, f x = 1

namespace IsDensityOn

variable {f : ℝ → ℝ} {support : Set ℝ} {v w : ℝ}

theorem integrableOn (h : IsDensityOn f support) : IntegrableOn f support := by
  apply Integrable.of_integral_ne_zero
  rw [h.total]
  exact one_ne_zero

theorem integral_Iic_mono (h : IsDensityOn f univ) (hle : v ≤ w) :
    ∫ x in Iic v, f x ≤ ∫ x in Iic w, f x :=
  setIntegral_mono_set (h.integrableOn.mono_set (subset_univ _))
    (.of_forall fun x => (h.pos x (mem_univ x)).le) (Iic_subset_Iic.2 hle).eventuallyLE

/-- A quantile of a higher probability is higher. -/
theorem lt_of_integral_Iic_lt (h : IsDensityOn f univ)
    (hlt : ∫ x in Iic v, f x < ∫ x in Iic w, f x) : v < w :=
  lt_of_not_ge fun hle => (h.integral_Iic_mono hle).not_gt hlt

end IsDensityOn

namespace Distribution

variable {mean variance low high shape rate scale mu sigma x v : ℝ}

/-! ## The normal distribution -/

noncomputable def normal (mean variance x : ℝ) : ℝ := gaussianPDFReal mean variance.toNNReal x

theorem normal_pos (mean : ℝ) (h : 0 < variance) (x : ℝ) : 0 < normal mean variance x :=
  gaussianPDFReal_pos _ _ _ (Real.toNNReal_pos.2 h).ne'

theorem log_normal (mean x : ℝ) (h : 0 < variance) :
    Real.log (normal mean variance x) =
      -0.5 * (Real.log (2 * Real.pi) + Real.log variance + (x - mean) * (x - mean) / variance) := by
  have hfactor : 0 < 2 * Real.pi * variance := by positivity
  rw [normal, gaussianPDFReal, Real.coe_toNNReal _ h.le,
    Real.log_mul (inv_ne_zero (Real.sqrt_pos.2 hfactor).ne') (Real.exp_pos _).ne', Real.log_inv,
    Real.log_sqrt hfactor.le, Real.log_mul (by positivity) h.ne', Real.log_exp]
  field_simp
  ring

theorem isDensityOn_normal (mean : ℝ) (h : 0 < variance) :
    IsDensityOn (normal mean variance) univ where
  measurable := .univ
  pos x _ := normal_pos mean h x
  total := by
    rw [setIntegral_univ]
    exact integral_gaussianPDFReal_eq_one mean (Real.toNNReal_pos.2 h).ne'

theorem integral_sq_normal (h : 0 < variance) :
    ∫ x, x ^ 2 * normal 0 variance x = variance := by
  have hmoment := variance_fun_id_gaussianReal (μ := 0) (v := variance.toNNReal)
  rw [variance_of_integral_eq_zero measurable_id'.aemeasurable integral_id_gaussianReal,
    integral_gaussianReal_eq_integral_smul (Real.toNNReal_pos.2 h).ne',
    Real.coe_toNNReal _ h.le] at hmoment
  simpa only [normal, smul_eq_mul, mul_comm] using hmoment

theorem normal_abs (variance x : ℝ) : normal 0 variance |x| = normal 0 variance x := by
  rw [normal, normal, gaussianPDFReal, gaussianPDFReal, sub_zero, sub_zero, sq_abs]

/-- The density of the absolute value of a normal variable about zero. -/
noncomputable def halfNormal (scale x : ℝ) : ℝ :=
  normal 0 (scale * scale) x + normal 0 (scale * scale) (-x)

theorem halfNormal_eq (scale x : ℝ) : halfNormal scale x = 2 * normal 0 (scale * scale) x := by
  rw [halfNormal, ← normal_abs _ (-x), abs_neg, normal_abs, two_mul]

theorem isDensityOn_halfNormal (h : 0 < scale) : IsDensityOn (halfNormal scale) (Ici 0) where
  measurable := measurableSet_Ici
  pos x _ := add_pos (normal_pos 0 (mul_pos h h) x) (normal_pos 0 (mul_pos h h) (-x))
  total := by
    have htotal := (isDensityOn_normal 0 (mul_pos h h)).total
    rw [setIntegral_univ, ← integral_congr_ae (.of_forall (normal_abs (scale * scale))),
      integral_comp_abs] at htotal
    simp only [halfNormal_eq]
    rw [integral_const_mul, integral_Ici_eq_integral_Ioi, htotal]

/-- The density of the exponential of a normal variable. -/
noncomputable def logNormal (mu sigma x : ℝ) : ℝ := normal mu (sigma * sigma) (Real.log x) / x

theorem isDensityOn_logNormal (mu : ℝ) (h : 0 < sigma) :
    IsDensityOn (logNormal mu sigma) (Ioi 0) where
  measurable := measurableSet_Ioi
  pos _ hx := div_pos (normal_pos mu (mul_pos h h) _) hx
  total := by
    have hderiv : ∀ x ∈ Ioi (0 : ℝ), HasDerivWithinAt Real.log x⁻¹ (Ioi 0) x := fun x hx =>
      (Real.hasDerivAt_log (ne_of_gt hx)).hasDerivWithinAt
    -- The logarithm carries the positive numbers to the line, where the total is known.
    have himage : Real.log '' Ioi 0 = univ := univ_subset_iff.1 Real.surjOn_log
    rw [← (isDensityOn_normal mu (mul_pos h h)).total, ← himage,
      integral_image_eq_integral_abs_deriv_smul measurableSet_Ioi hderiv Real.log_injOn_pos]
    refine setIntegral_congr_fun measurableSet_Ioi fun x hx => ?_
    rw [abs_of_pos (inv_pos.2 hx), smul_eq_mul, logNormal, div_eq_inv_mul]

/-! ## The uniform distribution -/

noncomputable def uniform (low high : ℝ) (_ : ℝ) : ℝ := (high - low)⁻¹

theorem isDensityOn_uniform (h : low < high) : IsDensityOn (uniform low high) (Icc low high) where
  measurable := measurableSet_Icc
  pos _ _ := inv_pos.2 (sub_pos.2 h)
  total := by
    unfold uniform
    rw [setIntegral_const, Real.volume_real_Icc_of_le h.le, smul_eq_mul,
      mul_inv_cancel₀ (sub_pos.2 h).ne']

/-! ## The gamma distribution -/

noncomputable def gamma (shape rate x : ℝ) : ℝ :=
  rate ^ shape / Real.Gamma shape * x ^ (shape - 1) * Real.exp (-(rate * x))

theorem gamma_pos (hshape : 0 < shape) (hrate : 0 < rate) (hx : 0 < x) :
    0 < gamma shape rate x := by
  unfold gamma
  positivity

theorem log_gamma (hshape : 0 < shape) (hrate : 0 < rate) (hx : 0 < x) :
    Real.log (gamma shape rate x) = shape * Real.log rate + -Real.log (Real.Gamma shape) +
      ((shape - 1) * Real.log x + -rate * x) := by
  have hconstant : 0 < rate ^ shape / Real.Gamma shape := by positivity
  have hpower : 0 < x ^ (shape - 1) := by positivity
  rw [gamma, Real.log_mul (mul_pos hconstant hpower).ne' (Real.exp_pos _).ne',
    Real.log_mul hconstant.ne' hpower.ne', Real.log_div (by positivity) (by positivity),
    Real.log_rpow hrate, Real.log_rpow hx, Real.log_exp]
  ring

theorem isDensityOn_gamma (hshape : 0 < shape) (hrate : 0 < rate) :
    IsDensityOn (gamma shape rate) (Ioi 0) where
  measurable := measurableSet_Ioi
  pos _ hx := gamma_pos hshape hrate hx
  total := by
    have hgamma := Real.Gamma_pos_of_pos hshape
    have hpower := Real.rpow_pos_of_pos hrate shape
    unfold gamma
    simp_rw [mul_assoc]
    rw [integral_const_mul, Real.integral_rpow_mul_exp_neg_mul_Ioi hshape hrate,
      Real.div_rpow zero_le_one hrate.le, Real.one_rpow]
    field_simp

/-- The density of the inverse of a gamma variable whose rate is `scale`. -/
noncomputable def inverseGamma (shape scale x : ℝ) : ℝ := gamma shape scale x⁻¹ / x ^ 2

theorem log_inverseGamma (hshape : 0 < shape) (hscale : 0 < scale) (hx : 0 < x) :
    Real.log (inverseGamma shape scale x) = shape * Real.log scale + -Real.log (Real.Gamma shape) -
      ((shape + 1) * Real.log x + scale / x) := by
  have hinv := inv_pos.2 hx
  rw [inverseGamma, Real.log_div (gamma_pos hshape hscale hinv).ne' (by positivity),
    log_gamma hshape hscale hinv, Real.log_inv, Real.log_pow]
  push_cast
  ring

theorem isDensityOn_inverseGamma (hshape : 0 < shape) (hscale : 0 < scale) :
    IsDensityOn (inverseGamma shape scale) (Ioi 0) where
  measurable := measurableSet_Ioi
  pos _ hx := div_pos (gamma_pos hshape hscale (inv_pos.2 hx)) (pow_pos hx 2)
  total := by
    -- The substitution of the inverse, as a power.
    rw [← (isDensityOn_gamma hshape hscale).total,
      ← integral_comp_rpow_Ioi (gamma shape scale) (neg_ne_zero.2 one_ne_zero)]
    refine setIntegral_congr_fun measurableSet_Ioi fun x hx => ?_
    have hpower : x ^ (-1 - 1 : ℝ) = (x ^ 2)⁻¹ := by
      rw [← Real.rpow_natCast, ← Real.rpow_neg (le_of_lt hx)]
      norm_num
    rw [hpower, Real.rpow_neg_one, abs_neg, abs_one, one_mul, smul_eq_mul, inverseGamma,
      div_eq_inv_mul]

/-! ## The Laplace distribution -/

noncomputable def laplace (scale x : ℝ) : ℝ := Real.exp (-|x| / scale) / (scale + scale)

theorem laplace_pos (h : 0 < scale) (x : ℝ) : 0 < laplace scale x := by
  unfold laplace
  positivity

theorem log_laplace (h : 0 < scale) (x : ℝ) :
    Real.log (laplace scale x) = -Real.log (2 * scale) - |x| / scale := by
  rw [laplace, Real.log_div (Real.exp_pos _).ne' (by positivity), Real.log_exp, ← two_mul]
  ring

/-- The lower tail. -/
theorem integral_laplace_Iic (h : 0 < scale) (hv : v ≤ 0) :
    ∫ x in Iic v, laplace scale x = Real.exp (v / scale) / 2 := by
  have hleft : EqOn (laplace scale) (fun x => Real.exp (scale⁻¹ * x) / (scale + scale))
      (Iic v) := by
    intro x hx
    dsimp only [laplace]
    rw [abs_of_nonpos (le_trans hx hv), neg_neg, div_eq_inv_mul x]
  rw [setIntegral_congr_fun measurableSet_Iic hleft, integral_div,
    integral_exp_mul_Iic (inv_pos.2 h)]
  field_simp
  ring

/-- The upper tail. -/
theorem integral_laplace_Ioi (h : 0 < scale) (hv : 0 ≤ v) :
    ∫ x in Ioi v, laplace scale x = Real.exp (-v / scale) / 2 := by
  have heven (x : ℝ) : laplace scale (-x) = laplace scale x := by rw [laplace, laplace, abs_neg]
  rw [← neg_neg v, ← integral_comp_neg_Iic]
  simp only [heven]
  rw [integral_laplace_Iic h (neg_nonpos.2 hv), neg_neg]

theorem isDensityOn_laplace (h : 0 < scale) : IsDensityOn (laplace scale) univ where
  measurable := .univ
  pos x _ := laplace_pos h x
  total := by
    have hlower := integral_laplace_Iic h le_rfl
    have hupper := integral_laplace_Ioi h le_rfl
    -- A tail that has an integral other than zero is integrable.
    have hintegrable {s : Set ℝ} {r : ℝ} (hs : ∫ x in s, laplace scale x = Real.exp r / 2) :
        IntegrableOn (laplace scale) s := by
      apply Integrable.of_integral_ne_zero
      rw [hs]
      positivity
    rw [setIntegral_univ,
      ← intervalIntegral.integral_Iic_add_Ioi (hintegrable hlower) (hintegrable hupper), hlower,
      hupper, neg_zero, zero_div, Real.exp_zero]
    norm_num

theorem integral_laplace_Iic_of_nonneg (h : 0 < scale) (hv : 0 ≤ v) :
    ∫ x in Iic v, laplace scale x = 1 - Real.exp (-v / scale) / 2 := by
  have hdensity := isDensityOn_laplace h
  have htotal := hdensity.total
  have hintegrable (s : Set ℝ) : IntegrableOn (laplace scale) s :=
    hdensity.integrableOn.mono_set (subset_univ s)
  rw [setIntegral_univ, ← intervalIntegral.integral_Iic_add_Ioi (hintegrable (Iic v))
    (hintegrable (Ioi v)), integral_laplace_Ioi h hv] at htotal
  exact eq_sub_of_add_eq htotal

theorem integral_sq_laplace (h : 0 < scale) :
    ∫ x, x ^ 2 * laplace scale x = 2 * scale ^ 2 := by
  have heven (x : ℝ) : x ^ 2 * laplace scale x = |x| ^ 2 * laplace scale |x| := by
    rw [sq_abs, laplace, laplace, abs_abs]
  -- Both halves of the line have the same integral, which is one of a gamma density of shape 3.
  have hgamma : EqOn (fun x => x ^ 2 * laplace scale x)
      (fun x => (scale + scale)⁻¹ * (x ^ (3 - 1 : ℝ) * Real.exp (-(scale⁻¹ * x)))) (Ioi 0) := by
    intro x hx
    have hpower : x ^ (3 - 1 : ℝ) = x ^ 2 := by
      rw [← Real.rpow_natCast]
      norm_num
    dsimp only [laplace]
    rw [abs_of_pos hx, hpower, neg_div, div_eq_inv_mul x]
    ring
  have hthree : Real.Gamma 3 = 2 := by
    have hsucc : (3 : ℝ) = (2 : ℕ) + 1 := by norm_num
    rw [hsucc, Real.Gamma_nat_eq_factorial, Nat.factorial_two, Nat.cast_two]
  have hcube : scale ^ (3 : ℝ) = scale ^ 3 := by
    rw [← Real.rpow_natCast]
    norm_num
  rw [integral_congr_ae (.of_forall heven),
    integral_comp_abs (f := fun x => x ^ 2 * laplace scale x),
    setIntegral_congr_fun measurableSet_Ioi hgamma, integral_const_mul,
    Real.integral_rpow_mul_exp_neg_mul_Ioi three_pos (inv_pos.2 h), hthree, one_div, inv_inv,
    hcube, ← two_mul]
  field_simp

end Distribution

end Metropolis
