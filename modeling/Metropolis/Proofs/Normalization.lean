import Metropolis.Effect
import Metropolis.Prior
import Metropolis.Proofs.Distributions
import Metropolis.Scalar.Exact

/-!
# Proper priors are normalized

Over the exact numbers the density of a valid prior with finite hyperparameters, other than the flat
one, is the textbook density of the distribution that it is named for: on the support its logarithm
is that of the textbook density, and off the support it is `-infinity`. So it has total one. The
same holds of the densities of random effects, with the standard deviation that they are given.
-/

namespace Metropolis

open MeasureTheory (volume)

/-! ## Densities by their logarithms -/

/-- The density whose logarithm `f` gives, zero where the logarithm is `-infinity`. -/
noncomputable def densityOf (f : Exact → Exact) (x : ℝ) : ℝ := (Scalar.exp (f (.real x))).toReal

/-- Whether `f` is the logarithm of a density on a support, and `-infinity` off it. -/
structure IsLogOf (f : Exact → Exact) (density : ℝ → ℝ) (support : Set ℝ) : Prop where
  inside : ∀ x ∈ support, f (.real x) = .real (Real.log (density x))
  outside : ∀ x ∉ support, f (.real x) = -Scalar.infinity

/-- Whether the density whose logarithm `f` gives is that of a distribution with a support. -/
structure IsNormalized (f : Exact → Exact) (support : Set ℝ) : Prop where
  cases : ∀ x : ℝ, Scalar.isFinite (f (.real x)) = true ∨ f (.real x) = -Scalar.infinity
  support_eq : Function.support (densityOf f) = support
  total : ∫ x, densityOf f x = 1

namespace IsLogOf

variable {f : Exact → Exact} {density : ℝ → ℝ} {support : Set ℝ}

theorem densityOf_eq (h : IsLogOf f density support) (hdensity : IsDensityOn density support) :
    densityOf f = support.indicator density := by
  funext x
  by_cases hx : x ∈ support
  · rw [densityOf, h.inside x hx, Set.indicator_of_mem hx]
    exact Real.exp_log (hdensity.pos x hx)
  · rw [densityOf, h.outside x hx, Set.indicator_of_notMem hx]
    rfl

theorem isNormalized (h : IsLogOf f density support) (hdensity : IsDensityOn density support) :
    IsNormalized f support where
  cases x := by
    by_cases hx : x ∈ support
    · exact .inl (by rw [h.inside x hx]; rfl)
    · exact .inr (h.outside x hx)
  support_eq := by
    rw [h.densityOf_eq hdensity, Set.support_indicator, Set.inter_eq_left]
    exact fun x hx => (hdensity.pos x hx).ne'
  total := by
    rw [h.densityOf_eq hdensity, MeasureTheory.integral_indicator hdensity.measurable,
      hdensity.total]

end IsLogOf

/-! ## The families -/

section Families

variable {variance low high shape rate scale x : ℝ}

theorem logNormalDensity_real (x mean : ℝ) (h : 0 < variance) :
    logNormalDensity (.real x) (.real mean) (.real variance) =
      Exact.real (Real.log (Distribution.normal mean variance x)) := by
  have hscale : ¬ Exact.real variance ≤ 0 := mt (Exact.real_le_zero_iff _).1 (not_le_of_gt h)
  unfold logNormalDensity squaredDeviation
  rw [if_neg hscale, Exact.ofNat_eq, Exact.pi_eq, Exact.real_mul, Exact.log_real (by positivity),
    Exact.log_real h, Exact.real_sub, Exact.real_mul, Exact.real_div _ h.ne', Exact.real_add,
    Exact.real_add, Exact.ofScientific_eq, Exact.real_neg, Exact.real_mul,
    Distribution.log_normal mean x h]
  rfl

theorem isLogOf_uniform (h : low < high) :
    IsLogOf (logUniformDensity · (.real low) (.real high)) (Distribution.uniform low high)
      (Set.Icc low high) where
  inside x hx := by
    have hbounds : Exact.real low ≤ .real x ∧ Exact.real x ≤ .real high := hx
    unfold logUniformDensity Distribution.uniform
    rw [if_pos ((Exact.real_lt _ _).2 h), if_pos hbounds, Exact.real_sub,
      Exact.log_real (sub_pos.2 h), Exact.real_neg, Real.log_inv]
  outside x hx := by
    have hbounds : ¬ (Exact.real low ≤ .real x ∧ Exact.real x ≤ .real high) := hx
    unfold logUniformDensity
    rw [if_pos ((Exact.real_lt _ _).2 h), if_neg hbounds]

theorem isLogOf_gamma (hshape : 0 < shape) (hrate : 0 < rate) :
    IsLogOf (logGammaDensity · (.real shape) (.real rate)) (Distribution.gamma shape rate)
      (Set.Ioi 0) where
  inside x hx := by
    have hx : 0 < x := hx
    have hpositive : 0 < Exact.real x ∧ 0 < Exact.real shape ∧ 0 < Exact.real rate := by
      simp only [Exact.zero_lt_real_iff]
      exact ⟨hx, hshape, hrate⟩
    unfold logGammaDensity
    rw [if_pos hpositive, Exact.one_eq, Exact.log_real hrate, Exact.log_real hx,
      Exact.logGamma_real hshape, Distribution.log_gamma hshape hrate hx]
    simp only [Exact.real_mul, Exact.real_neg, Exact.real_sub, Exact.real_add]
  outside x hx := if_neg fun h => hx ((Exact.zero_lt_real_iff _).1 h.1)

theorem isLogOf_inverseGamma (hshape : 0 < shape) (hscale : 0 < scale) :
    IsLogOf (logInverseGammaDensity · (.real shape) (.real scale))
      (Distribution.inverseGamma shape scale) (Set.Ioi 0) where
  inside x hx := by
    have hx : 0 < x := hx
    have hpositive : 0 < Exact.real x ∧ 0 < Exact.real shape ∧ 0 < Exact.real scale := by
      simp only [Exact.zero_lt_real_iff]
      exact ⟨hx, hshape, hscale⟩
    unfold logInverseGammaDensity
    rw [if_pos hpositive, Exact.one_eq, Exact.log_real hscale, Exact.log_real hx,
      Exact.logGamma_real hshape, Exact.real_div _ hx.ne',
      Distribution.log_inverseGamma hshape hscale hx]
    simp only [Exact.real_mul, Exact.real_neg, Exact.real_sub, Exact.real_add]
  outside x hx := if_neg fun h => hx ((Exact.zero_lt_real_iff _).1 h.1)

theorem isLogOf_halfNormal (h : 0 < scale) :
    IsLogOf (logHalfNormalDensity · (.real scale)) (Distribution.halfNormal scale)
      (Set.Ici 0) where
  inside x hx := by
    have hnonneg : ¬ Exact.real x < 0 := mt (Exact.real_lt_zero_iff _).1 (not_lt_of_ge hx)
    unfold logHalfNormalDensity
    rw [if_neg hnonneg, Exact.ofNat_eq 2, Exact.zero_eq, Exact.log_real (by norm_num),
      Exact.real_mul, logNormalDensity_real x _ (mul_pos h h), Exact.real_add,
      Distribution.halfNormal_eq,
      Real.log_mul two_ne_zero (Distribution.normal_pos 0 (mul_pos h h) x).ne']
    rfl
  outside x hx := if_pos ((Exact.real_lt_zero_iff _).2 (not_le.1 hx))

theorem isLogOf_logNormal (mu : ℝ) {sigma : ℝ} (h : 0 < sigma) :
    IsLogOf (logLogNormalDensity · (.real mu) (.real sigma)) (Distribution.logNormal mu sigma)
      (Set.Ioi 0) where
  inside x hx := by
    have hx : 0 < x := hx
    unfold logLogNormalDensity
    rw [if_pos ((Exact.zero_lt_real_iff _).2 hx), Exact.log_real hx, Exact.real_mul,
      logNormalDensity_real _ mu (mul_pos h h), Exact.real_sub, Distribution.logNormal,
      Real.log_div (Distribution.normal_pos mu (mul_pos h h) _).ne' hx.ne']
  outside x hx := if_neg fun h => hx ((Exact.zero_lt_real_iff _).1 h)

theorem logLaplaceDensity_real (x : ℝ) (h : 0 < scale) :
    logLaplaceDensity (.real x) (.real scale) =
      Exact.real (Real.log (Distribution.laplace scale x)) := by
  unfold logLaplaceDensity
  rw [Exact.ofNat_eq, Exact.real_mul, Exact.log_real (by positivity), Exact.abs_real,
    Exact.real_div _ h.ne', Exact.real_neg, Exact.real_sub, Distribution.log_laplace h]
  rfl

end Families

/-! ## Priors -/

namespace Prior

/-- The numbers that a prior is given by. -/
def hyperparameters {α : Type} : Prior α → List α
  | .flat => []
  | .normal mean variance => [mean, variance]
  | .uniform lower upper => [lower, upper]
  | .gamma shape rate => [shape, rate]
  | .inverseGamma shape scale => [shape, scale]
  | .halfNormal scale => [scale]
  | .logNormal mu sigma => [mu, sigma]

/-- The support of the distribution. -/
def support : Prior Exact → Set ℝ
  | .flat => Set.univ
  | .normal _ _ => Set.univ
  | .uniform lower upper => Set.Icc lower.toReal upper.toReal
  | .gamma _ _ => Set.Ioi 0
  | .inverseGamma _ _ => Set.Ioi 0
  | .halfNormal _ => Set.Ici 0
  | .logNormal _ _ => Set.Ioi 0

/-- The textbook density of the distribution. -/
noncomputable def density : Prior Exact → ℝ → ℝ
  | .flat => fun _ => 1
  | .normal mean variance => Distribution.normal mean.toReal variance.toReal
  | .uniform lower upper => Distribution.uniform lower.toReal upper.toReal
  | .gamma shape rate => Distribution.gamma shape.toReal rate.toReal
  | .inverseGamma shape scale => Distribution.inverseGamma shape.toReal scale.toReal
  | .halfNormal scale => Distribution.halfNormal scale.toReal
  | .logNormal mu sigma => Distribution.logNormal mu.toReal sigma.toReal

/-- The priors that are distributions with real hyperparameters. -/
inductive IsProper : Prior Exact → Prop
  | normal (mean : ℝ) {variance : ℝ} (h : 0 < variance) :
    IsProper (.normal (.real mean) (.real variance))
  | uniform {lower upper : ℝ} (h : lower < upper) : IsProper (.uniform (.real lower) (.real upper))
  | gamma {shape rate : ℝ} (hshape : 0 < shape) (hrate : 0 < rate) :
    IsProper (.gamma (.real shape) (.real rate))
  | inverseGamma {shape scale : ℝ} (hshape : 0 < shape) (hscale : 0 < scale) :
    IsProper (.inverseGamma (.real shape) (.real scale))
  | halfNormal {scale : ℝ} (h : 0 < scale) : IsProper (.halfNormal (.real scale))
  | logNormal (mu : ℝ) {sigma : ℝ} (h : 0 < sigma) : IsProper (.logNormal (.real mu) (.real sigma))

variable {p : Prior Exact}

theorem isProper_of_isValid (hvalid : p.isValid = true) (hne : p ≠ .flat)
    (hfinite : ∀ x ∈ p.hyperparameters, Scalar.isFinite x = true) : p.IsProper := by
  have positive {x : Exact} (hx : 0 < x) (h : Scalar.isFinite x = true) :
      x = .real x.toReal ∧ 0 < x.toReal := by
    have heq := Exact.eq_real_of_isFinite h
    rw [heq, Exact.zero_lt_real_iff] at hx
    exact ⟨heq, hx⟩
  cases p with
  | flat => exact absurd rfl hne
  | normal mean variance =>
    simp only [isValid, Bool.and_eq_true, decide_eq_true_eq] at hvalid
    obtain ⟨hvariance, hpos⟩ := positive hvalid.2 (hfinite _ (.tail _ (.head _)))
    rw [Exact.eq_real_of_isFinite hvalid.1, hvariance]
    exact .normal _ hpos
  | uniform lower upper =>
    simp only [isValid, Bool.and_eq_true, decide_eq_true_eq] at hvalid
    obtain ⟨⟨hlower, hupper⟩, hlt⟩ := hvalid
    rw [Exact.eq_real_of_isFinite hlower, Exact.eq_real_of_isFinite hupper] at hlt ⊢
    exact .uniform hlt
  | gamma shape rate =>
    simp only [isValid, Bool.and_eq_true, decide_eq_true_eq] at hvalid
    obtain ⟨hshape, hpos⟩ := positive hvalid.1 (hfinite _ (.head _))
    obtain ⟨hrate, hpos'⟩ := positive hvalid.2 (hfinite _ (.tail _ (.head _)))
    rw [hshape, hrate]
    exact .gamma hpos hpos'
  | inverseGamma shape scale =>
    simp only [isValid, Bool.and_eq_true, decide_eq_true_eq] at hvalid
    obtain ⟨hshape, hpos⟩ := positive hvalid.1 (hfinite _ (.head _))
    obtain ⟨hscale, hpos'⟩ := positive hvalid.2 (hfinite _ (.tail _ (.head _)))
    rw [hshape, hscale]
    exact .inverseGamma hpos hpos'
  | halfNormal scale =>
    simp only [isValid, Bool.and_eq_true, decide_eq_true_eq] at hvalid
    obtain ⟨hscale, hpos⟩ := positive hvalid.1 hvalid.2
    rw [hscale]
    exact .halfNormal hpos
  | logNormal mu sigma =>
    simp only [isValid, Bool.and_eq_true, decide_eq_true_eq] at hvalid
    obtain ⟨hsigma, hpos⟩ := positive hvalid.2 (hfinite _ (.tail _ (.head _)))
    rw [Exact.eq_real_of_isFinite hvalid.1, hsigma]
    exact .logNormal _ hpos

theorem IsProper.isDensityOn (h : p.IsProper) : IsDensityOn p.density p.support := by
  cases h with
  | normal mean h => exact Distribution.isDensityOn_normal mean h
  | uniform h => exact Distribution.isDensityOn_uniform h
  | gamma hshape hrate => exact Distribution.isDensityOn_gamma hshape hrate
  | inverseGamma hshape hscale => exact Distribution.isDensityOn_inverseGamma hshape hscale
  | halfNormal h => exact Distribution.isDensityOn_halfNormal h
  | logNormal mu h => exact Distribution.isDensityOn_logNormal mu h

theorem IsProper.isLogOf (h : p.IsProper) : IsLogOf p.logDensity p.density p.support := by
  cases h with
  | normal mean h =>
    exact ⟨fun x _ => logNormalDensity_real x mean h, fun x hx => absurd (Set.mem_univ x) hx⟩
  | uniform h => exact isLogOf_uniform h
  | gamma hshape hrate => exact isLogOf_gamma hshape hrate
  | inverseGamma hshape hscale => exact isLogOf_inverseGamma hshape hscale
  | halfNormal h => exact isLogOf_halfNormal h
  | logNormal mu h => exact isLogOf_logNormal mu h

end Prior

/-! ## Random effects -/

namespace Effect

/-- The textbook density of a realization. -/
noncomputable def density : Effect → ℝ → ℝ → ℝ
  | .normal, deviation => Distribution.normal 0 (deviation * deviation)
  | .laplace, deviation => Distribution.laplace (laplaceScale (Exact.real deviation)).toReal

variable {d : ℝ}

theorem laplaceScale_real (d : ℝ) : laplaceScale (Exact.real d) = .real (d / √2) := by
  rw [laplaceScale, Exact.sqrt_two, Exact.real_div _ (Real.sqrt_pos.2 two_pos).ne']

theorem laplaceScale_pos (h : 0 < d) : 0 < (laplaceScale (Exact.real d)).toReal := by
  rw [laplaceScale_real]
  exact div_pos h (Real.sqrt_pos.2 two_pos)

theorem isDensityOn_density (e : Effect) (h : 0 < d) : IsDensityOn (e.density d) Set.univ := by
  cases e with
  | normal => exact Distribution.isDensityOn_normal 0 (mul_pos h h)
  | laplace => exact Distribution.isDensityOn_laplace (laplaceScale_pos h)

theorem isLogOf_logDensity (e : Effect) (h : 0 < d) :
    IsLogOf (e.logDensity · (.real d)) (e.density d) Set.univ where
  inside x _ := by
    have hpositive : 0 < Exact.real d ∧ Scalar.isFinite (Exact.real d) = true :=
      ⟨(Exact.zero_lt_real_iff _).2 h, rfl⟩
    unfold logDensity
    rw [if_pos hpositive]
    cases e with
    | normal =>
      dsimp only [density]
      rw [Exact.zero_eq, Exact.real_mul, logNormalDensity_real x _ (mul_pos h h)]
    | laplace =>
      dsimp only [density]
      rw [← logLaplaceDensity_real x (laplaceScale_pos h), laplaceScale_real]
      rfl
  outside x hx := absurd (Set.mem_univ x) hx

theorem densityOf_logDensity (e : Effect) (h : 0 < d) :
    densityOf (e.logDensity · (.real d)) = e.density d := by
  rw [(e.isLogOf_logDensity h).densityOf_eq (e.isDensityOn_density h), Set.indicator_univ]

theorem integral_sq_density (e : Effect) (h : 0 < d) : ∫ x, x ^ 2 * e.density d x = d ^ 2 := by
  cases e with
  | normal =>
    rw [sq d]
    exact Distribution.integral_sq_normal (mul_pos h h)
  | laplace =>
    have hscale : 2 * (laplaceScale (Exact.real d)).toReal ^ 2 = d ^ 2 := by
      rw [laplaceScale_real, Exact.toReal_real, div_pow, Real.sq_sqrt two_pos.le]
      exact mul_div_cancel₀ _ two_ne_zero
    rw [← hscale]
    exact Distribution.integral_sq_laplace (laplaceScale_pos h)

end Effect

/-- Every valid prior but the flat one has a normalized density that is positive just on its
support, and so have random effects, whose second moment is the square of the standard deviation
that they are given. -/
theorem Prior.logDensity_normalized :
    (∀ p : Prior Exact, p.isValid = true → p ≠ .flat →
      (∀ x ∈ p.hyperparameters, Scalar.isFinite x = true) →
        IsNormalized p.logDensity p.support) ∧
    ∀ (e : Effect) (d : ℝ), 0 < d →
      IsNormalized (e.logDensity · (.real d)) Set.univ ∧
        ∫ x, x ^ 2 * densityOf (e.logDensity · (.real d)) x = d ^ 2 := by
  refine ⟨fun p hvalid hne hfinite => ?_, fun e d hd => ⟨?_, ?_⟩⟩
  · have hproper := isProper_of_isValid hvalid hne hfinite
    exact hproper.isLogOf.isNormalized hproper.isDensityOn
  · exact (e.isLogOf_logDensity hd).isNormalized (e.isDensityOn_density hd)
  · rw [e.densityOf_logDensity hd]
    exact e.integral_sq_density hd

/-- An inverse gamma prior, and a Laplace effect. -/
theorem Prior.logDensity_normalized_inverseGamma :
    let p : Prior Exact := .inverseGamma (.real 3) (.real 2)
    p.isValid = true ∧ p ≠ .flat ∧ (∀ x ∈ p.hyperparameters, Scalar.isFinite x = true) ∧
      IsNormalized p.logDensity (Set.Ioi 0) ∧
      IsNormalized (Effect.laplace.logDensity · (.real 2)) Set.univ ∧
      ∫ x, x ^ 2 * densityOf (Effect.laplace.logDensity · (.real 2)) x = 2 ^ 2 := by
  intro p
  have hvalid : p.isValid = true := by
    have hshape : (0 : Exact) < .real 3 := (Exact.zero_lt_real_iff _).2 three_pos
    have hscale : (0 : Exact) < .real 2 := (Exact.zero_lt_real_iff _).2 two_pos
    show (decide _ && decide _) = true
    rw [decide_eq_true hshape, decide_eq_true hscale]
    rfl
  have hne : p ≠ .flat := nofun
  have hfinite : ∀ x ∈ p.hyperparameters, Scalar.isFinite x = true :=
    List.forall_mem_cons.2 ⟨rfl, List.forall_mem_singleton.2 rfl⟩
  obtain ⟨priors, effects⟩ := logDensity_normalized
  exact ⟨hvalid, hne, hfinite, priors p hvalid hne hfinite, effects .laplace 2 two_pos⟩

end Metropolis
