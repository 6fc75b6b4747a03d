import Mathlib.Analysis.SpecialFunctions.Gaussian.GaussianIntegral
import Metropolis.Proofs.LogSumExp
import Metropolis.Quadrature.Rule

/-!
# Adaptive quadrature

With positive weights a rule gives the logarithm of a weighted sum of the integrand, whatever its
nodes are. For a Gaussian integrand about the mode the sum is that of the weights up to a factor,
because the square of a node that is added to the exponent is what the integrand takes off, and the
rule is exact. A change of the variable leaves the exponents alone and has its factor in the
stretch.
-/

namespace Metropolis.Quadrature

/-- Whether `g` gives the logarithm of the integrand `f`, which is `-∞` where that is zero. -/
structure IsLog (g : Exact → Exact) (f : ℝ → ℝ) : Prop where
  nonneg (u : ℝ) : 0 ≤ f u
  eq_log (u : ℝ) : g (.real u) = Scalar.log (.real (f u))

namespace IsLog

variable {g h : Exact → Exact} {f k : ℝ → ℝ}

theorem of_real (hg : ∀ u, g (.real u) = .real (f u)) : IsLog g fun u => Real.exp (f u) where
  nonneg u := (Real.exp_pos _).le
  eq_log u := by rw [hg, Exact.log_real (Real.exp_pos _), Real.log_exp]

theorem add_const (hg : IsLog g f) (c : ℝ) :
    IsLog (fun u => g u + .real c) fun u => f u * Real.exp c where
  nonneg u := mul_nonneg (hg.nonneg u) (Real.exp_pos c).le
  eq_log u := by rw [hg.eq_log, Exact.log_mul_exp (hg.nonneg u)]

theorem le_iff (hg : IsLog g f) (hh : IsLog h k) (u : ℝ) :
    g (.real u) ≤ h (.real u) ↔ f u ≤ k u := by
  rw [hg.eq_log, hh.eq_log, Exact.log_le_log (hg.nonneg u) (hh.nonneg u)]

end IsLog

namespace Rule

/-- A rule with real nodes and weights. -/
noncomputable def ofReal (points : List (ℝ × ℝ)) : Rule Exact :=
  ⟨points.map fun p => (.real p.1, .real p.2)⟩

/-- The weighted sum of an integrand that takes the place of its integral. -/
noncomputable def weightedSum (points : List (ℝ × ℝ)) (mode stretch : ℝ) (f : ℝ → ℝ) : ℝ :=
  stretch * (points.map fun p => p.2 * Real.exp (p.1 ^ 2) * f (mode + stretch * p.1)).sum

variable {points : List (ℝ × ℝ)} {mode scale : ℝ} {g h : Exact → Exact} {f k : ℝ → ℝ}

theorem logIntegral_ofReal (hscale : 0 < scale) (g : Exact → Exact) :
    (ofReal points).logIntegral (.real mode) (.real scale) g =
      Scalar.log (.real (√2 * scale)) + Series.logSumExp (points.map fun p =>
        .real (p.1 * p.1) + Scalar.log (.real p.2) + g (.real (√2 * scale * p.1 + mode))) := by
  have hdefined : 0 < Exact.real scale ∧ Scalar.isFinite (Exact.real scale) = true ∧
      Scalar.isFinite (Exact.real mode) = true :=
    ⟨(Exact.zero_lt_real_iff _).2 hscale, rfl, rfl⟩
  unfold logIntegral
  rw [if_pos hdefined, Exact.sqrt_two, Exact.real_mul]
  dsimp only [ofReal]
  rw [List.map_map]
  rfl

/-- A change of the variable does not change the exponents. -/
theorem logIntegral_comp_affine (hscale : 0 < scale) {a : ℝ} (ha : 0 < a) (b : ℝ)
    (g : Exact → Exact) :
    (ofReal points).logIntegral (.real ((mode - b) / a)) (.real (scale / a))
        (fun v => g (.real a * v + .real b)) =
      (ofReal points).logIntegral (.real mode) (.real scale) g - .real (Real.log a) := by
  have hnode (x : ℝ) : Exact.real a * .real (√2 * (scale / a) * x + (mode - b) / a) + .real b =
      .real (√2 * scale * x + mode) := by
    rw [Exact.real_mul, Exact.real_add]
    congr 1
    field_simp
    ring
  have hstretch : 0 < √2 * scale := by positivity
  rw [logIntegral_ofReal (div_pos hscale ha), logIntegral_ofReal hscale, ← mul_div_assoc,
    Exact.log_real (div_pos hstretch ha), Exact.log_real hstretch,
    Real.log_div hstretch.ne' ha.ne', ← Exact.real_sub]
  simp only [mul_div_assoc, hnode]
  generalize (Series.logSumExp _ : Exact) = sum
  cases sum with
  | real x => simp only [Exact.real_sub, Exact.real_add, sub_add_eq_add_sub]
  | _ => rfl

/-! ## The weighted sum -/

section WeightedSum

variable {stretch : ℝ}

theorem weightedTerm_nonneg (positive : ∀ p ∈ points, 0 < p.2) (hf : ∀ u, 0 ≤ f u)
    (mode stretch : ℝ) :
    ∀ y ∈ points.map fun p => p.2 * Real.exp (p.1 ^ 2) * f (mode + stretch * p.1), 0 ≤ y :=
  List.forall_mem_map.2 fun p hp =>
    mul_nonneg (mul_pos (positive p hp) (Real.exp_pos _)).le (hf _)

theorem weightedSum_nonneg (positive : ∀ p ∈ points, 0 < p.2) (hstretch : 0 < stretch)
    (hf : ∀ u, 0 ≤ f u) : 0 ≤ weightedSum points mode stretch f :=
  mul_nonneg hstretch.le (List.sum_nonneg (weightedTerm_nonneg positive hf _ _))

theorem weightedSum_pos (positive : ∀ p ∈ points, 0 < p.2) (hne : points ≠ [])
    (hstretch : 0 < stretch) (hf : ∀ u, 0 < f u) : 0 < weightedSum points mode stretch f := by
  refine mul_pos hstretch (List.sum_pos _ ?_ (mt List.map_eq_nil_iff.1 hne))
  exact List.forall_mem_map.2 fun p hp =>
    mul_pos (mul_pos (positive p hp) (Real.exp_pos _)) (hf _)

theorem weightedSum_mul_exp (f : ℝ → ℝ) (c : ℝ) :
    weightedSum points mode stretch (fun u => f u * Real.exp c) =
      weightedSum points mode stretch f * Real.exp c := by
  simp only [weightedSum, ← mul_assoc, List.sum_map_mul_right]

theorem weightedSum_mono (positive : ∀ p ∈ points, 0 < p.2) (hstretch : 0 < stretch)
    (hle : ∀ u, f u ≤ k u) :
    weightedSum points mode stretch f ≤ weightedSum points mode stretch k := by
  have hsum := List.sum_le_sum fun p hp => mul_le_mul_of_nonneg_left
    (hle (mode + stretch * p.1)) (mul_pos (positive p hp) (Real.exp_pos (p.1 ^ 2))).le
  exact mul_le_mul_of_nonneg_left hsum hstretch.le

end WeightedSum

/-- The rule gives the logarithm of the weighted sum. -/
theorem logIntegral_eq (positive : ∀ p ∈ points, 0 < p.2) (hscale : 0 < scale)
    (hg : IsLog g f) : (ofReal points).logIntegral (.real mode) (.real scale) g =
      Scalar.log (.real (weightedSum points mode (√2 * scale) f)) := by
  have hterm (p : ℝ × ℝ) (hp : p ∈ points) :
      Exact.real (p.1 * p.1) + Scalar.log (.real p.2) + g (.real (√2 * scale * p.1 + mode)) =
        Scalar.log (.real (p.2 * Real.exp (p.1 ^ 2) * f (mode + √2 * scale * p.1))) := by
    have hweight := positive p hp
    have hexp := Real.exp_pos (p.1 ^ 2)
    rw [hg.eq_log, Exact.log_real hweight, Exact.log_mul (mul_pos hweight hexp) (hg.nonneg _),
      Exact.log_real (mul_pos hweight hexp), Real.log_mul hweight.ne' hexp.ne', Real.log_exp,
      Exact.real_add, add_comm mode, add_comm (Real.log _), sq]
  have hnonneg := weightedTerm_nonneg positive hg.nonneg mode (√2 * scale)
  have hsum := Series.logSumExp_log hnonneg
  rw [List.map_map] at hsum
  rw [logIntegral_ofReal hscale, List.map_congr_left hterm, weightedSum,
    Exact.log_mul (by positivity) (List.sum_nonneg hnonneg), ← hsum]
  rfl

/-! ## Gaussian integrands -/

theorem weightedSum_gaussian (total : (points.map Prod.snd).sum = √Real.pi) (hscale : 0 < scale)
    (c : ℝ) : weightedSum points mode (√2 * scale)
      (fun u => Real.exp (c - (u - mode) ^ 2 / (2 * scale ^ 2))) =
        Real.exp c * (√(2 * Real.pi) * scale) := by
  have hterm (p : ℝ × ℝ) : p.2 * Real.exp (p.1 ^ 2) *
      Real.exp (c - (mode + √2 * scale * p.1 - mode) ^ 2 / (2 * scale ^ 2)) =
        p.2 * Real.exp c := by
    rw [mul_assoc, ← Real.exp_add, add_sub_cancel_left, mul_pow, mul_pow, Real.sq_sqrt zero_le_two,
      mul_div_cancel_left₀ _ (by positivity), add_sub_cancel]
  unfold weightedSum
  simp only [hterm]
  rw [List.sum_map_mul_right, total, Real.sqrt_mul zero_le_two]
  ring

theorem integral_gaussian_exponent (mode c : ℝ) (hscale : 0 < scale) :
    ∫ u, Real.exp (c - (u - mode) ^ 2 / (2 * scale ^ 2)) =
      Real.exp c * (√(2 * Real.pi) * scale) := by
  have hexponent (u : ℝ) : Real.exp (c - (u - mode) ^ 2 / (2 * scale ^ 2)) =
      Real.exp c * Real.exp (-(2 * scale ^ 2)⁻¹ * (u - mode) ^ 2) := by
    rw [← Real.exp_add]
    ring_nf
  have hroot : √(Real.pi / (2 * scale ^ 2)⁻¹) = √(2 * Real.pi) * scale := by
    rw [div_inv_eq_mul, mul_left_comm, ← mul_assoc, Real.sqrt_mul (by positivity),
      Real.sqrt_sq hscale.le]
  simp only [hexponent]
  rw [MeasureTheory.integral_const_mul, MeasureTheory.integral_sub_right_eq_self
    (fun u => Real.exp (-(2 * scale ^ 2)⁻¹ * u ^ 2)), integral_gaussian, hroot]

/-- The adaptive rule with positive weights that add up to `√π` is exact for Gaussian integrands
about the mode. For every integrand, also one that is zero somewhere, it gives the logarithm of the
weighted sum. So a factor of the integrand becomes a summand, a larger integrand has a result that
is not smaller, and a change of the variable has its factor. -/
theorem logIntegral_adaptive (positive : ∀ p ∈ points, 0 < p.2)
    (total : (points.map Prod.snd).sum = √Real.pi) (mode : ℝ) {scale : ℝ} (hscale : 0 < scale) :
    let rule := ofReal points
    let integral := rule.logIntegral (.real mode) (.real scale)
    (∀ c : ℝ, ∀ g, (∀ u : ℝ, g (.real u) = .real (c - (u - mode) ^ 2 / (2 * scale ^ 2))) →
      integral g = .real (c + Real.log (√(2 * Real.pi) * scale)) ∧
      integral g = .real (Real.log (∫ u, Real.exp (c - (u - mode) ^ 2 / (2 * scale ^ 2))))) ∧
    (∀ (g : Exact → Exact) (f : ℝ → ℝ), (∀ u, g (.real u) = .real (f u)) →
      integral g = .real (Real.log (√2 * scale * (points.map fun p =>
        p.2 * Real.exp (p.1 ^ 2) * Real.exp (f (mode + √2 * scale * p.1))).sum))) ∧
    (∀ g f, IsLog g f → integral g = Scalar.log (.real (√2 * scale *
      (points.map fun p => p.2 * Real.exp (p.1 ^ 2) * f (mode + √2 * scale * p.1)).sum))) ∧
    (∀ g f, IsLog g f → ∀ c : ℝ, integral (fun u => g u + .real c) = integral g + .real c) ∧
    (∀ g f h k, IsLog g f → IsLog h k → (∀ u : ℝ, g (.real u) ≤ h (.real u)) →
      integral g ≤ integral h) ∧
    ∀ a b : ℝ, 0 < a → ∀ g : Exact → Exact,
      rule.logIntegral (.real ((mode - b) / a)) (.real (scale / a))
        (fun v => g (.real a * v + .real b)) = integral g - .real (Real.log a) := by
  intro rule integral
  have hstretch : 0 < √2 * scale := by positivity
  have heq {g f} (hg : IsLog g f) :
      integral g = Scalar.log (.real (weightedSum points mode (√2 * scale) f)) :=
    logIntegral_eq positive hscale hg
  refine ⟨fun c g hg => ?_, fun g f hg => ?_, fun g f hg => heq hg, fun g f hg c => ?_,
    fun g f h k hg hh hle => ?_, fun a b ha g => logIntegral_comp_affine hscale ha b g⟩
  · have hpos : 0 < √(2 * Real.pi) * scale := by positivity
    have hexp := Real.exp_pos c
    have hlog : Real.log (Real.exp c * (√(2 * Real.pi) * scale)) =
        c + Real.log (√(2 * Real.pi) * scale) := by
      rw [Real.log_mul hexp.ne' hpos.ne', Real.log_exp]
    rw [heq (.of_real hg), weightedSum_gaussian total hscale, Exact.log_real (mul_pos hexp hpos),
      integral_gaussian_exponent mode c hscale, hlog]
    exact ⟨rfl, rfl⟩
  · have hne : points ≠ [] := by
      rintro rfl
      exact absurd total (Real.sqrt_pos.2 Real.pi_pos).ne
    rw [heq (.of_real hg),
      Exact.log_real (weightedSum_pos positive hne hstretch fun u => Real.exp_pos _)]
    rfl
  · rw [heq (hg.add_const c), heq hg, weightedSum_mul_exp,
      Exact.log_mul_exp (weightedSum_nonneg positive hstretch hg.nonneg)]
  · rw [heq hg, heq hh, Exact.log_le_log (weightedSum_nonneg positive hstretch hg.nonneg)
      (weightedSum_nonneg positive hstretch hh.nonneg)]
    exact weightedSum_mono positive hstretch fun u => (hg.le_iff hh u).1 (hle u)

/-- The rule of two nodes, for the standard normal exponent about zero. -/
theorem logIntegral_adaptive_twoNodes :
    let points := [(-√(1 / 2), √Real.pi / 2), (√(1 / 2), √Real.pi / 2)]
    (∀ p ∈ points, 0 < p.2) ∧ (points.map Prod.snd).sum = √Real.pi ∧ (0 : ℝ) < 1 ∧
      (ofReal points).logIntegral (.real 0) (.real 1)
        (fun u => 0 - u * u / .real (2 * 1 ^ 2)) =
          .real (0 + Real.log (√(2 * Real.pi) * 1)) := by
  intro points
  have hpositive : ∀ p ∈ points, 0 < p.2 := by
    have hroot : 0 < √Real.pi / 2 := by positivity
    rintro p hp
    simp only [points, List.mem_cons, List.not_mem_nil, or_false] at hp
    rcases hp with rfl | rfl <;> exact hroot
  have htotal : (points.map Prod.snd).sum = √Real.pi := by
    simp only [points, List.map_cons, List.map_nil, List.sum_cons, List.sum_nil, add_zero,
      add_halves]
  obtain ⟨gaussian, -⟩ := logIntegral_adaptive hpositive htotal 0 one_pos
  refine ⟨hpositive, htotal, one_pos, (gaussian 0 _ fun u => ?_).1⟩
  rw [Exact.zero_eq, Exact.real_mul, Exact.real_div _ (by norm_num), Exact.real_sub, sub_zero, sq u]

end Rule

end Metropolis.Quadrature
