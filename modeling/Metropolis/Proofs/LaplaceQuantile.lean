import Metropolis.Proofs.Budget
import Metropolis.Proofs.Normalization
import Metropolis.Proofs.RealPoints

/-!
# Laplace draws

A Laplace effect is drawn from one uniform, by a formula of its own that shares only the scale with
the density. The draw from a uniform `u` is the `u`-quantile of that density: the density has the
integral `u` up to it. The argument of the logarithm is kept away from zero, which only moves
uniforms that are nearer to zero or one than any 53 bits can say, and zero itself.
-/

namespace Metropolis

open Set (Icc Ico Iic)

namespace Effect

variable {d u v : ℝ}

/-- The draw of a Laplace effect from a uniform. -/
noncomputable def laplaceQuantile (d u : ℝ) : ℝ :=
  (laplaceOfUniform (Exact.real d) (Exact.real u)).toReal

/-- The least probability of a tail that a draw leaves. -/
noncomputable def tailLimit : ℝ := (Scalar.tiny / 2 : Exact).toReal

/-! ## The limit -/

theorem tiny_eq : (Scalar.tiny : Exact) = .real (2 * tailLimit) := by
  obtain ⟨t, -, htiny⟩ := tiny_real
  rw [tailLimit, htiny, Exact.ofNat_eq, Nat.cast_two, Exact.real_div _ two_ne_zero,
    Exact.toReal_real, mul_div_cancel₀ _ two_ne_zero]

theorem tailLimit_pos : 0 < tailLimit := by
  obtain ⟨t, ⟨hpos, -⟩, htiny⟩ := tiny_real
  rw [tiny_eq] at htiny
  linarith [Exact.real.inj htiny]

/-- The limit is below the last of 53 bits. -/
theorem tailLimit_lt : tailLimit < 1 / (2 ^ 53 : ℕ) := by
  obtain ⟨t, ⟨-, hle⟩, htiny⟩ := tiny_real
  rw [tiny_eq] at htiny
  have hbits : (1 : ℝ) / (10 ^ 17 : ℕ) ≤ 1 / (2 ^ 53 : ℕ) := by norm_num
  linarith [Exact.real.inj htiny, tailLimit_pos]

theorem larger_tiny (x : ℝ) :
    Scalar.larger (Exact.real (2 * x)) Scalar.tiny = .real (2 * max x tailLimit) := by
  rw [tiny_eq, Exact.larger_real, mul_max_of_nonneg _ _ zero_le_two]

/-! ## The two sides -/

theorem centred_real (u : ℝ) : Exact.real u - 0.5 = .real (u - 1 / 2) := by
  rw [Exact.ofScientific_eq, Exact.real_sub]
  norm_num

/-- Twice the probability of the tail, on the side of a uniform. -/
theorem tail_real (x : ℝ) :
    (1 - 2 * Scalar.abs (Exact.real x) : Exact) = .real (2 * (1 / 2 - |x|)) := by
  rw [Exact.abs_real, Exact.ofNat_eq 2, Exact.one_eq, Exact.real_mul, Exact.real_sub, mul_sub,
    Nat.cast_two, mul_one_div_cancel two_ne_zero]

theorem two_mul_max_pos (x : ℝ) : 0 < 2 * max x tailLimit :=
  mul_pos two_pos (lt_max_of_lt_right tailLimit_pos)

theorem laplaceOfUniform_of_lt (d : ℝ) (hu : u < 1 / 2) :
    laplaceOfUniform (Exact.real d) (Exact.real u) =
      .real (d / √2 * Real.log (2 * max u tailLimit)) := by
  have hside : u - 1 / 2 < 0 := sub_neg.2 hu
  have htail : 1 / 2 - |u - 1 / 2| = u := by
    rw [abs_of_neg hside]
    ring
  unfold laplaceOfUniform
  dsimp only
  rw [centred_real, if_pos ((Exact.real_lt_zero_iff _).2 hside), tail_real, htail, larger_tiny,
    laplaceScale_real, Exact.log_real (two_mul_max_pos u), Exact.one_eq, Exact.real_mul,
    Exact.real_mul, mul_one]

theorem laplaceOfUniform_of_le (d : ℝ) (hu : 1 / 2 ≤ u) :
    laplaceOfUniform (Exact.real d) (Exact.real u) =
      .real (-(d / √2 * Real.log (2 * max (1 - u) tailLimit))) := by
  have hside : 0 ≤ u - 1 / 2 := sub_nonneg.2 hu
  have htail : 1 / 2 - |u - 1 / 2| = 1 - u := by
    rw [abs_of_nonneg hside]
    ring
  unfold laplaceOfUniform
  dsimp only
  rw [centred_real, if_neg (mt (Exact.real_lt_zero_iff _).1 hside.not_gt), tail_real, htail,
    larger_tiny, laplaceScale_real, Exact.log_real (two_mul_max_pos _), Exact.one_eq,
    Exact.real_neg, Exact.real_mul, Exact.real_mul, mul_neg_one, neg_mul]

theorem laplaceOfUniform_real (d u : ℝ) :
    laplaceOfUniform (Exact.real d) (Exact.real u) = .real (laplaceQuantile d u) := by
  unfold laplaceQuantile
  rcases lt_or_ge u (1 / 2) with hu | hu
  · rw [laplaceOfUniform_of_lt d hu, Exact.toReal_real]
  · rw [laplaceOfUniform_of_le d hu, Exact.toReal_real]

/-- Half of the exponential of a logarithm in units of the scale. -/
theorem exp_scaled_log (h : 0 < d) (x : ℝ) :
    Real.exp (d / √2 * Real.log (2 * max x tailLimit) / (d / √2)) / 2 = max x tailLimit := by
  have hscale : 0 < d / √2 := div_pos h (Real.sqrt_pos.2 two_pos)
  rw [mul_div_cancel_left₀ _ hscale.ne', Real.exp_log (two_mul_max_pos x),
    mul_div_cancel_left₀ _ two_ne_zero]

theorem integral_laplaceQuantile (h : 0 < d) (hu : u ∈ Ico 0 1) :
    ∫ x in Iic (laplaceQuantile d u), Effect.laplace.density d x =
      max tailLimit (min u (1 - tailLimit)) := by
  obtain ⟨hnonneg, hlt⟩ := hu
  have hscale : 0 < d / √2 := div_pos h (Real.sqrt_pos.2 two_pos)
  have hlimit : tailLimit ≤ 1 / 2 := tailLimit_lt.le.trans (by norm_num)
  have hdensity : Effect.laplace.density d = Distribution.laplace (d / √2) := by
    dsimp only [density]
    rw [laplaceScale_real, Exact.toReal_real]
  -- A tail has at most half of the probability, so that a draw is on its side of zero.
  have hside {x : ℝ} (hx : x ≤ 1 / 2) : d / √2 * Real.log (2 * max x tailLimit) ≤ 0 := by
    have hle : 2 * max x tailLimit ≤ 1 := by linarith [max_le hx hlimit]
    exact mul_nonpos_of_nonneg_of_nonpos hscale.le (Real.log_nonpos (two_mul_max_pos x).le hle)
  rw [hdensity, laplaceQuantile]
  rcases lt_or_ge u (1 / 2) with hu | hu
  · rw [laplaceOfUniform_of_lt d hu, Exact.toReal_real,
      Distribution.integral_laplace_Iic hscale (hside hu.le), exp_scaled_log h,
      min_eq_left (by linarith), max_comm]
  · rw [laplaceOfUniform_of_le d hu, Exact.toReal_real,
      Distribution.integral_laplace_Iic_of_nonneg hscale (neg_nonneg.2 (hside (by linarith))),
      neg_neg, exp_scaled_log h, ← min_sub_sub_left, sub_sub_cancel]
    exact (max_eq_right (le_min (hlimit.trans hu) (by linarith))).symm

/-! ## Draws from uniforms -/

theorem laplaceQuantile_lt (h : 0 < d) (hu : u ∈ Ico 0 1) (hv : v ∈ Ico 0 1)
    (hlt : max tailLimit (min u (1 - tailLimit)) < max tailLimit (min v (1 - tailLimit))) :
    laplaceQuantile d u < laplaceQuantile d v := by
  apply (Effect.laplace.isDensityOn_density h).lt_of_integral_Iic_lt
  rw [integral_laplaceQuantile h hu, integral_laplaceQuantile h hv]
  exact hlt

theorem clamp_of_mem (hu : u ∈ Icc tailLimit (1 - tailLimit)) :
    max tailLimit (min u (1 - tailLimit)) = u := by
  rw [min_eq_left hu.2, max_eq_right hu.1]

theorem mem_Ico_of_mem (hu : u ∈ Icc tailLimit (1 - tailLimit)) : u ∈ Ico 0 1 :=
  ⟨tailLimit_pos.le.trans hu.1, hu.2.trans_lt (sub_lt_self 1 tailLimit_pos)⟩

/-- A uniform of 53 bits is zero, or its distance to zero and to one is more than the limit. -/
theorem unitOfWord_cases (word : UInt64) : ∃ u : ℝ, (Tape.unitOfWord word : Exact) = .real u ∧
    (u = 0 ∨ tailLimit < u ∧ u < 1 - tailLimit) := by
  obtain ⟨hlt, hunit⟩ := Tape.unitOfWord_real word
  have hbits : (0 : ℝ) < (2 ^ 53 : ℕ) := by positivity
  refine ⟨_, hunit, ?_⟩
  rcases Nat.eq_zero_or_pos (word >>> 11).toNat with hzero | hpos
  · exact .inl (by rw [hzero, Nat.cast_zero, zero_div])
  · have hone : (1 : ℝ) ≤ ((word >>> 11).toNat : ℝ) := Nat.one_le_cast.2 hpos
    have hbelow : ((word >>> 11).toNat : ℝ) + 1 ≤ (2 ^ 53 : ℕ) := by
      rw [← Nat.cast_add_one]
      exact Nat.cast_le.2 hlt
    have hlimit := tailLimit_lt
    refine .inr ⟨hlimit.trans_le (div_le_div_of_nonneg_right hone hbits.le), ?_⟩
    -- The last multiple below one is a whole bit away from it.
    have hgap : ((word >>> 11).toNat : ℝ) / (2 ^ 53 : ℕ) + 1 / (2 ^ 53 : ℕ) ≤ 1 := by
      rw [← add_div, div_le_one hbits]
      exact hbelow
    linarith

/-- From the next uniform `u` a Laplace effect draws the `u`-quantile of the distribution with its
density: the draw grows strictly with the uniform, and the density has the integral `u` up to it.
So it is for all uniforms of 53 bits but zero, from which a number is drawn that is below all their
draws. Real numbers nearer to zero or one are drawn from as if they were as near as the limit. -/
theorem sample_laplace_quantile (h : 0 < d) :
    let density := densityOf (Effect.laplace.logDensity · (.real d))
    (∀ (tape : Tape Exact) (u : ℝ), tape.cell tape.position = .real u →
      Effect.laplace.sample (.real d) tape = (.real (laplaceQuantile d u), tape.skip 1)) ∧
    (∀ u ∈ Ico 0 1, ∫ x in Iic (laplaceQuantile d u), density x =
      max tailLimit (min u (1 - tailLimit))) ∧
    (∀ u ∈ Icc tailLimit (1 - tailLimit), ∫ x in Iic (laplaceQuantile d u), density x = u) ∧
    StrictMonoOn (laplaceQuantile d) (Icc tailLimit (1 - tailLimit)) ∧
    (∀ word, ∃ u, (Tape.unitOfWord word : Exact) = .real u ∧
      (u = 0 ∨ u ∈ Icc tailLimit (1 - tailLimit))) ∧
    ∀ word word' u v, (Tape.unitOfWord word : Exact) = .real u →
      (Tape.unitOfWord word' : Exact) = .real v → u < v →
        laplaceQuantile d u < laplaceQuantile d v := by
  intro density
  have hdensity : density = Effect.laplace.density d := Effect.laplace.densityOf_logDensity h
  have hlimit := tailLimit_pos
  have hmono {u v : ℝ} (hu : u ∈ Icc tailLimit (1 - tailLimit))
      (hv : v ∈ Icc tailLimit (1 - tailLimit)) (hlt : u < v) :
      laplaceQuantile d u < laplaceQuantile d v := by
    apply laplaceQuantile_lt h (mem_Ico_of_mem hu) (mem_Ico_of_mem hv)
    rwa [clamp_of_mem hu, clamp_of_mem hv]
  rw [hdensity]
  refine ⟨fun tape u hu => ?_, fun u hu => integral_laplaceQuantile h hu, fun u hu => ?_,
    fun u hu v hv => hmono hu hv, fun word => ?_, fun word word' u v hu hv hlt => ?_⟩
  · show (laplaceOfUniform (Exact.real d) (tape.cell tape.position), _) = _
    rw [hu, laplaceOfUniform_real]
    rfl
  · rw [integral_laplaceQuantile h (mem_Ico_of_mem hu), clamp_of_mem hu]
  · obtain ⟨u, hu, hcases⟩ := unitOfWord_cases word
    exact ⟨u, hu, hcases.imp_right fun hu => ⟨hu.1.le, hu.2.le⟩⟩
  · obtain ⟨u', hu', hucases⟩ := unitOfWord_cases word
    obtain ⟨v', hv', hvcases⟩ := unitOfWord_cases word'
    cases hu.symm.trans hu'
    cases hv.symm.trans hv'
    rcases hvcases with rfl | hv
    · -- No uniform is below zero.
      rcases hucases with rfl | hu
      · exact absurd hlt (lt_irrefl 0)
      · exact absurd hlt (hlimit.trans hu.1).not_gt
    · have hvmem : v ∈ Icc tailLimit (1 - tailLimit) := ⟨hv.1.le, hv.2.le⟩
      rcases hucases with rfl | hu
      · apply laplaceQuantile_lt h ⟨le_rfl, one_pos⟩ (mem_Ico_of_mem hvmem)
        rw [clamp_of_mem hvmem, max_eq_left ((min_le_left _ _).trans hlimit.le)]
        exact hv.1
      · exact hmono ⟨hu.1.le, hu.2.le⟩ hvmem hlt

/-- With the standard deviation two, the draws from a quarter, a half and three quarters are the
quartiles of the density, and the draw from zero is below them. -/
theorem sample_laplace_quantile_quartiles :
    let density := densityOf (Effect.laplace.logDensity · (.real 2))
    (0 : ℝ) < 2 ∧ (∫ x in Iic (laplaceQuantile 2 (1 / 4)), density x = 1 / 4) ∧
      (∫ x in Iic (laplaceQuantile 2 (1 / 2)), density x = 1 / 2) ∧
      (∫ x in Iic (laplaceQuantile 2 (3 / 4)), density x = 3 / 4) ∧
      laplaceQuantile 2 0 < laplaceQuantile 2 (1 / 4) := by
  obtain ⟨-, -, quantile, -, -, increasing⟩ := sample_laplace_quantile two_pos
  have hlimit : tailLimit ≤ 1 / 4 := tailLimit_lt.le.trans (by norm_num)
  have hzero : (Tape.unitOfWord 0 : Exact) = .real 0 := by
    rw [(Tape.unitOfWord_real 0).2]
    norm_num
  have hquarter : (Tape.unitOfWord 4611686018427387904 : Exact) = .real (1 / 4) := by
    have hbits : ((4611686018427387904 : UInt64) >>> 11).toNat = 2251799813685248 := by decide
    rw [(Tape.unitOfWord_real _).2, hbits]
    norm_num
  refine ⟨two_pos, quantile _ ⟨hlimit, ?_⟩, quantile _ ⟨?_, ?_⟩, quantile _ ⟨?_, ?_⟩,
    increasing 0 _ 0 (1 / 4) hzero hquarter (by norm_num)⟩
  all_goals linarith

end Effect

end Metropolis
