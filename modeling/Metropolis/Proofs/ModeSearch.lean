import Metropolis.Model.Counts
import Metropolis.Proofs.Factorization
import Metropolis.Proofs.Integrand
import Metropolis.Proofs.Moments

/-!
# The search for the mode

Over the exact numbers the search goes through the intercepts of Newton's method on the integrand of
the subject, from the guess on, until a step is short enough or no step is left. Its curvature is
never zero, so that the quadrature is given a mode and a scale that are real numbers. From the first
step on the search is never below the mode of the integrand, and comes down to it; if it ends for a
short step then it ends near it.
-/

namespace Metropolis

namespace Integrand

variable {f : Integrand} {t : Tally Exact} {u : ℝ}

/-! ## The intercepts of a search -/

/-- The intercept after `k` steps from `u`. -/
noncomputable def iterate (f : Integrand) (u : ℝ) (k : ℕ) : ℝ := f.next^[k] u

theorem iterate_succ (u : ℝ) (k : ℕ) : f.iterate u (k + 1) = f.next (f.iterate u k) :=
  Function.iterate_succ_apply' _ _ _

theorem iterate_next (u : ℝ) (k : ℕ) : f.iterate (f.next u) k = f.iterate u (k + 1) :=
  (Function.iterate_succ_apply _ _ _).symm

theorem mode_le_iterate_succ (u : ℝ) (k : ℕ) : f.mode ≤ f.iterate u (k + 1) := by
  rw [iterate_succ]
  exact f.mode_le_next _

theorem iterate_succ_le (u : ℝ) (k : ℕ) : f.iterate u (k + 2) ≤ f.iterate u (k + 1) := by
  rw [iterate_succ]
  exact f.next_le (mode_le_iterate_succ u k)

/-- Whether a search from `u` that may take `limit + 1` steps takes `k + 1`: only the last one may
be short, and it is if more are allowed. -/
structure Ends (f : Integrand) (u : ℝ) (limit k : ℕ) : Prop where
  le : k ≤ limit
  long : ∀ j < k, 1.0e-10 < |f.iterate u (j + 1) - f.iterate u j|
  short : k < limit → |f.iterate u (k + 1) - f.iterate u k| ≤ 1.0e-10

theorem Ends.of_short (limit : ℕ) (h : |f.next u - u| ≤ 1.0e-10) : f.Ends u limit 0 :=
  ⟨Nat.zero_le _, fun _ hj => absurd hj (Nat.not_lt_zero _), fun _ => h⟩

theorem Ends.zero (u : ℝ) : f.Ends u 0 0 :=
  ⟨le_rfl, fun _ hj => absurd hj (Nat.not_lt_zero _), fun h => absurd h (Nat.not_lt_zero _)⟩

theorem Ends.succ {limit k : ℕ} (h : ¬ |f.next u - u| ≤ 1.0e-10)
    (hends : f.Ends (f.next u) limit k) : f.Ends u (limit + 1) (k + 1) where
  le := Nat.succ_le_succ hends.le
  long j hj := by
    cases j with
    | zero => exact not_le.1 h
    | succ j =>
      have hlong := hends.long j (Nat.lt_of_succ_lt_succ hj)
      rwa [iterate_next, iterate_next] at hlong
  short hk := by
    have hshort := hends.short (Nat.lt_of_succ_lt_succ hk)
    rwa [iterate_next, iterate_next] at hshort

/-! ## The search of a tally -/

/-- Whether `f` is the integrand of a subject with tally `t`. -/
structure IsOf (f : Integrand) (t : Tally Exact) : Prop where
  total : t.total = .real f.total
  count : (Scalar.ofCount t.observations : Exact) = .real f.count

theorem curvature_real (h : f.IsOf t) (u : ℝ) :
    t.curvature (.real f.logMean) (.real f.precision) (.real u) = .real (f.curvature u) := by
  rw [Tally.curvature, h.count, Exact.real_add]
  rfl

theorem modeStep_real (h : f.IsOf t) (u : ℝ) :
    t.modeStep (.real f.logMean) (.real f.precision) (.real u) = .real (f.next u - u) := by
  have hexpected : Exact.real f.count * Scalar.exp (.real f.logMean + .real u) =
      .real (f.expected u) := by
    rw [Exact.real_add]
    rfl
  rw [Tally.modeStep, curvature_real h, h.total, h.count, hexpected, Exact.real_sub,
    Exact.real_mul, Exact.real_sub, Exact.real_div _ (f.curvature_pos u).ne', next,
    add_sub_cancel_left]
  rfl

theorem modeTolerance_real : (Tally.modeTolerance : Exact) = .real 1.0e-10 := rfl

/-- A search takes steps of Newton's method, and gives the last intercept with the curvature at the
one before it. -/
theorem seekMode_real (h : f.IsOf t) (limit : ℕ) (u : ℝ) (last : Exact) :
    ∃ k, f.Ends u limit k ∧
      t.seekMode (.real f.logMean) (.real f.precision) (limit + 1) (.real u) last =
        (.real (f.iterate u (k + 1)), .real (f.curvature (f.iterate u k))) := by
  induction limit generalizing u last with
  | zero =>
    refine ⟨0, .zero u, ?_⟩
    unfold Tally.seekMode
    dsimp only
    rw [modeStep_real h, curvature_real h, Exact.real_add, add_sub_cancel]
    split <;> rfl
  | succ limit ih =>
    unfold Tally.seekMode
    dsimp only
    rw [modeStep_real h, curvature_real h, Exact.real_add, add_sub_cancel, Exact.abs_real,
      modeTolerance_real]
    split
    next hshort => exact ⟨0, .of_short _ ((Exact.real_le _ _).1 hshort), rfl⟩
    next hlong =>
      obtain ⟨k, hends, hseek⟩ := ih (f.next u) (.real (f.curvature u))
      refine ⟨k + 1, hends.succ (mt (Exact.real_le _ _).2 hlong), ?_⟩
      rw [hseek, iterate_next, iterate_next]

/-- The intercept that a search starts from. -/
noncomputable def guess (f : Integrand) : ℝ :=
  Real.log (max f.total 0.5 / f.count) - f.logMean

theorem firstGuess_real (h : f.IsOf t) : t.firstGuess (.real f.logMean) = .real f.guess := by
  have hpos : 0 < max f.total 0.5 / f.count :=
    div_pos (lt_max_of_lt_right (by norm_num)) f.count_pos
  rw [Tally.firstGuess, h.total, h.count, Exact.ofScientific_eq, Exact.larger_real,
    Exact.real_div _ f.count_pos.ne', Exact.log_real hpos, Exact.real_sub, guess]

/-! ## The marginal probability -/

section Marginal

variable {deviation : ℝ}

theorem precision_real (h : 0 < deviation) (hprecision : f.precision = (deviation ^ 2)⁻¹) :
    (1 / (.real deviation * .real deviation) : Exact) = .real f.precision := by
  rw [Exact.one_eq, Exact.real_mul, Exact.real_div _ (mul_pos h h).ne', hprecision, one_div, sq]

theorem scale_real (h : 0 < u) : (1 / Scalar.sqrt (.real u) : Exact) = .real (1 / √u) := by
  rw [Exact.one_eq, Exact.sqrt_real h.le, Exact.real_div _ (Real.sqrt_pos.2 h).ne']

/-- The quadrature is centred where the search ends. -/
theorem logMarginal_real (hdeviation : 0 < deviation)
    (hprecision : f.precision = (deviation ^ 2)⁻¹) {centre : ℝ}
    (hseek : t.seekMode (.real f.logMean) (.real f.precision) 50 (t.firstGuess (.real f.logMean))
      (.real f.precision) = (.real centre, .real (f.curvature u)))
    (rule : Quadrature.Rule Exact) :
    t.logMarginal rule (.real f.logMean) (.real deviation) =
      rule.logIntegral (.real centre) (.real (1 / √(f.curvature u)))
        (t.logIntegrand (.real f.logMean) (.real deviation)) := by
  have hpositive : 0 < Exact.real deviation ∧ Scalar.isFinite (Exact.real deviation) = true :=
    ⟨(Exact.zero_lt_real_iff _).2 hdeviation, rfl⟩
  unfold Tally.logMarginal
  rw [if_pos hpositive, precision_real hdeviation hprecision]
  dsimp only
  rw [hseek]
  dsimp only
  rw [if_pos (Exact.isFinite_real _), scale_real (f.curvature_pos u)]

/-- The integrand that is evaluated differs by a factor that does not depend on the intercept. -/
theorem logIntegrand_real (h : f.IsOf t) (hdeviation : 0 < deviation)
    (hprecision : f.precision = (deviation ^ 2)⁻¹) {factorials : ℝ}
    (hfactorials : t.logFactorials = .real factorials) (u : ℝ) :
    t.logIntegrand (.real f.logMean) (.real deviation) (.real u) =
      .real (f.log u + (-factorials -
        (Real.log (2 * Real.pi) + Real.log (deviation * deviation)) / 2)) := by
  have hnormal := (Effect.normal.isLogOf_logDensity hdeviation).inside u (Set.mem_univ u)
  have hlog := Distribution.log_normal 0 u (mul_pos hdeviation hdeviation)
  dsimp only [Effect.density] at hnormal
  rw [hlog] at hnormal
  have hprobability : t.logProbability (.real (f.logMean + u)) =
      .real (f.total * (f.logMean + u) + -f.count * Real.exp (f.logMean + u) - factorials) := by
    rw [Tally.logProbability, h.total, h.count, hfactorials]
    rfl
  rw [Tally.logIntegrand, Exact.real_add, hprobability, hnormal, Exact.real_add,
    f.log_eq hprecision]
  congr 1
  field_simp
  ring

end Marginal

end Integrand

namespace Tally

variable {t : Tally Exact}

/-- Whether Newton's method goes through the intercepts `x`, from the first guess on. -/
structure Visits (t : Tally Exact) (logMean precision : ℝ) (x : ℕ → ℝ) : Prop where
  first : t.firstGuess (.real logMean) = .real (x 0)
  next (k : ℕ) : Exact.real (x k) +
    t.modeStep (.real logMean) (.real precision) (.real (x k)) = .real (x (k + 1))

theorem visits_iterate {f : Integrand} (h : f.IsOf t) :
    t.Visits f.logMean f.precision (f.iterate f.guess) where
  first := Integrand.firstGuess_real h
  next k := by
    rw [Integrand.modeStep_real h, Exact.real_add, add_sub_cancel, Integrand.iterate_succ]

/-- The integrand of a tally. -/
theorem exists_integrand {total : ℝ} (htotal : t.total = .real total)
    (observed : 1 ≤ t.observations) (logMean : ℝ) {deviation : ℝ} (positive : 0 < deviation) :
    ∃ f : Integrand, f.IsOf t ∧ f.total = total ∧
      f.count = (min t.observations Scalar.countLimit : ℕ) ∧ f.logMean = logMean ∧
      f.precision = (deviation ^ 2)⁻¹ :=
  ⟨⟨total, (min t.observations Scalar.countLimit : ℕ), logMean, (deviation ^ 2)⁻¹,
    Exact.min_countLimit_pos observed, by positivity⟩, ⟨htotal, rfl⟩, rfl, rfl, rfl, rfl⟩

/-- The integrand of a subject has one mode. The search goes through real intercepts of positive
curvature, which after the first step are never below the mode and never rise again, and the
quadrature is centred on the last one with the scale of the last curvature. If the last step is a
short one then that is near the mode. -/
theorem logMarginal_mode (t : Tally Exact) {total : ℝ} (htotal : t.total = .real total)
    (observed : 1 ≤ t.observations) (counted : t.observations < 2 ^ 32) (logMean : ℝ)
    {deviation : ℝ} (positive : 0 < deviation) :
    let precision := (deviation ^ 2)⁻¹
    let log := fun u : ℝ => total * (logMean + u) - t.observations * Real.exp (logMean + u) -
      u ^ 2 / (2 * deviation ^ 2)
    ∃ (mode : ℝ) (x curvature : ℕ → ℝ),
      (∀ u, u ≠ mode → log u < log mode) ∧
      (∀ factorials, t.logFactorials = .real factorials → ∃ constant, ∀ u,
        t.logIntegrand (.real logMean) (.real deviation) (.real u) = .real (log u + constant)) ∧
      t.Visits logMean precision x ∧
      (∀ k, 0 < curvature k ∧ t.curvature (.real logMean) (.real precision) (.real (x k)) =
        .real (curvature k)) ∧
      (∀ k, mode ≤ x (k + 1) ∧ x (k + 2) ≤ x (k + 1)) ∧
      ∃ k < 50,
        t.seekMode (.real logMean) (.real precision) 50 (t.firstGuess (.real logMean))
          (.real precision) = (.real (x (k + 1)), .real (curvature k)) ∧
        (∀ rule, t.logMarginal rule (.real logMean) (.real deviation) =
          rule.logIntegral (.real (x (k + 1))) (.real (1 / √(curvature k)))
            (t.logIntegrand (.real logMean) (.real deviation))) ∧
        (∀ j < k, 1.0e-10 < |x (j + 1) - x j|) ∧
        (k < 49 → |x (k + 1) - x k| ≤ 1.0e-10) ∧
        (|x (k + 1) - x k| ≤ 1.0e-10 → |x (k + 1) - mode| ≤ 2.0e-10) := by
  obtain ⟨f, hf, rfl, hcount, rfl, hprecision⟩ :=
    exists_integrand htotal observed logMean positive
  have hobservations : (t.observations : ℝ) = f.count := by
    have hlimit : t.observations ≤ Scalar.countLimit := Nat.le_of_lt_succ counted
    rw [hcount, Nat.min_eq_left hlimit]
  rw [← hprecision]
  intro precision log
  have hlog : log = f.log := by
    funext u
    rw [f.log_eq hprecision, ← hobservations]
  obtain ⟨k, hends, hseek⟩ := Integrand.seekMode_real hf 49 f.guess (.real f.precision)
  rw [← Integrand.firstGuess_real hf] at hseek
  refine ⟨f.mode, f.iterate f.guess, fun k => f.curvature (f.iterate f.guess k), ?_,
    fun factorials hfactorials => ?_, ?_, fun k => ⟨f.curvature_pos _, ?_⟩,
    fun k => ⟨Integrand.mode_le_iterate_succ _ k, Integrand.iterate_succ_le _ k⟩,
    k, Nat.lt_succ_of_le hends.le, ?_, Integrand.logMarginal_real positive hprecision hseek,
    hends.long, hends.short, fun hshort => ?_⟩
  · rw [hlog]
    exact fun u hu => f.log_lt_log_mode hu
  · rw [hlog]
    exact ⟨_, Integrand.logIntegrand_real hf positive hprecision hfactorials⟩
  · exact visits_iterate hf
  · exact Integrand.curvature_real hf _
  · exact hseek
  · rw [Integrand.iterate_succ] at hshort ⊢
    linarith [f.abs_next_sub_mode_le (by norm_num) hshort]

/-- Two counts with the total three, at the common rate one and the standard deviation one. -/
theorem logMarginal_mode_twoCounts :
    let t : Tally Exact := ⟨7, 2, .real 3, .real (Real.log 2)⟩
    let log := fun u : ℝ => 3 * (0 + u) - (2 : ℕ) * Real.exp (0 + u) - u ^ 2 / (2 * 1 ^ 2)
    1 ≤ t.observations ∧ t.observations < 2 ^ 32 ∧ (0 : ℝ) < 1 ∧
      ∃ (mode : ℝ) (x curvature : ℕ → ℝ), (∀ u, u ≠ mode → log u < log mode) ∧
        t.firstGuess (.real 0) = .real (x 0) ∧ mode ≤ x 1 ∧ x 2 ≤ x 1 ∧
        ∃ k < 50, ∀ rule, t.logMarginal rule (.real 0) (.real 1) =
          rule.logIntegral (.real (x (k + 1))) (.real (1 / √(curvature k)))
            (t.logIntegrand (.real 0) (.real 1)) := by
  intro t log
  have hobserved : 1 ≤ t.observations := by decide
  have hcounted : t.observations < 2 ^ 32 := by decide
  obtain ⟨mode, x, curvature, maximum, -, visits, -, above, k, hk, -, marginal, -⟩ :=
    logMarginal_mode t rfl hobserved hcounted 0 one_pos
  exact ⟨hobserved, hcounted, one_pos, mode, x, curvature, maximum, visits.first,
    (above 0).1, (above 0).2, k, hk, marginal⟩

end Tally

end Metropolis
