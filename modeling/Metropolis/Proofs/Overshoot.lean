import Mathlib.Analysis.Complex.ExponentialBounds
import Metropolis.Proofs.ModeSearch

/-!
# How many steps the search takes

The first step may end far above the mode. From there the search comes down by about one with each
step, until it is near the mode and the distance is squared with each step. So the search ends for a
short step if it may take a few steps more than the distance after the first one. Unless the first
step ends so high that the prior alone would take longer ones, no step down is longer than one, and
fewer steps than that distance are not enough. The distance has no bound, whatever the counts and
the standard deviation are.
-/

namespace Metropolis

namespace Integrand

variable (f : Integrand) {u d : ℝ} {n limit k : ℕ}

/-! ## Coming down -/

theorem iterate_add (u : ℝ) (m n : ℕ) : f.iterate u (m + n) = f.iterate (f.iterate u m) n := by
  unfold iterate
  rw [Nat.add_comm, Function.iterate_add_apply]

/-- Above the mode the search stays between the mode and where it is. -/
theorem iterate_mem_Icc (h : f.mode ≤ u) (k : ℕ) : f.iterate u k ∈ Set.Icc f.mode u := by
  induction k with
  | zero => exact ⟨h, le_rfl⟩
  | succ k ih =>
    rw [iterate_succ]
    exact ⟨f.mode_le_next _, (f.next_le ih.1).trans ih.2⟩

theorem next_sub_mode_le_exp (h : f.mode ≤ u) :
    f.next u - f.mode ≤ u - f.mode - 1 + Real.exp (-(u - f.mode)) := by
  have hstep := f.one_sub_exp_le h
  rw [neg_sub]
  linarith

/-- Near the mode the distance is squared. -/
theorem next_sub_mode_le_sq (h : f.mode ≤ u) (hd : u - f.mode ≤ d) :
    f.next u - f.mode ≤ d ^ 2 / 2 := by
  have hdistance : 0 ≤ u - f.mode := sub_nonneg.2 h
  have hnext := f.next_sub_mode_le_exp h
  generalize u - f.mode = e at hd hdistance hnext
  have hquadratic := Real.quadratic_le_exp_of_nonneg hdistance
  have hexp : Real.exp (-e) ≤ 1 - e + e ^ 2 / 2 := by
    rw [Real.exp_neg, inv_le_iff_one_le_mul₀ (Real.exp_pos e)]
    have hfactor : 0 ≤ 1 - e + e ^ 2 / 2 := by nlinarith [sq_nonneg (e - 1)]
    calc (1 : ℝ) ≤ (1 - e + e ^ 2 / 2) * (1 + e + e ^ 2 / 2) := by nlinarith [sq_nonneg (e ^ 2)]
      _ ≤ (1 - e + e ^ 2 / 2) * Real.exp e := mul_le_mul_of_nonneg_left hquadratic hfactor
  have hsquare : e ^ 2 ≤ d ^ 2 := pow_le_pow_left₀ hdistance hd 2
  linarith

theorem exp_neg_le (hd : 9 / 10 ≤ d) : Real.exp (-d) ≤ 41 / 100 := by
  have hone := Real.exp_one_gt_d9
  have htenth : 9 / 10 ≤ Real.exp (-(1 / 10)) := by
    linarith [Real.add_one_le_exp (-(1 / 10) : ℝ)]
  have hproduct : Real.exp 1 * Real.exp (-(1 / 10)) ≤ Real.exp d := by
    rw [← Real.exp_add]
    exact Real.exp_le_exp.2 (by linarith)
  rw [Real.exp_neg, inv_le_comm₀ (Real.exp_pos _) (by norm_num)]
  nlinarith

/-- What a distance to the mode comes to in steps of one, with an allowance for the steps that are
shorter. -/
noncomputable def stepsFrom (d : ℝ) : ℝ := d - 4 / 3 * Real.exp (-d)

theorem stepsFrom_le (d : ℝ) : stepsFrom d ≤ d := by
  have := Real.exp_pos (-d)
  unfold stepsFrom
  linarith

theorem le_of_stepsFrom_le (h : stepsFrom d ≤ 1 / 3) : d ≤ 9 / 10 := by
  by_contra hfar
  have := exp_neg_le (not_le.1 hfar).le
  unfold stepsFrom at h
  linarith

/-- As long as the mode is far, one step is taken off. -/
theorem stepsFrom_next_le (hfar : 9 / 10 ≤ u - f.mode) :
    stepsFrom (f.next u - f.mode) ≤ stepsFrom (u - f.mode) - 1 := by
  have hnext := f.next_sub_mode_le_exp (u := u) (by linarith)
  generalize u - f.mode = e at hfar hnext
  generalize f.next u - f.mode = e' at hnext
  have hshort := exp_neg_le hfar
  have hgrowth : 7 / 4 ≤ Real.exp (1 - Real.exp (-e)) := by
    have hquadratic := Real.quadratic_le_exp_of_nonneg (x := 1 - Real.exp (-e)) (by linarith)
    nlinarith
  have hexp : Real.exp (-e) * Real.exp (1 - Real.exp (-e)) ≤ Real.exp (-e') := by
    rw [← Real.exp_add]
    exact Real.exp_le_exp.2 (by linarith)
  have hgain := mul_le_mul_of_nonneg_left hgrowth (Real.exp_pos (-e)).le
  unfold stepsFrom
  linarith

theorem iterate_near (h : f.mode ≤ u) (hsteps : stepsFrom (u - f.mode) ≤ n + 1 / 3) :
    f.iterate u n - f.mode ≤ 9 / 10 := by
  induction n generalizing u with
  | zero =>
    rw [Nat.cast_zero, zero_add] at hsteps
    exact le_of_stepsFrom_le hsteps
  | succ n ih =>
    rcases le_total (u - f.mode) (9 / 10) with hnear | hfar
    · have hle := (f.iterate_mem_Icc h (n + 1)).2
      linarith
    · have hnext := f.stepsFrom_next_le hfar
      rw [← iterate_next]
      apply ih (f.mode_le_next u)
      push_cast at hsteps
      linarith

/-- Five more steps come from near the mode to where a step is short. -/
theorem iterate_five_le (h : f.mode ≤ u) (hnear : u - f.mode ≤ 9 / 10) :
    f.iterate u 5 - f.mode ≤ 1.0e-10 := by
  have square {k : ℕ} {d d' : ℝ} (hd : f.iterate u k - f.mode ≤ d) (hd' : d ^ 2 / 2 ≤ d') :
      f.iterate u (k + 1) - f.mode ≤ d' := by
    rw [iterate_succ]
    exact (f.next_sub_mode_le_sq (f.iterate_mem_Icc h k).1 hd).trans hd'
  have hfirst : f.iterate u 1 - f.mode ≤ 41 / 100 := square hnear (by norm_num)
  have hsecond : f.iterate u 2 - f.mode ≤ 1 / 10 := square hfirst (by norm_num)
  have hthird : f.iterate u 3 - f.mode ≤ 5 / 1000 := square hsecond (by norm_num)
  have hfourth : f.iterate u 4 - f.mode ≤ 13 / 1000000 := square hthird (by norm_num)
  exact square hfourth (by norm_num)

/-- A step is short once there were as many as the distance after the first one, and six. -/
theorem short_of_overshoot (h : f.next u - f.mode ≤ n) :
    |f.iterate u (n + 7) - f.iterate u (n + 6)| ≤ 1.0e-10 := by
  have hmode := f.mode_le_next u
  have hnear := f.iterate_near hmode (n := n) (by linarith [stepsFrom_le (f.next u - f.mode)])
  have hfive := f.iterate_five_le (f.iterate_mem_Icc hmode n).1 hnear
  rw [← iterate_add, iterate_next] at hfive
  have habove := f.mode_le_iterate_succ u (n + 5)
  have hnext := f.mode_le_iterate_succ u (n + 6)
  have hdown := f.iterate_succ_le u (n + 5)
  rw [abs_of_nonpos (sub_nonpos.2 hdown)]
  linarith

/-! ## Steps that are not enough -/

/-- No step down is longer than one from where the prior alone would not take a longer one. -/
theorem sub_next_le_one (h : u * f.precision ≤ f.total + f.precision) : u - f.next u ≤ 1 := by
  have hstep : u - f.next u = -f.slope u / f.curvature u := by
    rw [next]
    ring
  rw [hstep, div_le_one (f.curvature_pos u), slope, curvature]
  linarith

theorem sub_le_iterate (h : f.next u * f.precision ≤ f.total + f.precision) (k : ℕ) :
    f.next u - k ≤ f.iterate u (k + 1) := by
  induction k with
  | zero =>
    rw [Nat.cast_zero, sub_zero]
    rfl
  | succ k ih =>
    have hle : f.iterate u (k + 1) ≤ f.next u := by
      rw [← iterate_next]
      exact (f.iterate_mem_Icc (f.mode_le_next u) k).2
    have hprecision : f.iterate u (k + 1) * f.precision ≤ f.next u * f.precision :=
      mul_le_mul_of_nonneg_right hle f.precision_pos.le
    have hstep := f.sub_next_le_one (hprecision.trans h)
    rw [← iterate_succ] at hstep
    push_cast
    linarith

/-- Steps are long as long as there are fewer than the distance after the first one. -/
theorem long_of_overshoot (h : f.next u * f.precision ≤ f.total + f.precision)
    (hfar : limit ≤ f.next u - f.mode) (hk : k < limit) :
    1.0e-10 < |f.iterate u (k + 1) - f.iterate u k| := by
  have hle : (k : ℝ) + 1 ≤ limit := by exact_mod_cast hk
  have hiterate := f.sub_le_iterate h k
  by_contra hshort
  rw [iterate_succ] at hshort hiterate
  have hnear := f.next_sub_mode_le (by norm_num) (not_lt.1 hshort)
  norm_num at hnear
  linarith

/-! ## First steps that end far above the mode -/

theorem expected_guess : f.expected f.guess = max f.total 0.5 := by
  have hpos : 0 < max f.total 0.5 / f.count :=
    div_pos (lt_max_of_lt_right (by norm_num)) f.count_pos
  rw [expected, guess, add_sub_cancel, Real.exp_log hpos, mul_div_cancel₀ _ f.count_pos.ne']

theorem next_guess : f.next f.guess = f.guess +
    (f.total - max f.total 0.5 - f.guess * f.precision) /
      (max f.total 0.5 + f.precision) := by
  rw [next, slope, curvature, expected_guess]

/-- The integrand at another common rate. -/
def withMean (f : Integrand) (logMean : ℝ) : Integrand := { f with logMean }

/-- The first step ends as far above the mode as one likes, for a common rate that is far above the
counts. -/
theorem exists_overshoot {distance : ℝ} (hdistance : 0 ≤ distance) :
    ∃ logMean, let g := f.withMean logMean
      g.next g.guess * g.precision ≤ g.total + g.precision ∧
        distance ≤ g.next g.guess - g.mode := by
  have hprecision := f.precision_pos
  obtain ⟨least, hleast⟩ : ∃ least, max f.total 0.5 = least := ⟨_, rfl⟩
  have hpos : 0 < least := hleast ▸ lt_max_of_lt_right (by norm_num)
  have htotal : f.total ≤ least := hleast ▸ le_max_left _ _
  -- The first step is to be `d + distance`, with the mode not more than `d` above the guess.
  obtain ⟨d, hone, hd⟩ : ∃ d, 1 ≤ d ∧
      least * d = least + 2 * (distance * (least + f.precision)) := by
    refine ⟨1 + 2 * (distance * (least + f.precision)) / least,
      le_add_of_nonneg_right (by positivity), ?_⟩
    rw [mul_add, mul_one, mul_div_cancel₀ _ hpos.ne']
  obtain ⟨s, hs⟩ : ∃ s, s * f.precision =
      (d + distance) * (least + f.precision) + (least - f.total) :=
    ⟨_, div_mul_cancel₀ _ hprecision.ne'⟩
  refine ⟨Real.log (least / f.count) + s, ?_⟩
  intro g
  have hguess : g.guess = -s := by
    show Real.log (max f.total 0.5 / f.count) - (Real.log (least / f.count) + s) = -s
    rw [hleast]
    ring
  have hexpected : g.expected g.guess = least := g.expected_guess.trans hleast
  have hstep : g.slope g.guess = (d + distance) * g.curvature g.guess := by
    rw [slope, curvature, hexpected, hguess]
    show f.total - least - -s * f.precision = (d + distance) * (least + f.precision)
    linarith
  have hnext : g.next g.guess = -s + (d + distance) := by
    rw [next, hstep, mul_div_cancel_right₀ _ (g.curvature_pos _).ne', hguess]
  constructor
  · have hproduct : 0 ≤ (d + distance) * least := by positivity
    show g.next g.guess * f.precision ≤ f.total + f.precision
    rw [hnext]
    linarith
  · have hmode : g.mode ≤ g.guess + d := by
      have hsquare : least * d ≤ least * d ^ 2 := by
        gcongr
        exact le_self_pow₀ hone two_ne_zero
      have hexp : least * (1 + d + d ^ 2 / 2) ≤ least * Real.exp d := by
        gcongr
        exact Real.quadratic_le_exp_of_nonneg (by linarith)
      rw [mode_le_iff, slope_add, hstep, curvature, hexpected]
      show (d + distance) * (least + f.precision) - least * (Real.exp d - 1) - d * f.precision ≤ 0
      linarith
    linarith

/-! ## The end of the search -/

variable {f}

/-- A search that comes to a short step ends for one. -/
theorem Ends.short_of_le {j : ℕ} (hends : f.Ends u limit k) (hj : j ≤ limit)
    (hshort : |f.iterate u (j + 1) - f.iterate u j| ≤ 1.0e-10) :
    |f.iterate u (k + 1) - f.iterate u k| ≤ 1.0e-10 := by
  rcases hends.le.lt_or_eq with hk | rfl
  · exact hends.short hk
  · rcases hj.lt_or_eq with hj | rfl
    · exact absurd hshort (not_le.2 (hends.long j hj))
    · exact hshort

/-- A search that does not come to a short step takes all that it may. -/
theorem Ends.eq_limit (hends : f.Ends u limit k)
    (hlong : ∀ j ≤ limit, 1.0e-10 < |f.iterate u (j + 1) - f.iterate u j|) : k = limit :=
  hends.le.eq_of_not_lt fun hk => not_le.2 (hlong k hends.le) (hends.short hk)

end Integrand

namespace Tally

open Integrand

/-- The intercept that a search of at most `limit` steps ends at. -/
noncomputable def centre (t : Tally Exact) (logMean precision : ℝ) (limit : ℕ) : Exact :=
  (t.seekMode (.real logMean) (.real precision) limit (t.firstGuess (.real logMean))
    (.real precision)).1

variable {t : Tally Exact} {f : Integrand} {n limit : ℕ}

theorem centre_of_near (hf : f.IsOf t) (hnear : f.next f.guess - f.mode ≤ n)
    (hlimit : n + 7 ≤ limit) :
    ∃ k < limit, t.centre f.logMean f.precision limit = .real (f.iterate f.guess (k + 1)) ∧
      |f.iterate f.guess (k + 1) - f.iterate f.guess k| ≤ 1.0e-10 ∧
      |f.iterate f.guess (k + 1) - f.mode| ≤ 2.0e-10 := by
  obtain ⟨limit, rfl⟩ : ∃ l, limit = l + 1 := ⟨limit - 1, by omega⟩
  obtain ⟨k, hends, hseek⟩ := seekMode_real hf limit f.guess (.real f.precision)
  have hshort := hends.short_of_le (by omega) (f.short_of_overshoot hnear)
  refine ⟨k, Nat.lt_succ_of_le hends.le, ?_, hshort, ?_⟩
  · rw [centre, firstGuess_real hf, hseek]
  · rw [iterate_succ] at hshort ⊢
    linarith [f.abs_next_sub_mode_le (by norm_num) hshort]

theorem centre_of_far (hf : f.IsOf t)
    (hprior : f.next f.guess * f.precision ≤ f.total + f.precision)
    (hfar : limit + 1 ≤ f.next f.guess - f.mode) :
    (∀ k ≤ limit, 1.0e-10 < |f.iterate f.guess (k + 1) - f.iterate f.guess k|) ∧
      t.centre f.logMean f.precision (limit + 1) = .real (f.iterate f.guess (limit + 1)) ∧
      1 ≤ f.iterate f.guess (limit + 1) - f.mode := by
  have hlong (k : ℕ) (hk : k ≤ limit) :
      1.0e-10 < |f.iterate f.guess (k + 1) - f.iterate f.guess k| :=
    f.long_of_overshoot hprior (by exact_mod_cast hfar) (Nat.lt_succ_of_le hk)
  obtain ⟨k, hends, hseek⟩ := seekMode_real hf limit f.guess (.real f.precision)
  obtain rfl := hends.eq_limit hlong
  refine ⟨hlong, ?_, ?_⟩
  · rw [centre, firstGuess_real hf, hseek]
  · have hiterate := f.sub_le_iterate hprior k
    linarith

theorem logMarginal_centre (hf : f.IsOf t) {deviation : ℝ} (positive : 0 < deviation)
    (hprecision : f.precision = (deviation ^ 2)⁻¹) :
    ∃ scale > 0, ∀ rule, t.logMarginal rule (.real f.logMean) (.real deviation) =
      rule.logIntegral (t.centre f.logMean f.precision 50) (.real scale)
        (t.logIntegrand (.real f.logMean) (.real deviation)) := by
  obtain ⟨k, -, hseek⟩ := seekMode_real hf 49 f.guess (.real f.precision)
  rw [← firstGuess_real hf] at hseek
  refine ⟨1 / √(f.curvature (f.iterate f.guess k)),
    one_div_pos.2 (Real.sqrt_pos.2 (f.curvature_pos _)), ?_⟩
  rw [centre, hseek]
  exact logMarginal_real positive hprecision hseek

/-- The integrand of a subject has one mode, and the first step of the search ends there or above. A
search that may take seven steps more than the distance after the first one ends for a short step
and near the mode. A search that may take no more steps than that distance takes only long ones and
ends at least one above the mode, unless the first step ends high. The quadrature is centred on the
end of a search of fifty steps. For every subject and standard deviation, however many steps a
search may take, there is a common rate for which all of them are long. -/
theorem centre_overshoot (t : Tally Exact) {total : ℝ} (htotal : t.total = .real total)
    (observed : 1 ≤ t.observations) {deviation : ℝ} (positive : 0 < deviation) :
    let precision := (deviation ^ 2)⁻¹
    let count : ℕ := min t.observations Scalar.countLimit
    (∀ logMean : ℝ, ∃ (mode : ℝ) (x : ℕ → ℝ),
      let log := fun u : ℝ => total * (logMean + u) - count * Real.exp (logMean + u) -
        u ^ 2 / (2 * deviation ^ 2)
      (∀ u, u ≠ mode → log u < log mode) ∧ t.Visits logMean precision x ∧ mode ≤ x 1 ∧
      (∀ n : ℕ, x 1 - mode ≤ n → ∀ limit ≥ n + 7, ∃ k < limit,
        t.centre logMean precision limit = .real (x (k + 1)) ∧
          |x (k + 1) - x k| ≤ 1.0e-10 ∧ |x (k + 1) - mode| ≤ 2.0e-10) ∧
      (x 1 ≤ 1 + total * deviation ^ 2 → ∀ limit : ℕ, limit + 1 ≤ x 1 - mode →
        (∀ k ≤ limit, 1.0e-10 < |x (k + 1) - x k|) ∧
          t.centre logMean precision (limit + 1) = .real (x (limit + 1)) ∧
          1 ≤ x (limit + 1) - mode) ∧
      ∃ scale > 0, ∀ rule, t.logMarginal rule (.real logMean) (.real deviation) =
        rule.logIntegral (t.centre logMean precision 50) (.real scale)
          (t.logIntegrand (.real logMean) (.real deviation))) ∧
    ∀ limit : ℕ, ∃ (logMean : ℝ) (x : ℕ → ℝ), t.Visits logMean precision x ∧
      ∀ k ≤ limit, 1.0e-10 < |x (k + 1) - x k| := by
  intro precision count
  have hscale : 0 < deviation ^ 2 := pow_pos positive 2
  refine ⟨fun logMean => ?_, fun limit => ?_⟩
  · obtain ⟨f, hf, rfl, hcount, rfl, hprecision⟩ :=
      exists_integrand htotal observed logMean positive
    refine ⟨f.mode, f.iterate f.guess, ?_⟩
    intro log
    have hlog : log = f.log := by
      funext u
      rw [f.log_eq hprecision, show f.count = count from hcount]
    have hprior (h : f.next f.guess ≤ 1 + f.total * deviation ^ 2) :
        f.next f.guess * f.precision ≤ f.total + f.precision := by
      rw [hprecision, ← div_eq_mul_inv, div_le_iff₀ hscale, add_mul,
        inv_mul_cancel₀ hscale.ne', add_comm]
      exact h
    rw [show precision = f.precision from hprecision.symm, hlog]
    refine ⟨fun u hu => f.log_lt_log_mode hu, visits_iterate hf, f.mode_le_next _,
      fun n hnear limit hlimit => centre_of_near hf hnear hlimit,
      fun h limit hfar => centre_of_far hf (hprior h) hfar,
      logMarginal_centre hf positive hprecision⟩
  · obtain ⟨f, hf, rfl, hcount, -, hprecision⟩ := exists_integrand htotal observed 0 positive
    have hdistance : (0 : ℝ) ≤ limit + 1 := by positivity
    obtain ⟨logMean, hprior, hfar⟩ := f.exists_overshoot hdistance
    have hg : (f.withMean logMean).IsOf t := ⟨hf.total, hf.count⟩
    rw [show precision = (f.withMean logMean).precision from hprecision.symm]
    exact ⟨logMean, _, visits_iterate hg, (centre_of_far hg hprior hfar).1⟩

/-- Two counts with the total three and the standard deviation one: for some common rate none of
fifty steps is short. -/
theorem centre_overshoot_twoCounts :
    let t : Tally Exact := ⟨7, 2, .real 3, .real (Real.log 2)⟩
    1 ≤ t.observations ∧ (0 : ℝ) < 1 ∧
      (∃ (mode : ℝ) (x : ℕ → ℝ), t.Visits 0 (1 ^ 2)⁻¹ x ∧ mode ≤ x 1 ∧
        (x 1 - mode ≤ 43 → ∃ k < 50,
          t.centre 0 (1 ^ 2)⁻¹ 50 = .real (x (k + 1)) ∧ |x (k + 1) - mode| ≤ 2.0e-10)) ∧
      ∃ (logMean : ℝ) (x : ℕ → ℝ), t.Visits logMean (1 ^ 2)⁻¹ x ∧
        ∀ k ≤ 49, 1.0e-10 < |x (k + 1) - x k| := by
  intro t
  have hobserved : 1 ≤ t.observations := by decide
  obtain ⟨hall, hlong⟩ := centre_overshoot t rfl hobserved one_pos
  obtain ⟨mode, x, -, visits, above, near, -⟩ := hall 0
  refine ⟨hobserved, one_pos, ⟨mode, x, visits, above, fun hmode => ?_⟩, hlong 49⟩
  obtain ⟨k, hk, hcentre, -, hnear⟩ := near 43 (by exact_mod_cast hmode) 50 (by norm_num)
  exact ⟨k, hk, hcentre, hnear⟩

/-! ## A search that is not over -/

/-- The integrand of one count of zero, at the common rate `exp 100` and the standard deviation
one. -/
noncomputable def zeroCount : Integrand :=
  ⟨0, 1, 100, (1 ^ 2)⁻¹, one_pos, inv_pos.2 (pow_pos one_pos 2)⟩

theorem next_guess_zeroCount : zeroCount.next zeroCount.guess = (-Real.log 2 - 101) / 3 := by
  have hmax : max (0 : ℝ) 0.5 = 1 / 2 := (max_eq_right (by norm_num)).trans (by norm_num)
  have hguess : zeroCount.guess = -Real.log 2 - 100 := by
    show Real.log (max 0 0.5 / 1) - 100 = _
    rw [hmax, div_one, one_div, Real.log_inv]
  rw [zeroCount.next_guess, hguess]
  show _ + (0 - max 0 0.5 - (-Real.log 2 - 100) * (1 ^ 2)⁻¹) / (max 0 0.5 + (1 ^ 2)⁻¹) = _
  rw [hmax]
  ring

theorem mode_zeroCount_le : zeroCount.mode ≤ -94 := by
  have hexp : 94 ≤ Real.exp 6 := by
    have hpow : (2.7 : ℝ) ^ 6 ≤ Real.exp 1 ^ 6 := by
      gcongr
      linarith [Real.exp_one_gt_d9]
    rw [← Real.exp_nat_mul] at hpow
    norm_num at hpow
    linarith
  rw [zeroCount.mode_le_iff]
  show 0 - 1 * Real.exp (100 + -94) - -94 * (1 ^ 2)⁻¹ ≤ 0
  norm_num
  exact hexp

/-- All fifty steps are long, and the quadrature is centred on the last intercept, which is more
than ten above the mode. -/
theorem centre_zeroCount :
    let t : Tally Exact := ⟨0, 1, .real 0, .real 0⟩
    let log := fun u : ℝ => 0 * (100 + u) - 1 * Real.exp (100 + u) - u ^ 2 / (2 * 1 ^ 2)
    ∃ (mode : ℝ) (x : ℕ → ℝ), (∀ u, u ≠ mode → log u < log mode) ∧
      t.Visits 100 ((1 : ℝ) ^ 2)⁻¹ x ∧ (∀ k < 50, 1.0e-10 < |x (k + 1) - x k|) ∧
      10 ≤ x 50 - mode ∧
      ∃ scale > 0, ∀ rule, t.logMarginal rule (.real 100) (.real 1) =
        rule.logIntegral (.real (x 50)) (.real scale)
          (t.logIntegrand (.real 100) (.real 1)) := by
  intro t log
  have hf : zeroCount.IsOf t := by
    refine ⟨rfl, ?_⟩
    show Exact.real ((min 1 (2 ^ 32 - 1) : ℕ) : ℝ) = .real 1
    norm_num
  have hlog : log = zeroCount.log := funext fun u => (zeroCount.log_eq rfl u).symm
  have hfirst := next_guess_zeroCount
  have hmode := mode_zeroCount_le
  have hprior : zeroCount.next zeroCount.guess * (1 ^ 2)⁻¹ ≤ 0 + (1 ^ 2)⁻¹ := by
    linarith [Real.log_two_gt_d9]
  have hfar : ((49 : ℕ) : ℝ) + 1 ≤ zeroCount.next zeroCount.guess - zeroCount.mode := by
    norm_num
    linarith [Real.log_two_lt_d9]
  obtain ⟨hlong, hcentre, -⟩ := centre_of_far hf hprior hfar
  have hlast := zeroCount.sub_le_iterate hprior 49
  norm_num at hlast
  obtain ⟨scale, hscale, hmarginal⟩ := logMarginal_centre hf one_pos rfl
  rw [hcentre] at hmarginal
  refine ⟨zeroCount.mode, zeroCount.iterate zeroCount.guess,
    hlog ▸ fun u hu => zeroCount.log_lt_log_mode hu, visits_iterate hf,
    fun k hk => hlong k (Nat.le_of_lt_succ hk), ?_, scale, hscale, hmarginal⟩
  linarith [Real.log_two_lt_d9]

end Tally

end Metropolis
