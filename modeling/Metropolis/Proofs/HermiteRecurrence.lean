import Mathlib.RingTheory.Polynomial.Hermite.Basic
import Mathlib.Dynamics.Newton
import Metropolis.Quadrature.Hermite
import Metropolis.Proofs.Estimates

/-!
# The recurrence of the Hermite polynomials

Over the exact numbers the recurrence evaluates a polynomial of the degree and the parity of the
order. It is the Hermite polynomial with a factor as long as the indices of the recurrence are those
that it counts, and then its derivative is the one that the search for roots takes, by the same
recurrence for the derivatives. A step of the search is thus one of Newton's method.
-/

namespace Metropolis.Quadrature

open Polynomial

/-! ## Hermite polynomials -/

/-- The polynomial before one in a sequence, zero before the first. -/
noncomputable def preceding (p : ℕ → ℝ[X]) : ℕ → ℝ[X]
  | 0 => 0
  | n + 1 => p n

theorem derivative_hermite (n : ℕ) :
    derivative (Polynomial.hermite (n + 1)) = ((n + 1 : ℕ) : ℤ[X]) * Polynomial.hermite n := by
  induction n with
  | zero =>
    rw [Polynomial.hermite_one, derivative_X, Polynomial.hermite_zero, C_1, zero_add, Nat.cast_one,
      one_mul]
  | succ n ih =>
    rw [Polynomial.hermite_succ (n + 1), derivative_sub, derivative_mul, derivative_X, one_mul, ih,
      derivative_mul, derivative_natCast, zero_mul, zero_add]
    calc Polynomial.hermite (n + 1) + X * (((n + 1 : ℕ) : ℤ[X]) * Polynomial.hermite n) -
          ((n + 1 : ℕ) : ℤ[X]) * derivative (Polynomial.hermite n)
        = Polynomial.hermite (n + 1) + ((n + 1 : ℕ) : ℤ[X]) *
            (X * Polynomial.hermite n - derivative (Polynomial.hermite n)) := by ring
      _ = ((n + 1 + 1 : ℕ) : ℤ[X]) * Polynomial.hermite (n + 1) := by
        rw [← Polynomial.hermite_succ, Nat.cast_succ (n + 1)]
        ring

theorem hermite_succ_succ (n : ℕ) : Polynomial.hermite (n + 2) =
    X * Polynomial.hermite (n + 1) - ((n + 1 : ℕ) : ℤ[X]) * Polynomial.hermite n := by
  rw [Polynomial.hermite_succ, derivative_hermite]

/-- The Hermite polynomials for the weight `exp (-x²)`, of which those for the weight
`exp (-x² / 2)` are the probabilists'. -/
noncomputable def physicists (n : ℕ) : ℝ[X] :=
  C (√(2 : ℕ) ^ n) * ((Polynomial.hermite n).map (Int.castRingHom ℝ)).comp (C √(2 : ℕ) * X)

theorem physicists_zero : physicists 0 = 1 := by
  rw [physicists, Polynomial.hermite_zero, pow_zero, C_1, C_1, one_mul, Polynomial.map_one,
    one_comp]

theorem C_sqrt_two : C √(2 : ℕ) * C √(2 : ℕ) = (C 2 : ℝ[X]) := by
  rw [← C_mul, Real.mul_self_sqrt (Nat.cast_nonneg 2), Nat.cast_two]

theorem physicists_succ (n : ℕ) : physicists (n + 1) =
    C 2 * X * physicists n - C (2 * (n : ℝ)) * preceding physicists n := by
  cases n with
  | zero =>
    rw [physicists_zero, preceding, mul_zero, sub_zero, mul_one, physicists,
      Polynomial.hermite_one, map_X, X_comp, pow_one, ← mul_assoc, C_sqrt_two]
  | succ n =>
    rw [preceding]
    unfold physicists
    rw [hermite_succ_succ, Polynomial.map_sub, Polynomial.map_mul, Polynomial.map_mul, map_X,
      Polynomial.map_natCast, sub_comp, mul_comp, mul_comp, X_comp, natCast_comp, C_mul, C_pow,
      C_pow, C_pow, ← C_sqrt_two, C_eq_natCast]
    ring

theorem derivative_physicists (n : ℕ) :
    derivative (physicists (n + 1)) = C (2 * ((n + 1 : ℕ) : ℝ)) * physicists n := by
  unfold physicists
  rw [derivative_C_mul, derivative_comp, derivative_map, derivative_C_mul_X, derivative_hermite,
    Polynomial.map_mul, Polynomial.map_natCast, mul_comp, natCast_comp, C_mul, C_pow, C_pow,
    ← C_sqrt_two, C_eq_natCast]
  ring

/-! ## The orthonormal polynomials -/

/-- The polynomial of degree zero, rounded to a decimal fraction. -/
noncomputable def constantTerm : ℝ := 0.7511255444649425

theorem constantTerm_pos : 0 < constantTerm := by
  rw [constantTerm]
  norm_num

/-- The factor that makes the polynomial of degree `n` orthonormal. -/
noncomputable def factor (n : ℕ) : ℝ := constantTerm / √(2 ^ n * n.factorial : ℕ)

theorem factor_zero : factor 0 = constantTerm := by
  rw [factor, pow_zero, Nat.factorial_zero, one_mul, Nat.cast_one, Real.sqrt_one, div_one]

theorem factor_succ (n : ℕ) : factor (n + 1) = factor n / √(2 * (n + 1 : ℕ)) := by
  have hsplit : 2 ^ (n + 1) * (n + 1).factorial = 2 ^ n * n.factorial * (2 * (n + 1)) := by
    rw [Nat.factorial_succ, pow_succ]
    ring
  rw [factor, factor, hsplit, Nat.cast_mul, Nat.cast_mul 2, Real.sqrt_mul (Nat.cast_nonneg _),
    div_div, Nat.cast_two]

/-- The scaled Hermite polynomials. -/
noncomputable def orthonormal (n : ℕ) : ℝ[X] := C (factor n) * physicists n

theorem orthonormal_zero : orthonormal 0 = C constantTerm := by
  rw [orthonormal, factor_zero, physicists_zero, mul_one]

theorem factor_succ_mul (n : ℕ) :
    factor (n + 1) * (2 * (n + 1 : ℕ)) = √(2 * (n + 1 : ℕ)) * factor n := by
  rw [factor_succ, div_mul_eq_mul_div, mul_div_assoc, Real.div_sqrt, mul_comm]

theorem derivative_orthonormal (n : ℕ) :
    derivative (orthonormal (n + 1)) = C √(2 * (n + 1 : ℕ)) * orthonormal n := by
  rw [orthonormal, derivative_C_mul, derivative_physicists, ← mul_assoc, ← C_mul,
    factor_succ_mul, C_mul, mul_assoc, orthonormal]

/-! ## The recurrence -/

/-- The factor in the recurrence of the polynomial that is multiplied by the variable. -/
noncomputable def ahead (k : ℕ) : ℝ := √((2 : ℕ) / (k + 1 : ℕ))

/-- The factor of the polynomial before it. -/
noncomputable def behind (k : ℕ) : ℝ := √(k / (k + 1 : ℕ))

/-- The polynomials of the recurrence in which `index j` stands for `j`. -/
noncomputable def recurrent (index : ℕ → ℕ) : ℕ → ℝ[X]
  | 0 => C constantTerm
  | 1 => C (ahead (index 0)) * (X * C constantTerm)
  | j + 2 => C (ahead (index (j + 1))) * (X * recurrent index (j + 1)) -
      C (behind (index (j + 1))) * recurrent index j

theorem recurrent_succ (index : ℕ → ℕ) (j : ℕ) : recurrent index (j + 1) =
    C (ahead (index j)) * (X * recurrent index j) -
      C (behind (index j)) * preceding (recurrent index) j := by
  cases j with
  | zero => rw [recurrent, recurrent, preceding, mul_zero, sub_zero]
  | succ j => rw [recurrent, preceding]

theorem orthonormal_succ (j : ℕ) : orthonormal (j + 1) =
    C (ahead j) * (X * orthonormal j) - C (behind j) * preceding orthonormal j := by
  have hsqrt {a : ℝ} (ha : 0 ≤ a) (i : ℕ) :
      √(a / (i + 1 : ℕ)) = √(2 * a) / √(2 * (i + 1 : ℕ)) := by
    rw [← mul_div_mul_left _ _ two_ne_zero, Real.sqrt_div (by positivity)]
  have hahead : C (factor (j + 1)) * C 2 = C (ahead j) * C (factor j) := by
    rw [← C_mul, ← C_mul, factor_succ, ahead, Nat.cast_two, hsqrt zero_le_two,
      Real.sqrt_mul_self zero_le_two, div_mul_comm]
  have hbehind : C (factor (j + 1) * (2 * (j : ℝ))) * preceding physicists j =
      C (behind j) * preceding orthonormal j := by
    -- The factors of the first step do not matter, as nothing precedes the first polynomial.
    cases j with
    | zero => rw [preceding, preceding, mul_zero, mul_zero]
    | succ i =>
      have hfactor : factor (i + 2) * (2 * (i + 1 : ℕ)) = behind (i + 1) * factor i := by
        rw [factor_succ (i + 1), div_mul_eq_mul_div, factor_succ_mul, behind,
          hsqrt (Nat.cast_nonneg _), div_mul_eq_mul_div]
      rw [hfactor, preceding, preceding, orthonormal, C_mul, mul_assoc]
  calc orthonormal (j + 1)
      = C (factor (j + 1)) * C 2 * (X * physicists j) -
          C (factor (j + 1) * (2 * (j : ℝ))) * preceding physicists j := by
        rw [orthonormal, physicists_succ, C_mul, C_mul, C_mul]
        ring
    _ = C (ahead j) * (X * orthonormal j) - C (behind j) * preceding orthonormal j := by
        rw [hbehind, hahead, orthonormal]
        ring

theorem recurrent_eq {index : ℕ → ℕ} {n : ℕ} (h : ∀ j < n, index j = j) :
    recurrent index n = orthonormal n := by
  induction n using Nat.twoStepInduction with
  | zero => rw [recurrent, orthonormal_zero]
  | one =>
    rw [recurrent_succ, orthonormal_succ, h 0 one_pos, recurrent, orthonormal_zero]
    rfl
  | more n ih ih' =>
    rw [recurrent_succ, orthonormal_succ, h (n + 1) (Nat.lt_succ_self _), preceding, preceding,
      ih fun j hj => h j (by omega), ih' fun j hj => h j (by omega)]

theorem orthonormal_eq (n : ℕ) : recurrent id n = orthonormal n :=
  recurrent_eq fun j _ => id_eq j

theorem ahead_pos (k : ℕ) : 0 < ahead k := Real.sqrt_pos.2 (by positivity)

theorem ahead_strictAnti : StrictAnti ahead := by
  intro i k hlt
  refine Real.sqrt_lt_sqrt (by positivity) (div_lt_div_of_pos_left (by positivity) ?_ ?_)
  · exact Nat.cast_pos.2 i.succ_pos
  · exact Nat.cast_lt.2 (Nat.succ_lt_succ hlt)

theorem behind_strictMono : StrictMono behind := by
  intro i k hlt
  have hcross : i * (k + 1) < k * (i + 1) := by
    rw [Nat.mul_succ, Nat.mul_succ, Nat.mul_comm k i]
    exact Nat.add_lt_add_left hlt _
  refine Real.sqrt_lt_sqrt (by positivity) ?_
  rw [div_lt_div_iff₀ (by positivity) (by positivity)]
  exact_mod_cast hcross

/-- The coefficient of the highest power. -/
noncomputable def leading (index : ℕ → ℕ) (n : ℕ) : ℝ :=
  constantTerm * ∏ j ∈ Finset.range n, ahead (index j)

theorem leading_pos (index : ℕ → ℕ) (n : ℕ) : 0 < leading index n :=
  mul_pos constantTerm_pos (Finset.prod_pos fun _ _ => ahead_pos _)

theorem recurrent_bounded (index : ℕ → ℕ) (n : ℕ) :
    (recurrent index n).natDegree ≤ n ∧ (preceding (recurrent index) n).natDegree ≤ n ∧
      (recurrent index n).coeff n = leading index n := by
  induction n with
  | zero =>
    rw [recurrent, preceding, natDegree_C, natDegree_zero, coeff_C_zero, leading,
      Finset.prod_range_zero, mul_one]
    exact ⟨le_rfl, le_rfl, rfl⟩
  | succ n ih =>
    obtain ⟨hdegree, hpreceding, hcoeff⟩ := ih
    have hproduct : (X * recurrent index n).natDegree ≤ n + 1 :=
      (natDegree_mul_le_of_le natDegree_X_le hdegree).trans (Nat.add_comm 1 n).le
    refine ⟨?_, hdegree.trans (Nat.le_succ n), ?_⟩
    · rw [recurrent_succ]
      exact (natDegree_sub_le _ _).trans (max_le ((natDegree_C_mul_le _ _).trans hproduct)
        ((natDegree_C_mul_le _ _).trans (hpreceding.trans (Nat.le_succ n))))
    -- The polynomial before is of lower degree, so that it adds nothing to the coefficient.
    · rw [recurrent_succ, coeff_sub, coeff_C_mul, coeff_X_mul, hcoeff, coeff_C_mul,
        coeff_eq_zero_of_natDegree_lt (Nat.lt_succ_of_le hpreceding), mul_zero, sub_zero, leading,
        leading, Finset.prod_range_succ]
      ring

theorem natDegree_recurrent (index : ℕ → ℕ) (n : ℕ) : (recurrent index n).natDegree = n := by
  obtain ⟨hdegree, -, hcoeff⟩ := recurrent_bounded index n
  exact natDegree_eq_of_le_of_coeff_ne_zero hdegree (hcoeff ▸ (leading_pos index n).ne')

theorem leading_eq (n : ℕ) : (orthonormal n).coeff n = leading id n := by
  rw [← orthonormal_eq]
  exact (recurrent_bounded id n).2.2

theorem eval_neg_recurrent (index : ℕ → ℕ) (n : ℕ) (z : ℝ) :
    (recurrent index n).eval (-z) = (-1) ^ n * (recurrent index n).eval z := by
  induction n using Nat.twoStepInduction with
  | zero => rw [recurrent, eval_C, eval_C, pow_zero, one_mul]
  | one =>
    simp only [recurrent, eval_mul, eval_X, eval_C]
    ring
  | more n ih ih' =>
    simp only [recurrent, eval_sub, eval_mul, eval_X, eval_C, ih, ih']
    ring

theorem eval_zero_recurrent (index : ℕ → ℕ) (n : ℕ) : (recurrent index (n + 2)).eval 0 =
    -(behind (index (n + 1)) * (recurrent index n).eval 0) := by
  rw [recurrent_succ, preceding]
  simp only [eval_sub, eval_mul, eval_X, eval_C, zero_mul, mul_zero, zero_sub]

theorem eval_zero_orthonormal_ne {n : ℕ} (h : Even n) : (orthonormal n).eval 0 ≠ 0 := by
  obtain ⟨m, rfl⟩ := h
  rw [← orthonormal_eq]
  induction m with
  | zero =>
    rw [recurrent, eval_C]
    exact constantTerm_pos.ne'
  | succ m ih =>
    have hbehind : behind (m + m + 1) ≠ 0 :=
      ((Real.sqrt_nonneg _).trans_lt (behind_strictMono (Nat.succ_pos (m + m)))).ne'
    rw [← Nat.add_add_add_comm, eval_zero_recurrent]
    exact neg_ne_zero.2 (mul_ne_zero hbehind ih)

/-! ## The program -/

theorem hermiteConstant_real : hermiteConstant = Exact.real constantTerm := rfl

/-- The polynomials that are evaluated, in which an index stays at the largest number counted. -/
noncomputable def computed : ℕ → ℝ[X] := recurrent (min · Scalar.countLimit)

theorem hermite_real (n : ℕ) (z : ℝ) : hermite n (Exact.real z) =
    (Exact.real ((computed n).eval z), Exact.real ((preceding computed n).eval z)) := by
  induction n with
  | zero =>
    rw [hermite, hermiteConstant_real, computed, recurrent, preceding, eval_C, eval_zero,
      Exact.zero_eq]
  | succ n ih =>
    let k := min n Scalar.countLimit
    have hpos : ((k + 1 : ℕ) : ℝ) ≠ 0 := Nat.cast_ne_zero.2 k.succ_ne_zero
    have hsucc : Exact.real k + 1 = Exact.real (k + 1 : ℕ) := by
      rw [Exact.one_eq, Exact.real_add, Nat.cast_succ]
    have hahead : Scalar.sqrt (2 / Exact.real (k + 1 : ℕ)) = Exact.real (ahead k) := by
      rw [Exact.ofNat_eq, Exact.real_div _ hpos, Exact.sqrt_real (by positivity), ahead]
    have hbehind : Scalar.sqrt (Exact.real k / Exact.real (k + 1 : ℕ)) =
        Exact.real (behind k) := by
      rw [Exact.real_div _ hpos, Exact.sqrt_real (by positivity), behind]
    rw [hermite, ih, Exact.ofCount_eq]
    dsimp only
    rw [hsucc, hahead, hbehind, preceding, computed, recurrent_succ]
    simp only [Exact.real_mul, Exact.real_sub, eval_sub, eval_mul, eval_X, eval_C]
    rw [mul_comm z, mul_assoc]

theorem countLimit_succ : Scalar.countLimit + 1 = 2 ^ 32 := rfl

theorem computed_of_le {n : ℕ} (h : n ≤ 2 ^ 32) : computed n = orthonormal n := by
  have hlimit := countLimit_succ
  exact recurrent_eq fun j hj => Nat.min_eq_left (by omega)

/-- From the largest number counted on, the factors of the recurrence stay what they are. -/
theorem computed_succ {n : ℕ} (h : 2 ^ 32 ≤ n) : computed (n + 1) =
    C √(2 / 2 ^ 32) * (X * computed n) - C √((2 ^ 32 - 1) / 2 ^ 32) * preceding computed n := by
  have hlimit := countLimit_succ
  have hindex : min n Scalar.countLimit = 2 ^ 32 - 1 := by omega
  rw [computed, recurrent_succ, hindex, ahead, behind]
  norm_num

/-! ## Newton's method -/

section Newton

variable {n : ℕ}

theorem valueAndDerivative_succ (n : ℕ) (z : ℝ) : valueAndDerivative (n + 1) (Exact.real z) =
    (Exact.real ((computed (n + 1)).eval z),
      Exact.real (√(2 * (min (n + 1) Scalar.countLimit : ℕ)) * (computed n).eval z)) := by
  rw [valueAndDerivative, hermite_real]
  dsimp only
  rw [preceding, Exact.ofCount_eq, Exact.ofNat_eq, Exact.real_mul,
    Exact.sqrt_real (by positivity), Exact.real_mul, Nat.cast_two]

theorem valueAndDerivative_real (hpos : 0 < n) (hlt : n < 2 ^ 32) (z : ℝ) :
    valueAndDerivative n (Exact.real z) = (Exact.real ((orthonormal n).eval z),
      Exact.real ((derivative (orthonormal n)).eval z)) := by
  obtain ⟨m, rfl⟩ := Nat.exists_eq_add_one.2 hpos
  have hlimit := countLimit_succ
  rw [valueAndDerivative_succ, computed_of_le hlt.le, computed_of_le (by omega),
    Nat.min_eq_left (by omega), derivative_orthonormal, eval_mul, eval_C]

/-- A step of Newton's method. -/
theorem newtonMap_eq (p : ℝ[X]) (z : ℝ) :
    p.newtonMap z = z - p.eval z / (derivative p).eval z := by
  rw [newtonMap_apply, Ring.inverse_eq_inv', coe_aeval_eq_eval, inv_mul_eq_div]

theorem polishRoot_succ (hpos : 0 < n) (hlt : n < 2 ^ 32) {z : ℝ}
    (hslope : (derivative (orthonormal n)).eval z ≠ 0) (limit : ℕ) (last : Exact) :
    polishRoot n (limit + 1) (Exact.real z) last =
      if |(orthonormal n).newtonMap z - z| ≤ 3.0e-14 then
        (Exact.real ((orthonormal n).newtonMap z),
          Exact.real ((derivative (orthonormal n)).eval z))
      else polishRoot n limit (Exact.real ((orthonormal n).newtonMap z))
        (Exact.real ((derivative (orthonormal n)).eval z)) := by
  have hstep : |(orthonormal n).newtonMap z - z| =
      |(orthonormal n).eval z / (derivative (orthonormal n)).eval z| := by
    rw [newtonMap_eq, sub_sub_cancel_left, abs_neg]
  rw [polishRoot, valueAndDerivative_real hpos hlt]
  dsimp only
  rw [Exact.real_div _ hslope, Exact.abs_real, Exact.real_sub, ← newtonMap_eq, hstep]
  rfl

/-- A search takes steps of Newton's method until a step is short, or none is left, or there is
none for a derivative of zero. It gives the last point with the derivative at the one before it. -/
theorem polishRoot_real (hpos : 0 < n) (hlt : n < 2 ^ 32) (limit : ℕ) (z : ℝ) (last : Exact) :
    ∃ k ≤ limit,
      (∀ j < k, (derivative (orthonormal n)).eval ((orthonormal n).newtonMap^[j] z) ≠ 0 ∧
        3.0e-14 < |(orthonormal n).newtonMap^[j + 1] z - (orthonormal n).newtonMap^[j] z|) ∧
      ((derivative (orthonormal n)).eval ((orthonormal n).newtonMap^[k] z) ≠ 0 →
        (k < limit →
          |(orthonormal n).newtonMap^[k + 1] z - (orthonormal n).newtonMap^[k] z| ≤ 3.0e-14) ∧
        polishRoot n (limit + 1) (Exact.real z) last =
          (Exact.real ((orthonormal n).newtonMap^[k + 1] z),
            Exact.real ((derivative (orthonormal n)).eval ((orthonormal n).newtonMap^[k] z)))) := by
  have hnone {P : ℕ → Prop} (j : ℕ) (hj : j < 0) : P j := absurd hj (Nat.not_lt_zero j)
  -- The induction is on the steps that are left, from any point.
  induction limit generalizing z last with
  | zero =>
    exact ⟨0, le_rfl, hnone, fun hslope => ⟨fun h => absurd h (Nat.lt_irrefl 0),
      (polishRoot_succ hpos hlt hslope 0 last).trans (ite_self _)⟩⟩
  | succ limit ih =>
    by_cases hslope : (derivative (orthonormal n)).eval z = 0
    · exact ⟨0, Nat.zero_le _, hnone, fun hne => absurd hslope hne⟩
    · rw [polishRoot_succ hpos hlt hslope]
      split
      next hshort => exact ⟨0, Nat.zero_le _, hnone, fun _ => ⟨fun _ => hshort, rfl⟩⟩
      next hlong =>
        obtain ⟨k, hk, hbefore, hend⟩ := ih ((orthonormal n).newtonMap z)
          (Exact.real ((derivative (orthonormal n)).eval z))
        refine ⟨k + 1, Nat.succ_le_succ hk, fun j hj => ?_, fun hne => ?_⟩
        · cases j with
          | zero => exact ⟨hslope, not_le.1 hlong⟩
          | succ j => exact hbefore j (Nat.lt_of_succ_lt_succ hj)
        · exact ⟨fun h => (hend hne).1 (Nat.lt_of_succ_lt_succ h), (hend hne).2⟩

end Newton

/-! ## Large orders -/

theorem computed_eq_iff {n : ℕ} : computed n = orthonormal n ↔ n ≤ 2 ^ 32 := by
  refine ⟨fun heq => ?_, computed_of_le⟩
  by_contra hlarge
  have hlimit := countLimit_succ
  have hlt : leading id n < leading (min · Scalar.countLimit) n := by
    refine mul_lt_mul_of_pos_left (Finset.prod_lt_prod (fun j _ => ahead_pos j)
      (fun j _ => ?_) ⟨2 ^ 32, Finset.mem_range.2 (not_le.1 hlarge), ?_⟩) constantTerm_pos
    · exact ahead_strictAnti.antitone (Nat.min_le_left j _)
    · have hindex : min (2 ^ 32) Scalar.countLimit < 2 ^ 32 := by omega
      exact ahead_strictAnti hindex
  have hcoeff := (recurrent_bounded (min · Scalar.countLimit) n).2.2
  rw [← computed, heq, leading_eq] at hcoeff
  exact hlt.ne hcoeff

section Large

variable {n : ℕ}

theorem eval_zero_computed_ne (hn : n = 2 ^ 32) :
    (computed (n + 2)).eval 0 ≠ (orthonormal (n + 2)).eval 0 := by
  have heven : Even n := hn ▸ even_two.pow_of_ne_zero (by decide)
  have hlimit := countLimit_succ
  have hlt : behind (min (n + 1) Scalar.countLimit) < behind (n + 1) :=
    behind_strictMono (by omega)
  intro heq
  rw [← orthonormal_eq, computed, eval_zero_recurrent, eval_zero_recurrent, ← computed,
    computed_of_le hn.le, orthonormal_eq] at heq
  exact hlt.ne (mul_right_cancel₀ (eval_zero_orthonormal_ne heven) (neg_injective heq))

/-- The factor of the derivative is that of an order less. -/
theorem exists_derivative_ne (hn : n = 2 ^ 32) :
    ∃ z, (valueAndDerivative n (Exact.real z)).2 ≠
      Exact.real ((derivative (orthonormal n)).eval z) := by
  obtain ⟨m, rfl⟩ : ∃ m, n = m + 1 := Nat.exists_eq_add_one.2 (by omega)
  have hlimit := countLimit_succ
  have hnonzero : ∃ z, (orthonormal m).eval z ≠ 0 := by
    by_contra! hzero
    have hcoeff := leading_eq m
    rw [Polynomial.funext fun z => (hzero z).trans eval_zero.symm, coeff_zero] at hcoeff
    exact (leading_pos id m).ne hcoeff
  obtain ⟨z, hz⟩ := hnonzero
  have hcomputed : computed m = orthonormal m := computed_of_le (by omega)
  refine ⟨z, fun heq => ?_⟩
  rw [valueAndDerivative_succ, Nat.min_eq_right (by omega), hcomputed, derivative_orthonormal,
    eval_mul, eval_C] at heq
  have hsqrt := mul_right_cancel₀ hz (Exact.real.inj heq)
  have hlt : √(2 * (Scalar.countLimit : ℝ)) < √(2 * ((m + 1 : ℕ) : ℝ)) := by
    refine Real.sqrt_lt_sqrt (by positivity) (mul_lt_mul_of_pos_left (Nat.cast_lt.2 ?_) two_pos)
    omega
  exact hlt.ne hsqrt

end Large

/-- Large orders, at which the recurrence does not give the scaled Hermite polynomials, nor the
factor of the derivative that it should. -/
theorem hermite_saturated :
    hermite (2 ^ 32 + 2) (Exact.real 0) ≠
        (Exact.real ((orthonormal (2 ^ 32 + 2)).eval 0),
          Exact.real ((orthonormal (2 ^ 32 + 1)).eval 0)) ∧
      ∃ z, (valueAndDerivative (2 ^ 32) (Exact.real z)).2 ≠
        Exact.real ((derivative (orthonormal (2 ^ 32))).eval z) := by
  refine ⟨fun heq => ?_, exists_derivative_ne rfl⟩
  rw [hermite_real] at heq
  exact eval_zero_computed_ne rfl (Exact.real.inj (Prod.mk.inj heq).1)

/-- The recurrence evaluates polynomials of the degree and the parity of the order. They are the
scaled Hermite polynomials up to the order `2 ^ 32`, from which on the factors of the recurrence do
not change. Below it the polynomial before with its factor is the derivative, so that a search goes
through the points of Newton's method. -/
theorem hermite_recurrence :
    (∀ n z, hermite n (Exact.real z) =
      (Exact.real ((computed n).eval z), Exact.real ((preceding computed n).eval z))) ∧
    (∀ n, (computed n).natDegree = n ∧
      ∀ z, (computed n).eval (-z) = (-1) ^ n * (computed n).eval z) ∧
    (∀ n, computed n = orthonormal n ↔ n ≤ 2 ^ 32) ∧
    (∀ n, 2 ^ 32 ≤ n → computed (n + 1) =
      C √(2 / 2 ^ 32) * (X * computed n) - C √((2 ^ 32 - 1) / 2 ^ 32) * preceding computed n) ∧
    ∀ n, 0 < n → n < 2 ^ 32 →
      derivative (orthonormal n) = C √(2 * n) * orthonormal (n - 1) ∧
      (∀ z, valueAndDerivative n (Exact.real z) =
        (Exact.real ((orthonormal n).eval z), Exact.real ((derivative (orthonormal n)).eval z))) ∧
      ∀ (limit : ℕ) (z : ℝ) (last : Exact),
        let x := fun j => (orthonormal n).newtonMap^[j] z
        let slope := fun j => (derivative (orthonormal n)).eval (x j)
        ∃ k ≤ limit, (∀ j < k, slope j ≠ 0 ∧ 3.0e-14 < |x (j + 1) - x j|) ∧
          (slope k ≠ 0 → (k < limit → |x (k + 1) - x k| ≤ 3.0e-14) ∧
            polishRoot n (limit + 1) (Exact.real z) last =
              (Exact.real (x (k + 1)), Exact.real (slope k))) := by
  refine ⟨hermite_real, fun n => ⟨natDegree_recurrent _ n, eval_neg_recurrent _ n⟩,
    fun n => computed_eq_iff, fun n => computed_succ, fun n hpos hlt => ?_⟩
  refine ⟨?_, valueAndDerivative_real hpos hlt, polishRoot_real hpos hlt⟩
  obtain ⟨m, rfl⟩ := Nat.exists_eq_add_one.2 hpos
  exact derivative_orthonormal m

/-- The polynomial of degree two is `4 z² - 2` with its factor. From one, a step is a quarter
back. -/
theorem hermite_recurrence_degreeTwo :
    (0 < 2 ∧ 2 < 2 ^ 32) ∧
      valueAndDerivative 2 (Exact.real 1) =
        (Exact.real (factor 2 * 2), Exact.real (factor 2 * 8)) ∧
      polishRoot 2 1 (Exact.real 1) 1 = (Exact.real (3 / 4), Exact.real (factor 2 * 8)) := by
  have hsecond : orthonormal 2 = C (factor 2) * (C 4 * X ^ 2 - C 2) := by
    rw [orthonormal, physicists_succ, physicists_succ, preceding, preceding, physicists_zero,
      mul_zero, sub_zero, mul_one, Nat.cast_one, mul_one, mul_mul_mul_comm, ← C_mul, ← sq X]
    norm_num
  have hvalue : (orthonormal 2).eval 1 = factor 2 * 2 := by
    rw [hsecond]
    norm_num
  have hslope : (derivative (orthonormal 2)).eval 1 = factor 2 * 8 := by
    rw [hsecond]
    norm_num
  have hfactor : 0 < factor 2 := div_pos constantTerm_pos (Real.sqrt_pos.2 (by positivity))
  have hne : (derivative (orthonormal 2)).eval 1 ≠ 0 := by
    rw [hslope]
    positivity
  have hnewton : (orthonormal 2).newtonMap (1 : ℝ) = 3 / 4 := by
    rw [newtonMap_eq, hvalue, hslope, mul_div_mul_left _ _ hfactor.ne']
    norm_num
  have hlt : 2 < 2 ^ 32 := by norm_num
  obtain ⟨-, hvalues, hsearch⟩ := hermite_recurrence.2.2.2.2 2 two_pos hlt
  obtain ⟨k, hk, -, hend⟩ := hsearch 0 1 1
  obtain rfl := Nat.le_zero.1 hk
  refine ⟨⟨two_pos, hlt⟩, ?_, ?_⟩
  · rw [hvalues, hvalue, hslope]
  · rw [← hnewton, ← hslope]
    exact (hend hne).2

end Metropolis.Quadrature
