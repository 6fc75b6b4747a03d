import Mathlib.Tactic.NormNum
import Metropolis.Proofs.PositiveDefinite
import Metropolis.Start

/-!
# Starting distributions with independent components

The factor of a diagonal matrix with positive entries is the diagonal matrix of their roots, and no
jitter is needed to find it. So there is a starting distribution about every finite mean for every
positive coefficient of variation.
-/

namespace Metropolis

namespace DenseMatrix

/-- A row of the factor of a diagonal matrix, up to and with the diagonal. -/
noncomputable def rootRow (variances : List Exact) (i : Nat) : List Exact :=
  List.replicate i 0 ++ [Scalar.sqrt (variances.getD i 0)]

variable {variances : List Exact}

/-- The variances of independent components. -/
def ArePositive (variances : List Exact) : Prop :=
  ∀ x ∈ variances, ∃ r, x = Exact.real r ∧ 0 < r

theorem ArePositive.getD (h : ArePositive variances) {i : Nat} (hi : i < variances.length) :
    ∃ r, variances.getD i 0 = Exact.real r ∧ 0 < r := by
  rw [List.getD_eq_getElem?_getD, List.getElem?_eq_getElem hi, Option.getD_some]
  exact h _ (List.getElem_mem hi)

theorem entry_diagonal {i j : Nat} (hi : i < variances.length) (hj : j < variances.length) :
    (diagonal variances).entry i j = if i = j then variances.getD i 0 else 0 := by
  rw [diagonal, entry_ofFn _ hi hj]

theorem isFinite_diagonal (h : ArePositive variances) : (diagonal variances).isFinite = true := by
  apply isFinite_ofFn
  intro i hi j _
  obtain ⟨r, hr, -⟩ := h.getD hi
  split
  · rw [hr]
    rfl
  · rfl

theorem reals_diagonal {i j : Nat} (hi : i < variances.length) (hj : j < variances.length) :
    (diagonal variances).reals i j = if i = j then (variances.getD i 0).toReal else 0 := by
  rw [reals, entry_diagonal hi hj]
  by_cases hij : i = j
  · rw [if_pos hij, if_pos hij]
  · rw [if_neg hij, if_neg hij, Exact.ofNat_eq, Exact.toReal_real, Nat.cast_zero]

/-- The roots of the variances as a triangle. -/
noncomputable def roots (variances : List Exact) (i j : Nat) : ℝ :=
  if i = j then √(variances.getD i 0).toReal else 0

theorem factors_diagonal (h : ArePositive variances) :
    Triangle.Factors (diagonal variances).reals (roots variances) variances.length where
  pivot_pos i hi := by
    obtain ⟨r, hr, hpos⟩ := h.getD hi
    rw [roots, if_pos rfl, hr]
    exact Real.sqrt_pos.2 hpos
  product i hi j hj := by
    obtain ⟨r, hr, hpos⟩ := h.getD hi
    rw [reals_diagonal hi (by omega)]
    by_cases hij : i = j
    · subst hij
      have hzeros : ∀ k ∈ Finset.range (i + 1), k ≠ i →
          roots variances i k * roots variances i k = 0 := by
        intro k _ hne
        rw [roots, if_neg hne.symm, zero_mul]
      rw [Finset.sum_eq_single_of_mem i (by simp) hzeros, roots, if_pos rfl, if_pos rfl, hr,
        Exact.toReal_real, Real.mul_self_sqrt hpos.le]
    · -- The row has nothing but zeros up to here.
      rw [if_neg hij]
      refine Finset.sum_eq_zero fun k hk => ?_
      rw [Finset.mem_range] at hk
      rw [roots, if_neg (by omega), zero_mul]

theorem leading_roots (h : ArePositive variances) {i : Nat} (hi : i < variances.length) :
    leading (roots variances i) (i + 1) = rootRow variances i := by
  obtain ⟨r, hr, hpos⟩ := h.getD hi
  have hzeros : leading (roots variances i) i = List.replicate i 0 := by
    rw [List.eq_replicate_iff]
    refine ⟨length_leading _ _, fun x hx => ?_⟩
    obtain ⟨j, hj, rfl⟩ := List.mem_map.1 hx
    rw [roots, if_neg (List.mem_range.1 hj).ne', Exact.ofNat_eq, Nat.cast_zero]
  rw [leading_succ, hzeros, rootRow, roots, if_pos rfl, hr, Exact.sqrt_real hpos.le,
    Exact.toReal_real]

/-- The factor of a diagonal matrix. -/
noncomputable def rootFactor (variances : List Exact) : DenseMatrix Exact :=
  ofLowerRows ((List.range variances.length).map (rootRow variances))

theorem cholesky?_diagonal (h : ArePositive variances) :
    (diagonal variances).cholesky? = some (rootFactor variances) := by
  rw [cholesky?_eq_some_iff rfl (isFinite_diagonal h)]
  refine ⟨roots variances, factors_diagonal h, ?_⟩
  rw [rootFactor, triangleRows]
  congr 1
  apply List.map_congr_left
  intro i hi
  exact (leading_roots h (List.mem_range.1 hi)).symm

theorem isSymm_diagonal (h : variances.length = n) : ((diagonal variances).toMatrix n).IsSymm := by
  subst h
  ext i j
  rw [Matrix.transpose_apply, toMatrix, Matrix.of_apply, Matrix.of_apply,
    reals_diagonal j.isLt i.isLt, reals_diagonal i.isLt j.isLt]
  by_cases hij : (i : ℕ) = j
  · rw [hij]
  · rw [if_neg hij, if_neg (Ne.symm hij)]

theorem arePositive_of_isFinite (finite : (diagonal variances).isFinite = true)
    (h : ∀ v ∈ variances, ¬ v ≤ 0) : ArePositive variances := by
  intro v hv
  obtain ⟨i, hi, rfl⟩ := List.getElem_of_mem hv
  have hentry := isFinite_entry finite i i
  rw [entry_diagonal hi hi, if_pos rfl, List.getD_eq_getElem?_getD, List.getElem?_eq_getElem hi,
    Option.getD_some] at hentry
  have hpos := h _ hv
  rw [Exact.eq_real_of_isFinite hentry, Exact.real_le_zero_iff, not_le] at hpos
  exact ⟨_, Exact.eq_real_of_isFinite hentry, hpos⟩

theorem posDef_symmetric_diagonal (hlength : variances.length = n) (h : ArePositive variances) :
    ((diagonal variances).symmetric n).PosDef := by
  subst hlength
  exact Triangle.exists_factors_iff.1 ⟨_, factors_diagonal h⟩

/-- No jitter is needed. -/
theorem choleskyWithJitter?_diagonal (h : ArePositive variances) :
    (diagonal variances).choleskyWithJitter? = some (rootFactor variances, 0) := by
  unfold choleskyWithJitter?
  rw [if_pos (isFinite_diagonal h), cholesky?_diagonal h]

end DenseMatrix

namespace Start

variable {mean variances : List Exact}

theorem ofVariances_eq_ok (hne : mean ≠ []) (hmean : ∀ x ∈ mean, Scalar.isFinite x = true)
    (hlength : variances.length = mean.length) (h : DenseMatrix.ArePositive variances) :
    ∃ start, ofVariances mean variances = .ok start ∧ start.mean = mean ∧
      start.covariance = .diagonal variances ∧ start.factor = .rootFactor variances := by
  have hadmissible : Admissible mean (.diagonal variances) :=
    ⟨hne, hlength, hlength, hmean, DenseMatrix.isFinite_diagonal h⟩
  obtain ⟨start, hstart, hsame⟩ :=
    ofCovariance_of_factor hadmissible (DenseMatrix.choleskyWithJitter?_diagonal h)
  refine ⟨start, ofVariances_eq_ok_iff.2 ⟨fun v hv => ?_, hstart⟩, hsame⟩
  obtain ⟨r, rfl, hr⟩ := h v hv
  rw [Exact.real_le_zero_iff]
  exact ⟨rfl, not_le_of_gt hr⟩

theorem deviationOf_real {c : ℝ} (hc : 0 < c) (x : ℝ) :
    ∃ r, deviationOf (Exact.real c) (Exact.real x) = Exact.real r ∧ 0 < r := by
  refine ⟨c * max |x| (1 : ℕ), ?_, ?_⟩
  · rw [deviationOf, Exact.abs_real, Exact.ofNat_eq, Exact.larger_real, Exact.real_mul]
  · exact mul_pos hc (lt_max_of_lt_right (by norm_num))

theorem isCoefficient_real_iff (c : ℝ) : isCoefficient (Exact.real c) = true ↔ 0 < c := by
  rw [isCoefficient, Exact.isFinite_real, Bool.and_true, decide_eq_true_eq, Exact.ofNat_eq,
    Exact.real_lt, Nat.cast_zero]

theorem coefficient_eq_real {x : Exact} (h : isCoefficient x = true) :
    ∃ v : ℝ, x = Exact.real v ∧ 0 < v := by
  have hfinite : Scalar.isFinite x = true := by
    rw [isCoefficient, Bool.and_eq_true] at h
    exact h.2
  rw [Exact.eq_real_of_isFinite hfinite, isCoefficient_real_iff] at h
  exact ⟨x.toReal, Exact.eq_real_of_isFinite hfinite, h⟩

/-- Every finite mean and every positive coefficient of variation make a starting distribution,
without any jitter. -/
theorem ofCoefficient_eq_ok (hne : mean ≠ []) (hmean : ∀ x ∈ mean, Scalar.isFinite x = true)
    {c : ℝ} (hc : 0 < c) :
    ∃ start, ofCoefficient mean (Exact.real c) = .ok start ∧ start.mean = mean ∧
      start.covariance.choleskyWithJitter? = some (start.factor, 0) ∧
      start.covariance.cholesky? = some start.factor := by
  have hpositive : DenseMatrix.ArePositive (mean.map fun x =>
      deviationOf (Exact.real c) x * deviationOf (Exact.real c) x) := by
    intro y hy
    obtain ⟨x, hx, rfl⟩ := List.mem_map.1 hy
    obtain ⟨r, hr, hpos⟩ := deviationOf_real hc x.toReal
    rw [Exact.eq_real_of_isFinite (hmean x hx), hr, Exact.real_mul]
    exact ⟨r * r, rfl, mul_pos hpos hpos⟩
  obtain ⟨start, hstart, hsame, hcovariance, hfactor⟩ :=
    ofVariances_eq_ok hne hmean (List.length_map _) hpositive
  unfold ofCoefficient
  rw [if_pos ((isCoefficient_real_iff c).2 hc)]
  refine ⟨start, hstart, hsame, ?_, ?_⟩
  · rw [hcovariance, hfactor, DenseMatrix.choleskyWithJitter?_diagonal hpositive]
  · rw [hcovariance, hfactor, DenseMatrix.cholesky?_diagonal hpositive]

end Start

end Metropolis
