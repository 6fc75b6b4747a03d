import Mathlib.Probability.Distributions.Gaussian.Multivariate
import Metropolis.Proofs.Balance
import Metropolis.Proofs.Diagonal
import Metropolis.Proofs.Jitter

/-!
# The spread of starting points

Over the exact numbers a covariance is accepted just if a jitter makes the symmetric matrix with its
lower triangle positive definite. A draw is the mean and the factor's product with the noise, so
that standard normal noise leads to a normal distribution with this matrix and the jitter as its
covariance. The entries above the diagonal are not read. It is the covariance that was given if and
only if that one is symmetric, as it is for independent components, which take no jitter.
-/

namespace Metropolis

open MeasureTheory ProbabilityTheory Matrix
open Finset (range)

variable {n : ℕ}

/-! ## Normal noise through a factor -/

/-- Points with real coordinates. -/
abbrev Space (n : ℕ) : Type := EuclideanSpace ℝ (Fin n)

theorem posSemidef_mul_transpose (L : Matrix (Fin n) (Fin n) ℝ) : (L * Lᵀ).PosSemidef := by
  rw [← conjTranspose_eq_transpose_of_trivial]
  exact posSemidef_self_mul_conjTranspose L

/-- A matrix as an operator on points. -/
noncomputable def operator : Matrix (Fin n) (Fin n) ℝ ≃⋆ₐ[ℝ] (Space n →L[ℝ] Space n) :=
  toEuclideanCLM

/-- Where noise leads from a centre. -/
noncomputable def displaced (L : Matrix (Fin n) (Fin n) ℝ) (centre z : Space n) : Space n :=
  centre + operator L z

theorem measurable_displaced (L : Matrix (Fin n) (Fin n) ℝ) (centre : Space n) :
    Measurable (displaced L centre) := by
  unfold displaced
  fun_prop

theorem star_operator (L : Matrix (Fin n) (Fin n) ℝ) : star (operator L) = operator Lᵀ := by
  rw [← conjTranspose_eq_transpose_of_trivial, ← star_eq_conjTranspose, map_star]

/-- A normal distribution is known by its mean and its covariance. -/
theorem map_displaced_stdGaussian (L : Matrix (Fin n) (Fin n) ℝ) (centre : Space n) :
    (stdGaussian (Space n)).map (displaced L centre) = multivariateGaussian centre (L * Lᵀ) := by
  have hcomp : displaced L centre = (fun z => centre + z) ∘ operator L := rfl
  rw [hcomp, ← Measure.map_map (measurable_const_add _) (by fun_prop)]
  apply IsGaussian.ext
  · -- Noise has mean zero, and so has its image.
    rw [integral_map (by fun_prop) (by fun_prop), integral_map (by fun_prop) (by fun_prop)]
    simp only [id_eq, integral_id_multivariateGaussian]
    rw [integral_add (integrable_const _)
      ((operator L).integrable_comp IsGaussian.integrable_fun_id)]
    simp [ContinuousLinearMap.integral_comp_comm _ IsGaussian.integrable_fun_id]
  · -- The operator moves to the other side as its adjoint, which is that of the transpose.
    ext x y
    rw [covarianceBilin_map_const_add, covarianceBilin_map IsGaussian.memLp_two_id,
      covarianceBilin_stdGaussian,
      covarianceBilin_multivariateGaussian (posSemidef_mul_transpose L), innerSL_apply_apply,
      ← ContinuousLinearMap.star_eq_adjoint, star_operator, operator, inner_toEuclideanCLM,
      ofLp_toEuclideanCLM, ← mulVec_mulVec, dotProduct_mulVec x.ofLp, mulVec_transpose L x.ofLp]

theorem covariance_displaced (L : Matrix (Fin n) (Fin n) ℝ) (centre : Space n) (i j : Fin n) :
    cov[fun z => displaced L centre z i, fun z => displaced L centre z j; stdGaussian (Space n)] =
      (L * Lᵀ) i j := by
  rw [← covariance_eval_multivariateGaussian (μ := centre) (posSemidef_mul_transpose L) i j,
    ← map_displaced_stdGaussian, covariance_map_fun]
  · fun_prop
  · fun_prop
  · exact (measurable_displaced L centre).aemeasurable

/-! ## What the program draws -/

namespace DenseMatrix

/-- The product with a factor is that of its matrix: what is left out is zero. -/
theorem IsFactorOf.lowerTimes_real {lower : DenseMatrix Exact} {A : Matrix (Fin n) (Fin n) ℝ}
    (h : lower.IsFactorOf A) (z : Fin n → ℝ) :
    lower.lowerTimes ((List.ofFn z).map Exact.real) =
      (List.ofFn (lower.toMatrix n *ᵥ z)).map Exact.real := by
  apply List.ext_getElem
  · simp [lowerTimes, h.rows]
  · intro i hi hi'
    have hlt : i < n := by simpa using hi'
    have hsum : ∑ j ∈ range (i + 1), (lower.entry i j).toReal * (List.ofFn z).getD j 0 =
        (lower.toMatrix n *ᵥ z) ⟨i, hlt⟩ := by
      calc ∑ j ∈ range (i + 1), (lower.entry i j).toReal * (List.ofFn z).getD j 0
          = ∑ j ∈ range n, (lower.entry i j).toReal * (List.ofFn z).getD j 0 := by
            refine Finset.sum_subset (Finset.range_subset_range.2 hlt) fun j hj hout => ?_
            rw [Finset.mem_range] at hj hout
            have hzero : lower.toMatrix n ⟨i, hlt⟩ ⟨j, hj⟩ = 0 :=
              h.factor.triangular (show i < j by omega)
            rw [show (lower.entry i j).toReal = 0 from hzero, zero_mul]
        _ = ∑ j : Fin n, lower.toMatrix n ⟨i, hlt⟩ j * z j := by
            rw [Finset.sum_range]
            simp [toMatrix, reals]
    simp only [lowerTimes, List.getElem_map, List.getElem_range, List.getElem_ofFn]
    rw [sum_products fun j _ => isFinite_entry h.finite i j, ← hsum]
    rfl

end DenseMatrix

namespace Start

variable {s : Start Exact}

/-- The mean as a point. -/
noncomputable def centre (s : Start Exact) : Space s.dimension :=
  (EuclideanSpace.equiv (Fin s.dimension) ℝ).symm fun i => (s.mean.get i).toReal

/-- Where real noise leads. -/
noncomputable def realPoint (s : Start Exact) : Space s.dimension → Space s.dimension :=
  displaced (s.factor.toMatrix s.dimension) s.centre

/-- The coordinates of a point as the program has them. -/
def coordinates (x : Space n) : List Exact := (List.ofFn x.ofLp).map Exact.real

theorem exists_coordinates (noise : List ℝ) (h : noise.length = n) :
    ∃ z : Space n, coordinates z = noise.map Exact.real := by
  subst h
  exact ⟨WithLp.toLp 2 noise.get, by rw [coordinates, WithLp.ofLp_toLp, List.ofFn_get]⟩

theorem coordinates_centre (h : ∀ x ∈ s.mean, Scalar.isFinite x = true) :
    coordinates s.centre = s.mean := by
  apply List.ext_getElem
  · simp [coordinates, dimension]
  · intro i hi hi'
    have hreal := Exact.eq_real_of_isFinite (h _ (List.getElem_mem hi'))
    simp only [coordinates, List.getElem_map, List.getElem_ofFn]
    exact hreal.symm

/-- A draw is the mean and the factor's product with the noise. -/
theorem pointOf_coordinates {A : Matrix (Fin s.dimension) (Fin s.dimension) ℝ}
    (hmean : ∀ x ∈ s.mean, Scalar.isFinite x = true) (h : s.factor.IsFactorOf A)
    (z : Space s.dimension) : s.pointOf (coordinates z) = coordinates (s.realPoint z) := by
  rw [pointOf, ← coordinates_centre hmean, coordinates, h.lowerTimes_real]
  apply List.ext_getElem
  · simp [coordinates]
  · intro i hi hi'
    simp [coordinates, realPoint, displaced, operator]

/-- Whether a start samples from the normal distribution with its mean and a covariance: its factor
is one of this covariance, a draw displaces the mean by the factor's product with the noise, and
standard normal noise leads to this distribution. -/
structure Samples (s : Start Exact) (A : Matrix (Fin s.dimension) (Fin s.dimension) ℝ) :
    Prop where
  factor : s.factor.IsFactorOf A
  drawn : ∀ tape : Tape Exact, tape.IsUnit → ∃ z : Space s.dimension,
    (standardNormals s.dimension tape).1 = coordinates z ∧
      (s.sample tape).1 = coordinates (s.realPoint z)
  law : (stdGaussian (Space s.dimension)).map s.realPoint = multivariateGaussian s.centre A
  covariance : ∀ i j, cov[fun z => s.realPoint z i, fun z => s.realPoint z j;
    stdGaussian (Space s.dimension)] = A i j

theorem samples_of_factor {A : Matrix (Fin s.dimension) (Fin s.dimension) ℝ}
    (hmean : ∀ x ∈ s.mean, Scalar.isFinite x = true) (h : s.factor.IsFactorOf A) :
    s.Samples A where
  factor := h
  drawn := by
    intro tape htape
    obtain ⟨noise, hlength, hnoise⟩ := standardNormals_real htape s.dimension
    obtain ⟨z, hz⟩ := exists_coordinates noise hlength
    refine ⟨z, hnoise.trans hz.symm, ?_⟩
    show s.pointOf (standardNormals s.dimension tape).1 = _
    rw [hnoise, ← hz, pointOf_coordinates hmean h]
  law := by
    rw [realPoint, map_displaced_stdGaussian, h.factor.product]
  covariance := by
    intro i j
    rw [← h.factor.product]
    exact covariance_displaced _ _ i j

/-! ## What the constructors accept -/

open DenseMatrix

variable {mean variances : List Exact} {covariance : DenseMatrix Exact} {a : ℝ}

theorem samples_of_ofCovariance (h : ofCovariance mean covariance = .ok s) :
    ∃ a, IsLeast (rescues (s.covariance.symmetric s.dimension)) a ∧
      s.Samples (s.covariance.symmetric s.dimension + a • 1) := by
  obtain ⟨hadmissible, rfl, rfl, jitter, hjitter⟩ := ofCovariance_eq_ok h
  obtain ⟨a, hleast, hfactor⟩ := exists_isLeast_jitter hadmissible.rows hadmissible.cols
    hadmissible.finite hjitter
  exact ⟨a, hleast, samples_of_factor hadmissible.finite_mean hfactor⟩

/-- The given covariance is sampled from just if it is symmetric. -/
theorem Samples.toMatrix_iff (h : s.Samples (s.covariance.symmetric s.dimension + a • 1)) :
    s.Samples (s.covariance.toMatrix s.dimension + a • 1) ↔
      (s.covariance.toMatrix s.dimension).IsSymm := by
  rw [← symmetric_eq_toMatrix_iff]
  constructor
  · intro h'
    exact add_right_cancel (h.factor.factor.product.symm.trans h'.factor.factor.product)
  · intro hsymm
    rwa [← hsymm]

/-- Independent components are as they should be. -/
theorem samples_of_ofVariances (h : ofVariances mean variances = .ok s) :
    s.Samples (s.covariance.toMatrix s.dimension) := by
  obtain ⟨hpositive, haccepted⟩ := ofVariances_eq_ok_iff.1 h
  obtain ⟨a, hleast, hsamples⟩ := samples_of_ofCovariance haccepted
  obtain ⟨hadmissible, hmean, hcovariance, -⟩ := ofCovariance_eq_ok haccepted
  have hlength : variances.length = s.dimension := by
    rw [dimension, hmean]
    exact hadmissible.rows
  have hsymm : (s.covariance.toMatrix s.dimension).IsSymm := by
    rw [hcovariance]
    exact isSymm_diagonal hlength
  have hdef : (s.covariance.symmetric s.dimension).PosDef := by
    rw [hcovariance]
    exact posDef_symmetric_diagonal hlength
      (arePositive_of_isFinite hadmissible.finite fun v hv => (hpositive v hv).2)
  -- No jitter is a jitter that does, and there is none below it.
  have hzero : a = 0 :=
    le_antisymm (hleast.2 ⟨zero_mem_jitters, by simpa using hdef⟩) (jitters_nonneg hleast.1.1)
  simpa [hzero] using hsamples.toMatrix_iff.2 hsymm

theorem exists_ofCovariance_iff : (∃ s, ofCovariance mean covariance = .ok s) ↔
    Admissible mean covariance ∧ (rescues (covariance.symmetric mean.length)).Nonempty := by
  constructor
  · rintro ⟨s, h⟩
    obtain ⟨a, hleast, -⟩ := samples_of_ofCovariance h
    obtain ⟨hadmissible, rfl, rfl, -⟩ := ofCovariance_eq_ok h
    exact ⟨hadmissible, a, hleast.1⟩
  · rintro ⟨h, hnonempty⟩
    cases hjitter : covariance.choleskyWithJitter? with
    | none =>
      rw [choleskyWithJitter?_eq_none_iff_rescues h.rows h.cols h.finite] at hjitter
      exact absurd hjitter hnonempty.ne_empty
    | some found =>
      obtain ⟨s, hs, -⟩ := ofCovariance_of_factor h hjitter
      exact ⟨s, hs⟩

/-- Over the exact numbers an accepted start samples from the normal distribution about its mean
whose covariance is the symmetric matrix with the lower triangle of its covariance, with the least
jitter that makes it positive definite; this is its covariance with jitter just if that is
symmetric. Independent components are sampled from with their covariance itself. Where no jitter
helps, the covariance is refused as indefinite. -/
theorem ofCovariance_spread (mean : List Exact) (covariance : DenseMatrix Exact) :
    (∀ s, ofCovariance mean covariance = .ok s → s.mean = mean ∧ s.covariance = covariance ∧
      ∃ a, IsLeast (rescues (s.covariance.symmetric s.dimension)) a ∧
        s.Samples (s.covariance.symmetric s.dimension + a • 1) ∧
        (s.Samples (s.covariance.toMatrix s.dimension + a • 1) ↔
          (s.covariance.toMatrix s.dimension).IsSymm)) ∧
      (∀ variances s, ofVariances mean variances = .ok s →
        s.Samples (s.covariance.toMatrix s.dimension)) ∧
      (∀ coefficient s, ofCoefficient mean coefficient = .ok s →
        s.Samples (s.covariance.toMatrix s.dimension)) ∧
      ((∃ s, ofCovariance mean covariance = .ok s) ↔
        Admissible mean covariance ∧ (rescues (covariance.symmetric mean.length)).Nonempty) ∧
      (ofCovariance mean covariance = .error (.invalid .indefinite) ↔
        Admissible mean covariance ∧ rescues (covariance.symmetric mean.length) = ∅) := by
  refine ⟨fun s h => ?_, fun variances s => samples_of_ofVariances,
    fun coefficient s h => samples_of_ofVariances (ofCoefficient_eq_ok_iff.1 h).2,
    exists_ofCovariance_iff, ?_⟩
  · obtain ⟨a, hleast, hsamples⟩ := samples_of_ofCovariance h
    obtain ⟨-, hmean, hcovariance, -⟩ := ofCovariance_eq_ok h
    exact ⟨hmean, hcovariance, a, hleast, hsamples, hsamples.toMatrix_iff⟩
  · rw [ofCovariance_eq_indefinite_iff]
    exact and_congr_right fun h =>
      choleskyWithJitter?_eq_none_iff_rescues h.rows h.cols h.finite

theorem slanted_admissible :
    Admissible [0, 0] slanted ∧ (rescues (slanted.symmetric 2)).Nonempty := by
  have hdef : (slanted.symmetric 2).PosDef := Triangle.exists_factors_iff.1 ⟨_, factors_slanted⟩
  refine ⟨⟨by simp, rfl, rfl, ?_, isFinite_slanted⟩, 0, zero_mem_jitters, by simpa using hdef⟩
  intro x hx
  simp only [List.mem_cons, List.not_mem_nil, or_false, or_self] at hx
  rw [hx]
  rfl

theorem ofCovariance_spread_slanted : ∃ s, ∃ a : ℝ, ofCovariance [0, 0] slanted = .ok s ∧
    s.Samples (s.covariance.symmetric s.dimension + a • 1) := by
  obtain ⟨hsamples, -, -, hexists, -⟩ := ofCovariance_spread [0, 0] slanted
  obtain ⟨s, h⟩ := hexists.2 slanted_admissible
  obtain ⟨-, -, a, -, hs, -⟩ := hsamples s h
  exact ⟨s, a, h, hs⟩

/-- A covariance that is not symmetric is accepted, but whatever the jitter is, it is not the one
that is sampled from. -/
theorem slanted_accepted : ∃ s, ofCovariance [0, 0] slanted = .ok s ∧ ∀ a : ℝ,
    s.factor.toMatrix 2 * (s.factor.toMatrix 2)ᵀ ≠ slanted.toMatrix 2 + a • 1 := by
  obtain ⟨s, h⟩ := exists_ofCovariance_iff.2 slanted_admissible
  refine ⟨s, h, fun a heq => ?_⟩
  have hsymm : (slanted.toMatrix 2 + a • 1).IsSymm := by
    rw [← heq]
    exact Matrix.isSymm_mul_transpose_self _
  -- The product is symmetric, but the entries beside the diagonal are two and seven.
  have hentries := hsymm.apply 0 1
  simp [toMatrix, reals, slanted, entry_ofFn, Exact.ofNat_eq] at hentries

end Start

end Metropolis
