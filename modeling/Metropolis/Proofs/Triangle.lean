import Mathlib.Algebra.BigOperators.Fin
import Mathlib.Algebra.Order.Star.Real
import Mathlib.Analysis.Real.Sqrt
import Mathlib.LinearAlgebra.Matrix.Block
import Mathlib.LinearAlgebra.Matrix.PosDef

/-!
# Triangles of real numbers and the factors of symmetric matrices

A lower triangle stands for two matrices of every size: the symmetric matrix with its entries, and
the lower triangular one. The factor of a symmetric matrix is a triangle too, and grows by a row:
the entries left of the diagonal solve a triangular system, and the last is the root of what these
leave of the diagonal entry. Something is left just if the symmetric matrix stays positive definite
with its next row, because that matrix is congruent to a diagonal one with what is left in the end.
-/

namespace Metropolis

open Finset (range)
open Matrix

/-- Whether a lower triangular matrix with a positive diagonal is a factor of another matrix. -/
structure IsLowerFactor {n : ℕ} (L A : Matrix (Fin n) (Fin n) ℝ) : Prop where
  triangular : L.IsLowerTriangular
  diagonal_pos : ∀ i, 0 < L i i
  product : L * Lᵀ = A

namespace Triangle

variable {S L K : ℕ → ℕ → ℝ} {w : ℕ → ℝ} {n : ℕ}

/-- The symmetric matrix with the first rows of a triangle. -/
def symmetric (S : ℕ → ℕ → ℝ) (n : ℕ) : Matrix (Fin n) (Fin n) ℝ :=
  .of fun i j => S (max i j) (min i j)

/-- The lower triangular matrix with the first rows of a triangle. -/
def lower (L : ℕ → ℕ → ℝ) (n : ℕ) : Matrix (Fin n) (Fin n) ℝ :=
  .of fun i j => if j ≤ i then L i j else 0

theorem isLowerTriangular_lower (L : ℕ → ℕ → ℝ) (n : ℕ) : (lower L n).IsLowerTriangular := by
  intro i j hij
  have hlt : i < j := hij
  exact if_neg (not_le.2 hlt)

theorem isUnit_lower (h : ∀ i < n, L i i ≠ 0) : IsUnit (lower L n) := by
  rw [Matrix.isUnit_iff_isUnit_det, isUnit_iff_ne_zero,
    Matrix.det_of_isLowerTriangular _ (isLowerTriangular_lower L n), Finset.prod_ne_zero_iff]
  intro i _
  rw [lower, Matrix.of_apply, if_pos (le_refl i)]
  exact h i i.isLt

/-- An entry of a product with weights. The sum ends where one of the rows does. -/
theorem lower_mul_diagonal_mul (L : ℕ → ℕ → ℝ) (d : ℕ → ℝ) (i j : Fin n) :
    (lower L n * Matrix.diagonal (fun k : Fin n => d k) * (lower L n)ᵀ) i j =
      ∑ k ∈ range (min (i : ℕ) j + 1), L i k * d k * L j k := by
  have hterm (k : Fin n) : (lower L n * Matrix.diagonal fun k : Fin n => d k) i k *
      (lower L n)ᵀ k j = if (k : ℕ) < min (i : ℕ) j + 1 then L i k * d k * L j k else 0 := by
    rw [Matrix.mul_diagonal, Matrix.transpose_apply, lower, Matrix.of_apply, Matrix.of_apply]
    by_cases hi : k ≤ i <;> by_cases hj : k ≤ j <;> simp [hi, hj]
  have hrange : (range n).filter (· < min (i : ℕ) j + 1) = range (min (i : ℕ) j + 1) := by
    ext k
    simp only [Finset.mem_filter, Finset.mem_range]
    omega
  rw [Matrix.mul_apply, Finset.sum_congr rfl fun k _ => hterm k,
    ← Finset.sum_range fun k => if k < min (i : ℕ) j + 1 then L i k * d k * L j k else 0,
    ← Finset.sum_filter, hrange]

/-- A triangle that has the products of another makes up its symmetric matrix. -/
theorem mul_eq_symmetric {d : ℕ → ℝ}
    (h : ∀ i < n, ∀ j ≤ i, ∑ k ∈ range (j + 1), L i k * d k * L j k = S i j) :
    lower L n * Matrix.diagonal (fun k : Fin n => d k) * (lower L n)ᵀ = symmetric S n := by
  ext i j
  rw [lower_mul_diagonal_mul, symmetric, Matrix.of_apply]
  rcases le_total j i with hij | hij
  · rw [max_eq_left (Fin.le_def.1 hij), min_eq_right (Fin.le_def.1 hij)]
    exact h i i.isLt j hij
  · rw [max_eq_right (Fin.le_def.1 hij), min_eq_left (Fin.le_def.1 hij), ← h j j.isLt i hij]
    exact Finset.sum_congr rfl fun k _ => by ring

theorem lower_mul_transpose (L : ℕ → ℕ → ℝ) (i j : Fin n) :
    (lower L n * (lower L n)ᵀ) i j = ∑ k ∈ range (min (i : ℕ) j + 1), L i k * L j k := by
  have h := lower_mul_diagonal_mul L (fun _ => 1) i j
  simpa only [Matrix.diagonal_one, mul_one] using h

/-! ## Rows one after another -/

/-- Whether the first rows of `L` have a positive diagonal and the products that `S` lists. -/
structure Factors (S L : ℕ → ℕ → ℝ) (n : ℕ) : Prop where
  pivot_pos : ∀ i < n, 0 < L i i
  product : ∀ i < n, ∀ j ≤ i, ∑ k ∈ range (j + 1), L i k * L j k = S i j

theorem factors_zero (S L : ℕ → ℕ → ℝ) : Factors S L 0 where
  pivot_pos i hi := absurd hi (Nat.not_lt_zero i)
  product i hi := absurd hi (Nat.not_lt_zero i)

/-- Whether a row has the listed products with the first rows of `L`. -/
def Solves (L : ℕ → ℕ → ℝ) (s w : ℕ → ℝ) (n : ℕ) : Prop :=
  ∀ j < n, ∑ k ∈ range (j + 1), w k * L j k = s j

/-- What a row leaves of the diagonal entry. -/
def residue (s w : ℕ → ℝ) (n : ℕ) : ℝ := s n - ∑ k ∈ range n, w k * w k

theorem sum_update (w v : ℕ → ℝ) (a : ℝ) {m : ℕ} (hm : m ≤ n) :
    ∑ k ∈ range m, Function.update w n a k * v k = ∑ k ∈ range m, w k * v k := by
  apply Finset.sum_congr rfl
  intro k hk
  rw [Function.update_of_ne (by have := Finset.mem_range.1 hk; omega)]

/-- A row is found by substitution, from the left. -/
theorem exists_solves (h : ∀ i < n, 0 < L i i) (s : ℕ → ℝ) : ∃ w, Solves L s w n := by
  induction n with
  | zero => exact ⟨s, fun j hj => absurd hj (Nat.not_lt_zero j)⟩
  | succ n ih =>
    obtain ⟨w, hw⟩ := ih fun i hi => h i (Nat.lt_succ_of_lt hi)
    refine ⟨Function.update w n ((s n - ∑ k ∈ range n, w k * L n k) / L n n), fun j hj => ?_⟩
    by_cases hjn : j = n
    · subst hjn
      rw [Finset.sum_range_succ, sum_update w _ _ (le_refl j), Function.update_self,
        div_mul_cancel₀ _ (h j hj).ne', add_sub_cancel]
    · rw [sum_update w _ _ (by omega)]
      exact hw j (by omega)

theorem factors_succ_iff : Factors S L (n + 1) ↔ Factors S L n ∧ Solves L (S n) (L n) n ∧
    0 < L n n ∧ L n n * L n n = residue (S n) (L n) n := by
  have hlast : L n n * L n n = residue (S n) (L n) n ↔
      ∑ k ∈ range (n + 1), L n k * L n k = S n n := by
    rw [residue, Finset.sum_range_succ, eq_sub_iff_add_eq, add_comm]
  rw [hlast]
  constructor
  · intro h
    exact ⟨⟨fun i hi => h.pivot_pos i (by omega), fun i hi => h.product i (by omega)⟩,
      fun j hj => h.product n (by omega) j hj.le, h.pivot_pos n (by omega),
      h.product n (by omega) n (le_refl n)⟩
  · rintro ⟨h, hsolves, hpivot, hresidue⟩
    refine ⟨fun i hi => ?_, fun i hi j hj => ?_⟩
    · by_cases hin : i = n
      · rw [hin]
        exact hpivot
      · exact h.pivot_pos i (by omega)
    · by_cases hin : i = n
      · subst hin
        by_cases hji : j = i
        · rw [hji]
          exact hresidue
        · exact hsolves j (by omega)
      · exact h.product i (by omega) j hj

theorem Factors.congr (h : Factors S L n) (hrows : ∀ i < n, K i = L i) : Factors S K n where
  pivot_pos i hi := by rw [hrows i hi]; exact h.pivot_pos i hi
  product i hi j hj := by
    rw [hrows i hi, hrows j (by omega)]
    exact h.product i hi j hj

/-- The triangle with one row replaced. -/
def withRow (L : ℕ → ℕ → ℝ) (n : ℕ) (w : ℕ → ℝ) (a : ℝ) : ℕ → ℕ → ℝ :=
  Function.update L n (Function.update w n a)

theorem withRow_of_lt (L : ℕ → ℕ → ℝ) (w : ℕ → ℝ) (a : ℝ) {i : ℕ} (hi : i < n) :
    withRow L n w a i = L i := Function.update_of_ne hi.ne _ _

theorem withRow_self (L : ℕ → ℕ → ℝ) (n : ℕ) (w : ℕ → ℝ) (a : ℝ) :
    withRow L n w a n = Function.update w n a := Function.update_self ..

theorem Solves.withRow {s : ℕ → ℝ} (hw : Solves L s w n) (a : ℝ) :
    Solves (withRow L n w a) s (withRow L n w a n) n := by
  intro j hj
  rw [withRow_self, withRow_of_lt L w a hj, sum_update w _ _ (by omega)]
  exact hw j hj

theorem residue_withRow (s : ℕ → ℝ) (L : ℕ → ℕ → ℝ) (w : ℕ → ℝ) (a : ℝ) (n : ℕ) :
    residue s (withRow L n w a n) n = residue s w n := by
  have hsum : ∑ k ∈ range n, Function.update w n a k * Function.update w n a k =
      ∑ k ∈ range n, w k * w k := by
    rw [sum_update w _ _ (le_refl n)]
    simp only [mul_comm (w _)]
    exact sum_update w _ _ (le_refl n)
  rw [withRow_self, residue, residue, hsum]

/-- A factor grows by a row, if something is left of the diagonal entry. -/
theorem Factors.succ (h : Factors S L n) (hw : Solves L (S n) w n)
    (hpos : 0 < residue (S n) w n) :
    Factors S (withRow L n w √(residue (S n) w n)) (n + 1) := by
  rw [factors_succ_iff]
  refine ⟨h.congr fun i hi => withRow_of_lt L w _ hi, hw.withRow _, ?_, ?_⟩
  · rw [withRow_self, Function.update_self]
    exact Real.sqrt_pos.2 hpos
  · rw [residue_withRow, withRow_self, Function.update_self, Real.mul_self_sqrt hpos.le]

/-- Ones, and another weight for the last row. -/
def weights (n : ℕ) (a : ℝ) : ℕ → ℝ := Function.update (fun _ => 1) n a

theorem weights_of_lt (a : ℝ) {i : ℕ} (hi : i < n) : weights n a i = 1 :=
  Function.update_of_ne hi.ne _ _

theorem weights_self (n : ℕ) (a : ℝ) : weights n a n = a := Function.update_self ..

theorem sum_weights (u v : ℕ → ℝ) (a : ℝ) {m : ℕ} (hm : m ≤ n) :
    ∑ k ∈ range m, u k * weights n a k * v k = ∑ k ∈ range m, u k * v k := by
  apply Finset.sum_congr rfl
  intro k hk
  rw [weights_of_lt a (by have := Finset.mem_range.1 hk; omega), mul_one]

/-- The next symmetric matrix is congruent to a diagonal one. -/
theorem lower_mul_weights_mul (h : Factors S L n) (hw : Solves L (S n) w n) :
    lower (withRow L n w 1) (n + 1) *
        Matrix.diagonal (fun k : Fin (n + 1) => weights n (residue (S n) w n) k) *
        (lower (withRow L n w 1) (n + 1))ᵀ = symmetric S (n + 1) := by
  apply mul_eq_symmetric
  intro i hi j hj
  by_cases hjn : j = n
  · -- The last entry on the diagonal is what the row has and what it leaves.
    obtain rfl : i = n := by omega
    subst hjn
    have hself : withRow L j w 1 j j = 1 := by rw [withRow_self, Function.update_self]
    have hleft : ∑ k ∈ range j, withRow L j w 1 j k * withRow L j w 1 j k =
        S j j - residue (S j) w j := by
      rw [← residue_withRow (S j) L w 1 j, residue, sub_sub_cancel]
    rw [Finset.sum_range_succ, sum_weights _ _ _ (le_refl j), hself, weights_self, hleft]
    ring
  · rw [sum_weights _ _ _ (by omega)]
    by_cases hin : i = n
    · subst hin
      exact hw.withRow 1 j (by omega)
    · exact (h.congr fun i hi => withRow_of_lt L w 1 hi).product i (by omega) j hj

/-- Beyond a factor a symmetric matrix stays positive definite if something is left of the next
diagonal entry. -/
theorem posDef_succ_iff (h : Factors S L n) (hw : Solves L (S n) w n) :
    (symmetric S (n + 1)).PosDef ↔ 0 < residue (S n) w n := by
  have hunit : IsUnit (lower (withRow L n w 1) (n + 1)) := by
    apply isUnit_lower
    intro i hi
    by_cases hin : i = n
    · rw [hin, withRow_self, Function.update_self]
      exact one_ne_zero
    · rw [withRow_of_lt L w 1 (by omega)]
      exact (h.pivot_pos i (by omega)).ne'
  rw [← lower_mul_weights_mul h hw, ← Matrix.conjTranspose_eq_transpose_of_trivial,
    ← Matrix.star_eq_conjTranspose, hunit.posDef_star_right_conjugate_iff,
    Matrix.posDef_diagonal_iff]
  constructor
  · intro hall
    have hlast := hall (Fin.last n)
    rwa [Fin.val_last, weights_self] at hlast
  · intro hpos i
    by_cases hi : (i : ℕ) = n
    · rw [hi, weights_self]
      exact hpos
    · rw [weights_of_lt _ (by omega)]
      exact one_pos

theorem posDef_of_succ (h : (symmetric S (n + 1)).PosDef) : (symmetric S n).PosDef :=
  h.submatrix (Fin.castSucc_injective n)

/-- The matrices with a factor are the positive definite ones. -/
theorem exists_factors_iff : (∃ L, Factors S L n) ↔ (symmetric S n).PosDef := by
  induction n with
  | zero =>
    refine iff_of_true ⟨S, factors_zero S S⟩ ⟨Subsingleton.elim _ _, fun x hx => ?_⟩
    exact absurd (Subsingleton.elim x 0) hx
  | succ n ih =>
    constructor
    · rintro ⟨L, h⟩
      obtain ⟨h, hw, hpivot, hresidue⟩ := factors_succ_iff.1 h
      rw [posDef_succ_iff h hw, ← hresidue]
      exact mul_pos hpivot hpivot
    · intro hpos
      obtain ⟨L, h⟩ := ih.2 (posDef_of_succ hpos)
      obtain ⟨w, hw⟩ := exists_solves h.pivot_pos (S n)
      exact ⟨_, h.succ hw ((posDef_succ_iff h hw).1 hpos)⟩

/-! ## Factors as matrices -/

theorem isLowerFactor_iff : IsLowerFactor (lower L n) (symmetric S n) ↔ Factors S L n := by
  constructor
  · intro h
    refine ⟨fun i hi => ?_, fun i hi j hj => ?_⟩
    · simpa [lower] using h.diagonal_pos ⟨i, hi⟩
    · have hentry := congrFun (congrFun h.product ⟨i, hi⟩) ⟨j, by omega⟩
      rw [lower_mul_transpose, symmetric, Matrix.of_apply] at hentry
      simpa only [min_eq_right hj, max_eq_left hj] using hentry
  · intro h
    refine ⟨isLowerTriangular_lower L n, fun i => ?_, ?_⟩
    · simpa [lower] using h.pivot_pos i i.isLt
    · have hproduct := mul_eq_symmetric (d := fun _ => 1) fun i hi j hj => by
        simpa only [mul_one] using h.product i hi j hj
      simpa only [Matrix.diagonal_one, mul_one] using hproduct

end Triangle

end Metropolis
