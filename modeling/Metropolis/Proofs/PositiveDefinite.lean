import Metropolis.DenseMatrix.Cholesky
import Metropolis.Proofs.Triangle
import Metropolis.Scalar.Lawful

/-!
# The factorization finds the factor

Over the exact numbers the rows that the factorization makes are those of the only lower factor
with a positive diagonal. It makes all of them if the symmetric matrix with the lower triangle is
positive definite, and stops at the first diagonal entry of which nothing is left if it is not:
there is no other way for a row to be refused.
-/

namespace Metropolis

open Finset (range)

namespace DenseMatrix

open Triangle (Factors Solves residue)

variable {m lower : DenseMatrix Exact} {S L : ℕ → ℕ → ℝ} {s w : ℕ → ℝ} {n : ℕ}

/-! ## The factorization of real numbers -/

/-- The first entries of a row of real numbers. -/
noncomputable def leading (u : ℕ → ℝ) (n : ℕ) : List Exact :=
  (List.range n).map fun j => Exact.real (u j)

/-- The first rows of a triangle. -/
noncomputable def triangleRows (L : ℕ → ℕ → ℝ) (n : ℕ) : List (List Exact) :=
  (List.range n).map fun i => leading (L i) (i + 1)

@[simp] theorem length_leading (u : ℕ → ℝ) (n : ℕ) : (leading u n).length = n := by
  simp [leading]

theorem leading_succ (u : ℕ → ℝ) (n : ℕ) :
    leading u (n + 1) = leading u n ++ [Exact.real (u n)] := by
  simp [leading, List.range_succ]

theorem getLastD_leading (u : ℕ → ℝ) (n : ℕ) : (leading u (n + 1)).getLastD 0 = .real (u n) := by
  rw [leading_succ, List.getLastD_concat]

theorem leading_update (u : ℕ → ℝ) (n : ℕ) (a : ℝ) :
    leading (Function.update u n a) (n + 1) = leading u n ++ [Exact.real a] := by
  rw [leading_succ, Function.update_self]
  congr 1
  apply List.map_congr_left
  intro j hj
  rw [Function.update_of_ne (List.mem_range.1 hj).ne]

theorem triangleRows_succ (L : ℕ → ℕ → ℝ) (n : ℕ) :
    triangleRows L (n + 1) = triangleRows L n ++ [leading (L n) (n + 1)] := by
  simp [triangleRows, List.range_succ]

/-- The products of the shorter row are taken off. -/
theorem remainder_leading (a : ℝ) (u v : ℕ → ℝ) {k l : ℕ} (hkl : k ≤ l) :
    remainder (Exact.real a) (leading u k) (leading v l) =
      Exact.real (a - ∑ j ∈ range k, u j * v j) := by
  have hzip : (leading u k).zip (leading v l) =
      (List.range k).map fun j => (Exact.real (u j), Exact.real (v j)) := by
    apply List.ext_getElem
    · simp [hkl]
    · intro i hi hi'
      simp [leading]
  rw [remainder, hzip]
  clear hzip hkl
  induction k with
  | zero => simp
  | succ k ih =>
    rw [List.range_succ, List.map_append, List.foldl_append, ih, Finset.sum_range_succ]
    simp [sub_sub]

/-- Left of the diagonal the entries are those that have the right products with the rows above,
whichever of them have been used. -/
theorem factorLeft_leading (hpivot : ∀ i < n, 0 < L i i) (hw : Solves L s w n) {k m : ℕ}
    (hkm : k + m = n) :
    factorLeft (fun j => Exact.real (s j))
      ((List.range' k m).map fun i => leading (L i) (i + 1)) (leading w k) =
        some (leading w n) := by
  induction m generalizing k with
  | zero => rw [← hkm]; rfl
  | succ m ih =>
    have hk := hpivot k (by omega)
    have hnot : ¬ Exact.real (L k k) ≤ 0 := by
      rw [Exact.real_le_zero_iff]
      exact not_le_of_gt hk
    have hentry : (s k - ∑ j ∈ range k, w j * L k j) / L k k = w k := by
      have hproduct := hw k (by omega)
      rw [Finset.sum_range_succ] at hproduct
      rw [div_eq_iff hk.ne', ← hproduct, add_sub_cancel_left]
    rw [List.range'_succ, List.map_cons, factorLeft, getLastD_leading, if_neg hnot, length_leading,
      remainder_leading _ _ _ (Nat.le_succ k), Exact.real_div _ hk.ne', hentry, ← leading_succ]
    exact ih (by omega)

theorem factorLeft_triangleRows (hpivot : ∀ i < n, 0 < L i i) (hw : Solves L s w n) :
    factorLeft (fun j => Exact.real (s j)) (triangleRows L n) [] = some (leading w n) := by
  rw [triangleRows, List.range_eq_range']
  exact factorLeft_leading hpivot hw (Nat.zero_add n)

/-- A row is refused only if nothing is left of the diagonal entry. -/
theorem factorRow_triangleRows (hpivot : ∀ i < n, 0 < L i i) (hw : Solves L s w n) :
    factorRow (fun j => Exact.real (s j)) (triangleRows L n) =
      if 0 < residue s w n then some (leading w n ++ [Exact.real √(residue s w n)]) else none := by
  have hresidue : remainder (Exact.real (s n)) (leading w n) (leading w n) =
      Exact.real (residue s w n) := remainder_leading _ _ _ (le_refl n)
  unfold factorRow
  rw [factorLeft_triangleRows hpivot hw, Option.bind_eq_bind, Option.bind_some]
  dsimp only
  rw [length_leading, hresidue]
  by_cases hpos : 0 < residue s w n
  · have hnot : ¬ (Exact.real (residue s w n) ≤ 0 ∨
        Scalar.isUndefined (Exact.real (residue s w n)) = true) := by
      rw [Exact.real_le_zero_iff]
      exact not_or.2 ⟨not_le_of_gt hpos, Bool.false_ne_true⟩
    rw [if_neg hnot, if_pos hpos, Exact.sqrt_real hpos.le]
    rfl
  · rw [if_pos (.inl ((Exact.real_le_zero_iff _).2 (not_lt.1 hpos))), if_neg hpos]

/-- The factorization finds every factor there is. -/
theorem factorRows_of_factors (h : Factors S L n) :
    factorRows (fun i j => Exact.real (S i j)) n = some (triangleRows L n) := by
  induction n with
  | zero => rfl
  | succ n ih =>
    obtain ⟨h, hw, hpivot, hresidue⟩ := Triangle.factors_succ_iff.1 h
    have hroot : √(residue (S n) (L n) n) = L n n := by
      rw [← hresidue, Real.sqrt_mul_self hpivot.le]
    have hpos : 0 < residue (S n) (L n) n := by
      rw [← hresidue]
      exact mul_pos hpivot hpivot
    unfold factorRows
    rw [ih h, Option.bind_eq_bind, Option.bind_some, factorRow_triangleRows h.pivot_pos hw,
      if_pos hpos, hroot, ← leading_succ, triangleRows_succ]
    rfl

/-- What the factorization finds is a factor. -/
theorem factors_of_factorRows {rows : List (List Exact)}
    (h : factorRows (fun i j => Exact.real (S i j)) n = some rows) :
    ∃ L, Factors S L n ∧ rows = triangleRows L n := by
  induction n generalizing rows with
  | zero =>
    cases h
    exact ⟨S, Triangle.factors_zero S S, rfl⟩
  | succ n ih =>
    simp only [factorRows, Option.bind_eq_bind, Option.bind_eq_some_iff, Option.pure_def,
      Option.some.injEq] at h
    obtain ⟨above, habove, next, hnext, rfl⟩ := h
    obtain ⟨L, hL, rfl⟩ := ih habove
    obtain ⟨w, hw⟩ := Triangle.exists_solves hL.pivot_pos (S n)
    rw [factorRow_triangleRows hL.pivot_pos hw] at hnext
    split at hnext
    next hpos =>
      cases hnext
      refine ⟨_, hL.succ hw hpos, ?_⟩
      rw [triangleRows_succ, Triangle.withRow_self, leading_update]
      congr 1
      apply List.map_congr_left
      intro i hi
      rw [Triangle.withRow_of_lt L w _ (List.mem_range.1 hi)]
    next => cases hnext

theorem factorRows_eq_some_iff {rows : List (List Exact)} :
    factorRows (fun i j => Exact.real (S i j)) n = some rows ↔
      ∃ L, Factors S L n ∧ rows = triangleRows L n := by
  constructor
  · exact factors_of_factorRows
  · rintro ⟨L, h, rfl⟩
    exact factorRows_of_factors h

/-! ## The factor of a matrix -/

/-- The real numbers that the entries are. -/
noncomputable def reals (m : DenseMatrix Exact) (i j : ℕ) : ℝ := (m.entry i j).toReal

/-- The real matrix of the first rows and columns. -/
noncomputable def toMatrix (m : DenseMatrix Exact) (n : ℕ) : Matrix (Fin n) (Fin n) ℝ :=
  .of fun i j => m.reals i j

/-- The symmetric matrix with the lower triangle of the first rows. -/
noncomputable def symmetric (m : DenseMatrix Exact) (n : ℕ) : Matrix (Fin n) (Fin n) ℝ :=
  Triangle.symmetric m.reals n

theorem isSymm_symmetric (m : DenseMatrix Exact) (n : ℕ) : (m.symmetric n).IsSymm := by
  ext i j
  simp [symmetric, Triangle.symmetric, max_comm, min_comm]

/-- What stands above the diagonal matters just if it differs from what stands below. -/
theorem symmetric_eq_toMatrix_iff : m.symmetric n = m.toMatrix n ↔ (m.toMatrix n).IsSymm := by
  constructor
  · intro h
    rw [← h]
    exact isSymm_symmetric m n
  · intro h
    ext i j
    rcases le_total i j with hij | hij
    · have hswap := h.apply i j
      simpa [symmetric, Triangle.symmetric, toMatrix, hij] using hswap
    · simp [symmetric, Triangle.symmetric, toMatrix, hij]

theorem isFinite_entry (h : m.isFinite = true) (i j : ℕ) :
    Scalar.isFinite (m.entry i j) = true := by
  unfold entry Array.getD
  split
  · exact Array.all_eq_true.1 h _ ‹_›
  · rfl

theorem entry_eq_reals (h : m.isFinite = true) :
    m.entry = fun i j => Exact.real (m.reals i j) := by
  ext i j
  exact Exact.eq_real_of_isFinite (isFinite_entry h i j)

theorem length_triangleRows (L : ℕ → ℕ → ℝ) (n : ℕ) : (triangleRows L n).length = n := by
  simp [triangleRows]

theorem getD_triangleRows (L : ℕ → ℕ → ℝ) {i : ℕ} (hi : i < n) (j : ℕ) :
    ((triangleRows L n).getD i []).getD j 0 = if j ≤ i then Exact.real (L i j) else 0 := by
  have hrow : (triangleRows L n).getD i [] = leading (L i) (i + 1) := by
    simp [triangleRows, hi]
  rw [hrow]
  by_cases hj : j ≤ i
  · simp [leading, hj, Nat.lt_succ_of_le hj]
  · simp [leading, hj]

theorem entry_ofLowerRows (L : ℕ → ℕ → ℝ) {i j : ℕ} (hi : i < n) (hj : j < n) :
    (ofLowerRows (triangleRows L n)).entry i j = if j ≤ i then Exact.real (L i j) else 0 := by
  have hlength := length_triangleRows L n
  rw [ofLowerRows, entry_ofFn _ (by omega) (by omega), getD_triangleRows L hi]

theorem toMatrix_ofLowerRows (L : ℕ → ℕ → ℝ) (n : ℕ) :
    (ofLowerRows (triangleRows L n)).toMatrix n = Triangle.lower L n := by
  ext i j
  rw [toMatrix, Matrix.of_apply, reals, entry_ofLowerRows L i.isLt j.isLt, Triangle.lower,
    Matrix.of_apply]
  by_cases hij : j ≤ i
  · simp [hij]
  · simp [hij, Exact.ofNat_eq]

theorem isFinite_ofLowerRows (L : ℕ → ℕ → ℝ) (n : ℕ) :
    (ofLowerRows (triangleRows L n)).isFinite = true := by
  apply isFinite_ofFn
  intro i hi j hj
  rw [length_triangleRows] at hi
  rw [getD_triangleRows L hi]
  split <;> rfl

theorem cholesky?_eq_some_iff (square : m.rows = m.cols) (finite : m.isFinite = true) :
    m.cholesky? = some lower ↔
      ∃ L, Factors m.reals L m.cols ∧ lower = ofLowerRows (triangleRows L m.cols) := by
  rw [cholesky?, if_pos square, Option.map_eq_some_iff, entry_eq_reals finite]
  constructor
  · rintro ⟨rows, hrows, rfl⟩
    obtain ⟨L, h, rfl⟩ := factorRows_eq_some_iff.1 hrows
    exact ⟨L, h, rfl⟩
  · rintro ⟨L, h, rfl⟩
    exact ⟨_, factorRows_eq_some_iff.2 ⟨L, h, rfl⟩, rfl⟩

/-- Whether a stored matrix is a factor: of the size of the other matrix, finite, and with zeros
above a positive diagonal. -/
structure IsFactorOf (lower : DenseMatrix Exact) {n : ℕ} (A : Matrix (Fin n) (Fin n) ℝ) :
    Prop where
  rows : lower.rows = n
  cols : lower.cols = n
  finite : lower.isFinite = true
  factor : IsLowerFactor (lower.toMatrix n) A

theorem isFactorOf_ofLowerRows (h : Factors S L n) :
    (ofLowerRows (triangleRows L n)).IsFactorOf (Triangle.symmetric S n) where
  rows := length_triangleRows L n
  cols := length_triangleRows L n
  finite := isFinite_ofLowerRows L n
  factor := by
    rw [toMatrix_ofLowerRows]
    exact Triangle.isLowerFactor_iff.2 h

theorem isFactorOf_of_cholesky? (square : m.rows = m.cols) (finite : m.isFinite = true)
    (h : m.cholesky? = some lower) : lower.IsFactorOf (m.symmetric m.cols) := by
  obtain ⟨L, hL, rfl⟩ := (cholesky?_eq_some_iff square finite).1 h
  exact isFactorOf_ofLowerRows hL

/-- The factorization succeeds just for the positive definite matrices. -/
theorem exists_cholesky?_iff (square : m.rows = m.cols) (finite : m.isFinite = true) :
    (∃ lower, m.cholesky? = some lower) ↔ (m.symmetric m.cols).PosDef := by
  rw [symmetric, ← Triangle.exists_factors_iff]
  constructor
  · rintro ⟨lower, h⟩
    obtain ⟨L, hL, -⟩ := (cholesky?_eq_some_iff square finite).1 h
    exact ⟨L, hL⟩
  · rintro ⟨L, hL⟩
    exact ⟨_, (cholesky?_eq_some_iff square finite).2 ⟨L, hL, rfl⟩⟩

/-- A real matrix as a triangle, with zeros for the rows that it does not have. -/
def triangleOf (K : Matrix (Fin n) (Fin n) ℝ) (i j : ℕ) : ℝ :=
  if h : i < n ∧ j < n then K ⟨i, h.1⟩ ⟨j, h.2⟩ else 0

theorem lower_triangleOf {K : Matrix (Fin n) (Fin n) ℝ} (h : K.IsLowerTriangular) :
    Triangle.lower (triangleOf K) n = K := by
  ext i j
  rw [Triangle.lower, Matrix.of_apply]
  by_cases hij : j ≤ i
  · simp [hij, triangleOf]
  · rw [if_neg hij]
    exact (h (not_le.1 hij : i < j)).symm

/-- There is no other factor than the one that is found. -/
theorem eq_toMatrix_of_cholesky? (square : m.rows = m.cols) (finite : m.isFinite = true)
    (h : m.cholesky? = some lower) {K : Matrix (Fin m.cols) (Fin m.cols) ℝ}
    (hK : IsLowerFactor K (m.symmetric m.cols)) : K = lower.toMatrix m.cols := by
  have hlower := lower_triangleOf hK.triangular
  have hfactors : Factors m.reals (triangleOf K) m.cols := by
    rw [← Triangle.isLowerFactor_iff, hlower]
    exact hK
  have hfound := (cholesky?_eq_some_iff square finite).2 ⟨_, hfactors, rfl⟩
  rw [h, Option.some.injEq] at hfound
  rw [hfound, toMatrix_ofLowerRows, hlower]

/-- How the next row comes about: what is divided by is positive, so that the entries left of the
diagonal are found, and a root is taken of nothing but a positive number. -/
structure RowRuns (source : ℕ → Exact) (above : List (List Exact)) : Prop where
  divisor_pos : ∀ upper ∈ above, ∃ divisor : ℝ, upper.getLastD 0 = .real divisor ∧ 0 < divisor
  row : ∃ left residue, factorLeft source above [] = some left ∧
    remainder (source left.length) left left = .real residue ∧
    factorRow source above = if 0 < residue then some (left ++ [.real √residue]) else none

theorem rowRuns_of_factorRows {above : List (List Exact)}
    (h : factorRows (fun i j => Exact.real (S i j)) n = some above) (s : ℕ → ℝ) :
    RowRuns (fun j => Exact.real (s j)) above := by
  obtain ⟨L, hL, rfl⟩ := factorRows_eq_some_iff.1 h
  obtain ⟨w, hw⟩ := Triangle.exists_solves hL.pivot_pos s
  refine ⟨?_, leading w n, Triangle.residue s w n, factorLeft_triangleRows hL.pivot_pos hw, ?_,
    factorRow_triangleRows hL.pivot_pos hw⟩
  · intro upper hupper
    obtain ⟨i, hi, rfl⟩ := List.mem_map.1 hupper
    exact ⟨L i i, getLastD_leading (L i) i, hL.pivot_pos i (List.mem_range.1 hi)⟩
  · rw [length_leading]
    exact remainder_leading _ _ _ (le_refl n)

/-- Over the exact numbers the factorization of a square matrix finds the only lower factor of the
symmetric matrix that has its lower triangle, if that matrix is positive definite, and else nothing,
without a division by anything but a positive number on the way. Other matrices have no factor. -/
theorem cholesky?_complete (m : DenseMatrix Exact) :
    (m.rows ≠ m.cols → m.cholesky? = none) ∧
      (m.rows = m.cols → m.isFinite = true →
        ((∃ lower, m.cholesky? = some lower) ↔ (m.symmetric m.cols).PosDef) ∧
        (∀ lower, m.cholesky? = some lower → lower.IsFactorOf (m.symmetric m.cols) ∧
          ∀ K, IsLowerFactor K (m.symmetric m.cols) → K = lower.toMatrix m.cols) ∧
        ∀ n above, factorRows m.entry n = some above → RowRuns (m.entry n) above) := by
  refine ⟨fun hne => if_neg hne, fun square finite => ⟨exists_cholesky?_iff square finite,
    fun lower h => ⟨isFactorOf_of_cholesky? square finite h,
      fun K => eq_toMatrix_of_cholesky? square finite h⟩, fun n above h => ?_⟩⟩
  rw [entry_eq_reals finite] at h ⊢
  exact rowRuns_of_factorRows h (m.reals n)

/-- A matrix whose entry above the diagonal is not read. -/
noncomputable def slanted : DenseMatrix Exact :=
  ofFn 2 2 fun i j => if j = 0 then if i = 0 then 4 else 2 else if i = 0 then 7 else 3

theorem isFinite_slanted : slanted.isFinite = true := by
  apply isFinite_ofFn
  intro i _ j _
  split <;> split <;> rfl

theorem factors_slanted :
    Factors slanted.reals (fun i j => if i = 0 then 2 else if j = 0 then 1 else √2) 2 := by
  have hroot : √2 * √2 = (2 : ℝ) := Real.mul_self_sqrt (by norm_num)
  refine ⟨fun i hi => ?_, fun i hi j hj => ?_⟩
  · interval_cases i <;> simp
  · rw [reals, slanted, entry_ofFn _ hi (by omega)]
    interval_cases i <;> interval_cases j <;>
      simp [Finset.sum_range_succ, hroot, Exact.ofNat_eq] <;> norm_num

theorem cholesky?_complete_slanted : slanted.isFinite = true ∧ ∃ lower,
    slanted.cholesky? = some lower ∧ lower.IsFactorOf (slanted.symmetric 2) := by
  obtain ⟨-, hsquare⟩ := cholesky?_complete slanted
  obtain ⟨hexists, hfactor, -⟩ := hsquare rfl isFinite_slanted
  obtain ⟨lower, h⟩ := hexists.2 (Triangle.exists_factors_iff.1 ⟨_, factors_slanted⟩)
  exact ⟨isFinite_slanted, lower, h, (hfactor lower h).1⟩

end DenseMatrix

end Metropolis
