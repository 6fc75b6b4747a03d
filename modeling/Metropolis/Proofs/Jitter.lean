import Mathlib.Order.Bounds.Basic
import Metropolis.Proofs.PositiveDefinite

/-!
# The least jitter

Over the exact numbers the factorization with jitter settles on the least of its jitters, zero among
them, that makes the symmetric matrix positive definite. More jitter never hurts, so that the last
one decides whether there is a factor at all, and a larger diagonal asks for no more of it.
-/

namespace Metropolis.DenseMatrix

variable {m m' lower : DenseMatrix Exact} {a b : ℝ} {n : ℕ}

/-! ## Matrices with jitter -/

theorem reals_addDiagonal (finite : m.isFinite = true) (a : ℝ) {i j : ℕ} (hi : i < m.cols)
    (hj : j < m.cols) :
    (m.addDiagonal (.real a)).reals i j = m.reals i j + if i = j then a else 0 := by
  rw [reals, addDiagonal, entry_ofFn _ hi hj, entry_eq_reals finite]
  by_cases hij : i = j
  · simp [hij]
  · simp [hij]

theorem isFinite_addDiagonal (finite : m.isFinite = true) (a : ℝ) :
    (m.addDiagonal (.real a)).isFinite = true := by
  apply isFinite_ofFn
  intro i _ j _
  rw [entry_eq_reals finite]
  by_cases hij : i = j
  · simp [hij]
  · simp [hij]

theorem symmetric_addDiagonal (finite : m.isFinite = true) (a : ℝ) :
    (m.addDiagonal (.real a)).symmetric m.cols = m.symmetric m.cols + a • 1 := by
  ext i j
  have hmax : max (i : ℕ) j < m.cols := max_lt i.isLt j.isLt
  have hmin : min (i : ℕ) j < m.cols := lt_of_le_of_lt (min_le_left _ _) i.isLt
  rw [symmetric, Triangle.symmetric, Matrix.of_apply, reals_addDiagonal finite a hmax hmin]
  by_cases hij : i = j
  · simp [hij, symmetric, Triangle.symmetric]
  · have hval : (i : ℕ) ≠ j := fun h => hij (Fin.ext h)
    have hne : max (i : ℕ) j ≠ min (i : ℕ) j := by omega
    simp [hij, hne, symmetric, Triangle.symmetric]

/-- What the factorization of a matrix with jitter finds. -/
theorem isFactorOf_addDiagonal (finite : m.isFinite = true)
    (h : (m.addDiagonal (.real a)).cholesky? = some lower) :
    lower.IsFactorOf (m.symmetric m.cols + a • 1) := by
  rw [← symmetric_addDiagonal finite a]
  exact isFactorOf_of_cholesky? rfl (isFinite_addDiagonal finite a) h

theorem cholesky?_addDiagonal_eq_none_iff (finite : m.isFinite = true) :
    (m.addDiagonal (.real a)).cholesky? = none ↔ ¬ (m.symmetric m.cols + a • 1).PosDef := by
  have hexists := exists_cholesky?_iff (m := m.addDiagonal (.real a)) rfl
    (isFinite_addDiagonal finite a)
  rw [← symmetric_addDiagonal finite a, Option.eq_none_iff_forall_ne_some, ← not_exists]
  exact not_congr hexists

/-- More jitter never hurts. -/
theorem posDef_add_mono {A : Matrix (Fin n) (Fin n) ℝ} (h : (A + a • 1).PosDef) (hab : a ≤ b) :
    (A + b • 1).PosDef := by
  have hsum : A + b • 1 = A + a • 1 + (b - a) • 1 := by
    rw [add_assoc, ← add_smul, add_sub_cancel]
  rw [hsum]
  exact h.add_posSemidef (Matrix.PosSemidef.one.smul (sub_nonneg.2 hab))

/-! ## Tries -/

theorem mul_pow_succ (a : ℝ) (k : ℕ) : a * 10 * 10 ^ k = a * 10 ^ (k + 1) := by
  ring

/-- Of jitters that grow by factors of ten the first is found that allows a factor. -/
theorem choleskyFrom?_eq_some {tries : ℕ} {found : Exact}
    (h : m.choleskyFrom? tries (.real a) = some (lower, found)) :
    ∃ k < tries, found = .real (a * 10 ^ k) ∧
      (m.addDiagonal (.real (a * 10 ^ k))).cholesky? = some lower ∧
      ∀ i < k, (m.addDiagonal (.real (a * 10 ^ i))).cholesky? = none := by
  induction tries generalizing a with
  | zero => cases h
  | succ tries ih =>
    unfold choleskyFrom? at h
    split at h
    next hlower =>
      cases h
      exact ⟨0, by omega, by simp, by simpa using hlower, fun i hi => absurd hi (Nat.not_lt_zero i)⟩
    next hnone =>
      rw [Exact.ofNat_eq, Exact.real_mul] at h
      obtain ⟨k, hk, hfound, hlower, hearlier⟩ := ih h
      simp only [Nat.cast_ofNat, mul_pow_succ] at hfound hlower hearlier
      refine ⟨k + 1, by omega, hfound, hlower, fun i hi => ?_⟩
      cases i with
      | zero => simpa using hnone
      | succ i => exact hearlier i (by omega)

theorem choleskyFrom?_eq_none {tries : ℕ} (h : m.choleskyFrom? tries (.real a) = none) :
    ∀ k < tries, (m.addDiagonal (.real (a * 10 ^ k))).cholesky? = none := by
  induction tries generalizing a with
  | zero => exact fun k hk => absurd hk (Nat.not_lt_zero k)
  | succ tries ih =>
    unfold choleskyFrom? at h
    split at h
    next => cases h
    next hnone =>
      rw [Exact.ofNat_eq, Exact.real_mul] at h
      intro k hk
      cases k with
      | zero => simpa using hnone
      | succ k =>
        rw [← mul_pow_succ]
        exact ih h k (by omega)

/-! ## The jitters -/

/-- Zero, and the eight powers of ten from `1e-10`. -/
def jitters : Set ℝ := {a | a = 0 ∨ ∃ k < 8, a = 1e-10 * 10 ^ k}

theorem zero_mem_jitters : 0 ∈ jitters := .inl rfl

theorem last_mem_jitters : 1e-3 ∈ jitters := .inr ⟨7, by omega, by norm_num⟩

theorem jitters_nonneg (h : a ∈ jitters) : 0 ≤ a := by
  obtain rfl | ⟨k, -, rfl⟩ := h
  · exact le_refl 0
  · positivity

theorem jitters_le_last (h : a ∈ jitters) : a ≤ 1e-3 := by
  obtain rfl | ⟨k, hk, rfl⟩ := h
  · norm_num
  · have hpow : (10 : ℝ) ^ k ≤ 10 ^ 7 := pow_le_pow_right₀ (by norm_num) (by omega)
    calc (1e-10 : ℝ) * 10 ^ k ≤ 1e-10 * 10 ^ 7 := by gcongr
      _ = 1e-3 := by norm_num

/-- The jitters that make a matrix positive definite. -/
def rescues (A : Matrix (Fin n) (Fin n) ℝ) : Set ℝ := {a ∈ jitters | (A + a • 1).PosDef}

theorem start_eq : (1.0e-10 : Exact) = .real 1e-10 := by
  rw [Exact.ofScientific_eq]
  norm_num

theorem choleskyWithJitter?_isLeast (square : m.rows = m.cols) (finite : m.isFinite = true)
    {found : Exact} (h : m.choleskyWithJitter? = some (lower, found)) :
    ∃ a, found = .real a ∧ IsLeast (rescues (m.symmetric m.cols)) a ∧
      lower.IsFactorOf (m.symmetric m.cols + a • 1) := by
  unfold choleskyWithJitter? at h
  rw [if_pos finite] at h
  split at h
  next hlower =>
    -- Nothing is less than no jitter.
    cases h
    have hfactor := isFactorOf_of_cholesky? square finite hlower
    have hdef := (exists_cholesky?_iff square finite).1 ⟨_, hlower⟩
    refine ⟨0, by rw [Exact.ofNat_eq, Nat.cast_zero], ⟨⟨zero_mem_jitters, by simpa using hdef⟩,
      fun b hb => jitters_nonneg hb.1⟩, by simpa using hfactor⟩
  next hnone =>
    rw [start_eq] at h
    obtain ⟨k, hk, rfl, hlower, hearlier⟩ := choleskyFrom?_eq_some h
    have hnot : ¬ (m.symmetric m.cols).PosDef := by
      rw [← exists_cholesky?_iff square finite, hnone]
      simp
    have hdef : (m.symmetric m.cols + (1e-10 * 10 ^ k : ℝ) • 1).PosDef := by
      by_contra hcon
      rw [← cholesky?_addDiagonal_eq_none_iff finite, hlower] at hcon
      cases hcon
    refine ⟨_, rfl, ⟨⟨.inr ⟨k, hk, rfl⟩, hdef⟩, ?_⟩, isFactorOf_addDiagonal finite hlower⟩
    rintro b ⟨rfl | ⟨i, hi, rfl⟩, hb⟩
    · exact absurd (by simpa using hb) hnot
    · by_cases hik : i < k
      · exact absurd hb ((cholesky?_addDiagonal_eq_none_iff finite).1 (hearlier i hik))
      · have hpow : (10 : ℝ) ^ k ≤ 10 ^ i := pow_le_pow_right₀ (by norm_num) (by omega)
        gcongr

/-- The last jitter decides. -/
theorem choleskyWithJitter?_eq_none_iff (square : m.rows = m.cols) (finite : m.isFinite = true) :
    m.choleskyWithJitter? = none ↔ ¬ (m.symmetric m.cols + (1e-3 : ℝ) • 1).PosDef := by
  constructor
  · intro h
    unfold choleskyWithJitter? at h
    rw [if_pos finite] at h
    split at h
    next => cases h
    next =>
      rw [start_eq] at h
      have hlast := choleskyFrom?_eq_none h 7 (by omega)
      rwa [cholesky?_addDiagonal_eq_none_iff finite,
        show (1e-10 * 10 ^ 7 : ℝ) = 1e-3 by norm_num] at hlast
  · intro h
    rw [Option.eq_none_iff_forall_ne_some]
    rintro ⟨lower, found⟩ hfound
    obtain ⟨a, -, hleast, -⟩ := choleskyWithJitter?_isLeast square finite hfound
    exact h (posDef_add_mono hleast.1.2 (jitters_le_last hleast.1.1))

theorem exists_choleskyWithJitter? (square : m.rows = m.cols) (finite : m.isFinite = true)
    (h : b ∈ rescues (m.symmetric m.cols)) :
    ∃ lower a, m.choleskyWithJitter? = some (lower, .real a) ∧ a ≤ b := by
  cases hfound : m.choleskyWithJitter? with
  | none =>
    rw [choleskyWithJitter?_eq_none_iff square finite] at hfound
    exact absurd (posDef_add_mono h.2 (jitters_le_last h.1)) hfound
  | some result =>
    obtain ⟨lower, found⟩ := result
    obtain ⟨a, rfl, hleast, -⟩ := choleskyWithJitter?_isLeast square finite hfound
    exact ⟨lower, a, rfl, hleast.2 h⟩

/-- The jitter and the factor of a finite matrix of a given size. -/
theorem exists_isLeast_jitter (rows : m.rows = n) (cols : m.cols = n) (finite : m.isFinite = true)
    {found : Exact} (h : m.choleskyWithJitter? = some (lower, found)) :
    ∃ a, IsLeast (rescues (m.symmetric n)) a ∧ lower.IsFactorOf (m.symmetric n + a • 1) := by
  subst cols
  obtain ⟨a, -, hleast, hfactor⟩ := choleskyWithJitter?_isLeast rows finite h
  exact ⟨a, hleast, hfactor⟩

theorem choleskyWithJitter?_eq_none_iff_rescues (rows : m.rows = n) (cols : m.cols = n)
    (finite : m.isFinite = true) :
    m.choleskyWithJitter? = none ↔ rescues (m.symmetric n) = ∅ := by
  subst cols
  rw [choleskyWithJitter?_eq_none_iff rows finite, Set.eq_empty_iff_forall_notMem]
  constructor
  · intro h a ha
    exact h (posDef_add_mono ha.2 (jitters_le_last ha.1))
  · intro h hdef
    exact h _ ⟨last_mem_jitters, hdef⟩

/-! ## Matrices with a larger diagonal -/

/-- Whether one matrix is another with a diagonal that is nowhere smaller. The entries above the
diagonal do not matter. -/
structure Raises (m m' : DenseMatrix Exact) : Prop where
  rows : m'.rows = m.rows
  cols : m'.cols = m.cols
  below : ∀ i < m.cols, ∀ j < i, m'.entry i j = m.entry i j
  diagonal : ∀ i < m.cols, m.reals i i ≤ m'.reals i i

theorem Raises.symmetric_eq (h : Raises m m') : m'.symmetric m.cols =
    m.symmetric m.cols + Matrix.diagonal fun i : Fin m.cols => m'.reals i i - m.reals i i := by
  ext i j
  by_cases hij : i = j
  · simp [hij, symmetric, Triangle.symmetric]
  · have hval : (i : ℕ) ≠ j := fun heq => hij (Fin.ext heq)
    have hbelow := h.below (max i j) (max_lt i.isLt j.isLt) (min i j) (by omega)
    simp [hij, symmetric, Triangle.symmetric, reals, hbelow]

theorem Raises.rescues_subset (h : Raises m m') :
    rescues (m.symmetric m.cols) ⊆ rescues (m'.symmetric m'.cols) := by
  rintro a ⟨hmem, hdef⟩
  refine ⟨hmem, ?_⟩
  rw [h.cols, h.symmetric_eq, add_right_comm]
  refine hdef.add_posSemidef (Matrix.posSemidef_diagonal_iff.2 fun i => ?_)
  exact sub_nonneg.2 (h.diagonal i i.isLt)

theorem mem_rescues_of_posSemidef {A : Matrix (Fin n) (Fin n) ℝ} (h : A.PosSemidef) :
    1e-10 ∈ rescues A := by
  have hpos : ((1e-10 : ℝ) • (1 : Matrix (Fin n) (Fin n) ℝ)).PosDef :=
    Matrix.PosDef.one.smul (by norm_num)
  exact ⟨.inr ⟨0, by omega, by norm_num⟩, Matrix.PosDef.posSemidef_add h hpos⟩

/-- Over the exact numbers the factorization with jitter takes none if the symmetric matrix with the
lower triangle is positive definite, else the least that makes it so, and fails if the largest does
not. So every positive semidefinite matrix is factored with the smallest one at most, and a larger
diagonal neither loses the factor nor asks for more. -/
theorem choleskyWithJitter?_least (square : m.rows = m.cols) (finite : m.isFinite = true) :
    ((∃ lower, m.choleskyWithJitter? = some (lower, 0) ∧
        lower.IsFactorOf (m.symmetric m.cols)) ↔ (m.symmetric m.cols).PosDef) ∧
      (∀ lower found, m.choleskyWithJitter? = some (lower, found) →
        ∃ a, found = .real a ∧ IsLeast (rescues (m.symmetric m.cols)) a ∧
          lower.IsFactorOf (m.symmetric m.cols + a • 1)) ∧
      (m.choleskyWithJitter? = none ↔ ¬ (m.symmetric m.cols + (1e-3 : ℝ) • 1).PosDef) ∧
      ((m.symmetric m.cols).PosSemidef →
        ∃ lower a, m.choleskyWithJitter? = some (lower, .real a) ∧ a ≤ 1e-10) ∧
      ∀ m', Raises m m' → m'.isFinite = true →
        ∀ lower a, m.choleskyWithJitter? = some (lower, .real a) →
          ∃ lower' a', m'.choleskyWithJitter? = some (lower', .real a') ∧ a' ≤ a := by
  have hzero : (0 : Exact) = .real 0 := by rw [Exact.ofNat_eq, Nat.cast_zero]
  refine ⟨⟨?_, ?_⟩, fun lower found => choleskyWithJitter?_isLeast square finite,
    choleskyWithJitter?_eq_none_iff square finite,
    fun h => exists_choleskyWithJitter? square finite (mem_rescues_of_posSemidef h), ?_⟩
  · rintro ⟨lower, h, -⟩
    obtain ⟨a, ha, hleast, -⟩ := choleskyWithJitter?_isLeast square finite h
    obtain rfl : 0 = a := Exact.real.inj (hzero.symm.trans ha)
    simpa using hleast.1.2
  · intro h
    obtain ⟨lower, a, hfound, hle⟩ := exists_choleskyWithJitter? square finite (b := 0)
      ⟨zero_mem_jitters, by simpa using h⟩
    obtain ⟨b, hb, hleast, hfactor⟩ := choleskyWithJitter?_isLeast square finite hfound
    obtain rfl := Exact.real.inj hb
    obtain rfl := le_antisymm hle (jitters_nonneg hleast.1.1)
    exact ⟨lower, hzero ▸ hfound, by simpa using hfactor⟩
  · intro m' hraises finite' lower a h
    obtain ⟨b, hb, hleast, -⟩ := choleskyWithJitter?_isLeast square finite h
    obtain rfl := Exact.real.inj hb
    refine exists_choleskyWithJitter? ?_ finite' (hraises.rescues_subset hleast.1)
    rw [hraises.rows, hraises.cols, square]

/-- A singular matrix of ones, but for the entry above the diagonal. -/
noncomputable def singular : DenseMatrix Exact :=
  ofFn 2 2 fun i j => if i < j then 0 else 1

theorem choleskyWithJitter?_least_singular :
    singular.rows = singular.cols ∧ singular.isFinite = true ∧
      ∃ lower a, singular.choleskyWithJitter? = some (lower, .real a) ∧ a ≤ 1e-10 := by
  have finite : singular.isFinite = true := by
    apply isFinite_ofFn
    intro i _ j _
    split <;> rfl
  have hones : singular.symmetric 2 = Matrix.vecMulVec (fun _ => 1) (star fun _ => 1) := by
    ext i j
    have hmin : min (i : ℕ) j < 2 := lt_of_le_of_lt (min_le_left _ _) i.isLt
    rw [symmetric, Triangle.symmetric, Matrix.of_apply, reals, singular,
      entry_ofFn _ (max_lt i.isLt j.isLt) hmin, if_neg (by omega), Exact.ofNat_eq]
    simp [Matrix.vecMulVec_apply]
  obtain ⟨-, -, -, hsemidefinite, -⟩ := choleskyWithJitter?_least (m := singular) rfl finite
  refine ⟨rfl, finite, hsemidefinite ?_⟩
  rw [show singular.cols = 2 from rfl, hones]
  exact Matrix.posSemidef_vecMulVec_self_star _

end Metropolis.DenseMatrix
