import Metropolis.Proofs.ExtendedSums

/-!
# The logarithm of a sum of exponentials

Of the logarithms of a series of numbers that are not negative the result is the logarithm of their
sum, `-∞` if all of them are zero. Of a series of real exponents it is the real number that its name
says, as soon as the series is not empty. An exponent of `∞` decides, also beside an undefined one.
-/

namespace Metropolis.Series

variable {xs ys : List ℝ}

theorem sum_ofReal (h : ∀ y ∈ ys, 0 ≤ y) :
    (ys.map ENNReal.ofReal).sum = ENNReal.ofReal ys.sum := by
  induction ys with
  | nil => rw [List.map_nil, List.sum_nil, List.sum_nil, ENNReal.ofReal_zero]
  | cons y ys ih =>
    obtain ⟨hy, hys⟩ := List.forall_mem_cons.1 h
    rw [List.map_cons, List.sum_cons, List.sum_cons, ih hys,
      ENNReal.ofReal_add hy (List.sum_nonneg hys)]

/-- Of logarithms, which are `-∞` for zeros, the result is the logarithm of the sum. -/
theorem logSumExp_log (h : ∀ y ∈ ys, 0 ≤ y) :
    logSumExp (ys.map fun y => Scalar.log (Exact.real y)) = Scalar.log (Exact.real ys.sum) := by
  have hlogs : (ys.map fun y => Scalar.log (Exact.real y)) =
      ((ys.map ENNReal.ofReal).map ENNReal.log).map Exact.ofEReal := by
    rw [List.map_map, List.map_map]
    exact List.map_congr_left fun y hy => Exact.log_real_ofEReal (h y hy)
  have hexp : ((ys.map ENNReal.ofReal).map ENNReal.log).map EReal.exp =
      ys.map ENNReal.ofReal := by
    rw [List.map_map]
    exact List.map_id'' ENNReal.exp_log _
  rw [hlogs, logSumExp_ofEReal, logTotal, hexp, sum_ofReal h,
    Exact.log_real_ofEReal (List.sum_nonneg h)]

theorem logSumExp_real (hne : xs ≠ []) :
    logSumExp (xs.map Exact.real) = Exact.real (Real.log (xs.map Real.exp).sum) := by
  have hpos : ∀ y ∈ xs.map Real.exp, 0 < y := List.forall_mem_map.2 fun x _ => Real.exp_pos x
  have hlogs : xs.map Exact.real = (xs.map Real.exp).map fun y => Scalar.log (Exact.real y) := by
    rw [List.map_map]
    apply List.map_congr_left
    intro x _
    show Exact.real x = Scalar.log (.real (Real.exp x))
    rw [Exact.log_real (Real.exp_pos x), Real.log_exp]
  rw [hlogs, logSumExp_log fun y hy => (hpos y hy).le,
    Exact.log_real (List.sum_pos _ hpos (mt List.map_eq_nil_iff.1 hne))]

/-! ## Infinite exponents -/

theorem maximum_posInf {logs : List Exact} (h : Exact.posInf ∈ logs) :
    maximum logs = .posInf := by
  obtain ⟨before, after, rfl⟩ := List.append_of_mem h
  rw [maximum, List.foldl_append, List.foldl_cons, Exact.larger_posInf]
  exact List.foldl_fixed' Exact.posInf_larger after

theorem logSumExp_posInf {logs : List Exact} (h : Exact.posInf ∈ logs) :
    logSumExp logs = .posInf := by
  unfold logSumExp
  rw [maximum_posInf h]
  rfl

end Metropolis.Series
