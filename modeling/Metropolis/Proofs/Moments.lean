import Metropolis.Proofs.Estimates

/-!
# Moments of real numbers

Over the exact numbers the means and the squared distances of a series of real numbers are real
numbers, and those that their names say as long as the numbers can be counted.
-/

namespace Metropolis

namespace Series

variable {xs ys : List ℝ} {center : ℝ}

/-- The mean of real numbers, of which no more are counted than can be told. -/
noncomputable def average (xs : List ℝ) : ℝ := xs.sum / (min xs.length Scalar.countLimit : ℕ)

/-- The sum of the squared distances of real numbers to `center`. -/
def spread (center : ℝ) (xs : List ℝ) : ℝ := (xs.map fun x => (x - center) * (x - center)).sum

theorem mean_real (hne : xs ≠ []) : mean (xs.map Exact.real) = Exact.real (average xs) := by
  have hsome : ¬ (xs.map Exact.real).isEmpty = true := by
    rwa [List.isEmpty_iff, List.map_eq_nil_iff]
  have hpos := Exact.min_countLimit_pos (List.length_pos_iff.2 hne)
  unfold mean
  rw [if_neg hsome, sum_real, List.length_map, Exact.ofCount_eq, Exact.real_div _ hpos.ne']
  rfl

theorem squaredDistances_real (center : ℝ) (xs : List ℝ) :
    squaredDistances (Exact.real center) (xs.map Exact.real) = Exact.real (spread center xs) := by
  have hterms : (xs.map Exact.real).map
      (fun x => (x - Exact.real center) * (x - Exact.real center)) =
      (xs.map fun x => (x - center) * (x - center)).map Exact.real := by
    rw [List.map_map, List.map_map]
    apply List.map_congr_left
    intro x _
    show (Exact.real x - Exact.real center) * (Exact.real x - Exact.real center) = _
    rw [Exact.real_sub, Exact.real_mul]
    rfl
  rw [squaredDistances, hterms, sum_real]
  rfl

/-- The mean squared distance of real numbers to their mean. -/
noncomputable def dispersion (xs : List ℝ) : ℝ :=
  spread (average xs) xs / (min xs.length Scalar.countLimit : ℕ)

theorem populationVariance_real (hne : xs ≠ []) :
    populationVariance (xs.map Exact.real) = Exact.real (dispersion xs) := by
  have hpos := Exact.min_countLimit_pos (List.length_pos_iff.2 hne)
  have hcount := Exact.one_le_min_countLimit (List.length_pos_iff.2 hne)
  rw [populationVariance, mean_real hne, squaredDistances_real, List.length_map,
    Exact.ofCount_eq, Exact.ofNat_eq, Exact.larger_real, Nat.cast_one, max_eq_left hcount,
    Exact.real_div _ hpos.ne', dispersion]

theorem spread_nonneg (center : ℝ) (xs : List ℝ) : 0 ≤ spread center xs := by
  apply List.sum_nonneg
  intro y hy
  obtain ⟨x, -, rfl⟩ := List.mem_map.1 hy
  exact mul_self_nonneg _

theorem dispersion_nonneg (xs : List ℝ) : 0 ≤ dispersion xs :=
  div_nonneg (spread_nonneg _ xs) (Nat.cast_nonneg _)

theorem spread_append (center : ℝ) (xs ys : List ℝ) :
    spread center (xs ++ ys) = spread center xs + spread center ys := by
  rw [spread, List.map_append, List.sum_append]
  rfl

/-- Numbers without spread are all the center. -/
theorem spread_eq_zero_iff : spread center xs = 0 ↔ ∀ x ∈ xs, x = center := by
  induction xs with
  | nil => simp [spread]
  | cons x xs ih =>
    have hcons : spread center (x :: xs) = (x - center) * (x - center) + spread center xs := by
      rw [spread, List.map_cons, List.sum_cons]
      rfl
    rw [hcons, add_eq_zero_iff_of_nonneg (mul_self_nonneg _) (spread_nonneg center xs),
      mul_self_eq_zero, sub_eq_zero, ih, List.forall_mem_cons]

theorem average_of_le (h : xs.length ≤ Scalar.countLimit) : average xs = xs.sum / xs.length := by
  rw [average, Nat.min_eq_left h]

/-- The mean of equal numbers. -/
theorem average_of_constant {c : ℝ} (hne : xs ≠ []) (h : xs.length ≤ Scalar.countLimit)
    (hconstant : ∀ x ∈ xs, x = c) : average xs = c := by
  have hpos : (0 : ℝ) < xs.length := Nat.cast_pos.2 (List.length_pos_iff.2 hne)
  rw [average_of_le h, List.sum_eq_card_nsmul xs c hconstant, nsmul_eq_mul,
    mul_div_cancel_left₀ c hpos.ne']

/-! ## Other orders and other units -/

theorem average_perm (h : ys.Perm xs) : average ys = average xs := by
  rw [average, average, h.sum_eq, h.length_eq]

theorem spread_perm (center : ℝ) (h : ys.Perm xs) : spread center ys = spread center xs :=
  (h.map _).sum_eq

theorem average_map_affine (a b : ℝ) (hne : xs ≠ []) (h : xs.length ≤ Scalar.countLimit) :
    average (xs.map fun x => a * x + b) = a * average xs + b := by
  have hpos : (0 : ℝ) < xs.length := Nat.cast_pos.2 (List.length_pos_iff.2 hne)
  rw [average_of_le (by rwa [List.length_map]), average_of_le h, List.length_map,
    List.sum_map_add, List.sum_map_mul_left, List.map_id', List.map_const', List.sum_replicate,
    nsmul_eq_mul]
  field_simp

theorem spread_map_affine (a b center : ℝ) (xs : List ℝ) :
    spread (a * center + b) (xs.map fun x => a * x + b) = a ^ 2 * spread center xs := by
  rw [spread, spread, List.map_map, ← List.sum_map_mul_left]
  congr 1
  apply List.map_congr_left
  intro x _
  simp only [Function.comp_apply]
  ring

theorem dispersion_perm (h : ys.Perm xs) : dispersion ys = dispersion xs := by
  rw [dispersion, dispersion, average_perm h, spread_perm _ h, h.length_eq]

theorem dispersion_map_affine (a b : ℝ) (hne : xs ≠ []) (h : xs.length ≤ Scalar.countLimit) :
    dispersion (xs.map fun x => a * x + b) = a ^ 2 * dispersion xs := by
  rw [dispersion, average_map_affine a b hne h, spread_map_affine, List.length_map, dispersion,
    mul_div_assoc]

end Series

end Metropolis
