import Metropolis.Proofs.Moments
import Metropolis.Series.SplitRhat

/-!
# The scale reduction of chains of real numbers

Over the exact numbers the variances within and between chains are real numbers, and so is the
scale reduction. It is a function of the two, which does not change when both are multiplied.
-/

namespace Metropolis.Series

variable {xs : List ℝ} {chains others : List (List ℝ)} {n : ℕ} {a : ℝ}

/-! ## Variances -/

/-- The unbiased variance of real numbers. -/
noncomputable def variance (xs : List ℝ) : ℝ :=
  spread (average xs) xs / ((min xs.length Scalar.countLimit : ℕ) - 1)

theorem spread_average_of_short (h : xs.length < 2) : spread (average xs) xs = 0 := by
  rw [spread_eq_zero_iff]
  intro x hx
  obtain ⟨y, rfl⟩ : ∃ y, xs = [y] := by
    have hpos := List.length_pos_of_mem hx
    exact List.length_eq_one_iff.1 (by omega)
  have hcount : [y].length ≤ Scalar.countLimit := by
    rw [List.length_singleton]
    decide
  rw [average_of_constant (List.ne_nil_of_mem hx) hcount (fun z hz => List.mem_singleton.1 hz)]
  exact List.mem_singleton.1 hx

theorem sampleVariance_real (xs : List ℝ) :
    sampleVariance (xs.map Exact.real) = Exact.real (variance xs) := by
  unfold sampleVariance
  rw [List.length_map]
  split
  next hshort =>
    rw [variance, spread_average_of_short hshort, zero_div, Exact.ofNat_eq, Nat.cast_zero]
  next hlong =>
    have hne : xs ≠ [] := by
      rintro rfl
      exact hlong (by decide)
    have hcount : 2 ≤ min xs.length Scalar.countLimit := by
      have hlimit : 2 ≤ Scalar.countLimit := by decide
      omega
    have hdivisor : ((min xs.length Scalar.countLimit : ℕ) - 1 : ℝ) ≠ 0 := by
      have hreal : (2 : ℝ) ≤ (min xs.length Scalar.countLimit : ℕ) := by exact_mod_cast hcount
      linarith
    rw [mean_real hne, squaredDistances_real, Exact.ofCount_eq, Exact.ofNat_eq, Exact.real_sub,
      Nat.cast_one, Exact.real_div _ hdivisor]
    rfl

theorem variance_nonneg (xs : List ℝ) : 0 ≤ variance xs := by
  rcases eq_or_ne xs [] with rfl | hne
  · exact (zero_div _).ge
  · have hcount := Exact.one_le_min_countLimit (List.length_pos_iff.2 hne)
    exact div_nonneg (spread_nonneg _ xs) (sub_nonneg.2 hcount)

theorem variance_map_affine (a b : ℝ) (hne : xs ≠ []) (h : xs.length ≤ Scalar.countLimit) :
    variance (xs.map fun x => a * x + b) = a ^ 2 * variance xs := by
  rw [variance, average_map_affine a b hne h, spread_map_affine, List.length_map, variance,
    mul_div_assoc]

/-- The mean of the variances within chains. -/
noncomputable def within (chains : List (List ℝ)) : ℝ := average (chains.map variance)

/-- The variance of the means of chains, times the length of a chain. -/
noncomputable def between (n : ℕ) (chains : List (List ℝ)) : ℝ :=
  (min n Scalar.countLimit : ℕ) *
    spread (average (chains.map average)) (chains.map average) /
      (min (chains.length - 1) Scalar.countLimit : ℕ)

theorem sum_div_ofCount (hne : xs ≠ []) :
    sum (xs.map Exact.real) / Scalar.ofCount xs.length = Exact.real (average xs) := by
  have hpos := Exact.min_countLimit_pos (List.length_pos_iff.2 hne)
  rw [sum_real, Exact.ofCount_eq, Exact.real_div _ hpos.ne', average]

theorem withinVariance_real (hne : chains ≠ []) :
    withinVariance (chains.map (List.map Exact.real)) = Exact.real (within chains) := by
  have hvariances : (chains.map (List.map Exact.real)).map sampleVariance =
      (chains.map variance).map Exact.real := by
    rw [List.map_map, List.map_map]
    exact List.map_congr_left fun xs _ => sampleVariance_real xs
  have hcount : (chains.map (List.map Exact.real)).length = (chains.map variance).length := by
    rw [List.length_map, List.length_map]
  rw [withinVariance, hvariances, hcount, sum_div_ofCount (mt List.map_eq_nil_iff.1 hne), within]

theorem betweenVariance_real (hchains : 2 ≤ chains.length) (hlength : ∀ c ∈ chains, c ≠ []) :
    betweenVariance n (chains.map (List.map Exact.real)) = Exact.real (between n chains) := by
  have hmeans : (chains.map (List.map Exact.real)).map mean =
      (chains.map average).map Exact.real := by
    rw [List.map_map, List.map_map]
    exact List.map_congr_left fun xs hxs => mean_real (hlength xs hxs)
  have hcount : (chains.map (List.map Exact.real)).length = (chains.map average).length := by
    rw [List.length_map, List.length_map]
  have hne : chains.map average ≠ [] := by
    rw [← List.length_pos_iff, List.length_map]
    omega
  have hpos := Exact.min_countLimit_pos (n := chains.length - 1) (by omega)
  unfold betweenVariance
  dsimp only
  rw [hmeans, hcount, sum_div_ofCount hne, squaredDistances_real, Exact.ofCount_eq,
    Exact.real_mul, List.length_map, Exact.ofCount_eq, Exact.real_div _ hpos.ne', between]

/-! ## Scale reductions -/

/-- The variance of chains of length `n` taken together. -/
noncomputable def pooledVariance (n : ℕ) (chains : List (List ℝ)) : ℝ :=
  ((min n Scalar.countLimit : ℕ) - 1) / (min n Scalar.countLimit : ℕ) * within chains +
    between n chains / (min n Scalar.countLimit : ℕ)

open Classical in
/-- The scale reduction of chains of real numbers. -/
noncomputable def reduction (n : ℕ) (chains : List (List ℝ)) : ℝ :=
  if 0 < within chains ∧ 0 < pooledVariance n chains then
    max √(pooledVariance n chains / within chains) 1
  else 1

theorem scaleReduction_real (hn : 0 < n) (hchains : 2 ≤ chains.length)
    (hlength : ∀ c ∈ chains, c ≠ []) :
    scaleReduction n (chains.map (List.map Exact.real)) = Exact.real (reduction n chains) := by
  have hne : chains ≠ [] := List.ne_nil_of_length_pos (by omega)
  have hcount := (Exact.min_countLimit_pos hn).ne'
  have hone : (1 : Exact) = Exact.real 1 := congrArg Exact.real Nat.cast_one
  have hpos (x : ℝ) : (0 : Exact) < Exact.real x ↔ 0 < x := by
    rw [Exact.ofNat_eq, Exact.real_lt, Nat.cast_zero]
  unfold scaleReduction
  dsimp only
  rw [withinVariance_real hne, betweenVariance_real hchains hlength, Exact.ofCount_eq, hone,
    Exact.real_sub, Exact.real_div _ hcount, Exact.real_mul, Exact.real_div _ hcount,
    Exact.real_add, ← pooledVariance]
  unfold reduction
  by_cases hwithin : 0 < within chains
  · have hspread : Scalar.isFinite (Exact.real (within chains)) = true ∧
        0 < Exact.real (within chains) ∧ Scalar.isFinite (Exact.real (between n chains)) = true :=
      ⟨rfl, (hpos _).2 hwithin, rfl⟩
    rw [if_pos hspread]
    by_cases hpooled : 0 < pooledVariance n chains
    · have htogether : Scalar.isFinite (Exact.real (pooledVariance n chains)) = true ∧
          ¬ Exact.real (pooledVariance n chains) ≤ 0 :=
        ⟨rfl, mt (Exact.real_le_zero_iff _).1 hpooled.not_ge⟩
      rw [if_pos htogether, if_pos ⟨hwithin, hpooled⟩, Exact.real_div _ hwithin.ne',
        Exact.sqrt_real (div_pos hpooled hwithin).le, Exact.larger_real]
    · have hnone : Exact.real (pooledVariance n chains) ≤ 0 :=
        (Exact.real_le_zero_iff _).2 (not_lt.1 hpooled)
      rw [if_neg fun h : _ ∧ ¬ _ => h.2 hnone, if_neg fun h : _ ∧ _ => hpooled h.2]
  · rw [if_neg fun h : _ ∧ _ ∧ _ => hwithin ((hpos _).1 h.2.1),
      if_neg fun h : _ ∧ _ => hwithin h.1]

theorem reduction_perm (h : others.Perm chains) : reduction n others = reduction n chains := by
  have hwithin : within others = within chains := average_perm (h.map variance)
  have hbetween : between n others = between n chains := by
    rw [between, between, average_perm (h.map average), spread_perm _ (h.map average),
      h.length_eq]
  rw [reduction, reduction, pooledVariance, pooledVariance, hwithin, hbetween]

/-- The same map of all chains multiplies both variances alike. -/
theorem reduction_map_affine (b : ℝ) (ha : a ≠ 0) (hne : chains ≠ [])
    (hcount : chains.length ≤ Scalar.countLimit)
    (hlength : ∀ c ∈ chains, c ≠ [] ∧ c.length ≤ Scalar.countLimit) :
    reduction n (chains.map (List.map fun x => a * x + b)) = reduction n chains := by
  have hpos : 0 < a ^ 2 := by positivity
  have hmeans : (chains.map (List.map fun x => a * x + b)).map average =
      (chains.map average).map fun x => a * x + b := by
    rw [List.map_map, List.map_map]
    exact List.map_congr_left fun xs hxs =>
      average_map_affine a b (hlength xs hxs).1 (hlength xs hxs).2
  have hvariances : (chains.map (List.map fun x => a * x + b)).map variance =
      (chains.map variance).map fun x => a ^ 2 * x + 0 := by
    rw [List.map_map, List.map_map]
    apply List.map_congr_left
    intro xs hxs
    simp only [Function.comp_apply]
    rw [variance_map_affine a b (hlength xs hxs).1 (hlength xs hxs).2, add_zero]
  have hwithin : within (chains.map (List.map fun x => a * x + b)) = a ^ 2 * within chains := by
    rw [within, hvariances, average_map_affine _ _ (mt List.map_eq_nil_iff.1 hne)
      (by rwa [List.length_map]), add_zero, within]
  have hbetween : between n (chains.map (List.map fun x => a * x + b)) =
      a ^ 2 * between n chains := by
    rw [between, hmeans, average_map_affine _ _ (mt List.map_eq_nil_iff.1 hne)
      (by rwa [List.length_map]), spread_map_affine, List.length_map, between]
    ring
  have hpooled : pooledVariance n (chains.map (List.map fun x => a * x + b)) =
      a ^ 2 * pooledVariance n chains := by
    rw [pooledVariance, hwithin, hbetween, pooledVariance]
    ring
  simp only [reduction, hwithin, hpooled, mul_pos_iff_of_pos_left hpos,
    mul_div_mul_left _ _ hpos.ne']

end Metropolis.Series
