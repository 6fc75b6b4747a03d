import Metropolis.Proofs.Moments
import Metropolis.Series.Autocorrelation

/-!
# The effective size of a series

A product of two distances to the mean is at most half the sum of their squares. So the products of
a series with itself `lag` places on add up to at most half the squares of its leading and of its
trailing distances, of all but `lag` each. What the leading ones of one lag leave out, the trailing
ones of another lag are, and the sums over all lags together are at most the squares of all
distances, once for every lag. Over the exact numbers the effective size is at least one for this
reason, however many lags are summed.
-/

namespace Metropolis.Series

variable {xs : List ℝ} {center : ℝ} {lag : ℕ}

/-! ## Products of a series with itself -/

/-- The sum of the products of the distances of numbers that are `lag` places apart. -/
def laggedSum (center : ℝ) (xs : List ℝ) (lag : ℕ) : ℝ :=
  ((xs.zip (xs.drop lag)).map fun p => (p.1 - center) * (p.2 - center)).sum

/-- The pairs are those of all but the last with all but the first `lag` numbers. -/
theorem zip_drop (xs : List ℝ) (lag : ℕ) :
    xs.zip (xs.drop lag) = (xs.take (xs.length - lag)).zip (xs.drop lag) := by
  have hmin : min xs.length (xs.drop lag).length = xs.length - lag := by
    rw [List.length_drop]
    omega
  have hall : (xs.drop lag).take (xs.length - lag) = xs.drop lag := by
    rw [← List.length_drop, List.take_length]
  rw [List.zip_eq_zip_take_min, hmin, hall]

theorem length_take_eq_length_drop (xs : List ℝ) (lag : ℕ) :
    (xs.take (xs.length - lag)).length = (xs.drop lag).length := by
  rw [List.length_take, List.length_drop]
  omega

theorem map_fst_zip_drop (xs : List ℝ) (lag : ℕ) :
    (xs.zip (xs.drop lag)).map Prod.fst = xs.take (xs.length - lag) := by
  rw [zip_drop, List.map_fst_zip (length_take_eq_length_drop xs lag).le]

theorem map_snd_zip_drop (xs : List ℝ) (lag : ℕ) :
    (xs.zip (xs.drop lag)).map Prod.snd = xs.drop lag := by
  rw [zip_drop, List.map_snd_zip (length_take_eq_length_drop xs lag).ge]

/-- What a lagged sum is bounded by: the squares of all but the last and of all but the first `lag`
distances. -/
def lagBound (center : ℝ) (xs : List ℝ) (lag : ℕ) : ℝ :=
  spread center (xs.take (xs.length - lag)) + spread center (xs.drop lag)

theorem lagBound_nonneg (center : ℝ) (xs : List ℝ) (lag : ℕ) : 0 ≤ lagBound center xs lag :=
  add_nonneg (spread_nonneg center _) (spread_nonneg center _)

theorem lagBound_eq (center : ℝ) (xs : List ℝ) (lag : ℕ) : lagBound center xs lag =
    ((xs.zip (xs.drop lag)).map fun p =>
      (p.1 - center) * (p.1 - center) + (p.2 - center) * (p.2 - center)).sum := by
  have htrailing : spread center (xs.drop lag) =
      spread center ((xs.zip (xs.drop lag)).map Prod.snd) := by
    rw [map_snd_zip_drop]
  rw [lagBound, htrailing, ← map_fst_zip_drop, List.sum_map_add, spread, spread, List.map_map,
    List.map_map]
  rfl

theorem two_mul_laggedSum_le (center : ℝ) (xs : List ℝ) (lag : ℕ) :
    2 * laggedSum center xs lag ≤ lagBound center xs lag := by
  rw [laggedSum, ← List.sum_map_mul_left, lagBound_eq]
  apply List.sum_le_sum
  intro p _
  have hsquare := mul_self_nonneg ((p.1 - center) - (p.2 - center))
  linarith

theorem neg_lagBound_le (center : ℝ) (xs : List ℝ) (lag : ℕ) :
    -lagBound center xs lag ≤ 2 * laggedSum center xs lag := by
  rw [laggedSum, ← List.sum_map_mul_left, lagBound_eq, ← neg_one_mul, ← List.sum_map_mul_left]
  apply List.sum_le_sum
  intro p _
  have hsquare := mul_self_nonneg ((p.1 - center) + (p.2 - center))
  linarith

theorem spread_take_add_drop (center : ℝ) (xs : List ℝ) (n : ℕ) :
    spread center (xs.take n) + spread center (xs.drop n) = spread center xs := by
  rw [← spread_append, List.take_append_drop]

theorem lagBound_le (center : ℝ) (xs : List ℝ) (lag : ℕ) :
    lagBound center xs lag ≤ 2 * spread center xs := by
  have hleading := spread_take_add_drop center xs (xs.length - lag)
  have htrailing := spread_take_add_drop center xs lag
  have hrest := spread_nonneg center (xs.drop (xs.length - lag))
  have hstart := spread_nonneg center (xs.take lag)
  unfold lagBound
  linarith

/-- Every distance is squared in the bounds of all lags together as often as there are lags. -/
theorem sum_lagBound (center : ℝ) (xs : List ℝ) :
    ∑ k ∈ Finset.range (xs.length - 1), lagBound center xs (k + 1) =
      (xs.length - 1 : ℕ) * spread center xs := by
  -- The leading distances of a lag go with the trailing ones of the lag as far from the other end.
  have hreflect :
      ∑ k ∈ Finset.range (xs.length - 1), spread center (xs.take (xs.length - (k + 1))) =
        ∑ k ∈ Finset.range (xs.length - 1), spread center (xs.take (k + 1)) := by
    rw [← Finset.sum_range_reflect]
    apply Finset.sum_congr rfl
    intro k hk
    have hlt := Finset.mem_range.1 hk
    congr 2
    omega
  calc ∑ k ∈ Finset.range (xs.length - 1), lagBound center xs (k + 1)
      = ∑ k ∈ Finset.range (xs.length - 1),
          (spread center (xs.take (k + 1)) + spread center (xs.drop (k + 1))) := by
        simp only [lagBound, Finset.sum_add_distrib, hreflect]
    _ = (xs.length - 1 : ℕ) * spread center xs := by
        simp only [spread_take_add_drop, Finset.sum_const, Finset.card_range, nsmul_eq_mul]

theorem sum_laggedSum_le (center : ℝ) (xs : List ℝ) {lags : ℕ} (h : lags < xs.length) :
    2 * ∑ k ∈ Finset.range lags, laggedSum center xs (k + 1) ≤
      (xs.length - 1 : ℕ) * spread center xs := by
  calc 2 * ∑ k ∈ Finset.range lags, laggedSum center xs (k + 1)
      ≤ ∑ k ∈ Finset.range lags, lagBound center xs (k + 1) := by
        rw [Finset.mul_sum]
        exact Finset.sum_le_sum fun k _ => two_mul_laggedSum_le center xs (k + 1)
    _ ≤ ∑ k ∈ Finset.range (xs.length - 1), lagBound center xs (k + 1) := by
        apply Finset.sum_le_sum_of_subset_of_nonneg
        · exact Finset.range_mono (by omega)
        · exact fun k _ _ => lagBound_nonneg center xs (k + 1)
    _ = (xs.length - 1 : ℕ) * spread center xs := sum_lagBound center xs

/-! ## Autocorrelations -/

/-- The autocorrelation of real numbers. Without spread it is zero, as a quotient by zero is. -/
noncomputable def correlation (xs : List ℝ) (lag : ℕ) : ℝ :=
  laggedSum (average xs) xs lag / spread (average xs) xs

theorem laggedSum_of_le (h : xs.length ≤ lag) : laggedSum center xs lag = 0 := by
  rw [laggedSum, List.drop_eq_nil_of_le h, List.zip_nil_right]
  rfl

theorem laggedSum_zero (center : ℝ) (xs : List ℝ) : laggedSum center xs 0 = spread center xs := by
  have hpairs : xs.zip xs = xs.map fun x => (x, x) := by
    simpa using (List.zip_map' (f := id) (g := id) (l := xs))
  rw [laggedSum, List.drop_zero, hpairs, List.map_map]
  rfl

theorem laggedSum_map_affine (a b center : ℝ) (xs : List ℝ) (lag : ℕ) :
    laggedSum (a * center + b) (xs.map fun x => a * x + b) lag =
      a ^ 2 * laggedSum center xs lag := by
  rw [laggedSum, laggedSum, ← List.map_drop, List.zip_map, List.map_map, ← List.sum_map_mul_left]
  congr 1
  apply List.map_congr_left
  rintro ⟨x, y⟩ _
  simp only [Function.comp_apply, Prod.map]
  ring

theorem laggedSum_reverse (center : ℝ) (xs : List ℝ) (lag : ℕ) :
    laggedSum center xs.reverse lag = laggedSum center xs lag := by
  by_cases hlag : xs.length ≤ lag
  · rw [laggedSum_of_le (by rwa [List.length_reverse]), laggedSum_of_le hlag]
  · have hpairs : xs.reverse.zip (xs.reverse.drop lag) =
        ((xs.zip (xs.drop lag)).map Prod.swap).reverse := by
      have hrest : xs.length - (xs.length - lag) = lag := by omega
      rw [zip_drop, zip_drop, List.zip_swap, List.length_reverse, List.take_reverse, hrest,
        List.drop_reverse, List.zip_eq_zipWith, List.zip_eq_zipWith,
        List.reverse_zipWith (length_take_eq_length_drop xs lag).symm]
    rw [laggedSum, hpairs, List.map_reverse, List.sum_reverse, List.map_map, laggedSum]
    congr 1
    exact List.map_congr_left fun p _ => mul_comm _ _

theorem autocorrelation_real (xs : List ℝ) (lag : ℕ) :
    autocorrelation (xs.map Exact.real) lag = Exact.real (correlation xs lag) := by
  unfold autocorrelation correlation
  rw [List.length_map]
  split
  next hlag =>
    rw [laggedSum_of_le hlag, zero_div, Exact.ofNat_eq, Nat.cast_zero]
  next hlag =>
    have hne : xs ≠ [] := by
      rintro rfl
      exact hlag (Nat.zero_le lag)
    rw [mean_real hne]
    dsimp only
    rw [squaredDistances_real]
    split
    next hnone =>
      have hzero := le_antisymm ((Exact.real_le_zero_iff _).1 hnone) (spread_nonneg _ xs)
      rw [hzero, div_zero, Exact.ofNat_eq, Nat.cast_zero]
    next hsome =>
      have hpos := not_le.1 (mt (Exact.real_le_zero_iff _).2 hsome)
      have hproducts : (((xs.map Exact.real).zip ((xs.map Exact.real).drop lag)).map fun p =>
          (p.1 - Exact.real (average xs)) * (p.2 - Exact.real (average xs))) =
          ((xs.zip (xs.drop lag)).map fun p =>
            (p.1 - average xs) * (p.2 - average xs)).map Exact.real := by
        rw [← List.map_drop, List.zip_map, List.map_map, List.map_map]
        apply List.map_congr_left
        rintro ⟨x, y⟩ _
        show (Exact.real x - Exact.real _) * (Exact.real y - Exact.real _) = _
        rw [Exact.real_sub, Exact.real_sub, Exact.real_mul]
        rfl
      rw [hproducts, sum_real, Exact.real_div _ hpos.ne']
      rfl

theorem abs_correlation_le_one (xs : List ℝ) (lag : ℕ) : |correlation xs lag| ≤ 1 := by
  have hupper := two_mul_laggedSum_le (average xs) xs lag
  have hlower := neg_lagBound_le (average xs) xs lag
  have hbound := lagBound_le (average xs) xs lag
  rcases (spread_nonneg (average xs) xs).eq_or_lt with hzero | hpos
  · rw [correlation, ← hzero, div_zero, abs_zero]
    exact zero_le_one
  · rw [correlation, abs_div, abs_of_pos hpos, div_le_one hpos, abs_le]
    constructor <;> linarith

theorem correlation_zero (h : ∃ x ∈ xs, ∃ y ∈ xs, x ≠ y) : correlation xs 0 = 1 := by
  rw [correlation, laggedSum_zero]
  apply div_self
  intro hzero
  obtain ⟨x, hx, y, hy, hne⟩ := h
  have hcenter := spread_eq_zero_iff.1 hzero
  exact hne ((hcenter x hx).trans (hcenter y hy).symm)

theorem correlation_of_constant (hlength : xs.length ≤ Scalar.countLimit)
    (h : ∀ x ∈ xs, ∀ y ∈ xs, x = y) (lag : ℕ) : correlation xs lag = 0 := by
  have hspread : spread (average xs) xs = 0 := by
    rw [spread_eq_zero_iff]
    intro x hx
    exact (average_of_constant (List.ne_nil_of_mem hx) hlength fun y hy => h y hy x hx).symm
  rw [correlation, hspread, div_zero]

/-- The correlations of any leading lags. -/
theorem sum_correlation_le (xs : List ℝ) {lags : ℕ} (h : lags < xs.length) :
    2 * ∑ k ∈ Finset.range lags, correlation xs (k + 1) + 1 ≤ xs.length := by
  have hcount : ((xs.length - 1 : ℕ) : ℝ) = xs.length - 1 := by
    rw [Nat.cast_sub (by omega), Nat.cast_one]
  have hsum : 2 * ∑ k ∈ Finset.range lags, correlation xs (k + 1) ≤ (xs.length - 1 : ℕ) := by
    simp only [correlation, ← Finset.sum_div]
    rw [← mul_div_assoc]
    exact div_le_of_le_mul₀ (spread_nonneg _ xs) (Nat.cast_nonneg _)
      (sum_laggedSum_le (average xs) xs h)
  linarith

theorem correlation_map_affine {a : ℝ} (ha : a ≠ 0) (b : ℝ) (hne : xs ≠ [])
    (hlength : xs.length ≤ Scalar.countLimit) (lag : ℕ) :
    correlation (xs.map fun x => a * x + b) lag = correlation xs lag := by
  have hfactor : a ^ 2 ≠ 0 := pow_ne_zero 2 ha
  rw [correlation, average_map_affine a b hne hlength, laggedSum_map_affine, spread_map_affine,
    mul_div_mul_left _ _ hfactor, correlation]

theorem correlation_reverse (xs : List ℝ) (lag : ℕ) :
    correlation xs.reverse lag = correlation xs lag := by
  rw [correlation, average_perm (List.reverse_perm xs), laggedSum_reverse,
    spread_perm _ (List.reverse_perm xs), correlation]

/-! ## The sum up to the first lag without positive correlation -/

/-- The sum is one over some leading lags, all of positive terms, and over none of them if the first
term is not positive. -/
theorem sumWhilePositive_real (f : ℕ → ℝ) (first count : ℕ) (total : ℝ) :
    ∃ lags ≤ count, (∀ k < lags, 0 < f (first + k)) ∧
      (f first ≤ 0 → lags = 0) ∧
      sumWhilePositive (fun k => Exact.real (f k)) (List.range' first count) (Exact.real total) =
        Exact.real (total + ∑ k ∈ Finset.range lags, f (first + k)) := by
  induction count generalizing first total with
  | zero =>
    refine ⟨0, le_rfl, fun k hk => absurd hk k.not_lt_zero, fun _ => rfl, ?_⟩
    rw [Finset.sum_range_zero, add_zero]
    rfl
  | succ count ih =>
    rw [List.range'_succ]
    unfold sumWhilePositive
    dsimp only
    by_cases hfirst : f first ≤ 0
    · refine ⟨0, Nat.zero_le _, fun k hk => absurd hk k.not_lt_zero, fun _ => rfl, ?_⟩
      rw [if_pos ((Exact.real_le_zero_iff _).2 hfirst), Finset.sum_range_zero, add_zero]
    · obtain ⟨lags, hlags, hpos, -, hsum⟩ := ih (first + 1) (total + f first)
      refine ⟨lags + 1, by omega, fun k hk => ?_, fun h => absurd h hfirst, ?_⟩
      · cases k with
        | zero => exact not_le.1 hfirst
        | succ k =>
          have hk' := hpos k (by omega)
          rwa [Nat.add_assoc, Nat.add_comm 1 k] at hk'
      · rw [if_neg (mt (Exact.real_le_zero_iff _).1 hfirst), Exact.real_add, hsum,
          Finset.sum_range_succ', add_zero]
        congr 1
        simp only [Nat.add_assoc, Nat.add_comm 1]
        ring

/-- The effective size depends on the length and the autocorrelations only. -/
theorem effectiveSize_congr {α : Type} [Scalar α] {us vs : List α} (hlength : us.length = vs.length)
    (h : ∀ lag, autocorrelation us lag = autocorrelation vs lag) :
    effectiveSize us = effectiveSize vs := by
  unfold effectiveSize
  rw [hlength, funext h]

theorem autocorrelation_reverse (xs : List ℝ) (lag : ℕ) :
    autocorrelation (xs.map Exact.real).reverse lag = autocorrelation (xs.map Exact.real) lag := by
  rw [← List.map_reverse, autocorrelation_real, correlation_reverse, autocorrelation_real]

theorem effectiveSize_reverse (xs : List ℝ) :
    effectiveSize (xs.map Exact.real).reverse = effectiveSize (xs.map Exact.real) :=
  effectiveSize_congr List.length_reverse (autocorrelation_reverse xs)

theorem effectiveSize_map_affine {a : ℝ} (ha : a ≠ 0) (b : ℝ) (hne : xs ≠ [])
    (hlength : xs.length ≤ Scalar.countLimit) :
    effectiveSize ((xs.map fun x => a * x + b).map Exact.real) =
      effectiveSize (xs.map Exact.real) := by
  apply effectiveSize_congr
  · rw [List.length_map, List.length_map, List.length_map]
  · intro lag
    rw [autocorrelation_real, correlation_map_affine ha b hne hlength, autocorrelation_real]

/-- The effective size of at least two numbers: their number over a divisor from one lag on to
some. -/
theorem effectiveSize_real (hlength : xs.length ≤ Scalar.countLimit) (hlong : 2 ≤ xs.length) :
    ∃ lags < xs.length, (∀ k < lags, 0 < correlation xs (k + 1)) ∧
      (correlation xs 1 ≤ 0 → lags = 0) ∧
      effectiveSize (xs.map Exact.real) = Exact.real
        (xs.length / (2 * ∑ k ∈ Finset.range lags, correlation xs (k + 1) + 1)) := by
  have hlags : (List.range xs.length).drop 1 = List.range' 1 (xs.length - 1) := by
    rw [List.range_eq_range', List.drop_range', Nat.mul_one, Nat.zero_add]
  have hcorrelations : autocorrelation (xs.map Exact.real) =
      fun lag => Exact.real (correlation xs lag) := funext (autocorrelation_real xs)
  obtain ⟨lags, hle, hpos, hnone, hsum⟩ :=
    sumWhilePositive_real (correlation xs) 1 (xs.length - 1) (0 : ℕ)
  simp only [Nat.add_comm 1, Nat.cast_zero, zero_add] at hpos hsum
  refine ⟨lags, by omega, hpos, hnone, ?_⟩
  have hdivisor : 0 ≤ ∑ k ∈ Finset.range lags, correlation xs (k + 1) :=
    Finset.sum_nonneg fun k hk => (hpos k (Finset.mem_range.1 hk)).le
  have hzero : (0 : Exact) = Exact.real (0 : ℕ) := rfl
  have htwo : (2 : Exact) = Exact.real 2 := congrArg Exact.real Nat.cast_ofNat
  have hlarger : Scalar.larger
      (2 * Exact.real (∑ k ∈ Finset.range lags, correlation xs (k + 1)) + 1) 1 =
      Exact.real (2 * ∑ k ∈ Finset.range lags, correlation xs (k + 1) + 1) := by
    rw [htwo, Exact.ofNat_eq, Exact.real_mul, Exact.real_add, Exact.larger_real, Nat.cast_one,
      max_eq_left (by linarith)]
  unfold effectiveSize
  dsimp only
  rw [List.length_map, if_neg (by omega), hlags, hcorrelations, hzero, Nat.cast_zero, hsum,
    hlarger, Exact.ofCount_of_le hlength, Exact.real_div _ (by linarith)]

/-- No autocorrelation of real numbers is larger than one, that with themselves is one if they are
not all equal, and the divisor of the effective size is at most the number of them, whatever number
of lags it takes. So the effective size is at least one and at most their number, which it is for
equal numbers and without a positive correlation one place on. -/
theorem effectiveSize_between (xs : List ℝ) (hne : xs ≠ [])
    (hlength : xs.length ≤ Scalar.countLimit) :
    (∀ lag, ∃ r : ℝ, autocorrelation (xs.map Exact.real) lag = .real r ∧ |r| ≤ 1) ∧
      ((∃ x ∈ xs, ∃ y ∈ xs, x ≠ y) → autocorrelation (xs.map Exact.real) 0 = .real 1) ∧
      (∀ lags < xs.length, 2 * ∑ k ∈ Finset.range lags,
        (autocorrelation (xs.map Exact.real) (k + 1)).toReal + 1 ≤ xs.length) ∧
      ∃ size : ℝ, effectiveSize (xs.map Exact.real) = .real size ∧ 1 ≤ size ∧ size ≤ xs.length ∧
        ((∀ x ∈ xs, ∀ y ∈ xs, x = y) → size = xs.length) ∧
        (autocorrelation (xs.map Exact.real) 1 ≤ 0 → size = xs.length) := by
  refine ⟨fun lag => ⟨_, autocorrelation_real xs lag, abs_correlation_le_one xs lag⟩,
    fun h => ?_, fun lags h => ?_, ?_⟩
  · rw [autocorrelation_real, correlation_zero h]
  · simp only [autocorrelation_real, Exact.toReal_real]
    exact sum_correlation_le xs h
  · have hpos := List.length_pos_iff.2 hne
    by_cases hlong : 2 ≤ xs.length
    · obtain ⟨lags, hlags, hlagspos, hnone, hsize⟩ := effectiveSize_real hlength hlong
      have hsum : 0 ≤ ∑ k ∈ Finset.range lags, correlation xs (k + 1) :=
        Finset.sum_nonneg fun k hk => (hlagspos k (Finset.mem_range.1 hk)).le
      have hdivisor := sum_correlation_le xs hlags
      -- Without a lag that counts the divisor is one.
      have hwhole : correlation xs 1 ≤ 0 → (xs.length : ℝ) /
          (2 * ∑ k ∈ Finset.range lags, correlation xs (k + 1) + 1) = xs.length := by
        intro h
        rw [hnone h, Finset.sum_range_zero, mul_zero, zero_add, div_one]
      refine ⟨_, hsize, ?_, ?_, fun hconstant => hwhole ?_, fun hlag => hwhole ?_⟩
      · rw [one_le_div (by linarith)]
        exact hdivisor
      · exact div_le_self (Nat.cast_nonneg _) (by linarith)
      · exact (correlation_of_constant hlength hconstant 1).le
      · rwa [autocorrelation_real, Exact.real_le_zero_iff] at hlag
    · have hone : xs.length = 1 := by omega
      refine ⟨1, ?_, le_rfl, ?_, fun _ => ?_, fun _ => ?_⟩
      · unfold effectiveSize
        dsimp only
        rw [List.length_map, if_pos (by omega), Exact.ofCount_of_le hlength, hone, Nat.cast_one]
      all_goals rw [hone, Nat.cast_one]

/-- Four numbers of which neighbours are correlated, so that their effective size is less than
four. -/
theorem effectiveSize_between_steps : ∃ size : ℝ,
    effectiveSize ([0, 0, 1, 1].map Exact.real) = .real size ∧ 1 ≤ size ∧ size ≤ 4 := by
  obtain ⟨-, -, -, size, hsize, hlow, hhigh, -⟩ :=
    effectiveSize_between [0, 0, 1, 1] (by simp) (by simp [Scalar.countLimit])
  exact ⟨size, hsize, hlow, by simpa using hhigh⟩

end Metropolis.Series
