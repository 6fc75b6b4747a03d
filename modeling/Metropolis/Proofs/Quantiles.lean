import Mathlib.Data.List.GetD
import Metropolis.Proofs.Moments
import Metropolis.Series.Quantile

/-!
# Quantiles of real numbers

A list of real numbers in ascending order is known from its elements. So the order in which they
are given does not matter, an increasing map keeps the order, and a decreasing one turns it round.
A quantile of an ordered list lies between two neighbours, and turned round it lies between the same
two with their weights exchanged.
-/

namespace Metropolis

namespace Exact

variable {x p : ℝ}

theorem floor_eq_of_eq_ceil (hx : 0 ≤ x) (h : ⌊x⌋₊ = ⌈x⌉₊) : (⌊x⌋₊ : ℝ) = x :=
  le_antisymm (Nat.floor_le hx) (h ▸ Nat.le_ceil x)

theorem floor_add_one_of_ne_ceil (h : ⌊x⌋₊ ≠ ⌈x⌉₊) : ⌊x⌋₊ + 1 = ⌈x⌉₊ := by
  have hle := Nat.floor_le_ceil x
  have hsucc := Nat.ceil_le_floor_add_one x
  omega

theorem ceil_real (hx : 0 ≤ x) : Scalar.ceil (real x) = ⌈x⌉₊ := by
  have hwhole : Scalar.isWhole (real x) = true ↔ (⌊x⌋₊ : ℝ) = x := decide_eq_true_iff
  have hfloor : Scalar.floor (real x) = ⌊x⌋₊ := rfl
  unfold Scalar.ceil
  rw [hfloor]
  by_cases hinteger : (⌊x⌋₊ : ℝ) = x
  · rw [if_pos (hwhole.2 hinteger), ← hinteger, Nat.ceil_natCast, Nat.floor_natCast]
  · rw [if_neg (mt hwhole.1 hinteger)]
    exact floor_add_one_of_ne_ceil fun h => hinteger (floor_eq_of_eq_ceil hx h)

theorem clamp_unit (hp : 0 ≤ p) (hp' : p ≤ 1) : Scalar.clamp (real p) 0 1 = real p := by
  rw [zero_eq, one_eq, clamp_real hp hp']

end Exact

namespace Series

variable {xs ys : List ℝ} {a b p : ℝ}

/-! ## Ascending order -/

/-- Real numbers in ascending order. -/
noncomputable def ascending (xs : List ℝ) : List ℝ := xs.mergeSort fun x y => decide (x ≤ y)

theorem ascending_perm (xs : List ℝ) : (ascending xs).Perm xs := List.mergeSort_perm _ _

theorem pairwise_ascending (xs : List ℝ) : (ascending xs).Pairwise (· ≤ ·) := by
  refine List.Pairwise.imp (fun h => of_decide_eq_true h) (List.pairwise_mergeSort ?_ ?_ xs)
  · intro x y z hxy hyz
    rw [decide_eq_true_eq] at *
    exact hxy.trans hyz
  · intro x y
    rw [Bool.or_eq_true, decide_eq_true_eq, decide_eq_true_eq]
    exact le_total x y

theorem ascending_eq (hperm : ys.Perm xs) (hordered : ys.Pairwise (· ≤ ·)) : ascending xs = ys :=
  List.Perm.eq_of_pairwise (fun _ _ _ _ hxy hyx => le_antisymm hxy hyx) (pairwise_ascending xs)
    hordered ((ascending_perm xs).trans hperm.symm)

theorem ascending_congr (h : ys.Perm xs) : ascending ys = ascending xs :=
  ascending_eq ((ascending_perm xs).trans h.symm) (pairwise_ascending xs)

theorem ascending_map_of_pos (ha : 0 < a) (b : ℝ) (xs : List ℝ) :
    ascending (xs.map fun x => a * x + b) = (ascending xs).map fun x => a * x + b := by
  apply ascending_eq
  · exact (ascending_perm xs).map _
  · rw [List.pairwise_map]
    exact (pairwise_ascending xs).imp fun h => by gcongr

theorem ascending_map_of_neg (ha : a < 0) (b : ℝ) (xs : List ℝ) :
    ascending (xs.map fun x => a * x + b) = ((ascending xs).map fun x => a * x + b).reverse := by
  apply ascending_eq
  · exact (List.reverse_perm _).trans ((ascending_perm xs).map _)
  · rw [List.pairwise_reverse, List.pairwise_map]
    exact (pairwise_ascending xs).imp fun h =>
      add_le_add_left (mul_le_mul_of_nonpos_left h ha.le) b

theorem ascending_ne_nil (hne : xs ≠ []) : ascending xs ≠ [] := by
  rw [← List.length_pos_iff, (ascending_perm xs).length_eq]
  exact List.length_pos_iff.2 hne

theorem sorted_real (xs : List ℝ) :
    sorted (xs.map Exact.real) = (ascending xs).map Exact.real := by
  symm
  apply List.map_mergeSort
  intro x _ y _
  show decide (x ≤ y) = @decide (x ≤ y) (Classical.propDecidable _)
  congr

/-! ## Interpolation -/

/-- How far into an ordered series of length `n` a fraction of the way is. -/
noncomputable def position (n : ℕ) (p : ℝ) : ℝ := p * (min (n - 1) Scalar.countLimit : ℕ)

/-- The number that far into an ordered series, with the weights of its neighbours. -/
noncomputable def interpolated (xs : List ℝ) (x : ℝ) : ℝ :=
  (1 - (x - ⌊x⌋₊)) * xs.getD ⌊x⌋₊ 0 + (x - ⌊x⌋₊) * xs.getD ⌈x⌉₊ 0

/-- The quantile of real numbers. -/
noncomputable def quantileOf (xs : List ℝ) (p : ℝ) : ℝ :=
  interpolated (ascending xs) (position xs.length p)

theorem position_nonneg (n : ℕ) (hp : 0 ≤ p) : 0 ≤ position n p :=
  mul_nonneg hp (Nat.cast_nonneg _)

theorem ceil_position_le (n : ℕ) (hp : p ≤ 1) :
    ⌈position n p⌉₊ ≤ min (n - 1) Scalar.countLimit :=
  Nat.ceil_le.2 (mul_le_of_le_one_left (Nat.cast_nonneg _) hp)

theorem orderStatistic_real {i : ℕ} (h : i < xs.length) :
    orderStatistic (xs.map Exact.real) i = Exact.real (xs.getD i 0) := by
  rw [orderStatistic, List.getD_eq_getElem _ _ (by rwa [List.length_map]), List.getElem_map,
    List.getD_eq_getElem _ _ h]

theorem quantile_real (hne : xs ≠ []) (hp : 0 ≤ p) (hp' : p ≤ 1) :
    quantile (xs.map Exact.real) (Exact.real p) =
      Exact.real (interpolated xs (position xs.length p)) := by
  have hsome : ¬ (xs.map Exact.real).isEmpty = true := by
    rwa [List.isEmpty_iff, List.map_eq_nil_iff]
  have hlength := List.length_pos_iff.2 hne
  have hceil := ceil_position_le xs.length hp'
  have hfloor := Nat.floor_le_ceil (position xs.length p)
  have hcount : (Scalar.ofCount ⌊position xs.length p⌋₊ : Exact) =
      Exact.real ⌊position xs.length p⌋₊ :=
    Exact.ofCount_of_le (by omega)
  have hposition : Exact.real p * Scalar.ofCount (xs.length - 1) =
      Exact.real (position xs.length p) := rfl
  have hbelow : Scalar.floor (Exact.real (position xs.length p)) = ⌊position xs.length p⌋₊ := rfl
  unfold quantile
  rw [if_neg hsome, List.length_map, Exact.clamp_unit hp hp', hposition]
  dsimp only
  rw [hbelow, Exact.ceil_real (position_nonneg _ hp), orderStatistic_real (by omega),
    orderStatistic_real (by omega), hcount, Exact.ofNat_eq, Nat.cast_one]
  unfold interpolated
  split
  next hsame =>
    rw [Exact.floor_eq_of_eq_ceil (position_nonneg _ hp) hsame]
    congr 1
    ring
  next => simp only [Exact.real_sub, Exact.real_mul, Exact.real_add]

theorem interpolated_map (a b : ℝ) {x : ℝ} (hx : ⌈x⌉₊ < xs.length) :
    interpolated (xs.map fun y => a * y + b) x = a * interpolated xs x + b := by
  have hfloor : ⌊x⌋₊ < xs.length := (Nat.floor_le_ceil x).trans_lt hx
  unfold interpolated
  rw [List.getD_eq_getElem _ _ (by rwa [List.length_map]), List.getElem_map,
    List.getD_eq_getElem _ _ (by rwa [List.length_map]), List.getElem_map,
    List.getD_eq_getElem _ _ hfloor, List.getD_eq_getElem _ _ hx]
  ring

theorem getD_reverse {i : ℕ} (h : i < xs.length) :
    xs.reverse.getD (xs.length - 1 - i) 0 = xs.getD i 0 := by
  rw [List.getD_eq_getElem _ _ (by rw [List.length_reverse]; omega), List.getElem_reverse,
    List.getD_eq_getElem _ _ h]
  congr 1
  omega

/-- As far from the end of a list as from the start of the list turned round. -/
theorem interpolated_reverse (hne : xs ≠ []) {x : ℝ} (hx : 0 ≤ x) (hx' : ⌈x⌉₊ ≤ xs.length - 1) :
    interpolated xs.reverse ((xs.length - 1 : ℕ) - x) = interpolated xs x := by
  have hlength := List.length_pos_iff.2 hne
  have hle : x ≤ (xs.length - 1 : ℕ) := (Nat.le_ceil x).trans (Nat.cast_le.2 hx')
  have hfloor : ⌊((xs.length - 1 : ℕ) : ℝ) - x⌋₊ = xs.length - 1 - ⌈x⌉₊ := by
    rw [Nat.floor_eq_iff (sub_nonneg.2 hle), Nat.cast_sub hx']
    have hlow := Nat.le_ceil x
    have hhigh := Nat.ceil_lt_add_one hx
    constructor <;> linarith
  have hceil : ⌈((xs.length - 1 : ℕ) : ℝ) - x⌉₊ = xs.length - 1 - ⌊x⌋₊ := by
    apply le_antisymm
    · rw [Nat.ceil_le, Nat.cast_sub ((Nat.floor_le_ceil x).trans hx')]
      linarith [Nat.floor_le hx]
    · have hceil_le : ⌈((xs.length - 1 : ℕ) : ℝ) - x⌉₊ ≤ xs.length - 1 :=
        Nat.ceil_le.2 (sub_le_self _ hx)
      have hrest : xs.length - 1 - ⌈((xs.length - 1 : ℕ) : ℝ) - x⌉₊ ≤ ⌊x⌋₊ := by
        rw [Nat.le_floor_iff hx, Nat.cast_sub hceil_le]
        linarith [Nat.le_ceil (((xs.length - 1 : ℕ) : ℝ) - x)]
      omega
  have hbelow := Nat.floor_le_ceil x
  unfold interpolated
  rw [hfloor, hceil, getD_reverse (by omega), getD_reverse (by omega), Nat.cast_sub hx']
  by_cases hsame : ⌊x⌋₊ = ⌈x⌉₊
  · have hwhole := Exact.floor_eq_of_eq_ceil hx hsame
    rw [← hsame, hwhole]
    ring
  · rw [← Exact.floor_add_one_of_ne_ceil hsame, Nat.cast_add, Nat.cast_one]
    ring

/-! ## Quantiles -/

theorem quantile_sorted_real (hne : xs ≠ []) (hp : 0 ≤ p) (hp' : p ≤ 1) :
    quantile (sorted (xs.map Exact.real)) (Exact.real p) = Exact.real (quantileOf xs p) := by
  rw [sorted_real, quantile_real (ascending_ne_nil hne) hp hp', quantileOf,
    (ascending_perm xs).length_eq]

theorem quantileOf_perm (h : ys.Perm xs) (p : ℝ) : quantileOf ys p = quantileOf xs p := by
  rw [quantileOf, quantileOf, ascending_congr h, h.length_eq]

theorem ceil_position_lt (hne : xs ≠ []) (hp : p ≤ 1) :
    ⌈position xs.length p⌉₊ < (ascending xs).length := by
  have hlength := List.length_pos_iff.2 hne
  have hceil := ceil_position_le xs.length hp
  rw [(ascending_perm xs).length_eq]
  omega

theorem quantileOf_map_of_pos (hne : xs ≠ []) (hp : p ≤ 1) (ha : 0 < a) (b : ℝ) :
    quantileOf (xs.map fun x => a * x + b) p = a * quantileOf xs p + b := by
  rw [quantileOf, ascending_map_of_pos ha, List.length_map,
    interpolated_map a b (ceil_position_lt hne hp), quantileOf]

/-- A negative factor exchanges the fractions of the way from either end. -/
theorem quantileOf_map_of_neg (hne : xs ≠ []) (hlength : xs.length ≤ Scalar.countLimit)
    (hp : 0 ≤ p) (hp' : p ≤ 1) (ha : a < 0) (b : ℝ) :
    quantileOf (xs.map fun x => a * x + b) (1 - p) = a * quantileOf xs p + b := by
  have hordered : (ascending xs).map (fun x => a * x + b) ≠ [] :=
    mt List.map_eq_nil_iff.1 (ascending_ne_nil hne)
  have hlast : ((ascending xs).map fun x => a * x + b).length - 1 = xs.length - 1 := by
    rw [List.length_map, (ascending_perm xs).length_eq]
  have hposition : position xs.length (1 - p) =
      (((ascending xs).map fun x => a * x + b).length - 1 : ℕ) - position xs.length p := by
    rw [hlast, position, position, Nat.min_eq_left (by omega)]
    ring
  have hceil := ceil_position_le xs.length hp'
  rw [quantileOf, ascending_map_of_neg ha, List.length_map, hposition,
    interpolated_reverse hordered (position_nonneg _ hp) (by omega),
    interpolated_map a b (ceil_position_lt hne hp'), quantileOf]

end Series

end Metropolis
