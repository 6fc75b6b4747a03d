import Mathlib.Data.List.Forall2
import Mathlib.Order.Bounds.Basic
import Metropolis.Proofs.Invariance

/-!
# The order of quantiles

Between two neighbours of an ordered list a quantile goes from the one to the other in proportion,
so that over all fractions of the way it goes from the smallest number to the largest and never
back. What is raised in a list raises its quantiles, if any, because no fewer of the numbers are
then above a given one.
-/

namespace Metropolis

namespace Exact

/-- The nearest number from zero to one. -/
noncomputable def unit (p : ℝ) : ℝ := max 0 (min p 1)

variable {p p' : ℝ}

theorem unit_nonneg (p : ℝ) : 0 ≤ unit p := le_max_left _ _

theorem unit_le_one (p : ℝ) : unit p ≤ 1 := max_le zero_le_one (min_le_right _ _)

theorem unit_mono (h : p ≤ p') : unit p ≤ unit p' := max_le_max_left 0 (min_le_min_right 1 h)

theorem unit_of_nonpos (h : p ≤ 0) : unit p = 0 := max_eq_left ((min_le_left p 1).trans h)

theorem unit_of_one_le (h : 1 ≤ p) : unit p = 1 := by
  rw [unit, min_eq_right h, max_eq_right zero_le_one]

theorem unit_of_mem (h : p ∈ Set.Icc 0 1) : unit p = p := by
  rw [unit, min_eq_left h.2, max_eq_right h.1]

theorem clamp_eq (p : ℝ) : Scalar.clamp (real p) 0 1 = real (unit p) := by
  rcases lt_or_ge p 0 with hneg | hnonneg
  · have hlow : real p < 0 := by rwa [ofNat_eq, real_lt, Nat.cast_zero]
    rw [Scalar.clamp, if_pos hlow, unit_of_nonpos hneg.le, ofNat_eq, Nat.cast_zero]
  · rcases le_or_gt p 1 with hle | hgt
    · rw [clamp_unit hnonneg hle, unit_of_mem ⟨hnonneg, hle⟩]
    · have hlow : ¬ real p < 0 := by
        rw [ofNat_eq, real_lt, Nat.cast_zero]
        exact hnonneg.not_gt
      have hhigh : (1 : Exact) < real p := by rwa [ofNat_eq, real_lt, Nat.cast_one]
      rw [Scalar.clamp, if_neg hlow, if_pos hhigh, unit_of_one_le hgt.le, ofNat_eq, Nat.cast_one]

end Exact

namespace Series

variable {xs ys : List ℝ} {least greatest p x y : ℝ}

/-! ## Between neighbours -/

/-- From a number of an ordered list to the next the interpolation is linear. -/
theorem interpolated_of_between {k : ℕ} (hlow : (k : ℝ) ≤ x) (hhigh : x ≤ k + 1) :
    interpolated xs x = (1 - (x - k)) * xs.getD k 0 + (x - k) * xs.getD (k + 1) 0 := by
  have hnonneg : 0 ≤ x := (Nat.cast_nonneg k).trans hlow
  unfold interpolated
  rcases hhigh.lt_or_eq with hlt | rfl
  · have hfloor : ⌊x⌋₊ = k := (Nat.floor_eq_iff hnonneg).2 ⟨hlow, hlt⟩
    rw [hfloor]
    rcases hlow.lt_or_eq with hgt | rfl
    · have hceil : ⌈x⌉₊ = k + 1 := by
        rw [Nat.ceil_eq_iff (Nat.succ_ne_zero k), Nat.succ_sub_one, Nat.cast_succ]
        exact ⟨hgt, hhigh⟩
      rw [hceil]
    · -- At a number itself its neighbour has no weight.
      rw [sub_self, zero_mul, zero_mul]
  · rw [← Nat.cast_succ, Nat.floor_natCast, Nat.ceil_natCast, Nat.cast_succ]
    ring

theorem interpolated_natCast (xs : List ℝ) (k : ℕ) : interpolated xs k = xs.getD k 0 := by
  rw [interpolated_of_between le_rfl (le_add_of_nonneg_right zero_le_one)]
  ring

theorem interpolated_zero (xs : List ℝ) : interpolated xs 0 = xs.getD 0 0 := by
  rw [← interpolated_natCast, Nat.cast_zero]

theorem getD_le_getD (h : xs.Pairwise (· ≤ ·)) {i j : ℕ} (hij : i ≤ j) (hj : j < xs.length) :
    xs.getD i 0 ≤ xs.getD j 0 := by
  rw [List.getD_eq_getElem _ _ (hij.trans_lt hj), List.getD_eq_getElem _ _ hj]
  rcases hij.lt_or_eq with hlt | rfl
  · exact List.pairwise_iff_getElem.1 h i j (hij.trans_lt hj) hj hlt
  · exact le_rfl

/-- Within one cell, between neighbours, the interpolation does not go back. -/
theorem interpolated_le_of_cell (h : xs.Pairwise (· ≤ ·)) {k : ℕ} (hk : k + 1 < xs.length)
    (hx : (k : ℝ) ≤ x) (hxy : x ≤ y) (hy : y ≤ k + 1) :
    interpolated xs x ≤ interpolated xs y := by
  have hstep := sub_nonneg.2 (getD_le_getD h (Nat.le_succ k) hk)
  have hrise : 0 ≤ (y - x) * (xs.getD (k + 1) 0 - xs.getD k 0) :=
    mul_nonneg (sub_nonneg.2 hxy) hstep
  rw [interpolated_of_between hx (hxy.trans hy), interpolated_of_between (hx.trans hxy) hy]
  linarith

theorem interpolated_mono (h : xs.Pairwise (· ≤ ·)) (hx : 0 ≤ x) (hxy : x ≤ y)
    (hy : ⌈y⌉₊ < xs.length) : interpolated xs x ≤ interpolated xs y := by
  have hfloor := Nat.floor_mono hxy
  have hnonneg : 0 ≤ y := hx.trans hxy
  have hlast := Nat.ceil_le_floor_add_one x
  rcases hfloor.lt_or_eq with hcells | hcell
  · -- From `x` up to the next number, on to the one before `y`, and up to `y`.
    have hnext : x ≤ (⌊x⌋₊ + 1 : ℕ) := by
      rw [Nat.cast_succ]
      exact (Nat.lt_floor_add_one x).le
    have hfloory := Nat.floor_le_ceil y
    calc interpolated xs x ≤ interpolated xs (⌊x⌋₊ + 1 : ℕ) := by
          refine interpolated_le_of_cell h (by omega) (Nat.floor_le hx) hnext ?_
          rw [Nat.cast_succ]
      _ ≤ interpolated xs ⌊y⌋₊ := by
          rw [interpolated_natCast, interpolated_natCast]
          exact getD_le_getD h hcells (by omega)
      _ ≤ interpolated xs y := by
          by_cases hwhole : ⌊y⌋₊ = ⌈y⌉₊
          · rw [Exact.floor_eq_of_eq_ceil hnonneg hwhole]
          · have hceil := Exact.floor_add_one_of_ne_ceil hwhole
            exact interpolated_le_of_cell h (by omega) le_rfl (Nat.floor_le hnonneg)
              (Nat.lt_floor_add_one y).le
  · by_cases hwhole : ⌊y⌋₊ = ⌈y⌉₊
    · have hy' := Exact.floor_eq_of_eq_ceil hnonneg hwhole
      have hx' : x = y := le_antisymm hxy (hy' ▸ hcell ▸ Nat.floor_le hx)
      rw [hx']
    · have hceil := Exact.floor_add_one_of_ne_ceil hwhole
      refine interpolated_le_of_cell h (by omega) (Nat.floor_le hx) hxy ?_
      rw [hcell]
      exact (Nat.lt_floor_add_one y).le

/-- The interpolation is between larger numbers where it is larger. -/
theorem interpolated_le_interpolated (hx : 0 ≤ x) (h : ∀ k, xs.getD k 0 ≤ ys.getD k 0) :
    interpolated xs x ≤ interpolated ys x := by
  have hweight : 0 ≤ x - ⌊x⌋₊ := sub_nonneg.2 (Nat.floor_le hx)
  have hrest : 0 ≤ 1 - (x - ⌊x⌋₊) := by
    have hlt := Nat.lt_floor_add_one x
    linarith
  unfold interpolated
  gcongr <;> exact h _

/-! ## Numbers raised -/

/-- The numbers of an ordered list that are no larger than a given one come first. -/
theorem getElem_le_iff_lt_countP (h : xs.Pairwise (· ≤ ·)) {k : ℕ} (hk : k < xs.length) (v : ℝ) :
    xs[k] ≤ v ↔ k < xs.countP fun x => decide (x ≤ v) := by
  induction xs generalizing k with
  | nil => simp at hk
  | cons a xs ih =>
    obtain ⟨hhead, htail⟩ := List.pairwise_cons.1 h
    by_cases ha : a ≤ v
    · rw [List.countP_cons_of_pos (by exact decide_eq_true ha)]
      cases k with
      | zero => simp [ha]
      | succ k =>
        rw [List.getElem_cons_succ, ih htail (Nat.lt_of_succ_lt_succ hk), Nat.succ_lt_succ_iff]
    · have hnone : (a :: xs).countP (fun x => decide (x ≤ v)) = 0 := by
        rw [List.countP_eq_zero]
        intro x hx
        rw [decide_eq_true_eq]
        rcases List.mem_cons.1 hx with rfl | hx
        · exact ha
        · exact fun hle => ha ((hhead x hx).trans hle)
      have hlarge : ¬ (a :: xs)[k] ≤ v := by
        cases k with
        | zero => exact ha
        | succ k => exact fun hle => ha ((hhead _ (List.getElem_mem _)).trans hle)
      rw [hnone]
      exact iff_of_false hlarge (Nat.not_lt_zero k)

theorem countP_le_of_raised (h : List.Forall₂ (· ≤ ·) xs ys) (v : ℝ) :
    ys.countP (fun y => decide (y ≤ v)) ≤ xs.countP fun x => decide (x ≤ v) := by
  induction h with
  | nil => exact le_rfl
  | @cons x y xs ys hxy _ ih =>
    rw [List.countP_cons, List.countP_cons]
    have hhead : y ≤ v → x ≤ v := hxy.trans
    simp only [decide_eq_true_eq]
    split <;> split <;> first | omega | tauto

theorem getD_le_of_raised (h : List.Forall₂ (· ≤ ·) xs ys) (k : ℕ) :
    xs.getD k 0 ≤ ys.getD k 0 := by
  induction h generalizing k with
  | nil => exact le_rfl
  | cons hxy _ ih =>
    cases k with
    | zero => exact hxy
    | succ k => exact ih k

/-- Order statistics do not fall where numbers are raised. -/
theorem ascending_raised (h : List.Forall₂ (· ≤ ·) xs ys) :
    List.Forall₂ (· ≤ ·) (ascending xs) (ascending ys) := by
  rw [List.forall₂_iff_get]
  refine ⟨?_, fun k hx hy => ?_⟩
  · rw [(ascending_perm xs).length_eq, (ascending_perm ys).length_eq, h.length_eq]
  · rw [List.get_eq_getElem, List.get_eq_getElem,
      getElem_le_iff_lt_countP (pairwise_ascending xs), (ascending_perm xs).countP_eq]
    refine lt_of_lt_of_le ?_ (countP_le_of_raised h _)
    rw [← (ascending_perm ys).countP_eq, ← getElem_le_iff_lt_countP (pairwise_ascending ys) hy]

theorem raised_set {i : ℕ} {y : ℝ} (h : ∀ x, xs[i]? = some x → x ≤ y) :
    List.Forall₂ (· ≤ ·) xs (xs.set i y) := by
  rw [List.forall₂_iff_get]
  refine ⟨(List.length_set ..).symm, fun k hk _ => ?_⟩
  rw [List.get_eq_getElem, List.get_eq_getElem, List.getElem_set]
  split
  next hik =>
    subst hik
    exact h _ (List.getElem?_eq_getElem hk)
  next => exact le_rfl

/-! ## Quantiles of an ordered list -/

/-- The quantile of an ordered list at any fraction of the way, which is brought to the list. -/
noncomputable def quantileAt (xs : List ℝ) (p : ℝ) : ℝ :=
  interpolated xs (position xs.length (Exact.unit p))

theorem quantile_eq_quantileAt (hne : xs ≠ []) (p : ℝ) :
    quantile (xs.map Exact.real) (Exact.real p) = Exact.real (quantileAt xs p) := by
  have hunit : Scalar.clamp (Exact.real (Exact.unit p)) 0 1 = Scalar.clamp (Exact.real p) 0 1 := by
    rw [Exact.clamp_eq p, Exact.clamp_unit (Exact.unit_nonneg p) (Exact.unit_le_one p)]
  rw [quantileAt, ← quantile_real hne (Exact.unit_nonneg p) (Exact.unit_le_one p), quantile,
    quantile, hunit]

theorem ceil_position_unit_lt (hne : xs ≠ []) (p : ℝ) :
    ⌈position xs.length (Exact.unit p)⌉₊ < xs.length := by
  have hlength := List.length_pos_iff.2 hne
  have hceil := ceil_position_le xs.length (Exact.unit_le_one p)
  omega

/-- The numbers that a quantile is taken from are in the list. -/
theorem indices_lt (hne : xs ≠ []) (p : ℝ) :
    let position : Exact := Scalar.clamp (.real p) 0 1 * Scalar.ofCount (xs.length - 1)
    Scalar.floor position < xs.length ∧ Scalar.ceil position < xs.length := by
  intro position
  have hceil := ceil_position_unit_lt hne p
  have hposition : position = .real (Series.position xs.length (Exact.unit p)) := by
    show Scalar.clamp (Exact.real p) 0 1 * Scalar.ofCount (xs.length - 1) = _
    rw [Exact.clamp_eq]
    rfl
  rw [hposition, Exact.ceil_real (position_nonneg _ (Exact.unit_nonneg p))]
  exact ⟨(Nat.floor_le_ceil _).trans_lt hceil, hceil⟩

theorem quantileAt_mono (hne : xs ≠ []) (h : xs.Pairwise (· ≤ ·)) : Monotone (quantileAt xs) := by
  intro p p' hp
  refine interpolated_mono h (position_nonneg _ (Exact.unit_nonneg p)) ?_
    (ceil_position_unit_lt hne p')
  exact mul_le_mul_of_nonneg_right (Exact.unit_mono hp) (Nat.cast_nonneg _)

theorem isLeast_getD (hne : xs ≠ []) (h : xs.Pairwise (· ≤ ·)) :
    IsLeast {x | x ∈ xs} (xs.getD 0 0) := by
  have hpos := List.length_pos_iff.2 hne
  constructor
  · rw [List.getD_eq_getElem _ _ hpos]
    exact List.getElem_mem hpos
  · intro x hx
    obtain ⟨i, hi, rfl⟩ := List.getElem_of_mem hx
    rw [← List.getD_eq_getElem _ 0 hi]
    exact getD_le_getD h (Nat.zero_le i) hi

theorem isGreatest_getD (hne : xs ≠ []) (h : xs.Pairwise (· ≤ ·)) :
    IsGreatest {x | x ∈ xs} (xs.getD (xs.length - 1) 0) := by
  have hpos := List.length_pos_iff.2 hne
  have hlast : xs.length - 1 < xs.length := by omega
  constructor
  · rw [List.getD_eq_getElem _ _ hlast]
    exact List.getElem_mem hlast
  · intro x hx
    obtain ⟨i, hi, rfl⟩ := List.getElem_of_mem hx
    rw [← List.getD_eq_getElem _ 0 hi]
    exact getD_le_getD h (by omega) hlast

theorem quantileAt_mem (hne : xs ≠ []) (h : xs.Pairwise (· ≤ ·)) (p : ℝ) :
    quantileAt xs p ∈ Set.Icc (xs.getD 0 0) (xs.getD (xs.length - 1) 0) := by
  have hpos := List.length_pos_iff.2 hne
  have hposition := position_nonneg xs.length (Exact.unit_nonneg p)
  have hceil := ceil_position_unit_lt hne p
  rw [Set.mem_Icc, ← interpolated_zero, ← interpolated_natCast]
  constructor
  · exact interpolated_mono h le_rfl hposition hceil
  · refine interpolated_mono h hposition ((Nat.le_ceil _).trans (Nat.cast_le.2 (by omega))) ?_
    rw [Nat.ceil_natCast]
    omega

/-- What the quantiles of an ordered list are. -/
structure AreQuantiles (xs : List ℝ) (least greatest : ℝ) (q : ℝ → ℝ) : Prop where
  isLeast : IsLeast {x | x ∈ xs} least
  isGreatest : IsGreatest {x | x ∈ xs} greatest
  monotone : Monotone q
  mem : ∀ p, q p ∈ Set.Icc least greatest
  of_nonpos : ∀ p ≤ 0, q p = least
  of_one_le : ∀ p, 1 ≤ p → q p = greatest
  /-- As far into the list as its number `k` is that number, -/
  at_index : ∀ (k : ℕ) (hk : k < xs.length), q (k / (xs.length - 1 : ℕ)) = xs[k]
  /-- and from there to the next number is a straight line. -/
  between : ∀ (k : ℕ) (hk : k + 1 < xs.length), ∀ p ∈ Set.Icc (0 : ℝ) 1, ∀ w ∈ Set.Icc (0 : ℝ) 1,
    p * (xs.length - 1 : ℕ) = k + w → q p = (1 - w) * xs[k] + w * xs[k + 1]

theorem areQuantiles_quantileAt (hne : xs ≠ []) (hlength : xs.length ≤ Scalar.countLimit)
    (h : xs.Pairwise (· ≤ ·)) :
    AreQuantiles xs (xs.getD 0 0) (xs.getD (xs.length - 1) 0) (quantileAt xs) := by
  have hposition (p : ℝ) : position xs.length p = p * (xs.length - 1 : ℕ) := by
    rw [position, Nat.min_eq_left (by omega)]
  constructor
  case isLeast => exact isLeast_getD hne h
  case isGreatest => exact isGreatest_getD hne h
  case monotone => exact quantileAt_mono hne h
  case mem => exact quantileAt_mem hne h
  case of_nonpos =>
    intro p hp
    rw [quantileAt, Exact.unit_of_nonpos hp, hposition, zero_mul, interpolated_zero]
  case of_one_le =>
    intro p hp
    rw [quantileAt, Exact.unit_of_one_le hp, hposition, one_mul, interpolated_natCast]
  case at_index =>
    intro k hk
    have hle : (k : ℝ) ≤ (xs.length - 1 : ℕ) := Nat.cast_le.2 (by omega)
    have hunit : (k : ℝ) / (xs.length - 1 : ℕ) ∈ Set.Icc (0 : ℝ) 1 :=
      ⟨by positivity, div_le_one_of_le₀ hle (Nat.cast_nonneg _)⟩
    have hk' : (k : ℝ) / (xs.length - 1 : ℕ) * (xs.length - 1 : ℕ) = k := by
      apply div_mul_cancel_of_imp
      -- A list of one number has no other index than zero.
      intro hone
      rw [hone] at hle
      exact le_antisymm hle (Nat.cast_nonneg k)
    rw [quantileAt, Exact.unit_of_mem hunit, hposition, hk', interpolated_natCast,
      List.getD_eq_getElem _ _ hk]
  case between =>
    intro k hk p hp w hw hkw
    rw [quantileAt, Exact.unit_of_mem hp, hposition, hkw,
      interpolated_of_between (le_add_of_nonneg_right hw.1) (add_le_add_right hw.2 _),
      add_sub_cancel_left, List.getD_eq_getElem _ _ (Nat.lt_of_succ_lt hk),
      List.getD_eq_getElem _ _ hk]

/-- Larger numbers in every place make larger quantiles. -/
theorem quantileAt_raised (h : List.Forall₂ (· ≤ ·) xs ys) (p : ℝ) :
    quantileAt xs p ≤ quantileAt ys p := by
  rw [quantileAt, quantileAt, h.length_eq]
  exact interpolated_le_interpolated (position_nonneg _ (Exact.unit_nonneg p))
    (getD_le_of_raised h)

theorem quantileAt_ascending (hp : p ∈ Set.Icc 0 1) :
    quantileAt (ascending xs) p = quantileOf xs p := by
  rw [quantileAt, Exact.unit_of_mem hp, (ascending_perm xs).length_eq, quantileOf]

end Series

/-! ## Quantiles of a summary -/

/-- Whether the quantiles of a summary are in order, and none of them beyond all values. -/
def ParameterSummary.IsSpanned (s : ParameterSummary Exact) (values : List Exact) : Prop :=
  ∃ least low middle high greatest : ℝ,
    IsLeast {x : ℝ | Exact.real x ∈ values} least ∧
    IsGreatest {x : ℝ | Exact.real x ∈ values} greatest ∧
    s.q025 = .real low ∧ s.q50 = .real middle ∧ s.q975 = .real high ∧
    least ≤ low ∧ low ≤ middle ∧ middle ≤ high ∧ high ≤ greatest

theorem ParameterSummary.isSpanned_ofValues {xs : List ℝ} (hne : xs ≠ []) (name : String) :
    (ofValues name (xs.map Exact.real)).IsSpanned (xs.map Exact.real) := by
  have hordered := Series.pairwise_ascending xs
  have hne' := Series.ascending_ne_nil hne
  have hvalues : {x : ℝ | Exact.real x ∈ xs.map Exact.real} = {x | x ∈ Series.ascending xs} := by
    ext x
    simp [(Series.ascending_perm xs).mem_iff]
  have hmono := Series.quantileAt_mono hne' hordered
  have hquantile {p : ℝ} (hp : p ∈ Set.Icc 0 1) :
      Series.quantileAt (Series.ascending xs) p = Series.quantileOf xs p :=
    Series.quantileAt_ascending hp
  rw [ofValues_real hne, ← hquantile (p := 0.025) (by norm_num),
    ← hquantile (p := 0.5) (by norm_num), ← hquantile (p := 0.975) (by norm_num)]
  refine ⟨_, _, _, _, _, ?_, ?_, rfl, rfl, rfl, (Series.quantileAt_mem hne' hordered _).1, ?_, ?_,
    (Series.quantileAt_mem hne' hordered _).2⟩
  · rw [hvalues]
    exact Series.isLeast_getD hne' hordered
  · rw [hvalues]
    exact Series.isGreatest_getD hne' hordered
  · exact hmono (by norm_num)
  · exact hmono (by norm_num)

theorem Draws.isSpanned_of_summary {d : Draws Exact} (hreal : d.IsReal) {i : ℕ}
    {s : ParameterSummary Exact} (h : d.summary.parameters[i]? = some s) :
    s.IsSpanned (d.column i) := by
  rw [getElem?_summary] at h
  split at h
  · cases h
  next hsome =>
    obtain ⟨name, hname, rfl⟩ := Option.map_eq_some_iff.1 h
    have hindex := (List.getElem?_eq_some_iff.1 hname).1
    rw [← hreal.map_reals]
    exact ParameterSummary.isSpanned_ofValues (reals_ne_nil hsome hindex) name

namespace Series

/-- The quantile of an ordered list of real numbers is taken from numbers of the list, on the
straight lines from each to the next, so it goes up from the smallest to the largest with the
fraction of the way, and up with any number of the list. The quantiles of a summary are in order
between the smallest and the largest value. -/
theorem quantile_order :
    (∀ xs : List ℝ, xs ≠ [] → xs.length ≤ Scalar.countLimit → xs.Pairwise (· ≤ ·) →
      ∃ (q : ℝ → ℝ) (least greatest : ℝ),
        (∀ p, quantile (xs.map Exact.real) (.real p) = .real (q p)) ∧
        (∀ p, let position : Exact := Scalar.clamp (.real p) 0 1 * Scalar.ofCount (xs.length - 1)
          Scalar.floor position < xs.length ∧ Scalar.ceil position < xs.length) ∧
        AreQuantiles xs least greatest q ∧
        ∀ (i : ℕ) (y : ℝ), (∀ x, xs[i]? = some x → x ≤ y) → ∀ p, ∃ raised reordered : ℝ,
          quantile ((xs.set i y).map Exact.real) (.real p) = .real raised ∧ q p ≤ raised ∧
          quantile (sorted ((xs.set i y).map Exact.real)) (.real p) = .real reordered ∧
            q p ≤ reordered) ∧
    ∀ d : Draws Exact, d.IsReal → ∀ (i : ℕ) (s : ParameterSummary Exact),
      d.summary.parameters[i]? = some s → s.IsSpanned (d.column i) := by
  refine ⟨fun xs hne hlength h => ?_, fun d hreal i s => Draws.isSpanned_of_summary hreal⟩
  refine ⟨quantileAt xs, _, _, quantile_eq_quantileAt hne, indices_lt hne,
    areQuantiles_quantileAt hne hlength h, fun i y hy p => ?_⟩
  have hraised := raised_set hy
  have hset : xs.set i y ≠ [] := by
    rw [← List.length_pos_iff, List.length_set, List.length_pos_iff]
    exact hne
  have hreordered := ascending_raised hraised
  rw [ascending_eq (List.Perm.refl xs) h] at hreordered
  refine ⟨quantileAt (xs.set i y) p, quantileAt (ascending (xs.set i y)) p,
    quantile_eq_quantileAt hset p, quantileAt_raised hraised p, ?_, quantileAt_raised hreordered p⟩
  rw [sorted_real, quantile_eq_quantileAt (ascending_ne_nil hset)]

/-- Five numbers: half of the way and an eighth, and the second raised above all others. -/
theorem quantile_order_five :
    let xs : List ℝ := [0, 10, 20, 30, 40]
    xs ≠ [] ∧ xs.length ≤ Scalar.countLimit ∧ xs.Pairwise (· ≤ ·) ∧
      quantile (xs.map Exact.real) (.real (1 / 8)) = .real 5 ∧
      quantile (xs.map Exact.real) (.real (1 / 2)) = .real 20 ∧
      (∃ median : ℝ, quantile (sorted ((xs.set 1 50).map Exact.real)) (.real (1 / 2)) =
        .real median ∧ 20 ≤ median) ∧
      (Draws.ofSeries xs).IsReal ∧ ∃ s, (Draws.ofSeries xs).summary.parameters[0]? = some s ∧
        s.IsSpanned ((Draws.ofSeries xs).column 0) := by
  intro xs
  have hne : xs ≠ [] := List.cons_ne_nil _ _
  have hlength : xs.length ≤ Scalar.countLimit := by decide
  have hordered : xs.Pairwise (· ≤ ·) := by norm_num [xs]
  obtain ⟨q, _, _, hq, -, hquantiles, hraised⟩ := quantile_order.1 xs hne hlength hordered
  have heighth : q (1 / 8) = 5 := by
    rw [hquantiles.between 0 (by decide) (1 / 8) (by norm_num) (1 / 2) (by norm_num)
      (by norm_num [xs])]
    norm_num [xs]
  have hhalf : q (1 / 2) = 20 := by
    have hindex := hquantiles.at_index 2 (by decide)
    norm_num [xs] at hindex
    exact hindex
  obtain ⟨_, median, -, -, hmedian, hle⟩ := hraised 1 50 (by norm_num [xs]) (1 / 2)
  have hreal := Draws.isReal_ofSeries xs
  exact ⟨hne, hlength, hordered, by rw [hq, heighth], by rw [hq, hhalf],
    ⟨median, hmedian, hhalf ▸ hle⟩, hreal, _, rfl, quantile_order.2 _ hreal 0 _ rfl⟩

end Series

end Metropolis
