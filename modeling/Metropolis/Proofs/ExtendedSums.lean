import Mathlib.Analysis.SpecialFunctions.Log.ENNRealLogExp
import Metropolis.Proofs.Estimates
import Metropolis.Series.LogSumExp

/-!
# The logarithm of a sum over the extended real numbers

Exponents that may be infinite, but not undefined, are extended real numbers, for which there is one
definition without cases: the logarithm of the sum of the exponentials. What is computed about the
largest exponent is that number, so that what holds of sums holds of it: its bounds, its infinities,
how it is put together from parts, its monotonicity, and that the order does not matter. About the
largest exponent none of the exponents is positive and one of them is zero, so that the sum is at
least one.
-/

namespace Metropolis

open scoped ENNReal NNReal

/-! ## Extended real numbers as exact numbers -/

namespace Exact

/-- An extended real number as a scalar. The scalar that is none of them is undefined. -/
def ofEReal : EReal → Exact := EReal.rec negInf real posInf

@[simp] theorem ofEReal_bot : ofEReal ⊥ = negInf := rfl

@[simp] theorem ofEReal_coe (x : ℝ) : ofEReal x = real x := rfl

@[simp] theorem ofEReal_top : ofEReal ⊤ = posInf := rfl

theorem ofEReal_nnreal (y : ℝ≥0) : ofEReal ((y : ℝ≥0∞) : EReal) = real y := by
  rw [EReal.coe_nnreal_eq_coe_real, ofEReal_coe]

theorem exists_ofEReal {x : Exact} (h : Scalar.isUndefined x = false) : ∃ y, ofEReal y = x := by
  cases x with
  | real x => exact ⟨x, rfl⟩
  | posInf => exact ⟨⊤, rfl⟩
  | negInf => exact ⟨⊥, rfl⟩
  | undefined => cases h

/-- The numbers of a series without an undefined one are extended real numbers. -/
theorem exists_map_ofEReal {xs : List Exact} (h : ∀ x ∈ xs, Scalar.isUndefined x = false) :
    ∃ ys : List EReal, xs = ys.map ofEReal := by
  induction xs with
  | nil => exact ⟨[], rfl⟩
  | cons x xs ih =>
    obtain ⟨hx, hxs⟩ := List.forall_mem_cons.1 h
    obtain ⟨y, rfl⟩ := exists_ofEReal hx
    obtain ⟨ys, rfl⟩ := ih hxs
    exact ⟨y :: ys, rfl⟩

section Order

variable (x y : EReal)

theorem ofEReal_le_iff : ofEReal x ≤ ofEReal y ↔ x ≤ y := by
  induction x with
  | bot =>
    refine iff_of_true ?_ bot_le
    induction y <;> trivial
  | coe x =>
    induction y with
    | bot => exact iff_of_false id (EReal.bot_lt_coe x).not_ge
    | coe y => exact EReal.coe_le_coe_iff.symm
    | top => exact iff_of_true trivial le_top
  | top =>
    induction y with
    | bot => exact iff_of_false id bot_lt_top.not_ge
    | coe y => exact iff_of_false id (EReal.coe_lt_top y).not_ge
    | top => exact iff_of_true trivial le_rfl

theorem ofEReal_injective : Function.Injective ofEReal := by
  intro x y h
  have hle : ofEReal x ≤ ofEReal x := (ofEReal_le_iff x x).2 le_rfl
  refine le_antisymm ((ofEReal_le_iff x y).1 ?_) ((ofEReal_le_iff y x).1 ?_)
  · rwa [← h]
  · rwa [← h]

theorem larger_ofEReal : Scalar.larger (ofEReal x) (ofEReal y) = ofEReal (max x y) := by
  induction x with
  | bot =>
    rw [max_eq_right bot_le]
    induction y with
    | bot => exact if_neg id
    | _ => exact if_pos trivial
  | coe x =>
    induction y with
    | bot =>
      rw [max_eq_left bot_le]
      exact if_neg id
    | coe y =>
      rw [ofEReal_coe, ofEReal_coe, larger_real, ← ofEReal_coe,
        EReal.coe_strictMono.monotone.map_max]
    | top => rw [max_eq_right le_top, ofEReal_top, larger_posInf]
  | top => rw [max_eq_left le_top, ofEReal_top, posInf_larger]

end Order

/-! Exponentials and their sums are extended real numbers that are not negative, and have a
logarithm. -/

theorem exp_ofEReal (x : EReal) : Scalar.exp (ofEReal x) = ofEReal (EReal.exp x) := by
  induction x with
  | bot => rfl
  | coe x =>
    rw [EReal.exp_coe, EReal.coe_ennreal_ofReal, max_eq_left (Real.exp_pos x).le]
    rfl
  | top => rfl

theorem log_ofEReal (y : ℝ≥0∞) : Scalar.log (ofEReal y) = ofEReal (ENNReal.log y) := by
  induction y with
  | top => rfl
  | coe y =>
    rw [ofEReal_nnreal]
    rcases eq_or_ne y 0 with rfl | hy
    · rw [ENNReal.coe_zero, ENNReal.log_zero]
      exact log_zero
    · have hpos : 0 < (y : ℝ) := NNReal.coe_pos.2 (pos_iff_ne_zero.2 hy)
      rw [log_real hpos, ENNReal.log_of_nnreal hy, ofEReal_coe]

theorem log_real_ofEReal {y : ℝ} (h : 0 ≤ y) :
    Scalar.log (real y) = ofEReal (ENNReal.log (ENNReal.ofReal y)) := by
  rw [← log_ofEReal, EReal.coe_ennreal_ofReal, max_eq_left h, ofEReal_coe]

theorem add_ofEReal (x y : ℝ≥0∞) : (ofEReal x + ofEReal y : Exact) = ofEReal ↑(x + y) := by
  induction x with
  | top =>
    rw [top_add]
    induction y <;> rfl
  | coe x =>
    induction y with
    | top =>
      rw [add_top]
      rfl
    | coe y =>
      rw [← ENNReal.coe_add, ofEReal_nnreal, ofEReal_nnreal, ofEReal_nnreal, real_add,
        NNReal.coe_add]

theorem sum_ofEReal (ys : List ℝ≥0∞) :
    Series.sum (ys.map fun y : ℝ≥0∞ => ofEReal y) = ofEReal ↑ys.sum := by
  have hzero : (-0 : Exact) = ofEReal ((0 : ℝ≥0∞) : EReal) := by
    rw [zero_eq, real_neg, neg_zero, EReal.coe_ennreal_zero]
    rfl
  rw [Series.sum, List.foldl_map, hzero, List.sum_eq_foldl]
  refine List.foldl_hom (fun y : ℝ≥0∞ => ofEReal y) ?_
  exact add_ofEReal

theorem sub_ofEReal (x : EReal) (t : ℝ) : (ofEReal x - real t : Exact) = ofEReal (x - t) := by
  induction x with
  | coe x => rw [ofEReal_coe, real_sub, ← EReal.coe_sub, ofEReal_coe]
  | _ => rfl

end Exact

/-! ## The largest exponent and the sum -/

namespace Series

open Exact (ofEReal)

/-- The largest of extended real numbers, `-∞` if there is none. -/
noncomputable def largest (xs : List EReal) : EReal := xs.foldl max ⊥

/-- The logarithm of the sum of the exponentials of extended real numbers. -/
noncomputable def logTotal (xs : List EReal) : EReal := ENNReal.log (xs.map EReal.exp).sum

variable {xs ys : List EReal}

theorem largest_append_singleton (xs : List EReal) (x : EReal) :
    largest (xs ++ [x]) = max (largest xs) x := by
  rw [largest, List.foldl_append]
  rfl

theorem le_largest {x : EReal} (h : x ∈ xs) : x ≤ largest xs := by
  induction xs using List.reverseRecOn with
  | nil => cases h
  | append_singleton xs y ih =>
    rw [largest_append_singleton]
    rcases List.mem_append.1 h with h | h
    · exact le_max_of_le_left (ih h)
    · exact le_max_of_le_right (List.mem_singleton.1 h).le

theorem largest_mem (h : largest xs ≠ ⊥) : largest xs ∈ xs := by
  induction xs using List.reverseRecOn with
  | nil => exact absurd rfl h
  | append_singleton xs y ih =>
    rw [largest_append_singleton] at h ⊢
    rcases max_choice (largest xs) y with hmax | hmax <;> rw [hmax] at h ⊢
    · exact List.mem_append_left _ (ih h)
    · exact List.mem_append_right _ (List.mem_singleton_self y)

theorem largest_eq_bot_iff : largest xs = ⊥ ↔ ∀ x ∈ xs, x = ⊥ := by
  constructor
  · intro h x hx
    exact le_bot_iff.1 ((le_largest hx).trans h.le)
  · intro h
    by_contra hne
    exact hne (h _ (largest_mem hne))

theorem largest_eq_top_iff : largest xs = ⊤ ↔ ⊤ ∈ xs := by
  constructor
  · intro h
    rw [← h]
    exact largest_mem (h ▸ top_ne_bot)
  · exact fun h => top_le_iff.1 (le_largest h)

theorem maximum_ofEReal (xs : List EReal) : maximum (xs.map ofEReal) = ofEReal (largest xs) := by
  have hbot : (-Scalar.infinity : Exact) = ofEReal ⊥ := rfl
  rw [maximum, List.foldl_map, hbot]
  refine List.foldl_hom ofEReal ?_
  exact Exact.larger_ofEReal

theorem logTotal_eq_bot_iff : logTotal xs = ⊥ ↔ ∀ x ∈ xs, x = ⊥ := by
  rw [logTotal, ENNReal.log_eq_bot_iff, List.sum_eq_zero_iff, List.forall_mem_map]
  simp only [EReal.exp_eq_zero_iff]

theorem logTotal_eq_top_iff : logTotal xs = ⊤ ↔ ⊤ ∈ xs := by
  rw [logTotal, ENNReal.log_eq_top_iff]
  induction xs with
  | nil => simp
  | cons x xs ih =>
    rw [List.map_cons, List.sum_cons, ENNReal.add_eq_top, ih, EReal.exp_eq_top_iff, List.mem_cons,
      eq_comm]

theorem largest_le_logTotal (xs : List EReal) : largest xs ≤ logTotal xs := by
  by_cases h : largest xs = ⊥
  · rw [h]
    exact bot_le
  · rw [← EReal.log_exp (largest xs)]
    exact ENNReal.log_monotone (List.single_le_sum (fun _ _ => zero_le) _
      (List.mem_map_of_mem (largest_mem h)))

theorem logTotal_le (xs : List EReal) : logTotal xs ≤ ENNReal.log xs.length + largest xs := by
  have hsum : (xs.map EReal.exp).sum ≤ xs.length * EReal.exp (largest xs) := by
    have h := List.sum_le_card_nsmul (xs.map EReal.exp) (EReal.exp (largest xs))
      (List.forall_mem_map.2 fun x hx => EReal.exp_monotone (le_largest hx))
    rwa [List.length_map, nsmul_eq_mul] at h
  calc logTotal xs ≤ ENNReal.log (xs.length * EReal.exp (largest xs)) := ENNReal.log_monotone hsum
    _ = ENNReal.log xs.length + largest xs := by rw [ENNReal.log_mul_add, EReal.log_exp]

theorem logTotal_append (xs ys : List EReal) :
    logTotal (xs ++ ys) = logTotal [logTotal xs, logTotal ys] := by
  simp [logTotal]

theorem logTotal_mono (h : List.Forall₂ (· ≤ ·) xs ys) : logTotal xs ≤ logTotal ys := by
  refine ENNReal.log_monotone (List.Forall₂.sum_le_sum ?_)
  rw [List.forall₂_map_left_iff, List.forall₂_map_right_iff]
  exact h.imp fun _ _ hle => EReal.exp_monotone hle

theorem logTotal_perm (h : ys.Perm xs) : logTotal ys = logTotal xs := by
  rw [logTotal, logTotal, (h.map _).sum_eq]

/-! ## What is computed -/

/-- The logarithm of the sum of the exponentials, computed as it is written. -/
theorem log_sum_exp_ofEReal (xs : List EReal) :
    Scalar.log (sum ((xs.map ofEReal).map Scalar.exp)) = ofEReal (logTotal xs) := by
  have hexp : (xs.map ofEReal).map Scalar.exp =
      (xs.map EReal.exp).map fun y : ℝ≥0∞ => ofEReal y := by
    rw [List.map_map, List.map_map]
    exact List.map_congr_left fun x _ => Exact.exp_ofEReal x
  rw [hexp, Exact.sum_ofEReal, Exact.log_ofEReal, logTotal]

/-- The sum of the exponentials about a real number. -/
theorem sum_exp_sub (xs : List EReal) (t : ℝ) :
    sum ((xs.map ofEReal).map fun x => Scalar.exp (x - Exact.real t)) =
      ofEReal ↑(xs.map fun x => EReal.exp (x - t)).sum := by
  have hexp : (xs.map ofEReal).map (fun x => Scalar.exp (x - Exact.real t)) =
      (xs.map fun x => EReal.exp (x - t)).map fun y : ℝ≥0∞ => ofEReal y := by
    rw [List.map_map, List.map_map]
    refine List.map_congr_left fun x _ => ?_
    show Scalar.exp (ofEReal x - Exact.real t) = _
    rw [Exact.sub_ofEReal, Exact.exp_ofEReal]
    rfl
  rw [hexp, Exact.sum_ofEReal]

/-- To take the exponents about a real number takes the number off the logarithm of the sum. -/
theorem log_sum_sub (xs : List EReal) (t : ℝ) :
    ENNReal.log (xs.map fun x => EReal.exp (x - t)).sum = logTotal xs - t := by
  have hterm : (xs.map fun x => EReal.exp (x - t)) =
      xs.map fun x => EReal.exp x * EReal.exp (-t) :=
    List.map_congr_left fun x _ => by rw [sub_eq_add_neg, EReal.exp_add]
  rw [hterm, List.sum_map_mul_right, ENNReal.log_mul_add, EReal.log_exp, ← sub_eq_add_neg, logTotal]

theorem logSumExp_ofEReal (xs : List EReal) :
    logSumExp (xs.map ofEReal) = ofEReal (logTotal xs) := by
  unfold logSumExp
  dsimp only
  rw [maximum_ofEReal]
  generalize htop : largest xs = top
  -- A largest exponent that is infinite is the answer itself, and the logarithm of the sum too.
  induction top with
  | bot => rw [logTotal_eq_bot_iff.2 (largest_eq_bot_iff.1 htop)]; rfl
  | top => rw [logTotal_eq_top_iff.2 (largest_eq_top_iff.1 htop)]; rfl
  | coe t =>
    rw [Exact.ofEReal_coe, if_pos (Exact.isFinite_real t), sum_exp_sub, Exact.log_ofEReal,
      log_sum_sub]
    -- What was taken off comes back, also where the sum is infinite.
    generalize logTotal xs = total
    induction total with
    | coe total =>
      rw [← EReal.coe_sub, Exact.ofEReal_coe, Exact.real_add, add_sub_cancel, Exact.ofEReal_coe]
    | _ => rfl

/-! ## About the largest exponent -/

section Largest

variable {t : ℝ}

theorem sub_largest_nonpos (htop : largest xs = t) : ∀ x ∈ xs.map ofEReal, x - .real t ≤ 0 := by
  refine List.forall_mem_map.2 fun x hx => ?_
  have hle : x ≤ t := htop ▸ le_largest hx
  have hzero : (0 : Exact) = ofEReal 0 := Exact.zero_eq
  rw [Exact.sub_ofEReal, hzero, Exact.ofEReal_le_iff]
  exact EReal.sub_nonpos.2 hle

/-- The largest exponent is one of them, and contributes one to the sum. -/
theorem one_le_sum_exp_sub (htop : largest xs = t) :
    1 ≤ (xs.map fun x => EReal.exp (x - t)).sum := by
  have hmem : (t : EReal) ∈ xs := htop ▸ largest_mem (htop ▸ EReal.coe_ne_bot t)
  have hone : EReal.exp (t - t) = 1 := by
    rw [← EReal.coe_sub, sub_self, EReal.coe_zero, EReal.exp_zero]
  rw [← hone]
  exact List.single_le_sum (fun _ _ => zero_le) _ (List.mem_map_of_mem hmem)

theorem sum_exp_sub_le (htop : largest xs = t) :
    (xs.map fun x => EReal.exp (x - t)).sum ≤ xs.length := by
  have h := List.sum_le_card_nsmul (xs.map fun x => EReal.exp (x - t)) 1 <|
    List.forall_mem_map.2 fun x hx => EReal.exp_le_one_iff.2 <|
      EReal.sub_nonpos.2 (htop ▸ le_largest hx)
  rwa [List.length_map, nsmul_one] at h

/-- About the largest exponent the sum is between one and the number of exponents. -/
theorem sum_exp_sub_largest (htop : largest xs = t) :
    1 ≤ sum ((xs.map ofEReal).map fun x => Scalar.exp (x - Exact.real t)) ∧
      sum ((xs.map ofEReal).map fun x => Scalar.exp (x - Exact.real t)) ≤ .real xs.length := by
  have hone : (1 : Exact) = ofEReal ((1 : ℝ≥0∞) : EReal) := Exact.one_eq
  have hlength : Exact.real xs.length = ofEReal ((xs.length : ℝ≥0∞) : EReal) := by
    rw [← ENNReal.coe_natCast, Exact.ofEReal_nnreal, NNReal.coe_natCast]
  rw [sum_exp_sub, hone, hlength, Exact.ofEReal_le_iff, Exact.ofEReal_le_iff]
  exact ⟨EReal.coe_ennreal_le_coe_ennreal_iff.2 (one_le_sum_exp_sub htop),
    EReal.coe_ennreal_le_coe_ennreal_iff.2 (sum_exp_sub_le htop)⟩

end Largest

/-- Where it is finite, the result is above the largest exponent by at most the logarithm of their
number. -/
theorem logTotal_real (hbot : ¬ ∀ x ∈ xs, x = ⊥) (htop : ⊤ ∉ xs) :
    ∃ top total : ℝ, largest xs = top ∧ logTotal xs = total ∧ top ≤ total ∧
      total ≤ top + Real.log xs.length := by
  have hlower := largest_le_logTotal xs
  have hupper := logTotal_le xs
  have hlargest : (((largest xs).toReal : ℝ) : EReal) = largest xs :=
    EReal.coe_toReal (mt largest_eq_top_iff.1 htop) (mt largest_eq_bot_iff.1 hbot)
  have htotal : (((logTotal xs).toReal : ℝ) : EReal) = logTotal xs :=
    EReal.coe_toReal (mt logTotal_eq_top_iff.1 htop) (mt logTotal_eq_bot_iff.1 hbot)
  have hlength : ENNReal.log xs.length = Real.log xs.length := by
    have hpos : 0 < xs.length := List.length_pos_iff.2 fun hnil => hbot (by simp [hnil])
    rw [← ENNReal.ofReal_natCast, ENNReal.log_ofReal_of_pos (Nat.cast_pos.2 hpos)]
  refine ⟨_, _, hlargest.symm, htotal.symm, ?_, ?_⟩
  · rwa [← EReal.coe_le_coe_iff, hlargest, htotal]
  · rw [← EReal.coe_le_coe_iff, EReal.coe_add, hlargest, htotal, add_comm, ← hlength]
    exact hupper

/-! ## The laws of the result -/

variable (xs ys) in
theorem logSumExp_append_ofEReal :
    logSumExp (xs.map ofEReal ++ ys.map ofEReal) =
      logSumExp [logSumExp (xs.map ofEReal), logSumExp (ys.map ofEReal)] := by
  have hparts : [ofEReal (logTotal xs), ofEReal (logTotal ys)] =
      [logTotal xs, logTotal ys].map ofEReal := rfl
  rw [← List.map_append, logSumExp_ofEReal, logSumExp_ofEReal, logSumExp_ofEReal, hparts,
    logSumExp_ofEReal, logTotal_append]

theorem logSumExp_le_ofEReal (h : List.Forall₂ (· ≤ ·) (xs.map ofEReal) (ys.map ofEReal)) :
    logSumExp (xs.map ofEReal) ≤ logSumExp (ys.map ofEReal) := by
  rw [List.forall₂_map_left_iff, List.forall₂_map_right_iff] at h
  rw [logSumExp_ofEReal, logSumExp_ofEReal, Exact.ofEReal_le_iff]
  exact logTotal_mono (h.imp fun x y => (Exact.ofEReal_le_iff x y).1)

theorem logSumExp_perm_ofEReal (h : (ys.map ofEReal).Perm (xs.map ofEReal)) :
    logSumExp (ys.map ofEReal) = logSumExp (xs.map ofEReal) := by
  rw [logSumExp_ofEReal, logSumExp_ofEReal,
    logTotal_perm ((List.map_perm_map_iff Exact.ofEReal_injective).1 h)]

/-- A finite result lies between the largest exponent, which is one of them, and that plus the
logarithm of their number. -/
theorem logSumExp_between (hbot : ¬ ∀ x ∈ xs, x = ⊥) (htop : ⊤ ∉ xs) :
    ∃ top total : ℝ, maximum (xs.map ofEReal) = .real top ∧ .real top ∈ xs.map ofEReal ∧
      (∀ x ∈ xs.map ofEReal, x ≤ .real top) ∧ logSumExp (xs.map ofEReal) = .real total ∧
        top ≤ total ∧ total ≤ top + Real.log xs.length := by
  obtain ⟨top, total, hlargest, htotal, hbounds⟩ := logTotal_real hbot htop
  have hmem : (top : EReal) ∈ xs := hlargest ▸ largest_mem (hlargest ▸ EReal.coe_ne_bot top)
  refine ⟨top, total, ?_, List.mem_map_of_mem hmem, ?_, ?_, hbounds⟩
  · rw [maximum_ofEReal, hlargest, Exact.ofEReal_coe]
  · refine List.forall_mem_map.2 fun x hx => ?_
    rw [← Exact.ofEReal_coe, Exact.ofEReal_le_iff, ← hlargest]
    exact le_largest hx
  · rw [logSumExp_ofEReal, htotal, Exact.ofEReal_coe]

/-- If the largest exponent is finite, no exponential of a positive number is taken and no logarithm
of a number below one. -/
theorem finite_terms (h : Scalar.isFinite (maximum (xs.map ofEReal)) = true) :
    (∀ x ∈ xs.map ofEReal, x - maximum (xs.map ofEReal) ≤ 0) ∧
      1 ≤ sum ((xs.map ofEReal).map fun x => Scalar.exp (x - maximum (xs.map ofEReal))) ∧
        sum ((xs.map ofEReal).map fun x => Scalar.exp (x - maximum (xs.map ofEReal))) ≤
          .real xs.length := by
  rw [maximum_ofEReal] at h ⊢
  generalize hlargest : largest xs = top at h
  induction top with
  | coe t =>
    rw [Exact.ofEReal_coe]
    exact ⟨sub_largest_nonpos hlargest, sum_exp_sub_largest hlargest⟩
  | _ => cases h

theorem defined_of_forall₂_le {logs more : List Exact} (h : List.Forall₂ (· ≤ ·) logs more) :
    ∀ x ∈ more, Scalar.isUndefined x = false := by
  induction h with
  | nil => exact fun x hx => absurd hx List.not_mem_nil
  | cons hle _ ih => exact List.forall_mem_cons.2 ⟨(Exact.defined_of_atMost hle).2, ih⟩

/-- Of exponents none of which is undefined the result is the logarithm of the sum of their
exponentials, as it is over the extended real numbers. It is `-∞` if all of them are, `∞` if one of
them is, and else real, at least the largest exponent and above it by at most the logarithm of their
number. About the largest exponent none is positive and the sum is not below one. The result for a
series is the result for the results of its parts, it does not fall if exponents rise, and it does
not depend on their order. -/
theorem logSumExp_closed {logs : List Exact}
    (defined : ∀ x ∈ logs, Scalar.isUndefined x = false) :
    logSumExp logs = Scalar.log (sum (logs.map Scalar.exp)) ∧
      (∃ xs : List EReal, logs = xs.map ofEReal ∧
        logSumExp logs = ofEReal (ENNReal.log (xs.map EReal.exp).sum)) ∧
      (logSumExp logs = -Scalar.infinity ↔ ∀ x ∈ logs, x = -Scalar.infinity) ∧
      (logSumExp logs = Scalar.infinity ↔ Scalar.infinity ∈ logs) ∧
      ((¬ ∀ x ∈ logs, x = -Scalar.infinity) → Scalar.infinity ∉ logs →
        ∃ top total : ℝ, maximum logs = .real top ∧ .real top ∈ logs ∧
          (∀ x ∈ logs, x ≤ .real top) ∧ logSumExp logs = .real total ∧ top ≤ total ∧
            total ≤ top + Real.log logs.length) ∧
      (Scalar.isFinite (maximum logs) = true →
        (∀ x ∈ logs, x - maximum logs ≤ 0) ∧
          1 ≤ sum (logs.map fun x => Scalar.exp (x - maximum logs)) ∧
            sum (logs.map fun x => Scalar.exp (x - maximum logs)) ≤ .real logs.length) ∧
      (∀ more : List Exact, (∀ x ∈ more, Scalar.isUndefined x = false) →
        logSumExp (logs ++ more) = logSumExp [logSumExp logs, logSumExp more]) ∧
      (∀ raised, List.Forall₂ (· ≤ ·) logs raised → logSumExp logs ≤ logSumExp raised) ∧
      ∀ others : List Exact, others.Perm logs → logSumExp others = logSumExp logs := by
  obtain ⟨xs, rfl⟩ := Exact.exists_map_ofEReal defined
  have hbot (x : EReal) : ofEReal x = -Scalar.infinity ↔ x = ⊥ :=
    Exact.ofEReal_injective.eq_iff' rfl
  have htop (x : EReal) : ofEReal x = Scalar.infinity ↔ x = ⊤ :=
    Exact.ofEReal_injective.eq_iff' rfl
  have hallBot : (∀ x ∈ xs.map ofEReal, x = -Scalar.infinity) ↔ ∀ x ∈ xs, x = ⊥ := by
    simp only [List.forall_mem_map, hbot]
  have hmemTop : Scalar.infinity ∈ xs.map ofEReal ↔ ⊤ ∈ xs := by
    rw [← (htop ⊤).2 rfl]
    exact List.mem_map_of_injective Exact.ofEReal_injective
  refine ⟨?_, ⟨xs, rfl, logSumExp_ofEReal xs⟩, ?_, ?_, ?_, fun hfinite => ?_,
    fun more hmore => ?_, fun raised hraised => ?_, fun others hperm => ?_⟩
  · rw [logSumExp_ofEReal, log_sum_exp_ofEReal]
  · rw [logSumExp_ofEReal, hbot, logTotal_eq_bot_iff, hallBot]
  · rw [logSumExp_ofEReal, htop, logTotal_eq_top_iff, hmemTop]
  · rw [hallBot, hmemTop, List.length_map]
    exact logSumExp_between
  · rw [List.length_map]
    exact finite_terms hfinite
  · obtain ⟨ys, rfl⟩ := Exact.exists_map_ofEReal hmore
    exact logSumExp_append_ofEReal xs ys
  · obtain ⟨ys, rfl⟩ := Exact.exists_map_ofEReal (defined_of_forall₂_le hraised)
    exact logSumExp_le_ofEReal hraised
  · have hothers : ∀ x ∈ others, Scalar.isUndefined x = false :=
      fun x hx => defined x (hperm.mem_iff.1 hx)
    obtain ⟨ys, rfl⟩ := Exact.exists_map_ofEReal hothers
    exact logSumExp_perm_ofEReal hperm

/-- An exponent of `-∞` beside two that are zero: the result is `log 2`, and their order does not
matter. -/
theorem logSumExp_closed_zeros :
    (∀ x ∈ [Exact.negInf, .real 0, .real 0], Scalar.isUndefined x = false) ∧
      logSumExp [Exact.negInf, .real 0, .real 0] = .real (Real.log 2) ∧
        logSumExp [Exact.real 0, .negInf, .real 0] = .real (Real.log 2) := by
  have hdefined : ∀ x ∈ [Exact.negInf, .real 0, .real 0], Scalar.isUndefined x = false := by
    rintro x (_ | ⟨_, _ | ⟨_, _ | ⟨_, ⟨⟩⟩⟩⟩) <;> rfl
  obtain ⟨hnaive, -, -, -, -, -, -, -, hperm⟩ := logSumExp_closed hdefined
  have hsum : sum ([Exact.negInf, .real 0, .real 0].map Scalar.exp) = .real 2 := by
    show sum [Exact.real 0, .real (Real.exp 0), .real (Real.exp 0)] = _
    rw [Real.exp_zero, sum, Exact.zero_eq, Exact.real_neg]
    simp only [List.foldl_cons, List.foldl_nil, Exact.real_add]
    norm_num
  rw [hsum, Exact.log_real two_pos] at hnaive
  exact ⟨hdefined, hnaive, (hperm _ (List.Perm.swap _ _ _)).trans hnaive⟩

end Series

end Metropolis
