import Metropolis.Scalar.Comparison

/-!
The rules of the special values.

They say how the infinities and the undefined value go through negation, sums and differences,
through the exponential function and the logarithm, and into the order for sorting. Those of the
arithmetic and of the order hold of doubles as they run, those of the two functions are what a
library of them documents. All hold of exact numbers.
-/

namespace Metropolis

namespace Scalar

/-- The arithmetic of the special values, and the signs of sums. -/
class LawfulSpecial (α : Type) [Scalar α] : Prop where
  /-- All numbers are above `-infinity`, and all but the infinities are finite. -/
  defined_infinity : isUndefined (infinity : α) = false
  defined_neg_infinity : isUndefined (-infinity : α) = false
  not_lt_neg_infinity (x : α) : ¬ x < -infinity
  neg_infinity_lt {x : α} : isUndefined x = false → x ≠ -infinity → -infinity < x
  defined_of_isFinite {x : α} : isFinite x = true → isUndefined x = false
  not_isFinite_infinity : isFinite (infinity : α) = false
  isFinite_of_defined {x : α} : isUndefined x = false → x ≠ infinity → x ≠ -infinity →
    isFinite x = true
  /-- The negation of the undefined value is undefined, and the infinities are each other's. -/
  isUndefined_neg (x : α) : isUndefined (-x) = isUndefined x
  isFinite_neg (x : α) : isFinite (-x) = isFinite x
  neg_eq_neg_infinity_iff {x : α} : -x = -infinity ↔ x = infinity
  /-- Nothing is defined of the undefined value, and any number has a difference with a finite
  one. -/
  undefined_add {x y : α} : isUndefined x = true ∨ isUndefined y = true →
    isUndefined (x + y) = true
  undefined_sub {x y : α} : isUndefined x = true ∨ isUndefined y = true →
    isUndefined (x - y) = true
  defined_sub {x y : α} : isUndefined x = false → isFinite y = true → isUndefined (x - y) = false
  sub_self {x : α} : isFinite x = true → x - x = 0
  undefined_sub_self {x : α} : isFinite x = false → isUndefined (x - x) = true
  sub_nonpos_iff {x y : α} : isUndefined x = false → isFinite y = true → (x - y ≤ 0 ↔ ¬ y < x)
  /-- A sum is infinity with one infinity, unless the other number is `-infinity` or undefined, and
  otherwise only if it is too large. Differences from infinity are as sums with `-infinity`. -/
  infinity_add {x : α} : isUndefined x = false → x ≠ -infinity → infinity + x = infinity
  add_infinity {x : α} : isUndefined x = false → x ≠ -infinity → x + infinity = infinity
  sub_infinity {x : α} : isUndefined x = false → x ≠ infinity → x - infinity = -infinity
  isFinite_of_add_infinite {x y : α} : x ≠ infinity → y ≠ infinity → x + y = infinity →
    isFinite x = true ∧ isFinite y = true
  /-- Sums keep signs. -/
  neg_zero_nonneg : (0 : α) ≤ -0
  nonneg_add {x y : α} : 0 ≤ x → 0 ≤ y → 0 ≤ x + y
  pos_add {x y : α} : 0 ≤ x → 0 ≤ y → 0 < x ∨ 0 < y → 0 < x + y

/-- The order for sorting gives any value a place, lower numbers before higher ones. Where undefined
values stand is left open, since it is a matter of their signs. -/
class LawfulSort (α : Type) [Scalar α] : Prop where
  totalLe_trans {x y z : α} : totalLe x y = true → totalLe y z = true → totalLe x z = true
  totalLe_total (x y : α) : totalLe x y = true ∨ totalLe y x = true
  not_totalLe_of_lt {x y : α} : x < y → totalLe y x = false

/-- The exponential function and the logarithm at special values. -/
class LawfulExpLog (α : Type) [Scalar α] : Prop where
  undefined_exp {x : α} : isUndefined x = true → isUndefined (exp x) = true
  exp_nonneg {x : α} : isUndefined x = false → 0 ≤ exp x
  exp_zero_pos : 0 < exp (0 : α)
  undefined_log {x : α} : isUndefined x = true → isUndefined (log x) = true
  /-- A logarithm takes no finite number to `-infinity` but that of zero. -/
  add_log_ne {x y : α} : isFinite x = true → 0 < y → x + log y ≠ -infinity
  /-- The logarithm of a number of things is finite, and too small to be the difference of a finite
  number to infinity. -/
  log_count_sub_eq_infinity_iff {n : Nat} {x : α} : 0 < n →
    (log (ofCount n) - x = infinity ↔ x = -infinity)

end Scalar

namespace Exact

theorem zero_le_cases {x : Exact} (h : 0 ≤ x) : x = posInf ∨ ∃ r : ℝ, x = real r ∧ 0 ≤ r := by
  cases x with
  | real r =>
    rw [ofNat_eq, real_le, Nat.cast_zero] at h
    exact .inr ⟨r, rfl, h⟩
  | posInf => exact .inl rfl
  | _ => cases h

theorem zero_le_real {r : ℝ} (h : 0 ≤ r) : (0 : Exact) ≤ real r := by
  rw [ofNat_eq, real_le, Nat.cast_zero]
  exact h

theorem nonneg_add {x y : Exact} (hx : 0 ≤ x) (hy : 0 ≤ y) : 0 ≤ x + y := by
  obtain rfl | ⟨r, rfl, hr⟩ := zero_le_cases hx <;> obtain rfl | ⟨t, rfl, ht⟩ := zero_le_cases hy
  case inr.inr => exact zero_le_real (add_nonneg hr ht)
  all_goals trivial

theorem pos_add {x y : Exact} (hx : 0 ≤ x) (hy : 0 ≤ y) (h : 0 < x ∨ 0 < y) : 0 < x + y := by
  obtain rfl | ⟨r, rfl, hr⟩ := zero_le_cases hx <;> obtain rfl | ⟨t, rfl, ht⟩ := zero_le_cases hy
  case inr.inr =>
    rw [zero_lt_real_iff, zero_lt_real_iff] at h
    rw [real_add, zero_lt_real_iff]
    rcases h with h | h <;> linarith
  all_goals trivial

instance : Scalar.LawfulSpecial Exact where
  defined_infinity := rfl
  defined_neg_infinity := rfl
  not_lt_neg_infinity x := by cases x <;> exact id
  neg_infinity_lt {x} hx h := by
    cases x with
    | undefined => cases hx
    | negInf => exact absurd rfl h
    | _ => trivial
  defined_of_isFinite {x} h := by
    rw [eq_real_of_isFinite h]
    rfl
  not_isFinite_infinity := rfl
  isFinite_of_defined {x} hx h h' := by
    cases x with
    | real r => rfl
    | posInf => exact absurd rfl h
    | negInf => exact absurd rfl h'
    | undefined => cases hx
  isUndefined_neg x := by cases x <;> rfl
  isFinite_neg x := by cases x <;> rfl
  neg_eq_neg_infinity_iff {x} := by
    cases x with
    | posInf => exact ⟨fun _ => rfl, fun _ => rfl⟩
    | _ => refine ⟨fun h => ?_, fun h => ?_⟩ <;> cases h
  undefined_add {x y} h := by cases x <;> cases y <;> rcases h with h | h <;> first | rfl | cases h
  undefined_sub {x y} h := by cases x <;> cases y <;> rcases h with h | h <;> first | rfl | cases h
  defined_sub {x y} hx hy := by
    rw [eq_real_of_isFinite hy]
    cases x <;> first | rfl | cases hx
  sub_self {x} h := by
    rw [eq_real_of_isFinite h, real_sub, sub_self, ofNat_eq, Nat.cast_zero]
  undefined_sub_self {x} h := by cases x <;> first | rfl | cases h
  sub_nonpos_iff {x y} hx hy := by
    rw [eq_real_of_isFinite hy]
    cases x with
    | real r => rw [real_sub, ofNat_eq, Nat.cast_zero, real_le, real_lt, sub_nonpos, not_lt]
    | posInf => exact iff_of_false (fun h => nomatch h) fun h => h trivial
    | negInf => exact iff_of_true trivial fun h => nomatch h
    | undefined => cases hx
  infinity_add {x} hx h := by
    cases x with
    | undefined => cases hx
    | negInf => exact absurd rfl h
    | _ => rfl
  add_infinity {x} hx h := by
    cases x with
    | undefined => cases hx
    | negInf => exact absurd rfl h
    | _ => rfl
  sub_infinity {x} hx h := by
    cases x with
    | undefined => cases hx
    | posInf => exact absurd rfl h
    | _ => rfl
  isFinite_of_add_infinite {x y} hx hy h := by
    cases x <;> cases y <;>
      first | exact ⟨rfl, rfl⟩ | exact absurd rfl hx | exact absurd rfl hy | cases h
  neg_zero_nonneg := by
    rw [ofNat_eq, real_neg, real_le, Nat.cast_zero, neg_zero]
  nonneg_add := nonneg_add
  pos_add := pos_add

instance : Scalar.LawfulSort Exact where
  totalLe_trans {x y z} h h' := by
    cases x <;> cases y <;> cases z
    case real.real.real => exact decide_eq_true ((of_decide_eq_true h).trans (of_decide_eq_true h'))
    all_goals
      first
      | rfl
      | exact absurd h Bool.false_ne_true
      | exact absurd h' Bool.false_ne_true
  totalLe_total x y := by
    cases x <;> cases y
    case real.real => exact (le_total _ _).imp decide_eq_true decide_eq_true
    all_goals first | exact .inl rfl | exact .inr rfl
  not_totalLe_of_lt {x y} h := by
    cases x <;> cases y
    case real.real => exact decide_eq_false (not_le.2 h)
    all_goals first | rfl | cases h

instance : Scalar.LawfulExpLog Exact where
  undefined_exp {x} h := by cases x <;> first | rfl | cases h
  exp_nonneg {x} h := by
    cases x with
    | real r => exact zero_le_real (Real.exp_nonneg r)
    | posInf => trivial
    | negInf => exact zero_le_real le_rfl
    | undefined => cases h
  exp_zero_pos := (zero_lt_real_iff _).2 (Real.exp_pos _)
  undefined_log {x} h := by cases x <;> first | rfl | cases h
  add_log_ne {x y} hx hy h := by
    rw [eq_real_of_isFinite hx] at h
    cases y with
    | real r =>
      rw [log_real ((zero_lt_real_iff _).1 hy)] at h
      cases h
    | posInf => cases h
    | _ => cases hy
  log_count_sub_eq_infinity_iff {n x} hn := by
    have hlimit : 0 < Scalar.countLimit := by decide
    have hcount : (0 : ℝ) < (min n Scalar.countLimit : ℕ) := Nat.cast_pos.2 (lt_min hn hlimit)
    have hlog : Scalar.log (Scalar.ofCount n) =
        real (Real.log (min n Scalar.countLimit : ℕ)) := log_real hcount
    rw [hlog]
    cases x with
    | negInf => exact ⟨fun _ => rfl, fun _ => rfl⟩
    | _ => refine ⟨fun h => ?_, fun h => ?_⟩ <;> cases h

end Exact

end Metropolis
