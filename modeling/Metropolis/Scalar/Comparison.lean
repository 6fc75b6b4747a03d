import Metropolis.Scalar.Exact

/-!
The rules by which evaluated points are compared.

They stand apart from the other rules, because to compare points needs no more than these: the
order of the finite numbers, the sign of a difference, and what infinity is to a sum. They hold of
doubles as they run, and of exact numbers.
-/

namespace Metropolis

namespace Scalar

/-- The finite numbers are ordered. -/
class LawfulOrder (α : Type) [Scalar α] : Prop where
  lt_irrefl (x : α) : ¬ x < x
  lt_trans {x y z : α} : x < y → y < z → x < z
  /-- A finite number has a place beside any two finite numbers that are in order. -/
  lt_or_lt {x y z : α} : isFinite x = true → isFinite y = true → isFinite z = true →
    x < z → x < y ∨ y < z

/-- A difference tells the order. -/
class LawfulSub (α : Type) [Scalar α] : Prop where
  sub_nonneg_iff {x y : α} : isFinite x = true → isFinite y = true → (0 ≤ x - y ↔ ¬ x < y)

/-- A sum is not finite again once a number was not, and no finite number takes away from
`-infinity`. -/
class LawfulInfinity (α : Type) [Scalar α] : Prop where
  beq_neg_infinity_iff (x : α) : (x == -infinity) = true ↔ x = -infinity
  isFinite_zero : isFinite (0 : α) = true
  not_isFinite_neg_infinity : isFinite (-infinity : α) = false
  isFinite_of_add {x y : α} : isFinite (x + y) = true → isFinite x = true ∧ isFinite y = true
  add_neg_infinity {x : α} : isFinite x = true → x + -infinity = -infinity

/-- Whether sums of finite numbers are finite. Doubles overflow. -/
def NoOverflow (α : Type) [Scalar α] : Prop :=
  ∀ x y : α, isFinite x = true → isFinite y = true → isFinite (x + y) = true

end Scalar

namespace Exact

theorem less_trans {x y z : Exact} (h : Less x y) (h' : Less y z) : Less x z := by
  cases x <;> cases y <;> cases z <;> first | trivial | exact lt_trans h h'

instance : Scalar.LawfulOrder Exact where
  lt_irrefl x h := by
    cases x with
    | real r => exact lt_irrefl r h
    | _ => cases h
  lt_trans := less_trans
  lt_or_lt {x y z} hx hy hz h := by
    rw [eq_real_of_isFinite hx, eq_real_of_isFinite hz, real_lt] at h
    rw [eq_real_of_isFinite hx, eq_real_of_isFinite hy, eq_real_of_isFinite hz, real_lt, real_lt]
    exact (lt_or_ge x.toReal y.toReal).imp_right fun hle => hle.trans_lt h

instance : Scalar.LawfulSub Exact where
  sub_nonneg_iff hx hy := by
    rw [eq_real_of_isFinite hx, eq_real_of_isFinite hy, real_sub, ofNat_eq, Nat.cast_zero,
      real_le, real_lt, sub_nonneg, not_lt]

theorem beq_neg_infinity_iff (x : Exact) :
    (x == -Scalar.infinity) = true ↔ x = -Scalar.infinity := by
  cases x with
  | negInf => exact ⟨fun _ => rfl, fun _ => rfl⟩
  | _ => refine ⟨fun h => ?_, fun h => ?_⟩ <;> cases h

instance : Scalar.LawfulInfinity Exact where
  beq_neg_infinity_iff := beq_neg_infinity_iff
  isFinite_zero := rfl
  not_isFinite_neg_infinity := rfl
  isFinite_of_add := isFinite_of_add
  add_neg_infinity h := by
    rw [eq_real_of_isFinite h]
    rfl

theorem noOverflow : Scalar.NoOverflow Exact := fun _ _ => isFinite_add

end Exact

end Metropolis
