import Metropolis.Scalar.Exact

/-!
The rules of the order, of finite numbers and of the undefined value.

These are rules that doubles obey, whatever they round, and exact numbers too. A statement that
follows from them alone holds of both.
-/

namespace Metropolis

namespace Scalar

class Lawful (α : Type) [Scalar α] : Prop where
  lt_irrefl (x : α) : ¬ x < x
  lt_of_lt_of_le {x y z : α} : x < y → y ≤ z → x < z
  /-- The undefined value has no place in the order, and all other numbers are ordered. -/
  defined_of_le {x y : α} : x ≤ y → isUndefined x = false ∧ isUndefined y = false
  le_of_not_lt {x y : α} : isUndefined x = false → isUndefined y = false → ¬ x < y → y ≤ x
  zero_lt_one : (0 : α) < 1
  ofNat_pos {n : Nat} : 0 < n → (0 : α) < ofNat n
  isFinite_decimal (digits places : Nat) :
    digits ≤ countLimit → isFinite (OfScientific.ofScientific digits true places : α) = true
  /-- Positive numbers, infinity among them, have a product and a quotient with a finite one. -/
  defined_mul {x y : α} : 0 < x → 0 < y → isUndefined (x * y) = false
  defined_div {x y : α} : isFinite x = true → 0 < y → isUndefined (x / y) = false
  sqrt_pos {x : α} : 0 < x → 0 < sqrt x
  not_isFinite_neg_infinity : isFinite (-infinity : α) = false
  /-- Neither a sum nor a product is finite again once a number is not. -/
  isFinite_of_add {x y : α} : isFinite (x + y) = true → isFinite x = true ∧ isFinite y = true
  isFinite_of_mul {x y : α} : isFinite (x * y) = true → isFinite x = true ∧ isFinite y = true
  isFinite_of_log {x : α} : isFinite (log x) = true → 0 < x ∧ isFinite x = true

section Clamp

variable {α : Type} [Scalar α] [Lawful α] {x low high : α}

theorem le_refl_of_defined (h : isUndefined x = false) : x ≤ x :=
  Lawful.le_of_not_lt h h (Lawful.lt_irrefl x)

/-- A number that is not undefined is brought between the bounds. -/
theorem clamp_within (h : isUndefined x = false) (bounds : low ≤ high) :
    low ≤ clamp x low high ∧ clamp x low high ≤ high := by
  obtain ⟨hlow, hhigh⟩ := Lawful.defined_of_le bounds
  unfold clamp
  split
  · exact ⟨le_refl_of_defined hlow, bounds⟩
  next hnlow =>
    split
    · exact ⟨bounds, le_refl_of_defined hhigh⟩
    next hnhigh =>
      exact ⟨Lawful.le_of_not_lt h hlow hnlow, Lawful.le_of_not_lt hhigh h hnhigh⟩

end Clamp

end Scalar

namespace Exact

theorem less_of_less_of_atMost {x y z : Exact} (h : Less x y) (h' : AtMost y z) : Less x z := by
  cases x <;> cases y <;> cases z <;> first | trivial | exact lt_of_lt_of_le h h'

theorem defined_of_atMost {x y : Exact} (h : AtMost x y) :
    isUndefined x = false ∧ isUndefined y = false := by
  cases x <;> cases y <;> first | exact ⟨rfl, rfl⟩ | cases h

theorem atMost_of_not_less {x y : Exact} (hx : isUndefined x = false) (hy : isUndefined y = false)
    (h : ¬ Less x y) : AtMost y x := by
  cases x <;> cases y <;>
    first | trivial | exact not_lt.1 h | exact absurd trivial h

theorem cases_of_pos {x : Exact} (h : 0 < x) : x = posInf ∨ ∃ r, x = real r ∧ 0 < r := by
  cases x with
  | real r =>
    exact .inr ⟨r, rfl, (zero_lt_real_iff _).1 h⟩
  | posInf => exact .inl rfl
  | _ => cases h

theorem infinityOf_of_pos {r : ℝ} (h : 0 < r) : infinityOf r = posInf := if_pos h

theorem defined_mul {x y : Exact} (hx : 0 < x) (hy : 0 < y) : isUndefined (mul x y) = false := by
  obtain rfl | ⟨r, rfl, hr⟩ := cases_of_pos hx <;> obtain rfl | ⟨r', rfl, hr'⟩ := cases_of_pos hy
  · rfl
  · rw [mul, infinityOf_of_pos hr']
    rfl
  · rw [mul, infinityOf_of_pos hr]
    rfl
  · rfl

theorem defined_div {x y : Exact} (hx : isFinite x = true) (hy : 0 < y) :
    isUndefined (div x y) = false := by
  rw [eq_real_of_isFinite hx]
  obtain rfl | ⟨r, rfl, hr⟩ := cases_of_pos hy
  · rfl
  · rw [div, if_neg hr.ne']
    rfl

theorem sqrt_pos {x : Exact} (h : 0 < x) : 0 < Scalar.sqrt x := by
  obtain rfl | ⟨r, rfl, hr⟩ := cases_of_pos h
  · trivial
  · rw [sqrt_real hr.le]
    exact (zero_lt_real_iff _).2 (Real.sqrt_pos.2 hr)

theorem isFinite_of_log {x : Exact} (h : Scalar.isFinite (Scalar.log x) = true) :
    0 < x ∧ Scalar.isFinite x = true := by
  cases x with
  | real r =>
    by_cases hr : 0 < r
    · exact ⟨(zero_lt_real_iff _).2 hr, rfl⟩
    · have hlog : Scalar.log (real r) = if r = 0 then negInf else undefined := if_neg hr
      rw [hlog] at h
      split at h <;> cases h
  | _ => cases h

instance : Scalar.Lawful Exact where
  lt_irrefl x h := by
    cases x with
    | real r => exact lt_irrefl r h
    | _ => cases h
  lt_of_lt_of_le := less_of_less_of_atMost
  defined_of_le := defined_of_atMost
  le_of_not_lt := atMost_of_not_less
  zero_lt_one := (zero_lt_real_iff _).2 (by norm_num)
  ofNat_pos h := (zero_lt_real_iff _).2 (Nat.cast_pos.2 h)
  isFinite_decimal _ _ _ := rfl
  defined_mul := defined_mul
  defined_div := defined_div
  sqrt_pos := sqrt_pos
  not_isFinite_neg_infinity := rfl
  isFinite_of_add := isFinite_of_add
  isFinite_of_mul := isFinite_of_mul
  isFinite_of_log := isFinite_of_log

end Exact

end Metropolis
