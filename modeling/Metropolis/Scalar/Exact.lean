import Mathlib.Analysis.SpecialFunctions.Gamma.Basic
import Mathlib.Analysis.SpecialFunctions.Log.Basic
import Mathlib.Analysis.SpecialFunctions.Trigonometric.Basic
import Metropolis.Scalar

/-!
Exact numbers as scalars: the real numbers with two infinities and an undefined value.

The special values follow the rules of doubles, with one zero in place of two: a number that is
not zero divided by zero is the infinity of its sign, and an operation without a limit is undefined.
-/

namespace Metropolis

inductive Exact where
  | real (x : ℝ)
  | posInf
  | negInf
  | undefined

namespace Exact

open Classical

/-- The infinity with the sign of a real number, undefined for zero. -/
noncomputable def infinityOf (x : ℝ) : Exact :=
  if 0 < x then posInf else if x < 0 then negInf else undefined

def neg : Exact → Exact
  | real x => real (-x)
  | posInf => negInf
  | negInf => posInf
  | undefined => undefined

noncomputable def add : Exact → Exact → Exact
  | real x, real y => real (x + y)
  | real _, posInf => posInf
  | real _, negInf => negInf
  | posInf, real _ => posInf
  | posInf, posInf => posInf
  | negInf, real _ => negInf
  | negInf, negInf => negInf
  | _, _ => undefined

noncomputable def mul : Exact → Exact → Exact
  | real x, real y => real (x * y)
  | real x, posInf => infinityOf x
  | real x, negInf => infinityOf (-x)
  | posInf, real y => infinityOf y
  | negInf, real y => infinityOf (-y)
  | posInf, posInf => posInf
  | posInf, negInf => negInf
  | negInf, posInf => negInf
  | negInf, negInf => posInf
  | _, _ => undefined

noncomputable def div : Exact → Exact → Exact
  | real x, real y => if y = 0 then infinityOf x else real (x / y)
  | real _, posInf => real 0
  | real _, negInf => real 0
  | posInf, real y => if y = 0 then posInf else infinityOf y
  | negInf, real y => if y = 0 then negInf else infinityOf (-y)
  | _, _ => undefined

/-- The order of the numbers, in which the undefined value has no place. -/
def Less : Exact → Exact → Prop
  | real x, real y => x < y
  | real _, posInf => True
  | negInf, real _ => True
  | negInf, posInf => True
  | _, _ => False

def AtMost : Exact → Exact → Prop
  | real x, real y => x ≤ y
  | real _, posInf => True
  | posInf, posInf => True
  | negInf, real _ => True
  | negInf, posInf => True
  | negInf, negInf => True
  | _, _ => False

noncomputable def equal : Exact → Exact → Bool
  | real x, real y => decide (x = y)
  | posInf, posInf => true
  | negInf, negInf => true
  | _, _ => false

noncomputable def abs : Exact → Exact
  | real x => real |x|
  | undefined => undefined
  | _ => posInf

noncomputable def sqrt : Exact → Exact
  | real x => if 0 ≤ x then real √x else undefined
  | posInf => posInf
  | _ => undefined

noncomputable def exp : Exact → Exact
  | real x => real (Real.exp x)
  | posInf => posInf
  | negInf => real 0
  | undefined => undefined

noncomputable def log : Exact → Exact
  | real x => if 0 < x then real (Real.log x) else if x = 0 then negInf else undefined
  | posInf => posInf
  | _ => undefined

noncomputable def cos : Exact → Exact
  | real x => real (Real.cos x)
  | _ => undefined

/-- The logarithm of the gamma function at positive numbers. -/
noncomputable def logGamma : Exact → Exact
  | real x => if 0 < x then real (Real.log (Real.Gamma x)) else undefined
  | posInf => posInf
  | _ => undefined

noncomputable def floor : Exact → Nat
  | real x => ⌊x⌋₊
  | _ => 0

def isUndefined : Exact → Bool
  | undefined => true
  | _ => false

def isFinite : Exact → Bool
  | real _ => true
  | _ => false

/-- The order for sorting, with the undefined value after infinity. -/
noncomputable def totalLe : Exact → Exact → Bool
  | real x, real y => decide (x ≤ y)
  | posInf, real _ => false
  | real _, negInf => false
  | posInf, negInf => false
  | undefined, undefined => true
  | undefined, _ => false
  | _, _ => true

noncomputable instance : Scalar Exact where
  add := ⟨add⟩
  sub := ⟨fun x y => add x (neg y)⟩
  mul := ⟨mul⟩
  div := ⟨div⟩
  neg := ⟨neg⟩
  lt := ⟨Less⟩
  le := ⟨AtMost⟩
  beq := ⟨equal⟩
  decidableLT := fun _ _ => propDecidable _
  decidableLE := fun _ _ => propDecidable _
  decimal := ⟨fun mantissa negative exponent =>
    real (OfScientific.ofScientific mantissa negative exponent)⟩
  ofNat := fun n => real n
  floor := floor
  abs := abs
  sqrt := sqrt
  exp := exp
  log := log
  cos := cos
  logGamma := logGamma
  pi := real Real.pi
  infinity := posInf
  undefined := undefined
  isUndefined := isUndefined
  isFinite := isFinite
  totalLe := totalLe

/-! ## Arithmetic of real numbers -/

variable (x y : ℝ)

@[simp] theorem real_add : (real x + real y : Exact) = real (x + y) := rfl

@[simp] theorem real_sub : (real x - real y : Exact) = real (x - y) := by
  rw [sub_eq_add_neg]
  rfl

@[simp] theorem real_mul : (real x * real y : Exact) = real (x * y) := rfl

@[simp] theorem real_neg : (-real x : Exact) = real (-x) := rfl

theorem real_div {y : ℝ} (h : y ≠ 0) : (real x / real y : Exact) = real (x / y) := if_neg h

theorem log_real {x : ℝ} (h : 0 < x) : Scalar.log (real x) = real (Real.log x) := if_pos h

theorem log_zero : Scalar.log (real 0) = negInf := (if_neg (lt_irrefl 0)).trans (if_pos rfl)

section Logarithms

variable {x y : ℝ}

theorem log_mul (hx : 0 < x) (hy : 0 ≤ y) :
    Scalar.log (real (x * y)) = Scalar.log (real x) + Scalar.log (real y) := by
  rcases hy.eq_or_lt with rfl | hy
  · rw [mul_zero, log_zero, log_real hx]
    rfl
  · rw [log_real (mul_pos hx hy), log_real hx, log_real hy, Real.log_mul hx.ne' hy.ne', real_add]

theorem log_mul_exp (hx : 0 ≤ x) (c : ℝ) :
    Scalar.log (real (x * Real.exp c)) = Scalar.log (real x) + real c := by
  have hexp := Real.exp_pos c
  rcases hx.eq_or_lt with rfl | hx
  · rw [zero_mul, log_zero]
    rfl
  · rw [log_real (mul_pos hx hexp), log_real hx, Real.log_mul hx.ne' hexp.ne', Real.log_exp,
      real_add]

theorem log_le_log (hx : 0 ≤ x) (hy : 0 ≤ y) :
    Scalar.log (real x) ≤ Scalar.log (real y) ↔ x ≤ y := by
  rcases hx.eq_or_lt with rfl | hx
  · rw [log_zero, iff_true_right hy]
    rcases hy.eq_or_lt with rfl | hy
    · rw [log_zero]
      exact trivial
    · rw [log_real hy]
      exact trivial
  · rw [log_real hx]
    rcases hy.eq_or_lt with rfl | hy
    · rw [log_zero, iff_false_right (not_le.2 hx)]
      exact id
    · rw [log_real hy]
      exact Real.log_le_log_iff hx hy

end Logarithms

theorem sqrt_real {x : ℝ} (h : 0 ≤ x) : Scalar.sqrt (real x) = real √x := if_pos h

theorem sqrt_two : Scalar.sqrt (2 : Exact) = real √2 := sqrt_real (Nat.cast_nonneg 2)

theorem logGamma_real {x : ℝ} (h : 0 < x) :
    Scalar.logGamma (real x) = real (Real.log (Real.Gamma x)) := if_pos h

@[simp] theorem abs_real : Scalar.abs (real x) = real |x| := rfl

theorem pi_eq : (Scalar.pi : Exact) = real Real.pi := rfl

@[simp] theorem real_lt : real x < real y ↔ x < y := Iff.rfl

@[simp] theorem real_le : real x ≤ real y ↔ x ≤ y := Iff.rfl

theorem real_lt_of_le {x y : ℝ} {z : Exact} (hle : x ≤ y) (h : real y < z) : real x < z := by
  cases z with
  | real z => exact hle.trans_lt h
  | posInf => trivial
  | negInf => cases h
  | undefined => cases h

theorem clamp_real {x low high : ℝ} (hlow : low ≤ x) (hhigh : x ≤ high) :
    Scalar.clamp (real x) (real low) (real high) = real x := by
  have hnlow : ¬ real x < real low := hlow.not_gt
  have hnhigh : ¬ real high < real x := hhigh.not_gt
  rw [Scalar.clamp, if_neg hnlow, if_neg hnhigh]

theorem larger_real : Scalar.larger (real x) (real y) = real (max x y) := by
  show (if real x < real y then real y else real x) = _
  rw [max_def_lt]
  split
  next h => rw [if_pos (real_lt x y |>.1 h)]
  next h => rw [if_neg (mt (real_lt x y).2 h)]

@[simp] theorem larger_posInf (x : Exact) : Scalar.larger x posInf = posInf := by
  cases x with
  | undefined => rfl
  | posInf => exact if_neg id
  | _ => exact if_pos trivial

@[simp] theorem posInf_larger (x : Exact) : Scalar.larger posInf x = posInf := by
  cases x with
  | undefined => rfl
  | _ => exact if_neg id

theorem ofNat_eq (n : Nat) : (OfNat.ofNat n : Exact) = real n := rfl

theorem zero_eq : (0 : Exact) = real 0 := by rw [ofNat_eq, Nat.cast_zero]

theorem one_eq : (1 : Exact) = real 1 := by rw [ofNat_eq, Nat.cast_one]

theorem real_le_zero_iff : real x ≤ 0 ↔ x ≤ 0 := by rw [zero_eq, real_le]

theorem real_lt_zero_iff : real x < 0 ↔ x < 0 := by rw [zero_eq, real_lt]

theorem zero_lt_real_iff : 0 < real x ↔ 0 < x := by rw [zero_eq, real_lt]

theorem ofScientific_eq (mantissa : Nat) (negative : Bool) (exponent : Nat) :
    (OfScientific.ofScientific mantissa negative exponent : Exact) =
      real (OfScientific.ofScientific mantissa negative exponent) := rfl

@[simp] theorem isFinite_real : Scalar.isFinite (real x) = true := rfl

/-! ## Finite numbers -/

section Finite

variable {x y : Exact}

/-- The real number that a finite number is, zero for the others. -/
def toReal : Exact → ℝ
  | real x => x
  | _ => 0

@[simp] theorem toReal_real (x : ℝ) : (real x).toReal = x := rfl

theorem eq_real_of_isFinite (h : Scalar.isFinite x = true) : x = real x.toReal := by
  cases x with
  | real x => rfl
  | _ => cases h

theorem map_real_toReal {xs : List Exact} (h : ∀ x ∈ xs, Scalar.isFinite x = true) :
    (xs.map toReal).map real = xs := by
  rw [List.map_map]
  exact (List.map_congr_left fun x hx => (eq_real_of_isFinite (h x hx)).symm).trans
    (List.map_id' xs)

theorem not_isFinite_infinityOf (x : ℝ) : ¬ Scalar.isFinite (infinityOf x) = true := by
  unfold infinityOf
  split
  · exact Bool.false_ne_true
  · split <;> exact Bool.false_ne_true

/-! Sums, differences and products of finite numbers are finite, and so is a quotient by a number
that is not zero. -/

theorem isFinite_add (hx : Scalar.isFinite x = true) (hy : Scalar.isFinite y = true) :
    Scalar.isFinite (x + y) = true := by
  rw [eq_real_of_isFinite hx, eq_real_of_isFinite hy]
  rfl

theorem isFinite_sub (hx : Scalar.isFinite x = true) (hy : Scalar.isFinite y = true) :
    Scalar.isFinite (x - y) = true := by
  rw [eq_real_of_isFinite hx, eq_real_of_isFinite hy]
  rfl

theorem isFinite_mul (hx : Scalar.isFinite x = true) (hy : Scalar.isFinite y = true) :
    Scalar.isFinite (x * y) = true := by
  rw [eq_real_of_isFinite hx, eq_real_of_isFinite hy]
  rfl

theorem isFinite_div {y : ℝ} (hx : Scalar.isFinite x = true) (hy : y ≠ 0) :
    Scalar.isFinite (x / real y) = true := by
  rw [eq_real_of_isFinite hx, real_div _ hy]
  rfl

/-! A result is finite only if the numbers are, except for the number that is divided by. -/

theorem isFinite_of_add (h : Scalar.isFinite (x + y) = true) :
    Scalar.isFinite x = true ∧ Scalar.isFinite y = true := by
  cases x with
  | real x =>
    cases y with
    | real y => exact ⟨rfl, rfl⟩
    | _ => cases h
  | _ => cases y <;> cases h

theorem isFinite_of_sub (h : Scalar.isFinite (x - y) = true) :
    Scalar.isFinite x = true ∧ Scalar.isFinite y = true := by
  cases x with
  | real x =>
    cases y with
    | real y => exact ⟨rfl, rfl⟩
    | _ => cases h
  | _ => cases y <;> cases h

theorem isFinite_of_mul (h : Scalar.isFinite (x * y) = true) :
    Scalar.isFinite x = true ∧ Scalar.isFinite y = true := by
  cases x with
  | real x =>
    cases y with
    | real y => exact ⟨rfl, rfl⟩
    | posInf => exact absurd h (not_isFinite_infinityOf x)
    | negInf => exact absurd h (not_isFinite_infinityOf (-x))
    | undefined => cases h
  | posInf =>
    cases y with
    | real y => exact absurd h (not_isFinite_infinityOf y)
    | _ => cases h
  | negInf =>
    cases y with
    | real y => exact absurd h (not_isFinite_infinityOf (-y))
    | _ => cases h
  | undefined => cases y <;> cases h

theorem isFinite_of_div (h : Scalar.isFinite (x / y) = true) : Scalar.isFinite x = true := by
  cases x with
  | real x => rfl
  | posInf =>
    cases y with
    | real y =>
      change Scalar.isFinite (if y = 0 then posInf else infinityOf y) = true at h
      split at h
      · cases h
      · exact absurd h (not_isFinite_infinityOf y)
    | _ => cases h
  | negInf =>
    cases y with
    | real y =>
      change Scalar.isFinite (if y = 0 then negInf else infinityOf (-y)) = true at h
      split at h
      · cases h
      · exact absurd h (not_isFinite_infinityOf (-y))
    | _ => cases h
  | undefined => cases y <;> cases h

end Finite

end Exact

end Metropolis
