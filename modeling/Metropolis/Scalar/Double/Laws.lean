import Mathlib
import Metropolis.Scalar.Comparison
import Metropolis.Scalar.Double

/-!
Doubles in order.

A finite double is a whole multiple of the smallest positive one. That number is the place of the
double in the order, and the difference of two doubles has the sign of the difference of their
places, as rounding takes nothing to zero that is not zero, and nothing to the other side of it.
-/

namespace Metropolis.Double

open Float.Model (UnpackedFloat Format totalExponent)
open Float.Model.UnpackedFloat

/-! ## Places -/

/-- Whether a number is as it is read from bits: with 53 digits, or with the least exponent. -/
def IsCanonical : UnpackedFloat → Prop
  | .finite _ m e _ => -1074 ≤ e ∧ m < 2 ^ 53 ∧ (e ≠ -1074 → 2 ^ 52 ≤ m)
  | _ => True

/-- Bits before others are a multiple of the next power of two. -/
theorem toNat_append {n k : ℕ} (a : BitVec n) (b : BitVec k) :
    (a ++ b).toNat = a.toNat * 2 ^ k + b.toNat := by
  rw [BitVec.toNat_append, ← Nat.shiftLeft_add_eq_or_of_lt b.isLt, Nat.shiftLeft_eq]

theorem isCanonical_unpack (bits : BitVec Format.binary64.numBits) :
    IsCanonical (unpack Format.binary64 bits) := by
  have hbias : (Format.binary64.exponentBias : ℤ) = 1023 := by decide
  have hmantissa : (unpackMantissa bits).toNat < 2 ^ 52 := (unpackMantissa bits).isLt
  unfold unpack
  simp only
  split
  · split <;> trivial
  · split
    next hzero =>
      split
      · trivial
      · rw [hzero, hbias]
        exact ⟨by decide, by omega, fun h => absurd rfl h⟩
    next hzero =>
      -- The first of the 53 digits is not stored.
      have hpos : 0 < (unpackExponent bits).toNat :=
        Nat.pos_of_ne_zero fun h => hzero (BitVec.eq_of_toNat_eq h)
      rw [hbias]
      refine ⟨by omega, (1#1 ++ unpackMantissa bits).isLt, fun _ => ?_⟩
      rw [toNat_append]
      exact Nat.le_add_right _ _

/-- How many times the smallest positive double a mantissa at an exponent is. -/
def units (m : ℕ) (e : ℤ) : ℕ := m * 2 ^ (e + 1074).toNat

theorem units_pos {m : ℕ} (hm : 0 < m) (e : ℤ) : 0 < units m e :=
  Nat.mul_pos hm (Nat.two_pow_pos _)

/-- A mantissa of 53 digits at a larger exponent is larger. -/
theorem units_lt_units {m m' : ℕ} {e e' : ℤ} (he : -1074 ≤ e) (hm : m < 2 ^ 53)
    (hm' : 2 ^ 52 ≤ m') (hlt : e < e') : units m e < units m' e' := by
  obtain ⟨n, hn⟩ := Int.eq_ofNat_of_zero_le (a := e + 1074) (by omega)
  obtain ⟨k, hk⟩ := Int.eq_ofNat_of_zero_le (a := e' - e - 1) (by omega)
  have hn' : e' + 1074 = (n + 1 + k : ℕ) := by omega
  unfold units
  rw [hn, hn', Int.toNat_natCast, Int.toNat_natCast]
  calc m * 2 ^ n < 2 ^ 53 * 2 ^ n := Nat.mul_lt_mul_of_pos_right hm (Nat.two_pow_pos n)
    _ = 2 ^ 52 * 2 ^ (n + 1) := by ring
    _ ≤ m' * 2 ^ (n + 1) := Nat.mul_le_mul_right _ hm'
    _ ≤ m' * 2 ^ (n + 1 + k) := Nat.mul_le_mul_left _ (Nat.pow_le_pow_right two_pos (by omega))

theorem units_lt_iff {s s' : Sign} {m m' : ℕ} {e e' : ℤ} {hm : 0 < m} {hm' : 0 < m'}
    (h : IsCanonical (.finite s m e hm)) (h' : IsCanonical (.finite s' m' e' hm')) :
    units m e < units m' e' ↔ e < e' ∨ e = e' ∧ m < m' := by
  obtain ⟨he, hbound, hdigits⟩ := h
  obtain ⟨he', hbound', hdigits'⟩ := h'
  -- At different exponents the larger one decides, whatever the mantissas are.
  rcases lt_trichotomy e e' with hlt | rfl | hgt
  · exact iff_of_true (units_lt_units he hbound (hdigits' (by omega)) hlt) (.inl hlt)
  · rw [units, units, Nat.mul_lt_mul_right (Nat.two_pow_pos _)]
    omega
  · have hge := (units_lt_units he' hbound' (hdigits (by omega)) hgt).le
    exact iff_of_false hge.not_gt (by omega)

/-- A finite number as a multiple of the smallest positive double. -/
def multiple : UnpackedFloat → ℤ
  | .finite s m e _ => s.apply (units m e)
  | _ => 0

/-- The place of a number in the order, with the infinities on either side of all multiples. -/
def place : UnpackedFloat → Option (ℤ ×ₗ ℤ)
  | .notANumber => none
  | .infinity s => some (toLex (s.apply 1, 0))
  | x => some (toLex (0, multiple x))

theorem place_of_isFinite {x : UnpackedFloat} (h : x.isFinite = true) :
    place x = some (toLex (0, multiple x)) := by
  rcases x with _ | _ | _ | _
  case infinity => cases h
  case notANumber => cases h
  all_goals rfl

/-- Finite numbers are compared by sign, exponent and mantissa, which is to compare their
multiples. -/
theorem lt_iff_multiple {a b : UnpackedFloat} (ha : IsCanonical a) (hb : IsCanonical b)
    (hafinite : a.isFinite = true) (hbfinite : b.isFinite = true) :
    a.lt b = true ↔ multiple a < multiple b := by
  have hlt (e e' : ℤ) (m m' : ℕ) :
      (compare e e').then (compare m m') = .lt ↔ e < e' ∨ e = e' ∧ m < m' := by
    rw [Ordering.then_eq_lt, compare_lt_iff_lt, compare_eq_iff_eq, compare_lt_iff_lt]
  have hgt (e e' : ℤ) (m m' : ℕ) :
      (compare e e').then (compare m m') = .gt ↔ e' < e ∨ e' = e ∧ m' < m := by
    rw [Ordering.then_eq_gt, compare_gt_iff_gt, compare_eq_iff_eq, compare_gt_iff_gt, eq_comm]
  rcases a with _ | _ | s | ⟨s, m, e, hm⟩
  case infinity => cases hafinite
  case notANumber => cases hafinite
  case zero =>
    rcases b with _ | _ | s' | ⟨s', m', e', hm'⟩
    case infinity => cases hbfinite
    case notANumber => cases hbfinite
    case zero => exact iff_of_false Bool.false_ne_true (lt_irrefl 0)
    case finite =>
      have hpos := units_pos hm' e'
      cases s' <;> simp [UnpackedFloat.lt, UnpackedFloat.compare, multiple, Sign.apply, hpos]
  case finite =>
    have hpos := units_pos hm e
    rcases b with _ | _ | s' | ⟨s', m', e', hm'⟩
    case infinity => cases hbfinite
    case notANumber => cases hbfinite
    case zero =>
      cases s <;> simp [UnpackedFloat.lt, UnpackedFloat.compare, multiple, Sign.apply, hpos]
    case finite =>
      have hpos' := units_pos hm' e'
      have hunits := units_lt_iff ha hb
      have hunits' := units_lt_iff hb ha
      cases s <;> cases s' <;>
        simp only [UnpackedFloat.lt, UnpackedFloat.compare, multiple, Sign.apply, beq_iff_eq,
          Option.some.injEq, Ordering.swap_eq_lt, hlt, hgt, ← hunits, ← hunits', reduceCtorEq,
          true_iff, false_iff] <;>
        omega

theorem lt_iff_place {a b : UnpackedFloat} (ha : IsCanonical a) (hb : IsCanonical b) :
    a.lt b = true ↔ ∃ p q, place a = some p ∧ place b = some q ∧ p < q := by
  by_cases hfinite : a.isFinite = true ∧ b.isFinite = true
  · rw [lt_iff_multiple ha hb hfinite.1 hfinite.2, place_of_isFinite hfinite.1,
      place_of_isFinite hfinite.2]
    simp [Prod.Lex.toLex_lt_toLex]
  · -- An infinity is on one side of all other numbers.
    rcases a with ⟨_ | _⟩ | _ | _ | _ <;> rcases b with ⟨_ | _⟩ | _ | _ | _ <;>
      first
      | exact absurd ⟨rfl, rfl⟩ hfinite
      | dsimp only [UnpackedFloat.lt, UnpackedFloat.compare, place, Sign.apply]
        simp [Prod.Lex.toLex_lt_toLex]
    decide

/-! ## Rounding -/

theorem shift_mantissa (em : ExtendedMantissa) (n : ℕ) :
    (em >>> n).mantissa = em.mantissa / 2 ^ n := by
  induction n with
  | zero => exact (Nat.div_one _).symm
  | succ n ih =>
    show (em >>> n).mantissa / 2 = _
    rw [ih, Nat.div_div_eq_div_mul, Nat.pow_succ]

theorem le_roundedMantissa (em : ExtendedMantissa) : em.mantissa ≤ em.roundedMantissa := by
  unfold ExtendedMantissa.roundedMantissa
  cases em.accuracy with
  | exact => exact le_rfl
  | inexact o =>
    cases o with
    | lt => exact le_rfl
    | eq => exact Nat.le_add_right _ _
    | gt => exact Nat.le_succ _

theorem targetExponent_eq (e : ℤ) : Format.binary64.targetExponent e = max (e - 53) (-1074) := rfl

/-- A mantissa that is moved to its target exponent keeps its leading digits. -/
theorem shiftToTargetExponent_bounds {m : ℕ} {e : ℤ} (hm : 0 < m) (he : -1074 ≤ e) :
    0 < (shiftToTargetExponent Format.binary64 m e .exact).1.mantissa ∧
      (shiftToTargetExponent Format.binary64 m e .exact).1.mantissa < 2 ^ 53 ∧
      -1074 ≤ (shiftToTargetExponent Format.binary64 m e .exact).2 := by
  have hlow := Nat.log2_self_le hm.ne'
  have hhigh := m.lt_log2_self
  -- All digits after the first 53 are dropped.
  have hshift : (Format.binary64.targetExponent (totalExponent m e) - e).toNat = m.log2 - 52 := by
    show (Format.binary64.targetExponent (m.log2 + 1 + e) - e).toNat = _
    rw [targetExponent_eq]
    omega
  have hmantissa : (shiftToTargetExponent Format.binary64 m e .exact).1.mantissa =
      m / 2 ^ (m.log2 - 52) := by
    rw [← hshift]
    exact shift_mantissa _ _
  rw [hmantissa]
  refine ⟨Nat.div_pos ((Nat.pow_le_pow_right two_pos (Nat.sub_le _ _)).trans hlow)
    (Nat.two_pow_pos _), Nat.div_lt_of_lt_mul ?_,
    he.trans (Int.le_add_of_nonneg_right (Int.natCast_nonneg _))⟩
  rw [← Nat.pow_add]
  exact hhigh.trans_le (Nat.pow_le_pow_right two_pos (by omega))

/-- A positive mantissa is rounded to a positive one of 53 digits at most. -/
theorem exists_round (s : Sign) {m : ℕ} {e : ℤ} (hm : 0 < m) (he : -1074 ≤ e) :
    ∃ m' e', ∃ hm' : 0 < m', UnpackedFloat.round Format.binary64 s m e = .finite s m' e' hm' ∧
      -1074 ≤ e' ∧ m' < 2 ^ 53 := by
  have hdecreased : -1074 ≤ (decreaseExponent m e
      (Format.binary64.targetExponent (totalExponent m e))).2 := by
    show -1074 ≤ e - ((e - _).toNat : ℤ)
    rw [targetExponent_eq]
    omega
  have hpos : 0 < (decreaseExponent m e
      (Format.binary64.targetExponent (totalExponent m e))).1 := by
    show 0 < m <<< _
    rw [Nat.shiftLeft_eq]
    exact Nat.mul_pos hm (Nat.two_pow_pos _)
  -- The mantissa is shifted, rounded, and shifted again, as rounding may give it one more digit.
  have hfirst := shiftToTargetExponent_bounds hpos hdecreased
  have hsecond := shiftToTargetExponent_bounds (hfirst.1.trans_le (le_roundedMantissa _))
    hfirst.2.2
  exact ⟨_, _, hsecond.1, dif_neg hsecond.1.ne', hsecond.2.2, hsecond.2.1⟩

/-! ## Stored numbers -/

/-- What is read back of a number that was stored. -/
def stored (x : UnpackedFloat) : UnpackedFloat := unpack Format.binary64 (pack Format.binary64 x)

/-- Whether a number, infinite or not, has a sign and is not zero. -/
inductive HasSign (s : Sign) : UnpackedFloat → Prop
  | infinity : HasSign s (.infinity s)
  | finite {m : ℕ} {e : ℤ} {hm : 0 < m} : HasSign s (.finite s m e hm)

theorem hasSign_packComponents (s : Sign) {exponent : BitVec 11} {mantissa : BitVec 52}
    (hzero : exponent = 0#11 → mantissa ≠ 0#52) (hundefined : exponent = -1#11 → mantissa = 0#52) :
    HasSign s (unpack Format.binary64 (packComponents Format.binary64 s exponent mantissa)) := by
  unfold unpack
  simp only [unpackMantissa_packComponents, unpackExponent_packComponents,
    unpackSign_packComponents, Sign.ofBitVec_toBitVec]
  split
  next h =>
    rw [if_pos (hundefined h)]
    exact .infinity
  next =>
    split
    next h =>
      rw [dif_neg (hzero h)]
      exact .finite
    next => exact .finite

/-- A number is neither stored as zero nor with the other sign. -/
theorem hasSign_stored (s : Sign) {m : ℕ} {e : ℤ} (hm : 0 < m) (he : -1074 ≤ e)
    (hlt : m < 2 ^ 53) : HasSign s (stored (.finite s m e hm)) := by
  have hbias : (Format.binary64.exponentBias : ℤ) = 1023 := by decide
  unfold stored pack
  dsimp only
  rw [hbias]
  split
  · exact hasSign_packComponents s (fun h => absurd h (by decide)) fun _ => rfl
  next hfits =>
    split
    next hnormal =>
      -- The exponent is neither the one of zero nor the one of infinity.
      have hexponent {exponent : BitVec 11} (h : BitVec.ofNat 11 (e + 1023 + 52).toNat = exponent) :
          (e + 1023 + 52).toNat = exponent.toNat := by
        rw [← h, BitVec.toNat_ofNat, Nat.mod_eq_of_lt (by omega)]
      refine hasSign_packComponents s (fun h => ?_) (fun h => ?_)
      · have hnone : (e + 1023 + 52).toNat = 0 := hexponent h
        omega
      · have hall : (e + 1023 + 52).toNat = 2047 := hexponent h
        omega
    next hsubnormal =>
      -- All digits of a smaller mantissa are stored, and one of them is not zero.
      have hbits : Format.binary64.mantissaBits = 53 := rfl
      have hlog : m.log2 < 53 := (Nat.log2_lt hm.ne').2 hlt
      have hmantissa : m < 2 ^ 52 := (Nat.log2_lt hm.ne').1 (by omega)
      refine hasSign_packComponents s (fun _ h => ?_) (fun h => absurd h (by decide))
      have hnat := congrArg BitVec.toNat h
      rw [BitVec.toNat_ofNat, Nat.mod_eq_of_lt hmantissa] at hnat
      exact hm.ne' hnat

theorem stored_zero (s : Sign) : stored (.zero s) = .zero s := unpack_packedZero

/-! ## Sums and differences -/

/-- Whether a number is positive, negative or zero as an integer is. -/
structure HasSignOf (n : ℤ) (x : UnpackedFloat) : Prop where
  pos : 0 < n → HasSign .positive x
  neg : n < 0 → HasSign .negative x
  zero : n = 0 → ∃ s, x = .zero s

theorem hasSignOf_zero (s : Sign) : HasSignOf 0 (.zero s) where
  pos h := absurd h (lt_irrefl 0)
  neg h := absurd h (lt_irrefl 0)
  zero _ := ⟨s, rfl⟩

theorem apply_neg (s : Sign) (n : ℤ) : (-s).apply n = -s.apply n := by
  cases s
  · exact (neg_neg n).symm
  · rfl

theorem apply_mul (s : Sign) (n k : ℤ) : s.apply (n * k) = s.apply n * k := by
  cases s
  · exact (neg_mul n k).symm
  · rfl

theorem hasSignOf_finite {s : Sign} {m : ℕ} {e : ℤ} {hm : 0 < m}
    (h : IsCanonical (.finite s m e hm)) :
    HasSignOf (s.apply (units m e)) (stored (.finite s m e hm)) := by
  have hsign := hasSign_stored s hm h.1 h.2.1
  have hunits := units_pos hm e
  cases s <;> constructor <;> intro hn <;> simp only [Sign.apply] at hn
  all_goals first | exact hsign | omega

theorem hasSignOf_normalize (n : ℤ) {e : ℤ} (he : -1074 ≤ e) (s : Sign) :
    HasSignOf n (stored (UnpackedFloat.normalize Format.binary64 n e s)) := by
  unfold UnpackedFloat.normalize
  split
  next h =>
    have hneg := compare_lt_iff_lt.1 h
    obtain ⟨m', e', hm', hround, he', hlt⟩ :=
      exists_round .negative (m := (-n).toNat) (by omega) he
    rw [hround]
    exact ⟨by omega, fun _ => hasSign_stored _ hm' he' hlt, by omega⟩
  next h =>
    rw [compare_eq_iff_eq.1 h, stored_zero]
    exact hasSignOf_zero s
  next h =>
    have hpos := compare_gt_iff_gt.1 h
    obtain ⟨m', e', hm', hround, he', hlt⟩ :=
      exists_round .positive (m := n.toNat) (by omega) he
    rw [hround]
    exact ⟨fun _ => hasSign_stored _ hm' he' hlt, by omega, by omega⟩

/-- A mantissa moved to a smaller exponent. -/
theorem units_decreaseExponent (m : ℕ) {e e' : ℤ} (h : e' ≤ e) (h' : -1074 ≤ e') :
    units (decreaseExponent m e e').1 e' = units m e := by
  show (m <<< (e - e').toNat) * 2 ^ (e' + 1074).toNat = m * 2 ^ (e + 1074).toNat
  rw [Nat.shiftLeft_eq, Nat.mul_assoc, ← Nat.pow_add]
  congr 2
  omega

/-- A sum is rounded to neither side of zero. -/
theorem hasSignOf_add {a b : UnpackedFloat} (ha : IsCanonical a) (hb : IsCanonical b)
    (hafinite : a.isFinite = true) (hbfinite : b.isFinite = true) :
    HasSignOf (multiple a + multiple b) (stored (a.add Format.binary64 b)) := by
  rcases a with _ | _ | s | ⟨s, m, e, hm⟩
  case infinity => cases hafinite
  case notANumber => cases hafinite
  case zero =>
    rcases b with _ | _ | s' | ⟨s', m', e', hm'⟩
    case infinity => cases hbfinite
    case notANumber => cases hbfinite
    case zero =>
      obtain ⟨t, ht⟩ : ∃ t, (UnpackedFloat.zero s).add Format.binary64 (.zero s') = .zero t := by
        unfold UnpackedFloat.add
        dsimp only
        split
        · exact ⟨s, rfl⟩
        · exact ⟨.positive, rfl⟩
      rw [ht, stored_zero]
      exact hasSignOf_zero t
    case finite =>
      show HasSignOf (0 + s'.apply _) (stored (.finite s' m' e' hm'))
      rw [zero_add]
      exact hasSignOf_finite hb
  case finite =>
    rcases b with _ | _ | s' | ⟨s', m', e', hm'⟩
    case infinity => cases hbfinite
    case notANumber => cases hbfinite
    case zero =>
      show HasSignOf (s.apply _ + 0) (stored (.finite s m e hm))
      rw [add_zero]
      exact hasSignOf_finite ha
    case finite =>
      -- Both are multiples of the same unit at the smaller exponent.
      have hmin : -1074 ≤ min e e' := le_min ha.1 hb.1
      obtain ⟨k, hk, hk'⟩ : ∃ k : ℤ, 0 < k ∧ s.apply (units m e) + s'.apply (units m' e') =
          (s.apply (decreaseExponent m e (min e e')).1 +
            s'.apply (decreaseExponent m' e' (min e e')).1) * k := by
        refine ⟨(2 ^ (min e e' + 1074).toNat : ℕ), Int.natCast_pos.2 (Nat.two_pow_pos _), ?_⟩
        rw [← units_decreaseExponent m (min_le_left e e') hmin,
          ← units_decreaseExponent m' (min_le_right e e') hmin, units, units, Nat.cast_mul,
          Nat.cast_mul, apply_mul, apply_mul, add_mul]
      have hsum := hasSignOf_normalize (s.apply (decreaseExponent m e (min e e')).1 +
        s'.apply (decreaseExponent m' e' (min e e')).1) hmin .positive
      show HasSignOf (s.apply (units m e) + s'.apply (units m' e')) (stored (normalize _ _ _ _))
      rw [hk']
      exact ⟨fun h => hsum.pos (pos_of_mul_pos_left h hk.le),
        fun h => hsum.neg (neg_of_mul_neg_left h hk.le),
        fun h => hsum.zero ((mul_eq_zero.1 h).resolve_right hk.ne')⟩

/-- A difference is a sum with the opposite. -/
theorem sub_eq_add_opposite (a b : UnpackedFloat) :
    a.sub Format.binary64 b = a.add Format.binary64 b.neg := by
  rcases a with s | _ | s | ⟨s, m, e, hm⟩ <;> rcases b with s' | _ | s' | ⟨s', m', e', hm'⟩
  case finite.finite =>
    simp only [UnpackedFloat.sub, UnpackedFloat.add, UnpackedFloat.neg, apply_neg, sub_eq_add_neg]
  case infinity.infinity => cases s <;> cases s' <;> rfl
  case zero.zero => cases s <;> cases s' <;> rfl
  all_goals rfl

theorem hasSignOf_sub {a b : UnpackedFloat} (ha : IsCanonical a) (hb : IsCanonical b)
    (hafinite : a.isFinite = true) (hbfinite : b.isFinite = true) :
    HasSignOf (multiple a - multiple b) (stored (a.sub Format.binary64 b)) := by
  have hneg : multiple b.neg = -multiple b := by
    rcases b with _ | _ | _ | ⟨s, m, e, hm⟩
    case finite => exact apply_neg s _
    all_goals rfl
  have hcanonical : IsCanonical b.neg := by
    rcases b with _ | _ | _ | _
    case finite => exact hb
    all_goals trivial
  have hfinite : b.neg.isFinite = true := by
    rcases b with _ | _ | _ | _ <;> exact hbfinite
  rw [sub_eq_add_opposite, sub_eq_add_neg, ← hneg]
  exact hasSignOf_add ha hcanonical hafinite hfinite

theorem HasSignOf.zero_le_iff {n : ℤ} {x : UnpackedFloat} (h : HasSignOf n x) :
    (UnpackedFloat.zero .positive).le x = true ↔ 0 ≤ n := by
  rcases lt_trichotomy n 0 with hneg | hzero | hpos
  · refine iff_of_false ?_ hneg.not_ge
    cases h.neg hneg <;> exact Bool.false_ne_true
  · obtain ⟨s, rfl⟩ := h.zero hzero
    exact iff_of_true rfl hzero.ge
  · refine iff_of_true ?_ hpos.le
    cases h.pos hpos <;> rfl

/-- Whether a number is at least zero once it is stored. -/
def IsNonneg (x : UnpackedFloat) : Prop :=
  (UnpackedFloat.zero .positive).le (unpack Format.binary64 (pack Format.binary64 x)) = true

/-- A difference is rounded to neither side of zero. -/
theorem isNonneg_sub_iff {a b : UnpackedFloat} (ha : IsCanonical a) (hb : IsCanonical b)
    (hafinite : a.isFinite = true) (hbfinite : b.isFinite = true) :
    IsNonneg (a.sub Format.binary64 b) ↔ multiple b ≤ multiple a :=
  (hasSignOf_sub ha hb hafinite hbfinite).zero_le_iff.trans sub_nonneg

/-! ## Doubles as they run -/

theorem isCanonical_toModel (x : Float) : IsCanonical x.toModel.unpack := isCanonical_unpack _

theorem lt_iff_unpack (x y : Float) : x < y ↔ x.toModel.unpack.lt y.toModel.unpack = true := by
  show Float.lt x y = true ↔ _
  unfold Float.lt
  rw [decide_eq_true_iff]
  rfl

theorem le_iff_unpack (x y : Float) : x ≤ y ↔ x.toModel.unpack.le y.toModel.unpack = true := by
  show Float.le x y = true ↔ _
  unfold Float.le
  rw [decide_eq_true_iff]
  rfl

theorem lt_iff (x y : Float) :
    x < y ↔ ∃ p q, place x.toModel.unpack = some p ∧ place y.toModel.unpack = some q ∧ p < q :=
  (lt_iff_unpack x y).trans (lt_iff_place (isCanonical_toModel x) (isCanonical_toModel y))

instance : Scalar.LawfulOrder Float where
  lt_irrefl x h := by
    obtain ⟨p, q, hp, hq, hlt⟩ := (lt_iff x x).1 h
    cases hp.symm.trans hq
    exact lt_irrefl p hlt
  lt_trans {x y z} hxy hyz := by
    obtain ⟨p, q, hp, hq, hlt⟩ := (lt_iff x y).1 hxy
    obtain ⟨q', r, hq', hr, hlt'⟩ := (lt_iff y z).1 hyz
    cases hq.symm.trans hq'
    exact (lt_iff x z).2 ⟨p, r, hp, hr, hlt.trans hlt'⟩
  lt_or_lt {x y z} _ hy _ hxz := by
    obtain ⟨p, r, hp, hr, hlt⟩ := (lt_iff x z).1 hxz
    have hq := place_of_isFinite (x := y.toModel.unpack) hy
    rcases lt_or_ge p (toLex (0, multiple y.toModel.unpack)) with hpq | hqp
    · exact .inl ((lt_iff x y).2 ⟨p, _, hp, hq, hpq⟩)
    · exact .inr ((lt_iff y z).2 ⟨_, r, hq, hr, hqp.trans_lt hlt⟩)

instance : Scalar.LawfulSub Float where
  sub_nonneg_iff {x y} hx hy := by
    have hcanonical := isCanonical_toModel x
    have hcanonical' := isCanonical_toModel y
    rw [le_iff_unpack, lt_iff_unpack, lt_iff_multiple hcanonical hcanonical' hx hy, not_lt]
    exact isNonneg_sub_iff hcanonical hcanonical' hx hy

/-! ## Infinity -/

theorem isFinite_of_pack {x : UnpackedFloat}
    (h : (unpack Format.binary64 (pack Format.binary64 x)).isFinite = true) :
    x.isFinite = true := by
  rcases x with s | _ | _ | _
  case infinity => cases s <;> exact absurd h (by decide)
  case notANumber => exact absurd h (by decide)
  all_goals rfl

theorem isFinite_of_add {a b : UnpackedFloat} (h : (a.add Format.binary64 b).isFinite = true) :
    a.isFinite = true ∧ b.isFinite = true := by
  rcases a with s | _ | _ | _ <;> rcases b with s' | _ | _ | _
  -- Infinities of different signs have an undefined sum.
  case infinity.infinity =>
    unfold UnpackedFloat.add at h
    dsimp only at h
    split at h <;> cases h
  all_goals first | exact ⟨rfl, rfl⟩ | cases h

theorem toModel_neg_infinity :
    (-Scalar.infinity : Float).toModel = Float.Model.pack (.infinity .negative) := by
  decide +kernel

theorem add_neg_infinity {x : UnpackedFloat} (h : x.isFinite = true) :
    x.add Format.binary64 (.infinity .negative) = .infinity .negative := by
  rcases x with _ | _ | _ | _
  case infinity => cases h
  case notANumber => cases h
  all_goals rfl

instance : Scalar.LawfulInfinity Float where
  beq_neg_infinity_iff x := by
    have hdefined : (-Scalar.infinity : Float) ≠ Float.nan := by decide +kernel
    refine (Float.beq_iff_ne_nan_and_eq (f := x)).trans ⟨fun h => ?_, fun h => ?_⟩
    · rcases h.2.2 with h | ⟨-, h⟩ | ⟨-, h⟩
      · exact h
      · exact absurd h (by decide +kernel)
      · exact absurd h (by decide +kernel)
    · rw [h]
      exact ⟨hdefined, hdefined, .inl rfl⟩
  isFinite_zero := by decide +kernel
  not_isFinite_neg_infinity := by decide +kernel
  isFinite_of_add h := isFinite_of_add (isFinite_of_pack h)
  add_neg_infinity {x} h := by
    show Float.ofModel (.pack (x.toModel.unpack.add _ (-Scalar.infinity : Float).toModel.unpack)) =
      Float.ofModel (-Scalar.infinity : Float).toModel
    rw [toModel_neg_infinity]
    exact congrArg (fun sum => Float.ofModel (.pack sum)) (add_neg_infinity h)

end Metropolis.Double
