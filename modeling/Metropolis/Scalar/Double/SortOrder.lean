import Metropolis.Scalar.Double.Special

/-!
Doubles in the order for sorting.

Without their signs doubles are in the order of their bits, in which an exponent stands before its
mantissa. So the place of a double in the order for sorting agrees with the order of the numbers,
and the undefined values have the places after all numbers, or those before them if their sign is
set.
-/

namespace Metropolis.Double

open Float.Model (UnpackedFloat Format)
open Float.Model.UnpackedFloat

/-! ## Exponents and mantissas -/

/-- The multiple of the smallest positive double that a stored exponent and mantissa make. -/
def unitsOf (exponent mantissa : ℕ) : ℕ :=
  if exponent = 0 then mantissa else (2 ^ 52 + mantissa) * 2 ^ (exponent - 1)

/-- A larger exponent makes a larger number, and so does a larger mantissa of the same exponent. -/
theorem unitsOf_le_unitsOf {e m e' m' : ℕ} (hm : m < 2 ^ 52)
    (h : e * 2 ^ 52 + m ≤ e' * 2 ^ 52 + m') (hm' : m' < 2 ^ 52) : unitsOf e m ≤ unitsOf e' m' := by
  rcases Nat.lt_trichotomy e e' with hlt | rfl | hgt
  · have hsmall : unitsOf e m ≤ 2 ^ 52 * 2 ^ e := by
      unfold unitsOf
      split
      next hzero =>
        rw [hzero, pow_zero, mul_one]
        exact hm.le
      next hpos =>
        have hpow : 2 ^ e = 2 * 2 ^ (e - 1) := by
          rw [← Nat.pow_succ', Nat.succ_eq_add_one, Nat.sub_add_cancel (by omega)]
        rw [hpow, ← mul_assoc]
        exact Nat.mul_le_mul_right _ (by omega)
    calc unitsOf e m ≤ 2 ^ 52 * 2 ^ e := hsmall
      _ ≤ (2 ^ 52 + m') * 2 ^ (e' - 1) :=
        Nat.mul_le_mul (Nat.le_add_right _ _) (Nat.pow_le_pow_right two_pos (by omega))
      _ = unitsOf e' m' := (if_neg (by omega)).symm
  · unfold unitsOf
    split
    · omega
    · exact Nat.mul_le_mul_right _ (by omega)
  · omega

variable {exponent exponent' : BitVec 11} {mantissa mantissa' : BitVec 52} {s s' : Sign}

/-- The exponent and the mantissa as one number. -/
def magnitude (exponent : BitVec 11) (mantissa : BitVec 52) : ℕ :=
  exponent.toNat * 2 ^ 52 + mantissa.toNat

/-- How far a number is from zero: infinity with the last exponent, and otherwise a multiple. -/
def distanceOf (exponent : BitVec 11) (mantissa : BitVec 52) : ℕ × ℕ :=
  if exponent.toNat = 2047 then (1, 0) else (0, unitsOf exponent.toNat mantissa.toNat)

theorem distanceOf_mono (h : magnitude exponent mantissa ≤ magnitude exponent' mantissa') :
    (distanceOf exponent mantissa).1 < (distanceOf exponent' mantissa').1 ∨
      (distanceOf exponent mantissa).1 = (distanceOf exponent' mantissa').1 ∧
        (distanceOf exponent mantissa).2 ≤ (distanceOf exponent' mantissa').2 := by
  have hexponent' := exponent'.isLt
  have hmantissa' := mantissa'.isLt
  unfold magnitude at h
  unfold distanceOf
  split
  next hlast =>
    have hlast' : exponent'.toNat = 2047 := by omega
    rw [if_pos hlast']
    exact .inr ⟨rfl, le_rfl⟩
  next =>
    split
    · exact .inl one_pos
    · exact .inr ⟨rfl, unitsOf_le_unitsOf mantissa.isLt h hmantissa'⟩

/-- The place of a sign, an exponent and a mantissa in the order of numbers. -/
def placeOf (s : Sign) (exponent : BitVec 11) (mantissa : BitVec 52) : ℤ ×ₗ ℤ :=
  toLex (s.apply (distanceOf exponent mantissa).1, s.apply (distanceOf exponent mantissa).2)

/-! ## Stored bits -/

/-- The number that a sign, an exponent and a mantissa store. -/
def assembled (s : Sign) (exponent : BitVec 11) (mantissa : BitVec 52) : UnpackedFloat :=
  unpack Format.binary64 (packComponents Format.binary64 s exponent mantissa)

/-- The last exponent is that of infinity and of the undefined value. -/
theorem assembled_of_last (hlast : exponent.toNat = 2047) : assembled s exponent mantissa =
    if mantissa.toNat = 0 then .infinity s else .notANumber := by
  have hall : exponent = -1#11 := BitVec.eq_of_toNat_eq hlast
  unfold assembled unpack
  simp only [unpackMantissa_packComponents, unpackExponent_packComponents,
    unpackSign_packComponents, Sign.ofBitVec_toBitVec]
  rw [if_pos hall]
  by_cases hzero : mantissa.toNat = 0
  · rw [if_pos hzero, if_pos (BitVec.eq_of_toNat_eq hzero)]
  · rw [if_neg hzero, if_neg fun h => hzero (congrArg BitVec.toNat h)]

theorem multiple_assembled (s : Sign) (hlast : exponent.toNat ≠ 2047) (mantissa : BitVec 52) :
    (assembled s exponent mantissa).isFinite = true ∧
      multiple (assembled s exponent mantissa) =
        s.apply (unitsOf exponent.toNat mantissa.toNat) := by
  have hbias : (Format.binary64.exponentBias : ℤ) = 1023 := by decide
  unfold assembled unpack
  simp only [unpackMantissa_packComponents, unpackExponent_packComponents,
    unpackSign_packComponents, Sign.ofBitVec_toBitVec]
  rw [hbias, if_neg fun h => hlast (congrArg BitVec.toNat h)]
  split
  next hzero =>
    have hnone : exponent.toNat = 0 := congrArg BitVec.toNat hzero
    rw [hnone]
    split
    next hmantissa =>
      have hnothing : mantissa.toNat = 0 := congrArg BitVec.toNat hmantissa
      rw [hnothing]
      cases s <;> exact ⟨rfl, rfl⟩
    next => exact ⟨rfl, congrArg s.apply (congrArg Nat.cast (Nat.mul_one _))⟩
  next hzero =>
    -- The first of the 53 digits is not stored, and the next exponent has the unit of the first.
    have hpos : exponent.toNat ≠ 0 := fun h => hzero (BitVec.eq_of_toNat_eq h)
    have hdigits : (1#1 ++ mantissa).toNat = 2 ^ 52 + mantissa.toNat := toNat_append _ _
    have hshift : ((exponent.toNat : ℤ) - (1023 + (52 : ℕ)) + 1074).toNat =
        exponent.toNat - 1 := by
      omega
    refine ⟨rfl, ?_⟩
    show s.apply (units _ _) = _
    rw [units, hdigits, hshift, unitsOf, if_neg hpos]

theorem place_assembled {p : ℤ ×ₗ ℤ} (h : place (assembled s exponent mantissa) = some p) :
    p = placeOf s exponent mantissa := by
  unfold placeOf distanceOf
  split
  next hlast =>
    rw [assembled_of_last hlast] at h
    split at h
    · cases h
      cases s <;> rfl
    · cases h
  next hlast =>
    obtain ⟨hfinite, hmultiple⟩ := multiple_assembled s hlast mantissa
    rw [place_of_isFinite hfinite, hmultiple] at h
    cases h
    cases s <;> rfl

/-! ## Places in the order for sorting -/

theorem toNat_packComponents (s : Sign) (exponent : BitVec 11) (mantissa : BitVec 52) :
    (packComponents Format.binary64 s exponent mantissa).toNat =
      s.toBitVec.toNat * 2 ^ 63 + magnitude exponent mantissa := by
  calc (packComponents Format.binary64 s exponent mantissa).toNat
      = (s.toBitVec ++ exponent).toNat * 2 ^ 52 + mantissa.toNat := toNat_append _ mantissa
    _ = (s.toBitVec.toNat * 2 ^ 11 + exponent.toNat) * 2 ^ 52 + mantissa.toNat := by
      rw [toNat_append]
    _ = s.toBitVec.toNat * 2 ^ 63 + magnitude exponent mantissa := by
      rw [magnitude]
      ring

/-- The place of a sign, an exponent and a mantissa. Both zeros have one, the negative before the
positive. -/
def keyOf (s : Sign) (exponent : BitVec 11) (mantissa : BitVec 52) : ℤ :=
  match s with
  | .positive => magnitude exponent mantissa
  | .negative => -1 - magnitude exponent mantissa

theorem magnitude_lt (exponent : BitVec 11) (mantissa : BitVec 52) :
    magnitude exponent mantissa < 2 ^ 63 := by
  have hexponent := exponent.isLt
  have hmantissa := mantissa.isLt
  unfold magnitude
  omega

theorem exists_packComponents (bits : BitVec Format.binary64.numBits) :
    ∃ s exponent mantissa, bits = packComponents Format.binary64 s exponent mantissa :=
  ⟨_, _, _, (packComponents_unpackSign_unpackExponent_unpackMantissa bits).symm⟩

/-- What is read of any bits would be stored as it is, except for an undefined value. -/
theorem stored_unpack (bits : BitVec Format.binary64.numBits) :
    stored (unpack Format.binary64 bits) = unpack Format.binary64 bits := by
  by_cases hundefined : unpack Format.binary64 bits = .notANumber
  · rw [hundefined, stored_notANumber]
  · have hvalid : Format.binary64.Valid bits := ⟨fun hexponent hmantissa => by
      refine absurd ?_ hundefined
      unfold unpack
      rw [if_pos hexponent, if_neg hmantissa]⟩
    exact congrArg (unpack Format.binary64) (pack_unpack_of_valid hvalid)

theorem number_toFloat (b : Bits) :
    number b.toFloat = unpack Format.binary64 b.word.toBitVec := stored_unpack b.word.toBitVec

@[simp] theorem toFloat_ofFloat (x : Float) : (Bits.ofFloat x).toFloat = x :=
  number_inj.1 (number_toFloat (.ofFloat x))

/-- Whether a sign is set. -/
def isSet : Sign → Bool
  | .positive => false
  | .negative => true

theorem exists_assembled (b : Bits) : ∃ s exponent mantissa,
    number b.toFloat = assembled s exponent mantissa ∧ b.isNegative = isSet s ∧
      b.sortKey = keyOf s exponent mantissa := by
  obtain ⟨s, exponent, mantissa, hbits⟩ := exists_packComponents b.word.toBitVec
  have hnumber : number b.toFloat = assembled s exponent mantissa :=
    (number_toFloat b).trans (congrArg (unpack Format.binary64) hbits)
  have hlt := magnitude_lt exponent mantissa
  have hnat : b.word.toNat = s.toBitVec.toNat * 2 ^ 63 + magnitude exponent mantissa :=
    (congrArg BitVec.toNat hbits).trans (toNat_packComponents s exponent mantissa)
  have hlimit : Nat.pow 2 63 = 2 ^ 63 := rfl
  refine ⟨s, exponent, mantissa, hnumber, ?_⟩
  unfold Bits.sortKey Bits.isNegative
  rw [hnat, hlimit]
  cases s with
  | positive =>
    have hsign : Sign.positive.toBitVec.toNat = 0 := rfl
    have hsmall : ¬ 2 ^ 63 ≤ 0 * 2 ^ 63 + magnitude exponent mantissa := by omega
    rw [hsign, decide_eq_false hsmall, zero_mul, zero_add]
    exact ⟨rfl, rfl⟩
  | negative =>
    have hsign : Sign.negative.toBitVec.toNat = 1 := rfl
    have hlarge : 2 ^ 63 ≤ 1 * 2 ^ 63 + magnitude exponent mantissa := by omega
    rw [hsign, decide_eq_true hlarge, one_mul, if_pos rfl]
    refine ⟨rfl, ?_⟩
    show (2 ^ 63 : ℤ) - 1 - ((2 ^ 63 + magnitude exponent mantissa : ℕ) : ℤ) = _
    unfold keyOf
    push_cast
    ring

/-- Numbers are in the order of their places, so that the order for sorting turns negative ones
around. -/
theorem place_le_of_keyOf_le (h : keyOf s exponent mantissa ≤ keyOf s' exponent' mantissa') :
    placeOf s exponent mantissa ≤ placeOf s' exponent' mantissa' := by
  rw [placeOf, placeOf, Prod.Lex.toLex_le_toLex]
  rcases s with _ | _ <;> rcases s' with _ | _ <;> simp only [keyOf, Sign.apply] at h ⊢
  case positive.positive =>
    have hmono := distanceOf_mono (Int.ofNat_le.1 h)
    omega
  case negative.negative =>
    have hle : magnitude exponent' mantissa' ≤ magnitude exponent mantissa := by omega
    have hmono := distanceOf_mono hle
    omega
  all_goals omega

theorem sortKey_lt_of_lt {a b : Bits} (h : a.toFloat < b.toFloat) : a.sortKey < b.sortKey := by
  obtain ⟨p, q, hp, hq, hlt⟩ := (lt_iff a.toFloat b.toFloat).1 h
  obtain ⟨s, e, m, ha, -, hkey⟩ := exists_assembled a
  obtain ⟨s', e', m', hb, -, hkey'⟩ := exists_assembled b
  rw [← number, ha] at hp
  rw [← number, hb] at hq
  rw [place_assembled hp, place_assembled hq] at hlt
  rw [hkey, hkey']
  by_contra hle
  exact (place_le_of_keyOf_le (not_lt.1 hle)).not_gt hlt

/-! ## Undefined values -/

/-- Undefined values have the largest magnitudes. -/
theorem assembled_eq_notANumber_iff :
    assembled s exponent mantissa = .notANumber ↔ 2047 * 2 ^ 52 < magnitude exponent mantissa := by
  have hexponent := exponent.isLt
  have hmantissa := mantissa.isLt
  unfold magnitude
  by_cases hlast : exponent.toNat = 2047
  · rw [assembled_of_last hlast, hlast, Nat.lt_add_right_iff_pos, Nat.pos_iff_ne_zero]
    split
    next hzero => exact iff_of_false UnpackedFloat.noConfusion fun h => h hzero
    next hpos => exact iff_of_true rfl hpos
  · refine iff_of_false (fun hundefined => ?_) (by omega)
    have hfinite := (multiple_assembled s hlast mantissa).1
    rw [hundefined] at hfinite
    cases hfinite

namespace Bits

/-- Undefined values are above all numbers, and below them if their sign is set. -/
def level (b : Bits) : ℕ :=
  if Scalar.isUndefined b.toFloat then if b.isNegative then 0 else 2 else 1

theorem undefined_of_level_ne_one {b : Bits} (h : b.level ≠ 1) :
    Scalar.isUndefined b.toFloat = true := by
  by_contra hdefined
  exact h (if_neg hdefined)

theorem level_eq {b : Bits} (hnumber : number b.toFloat = assembled s exponent mantissa)
    (hsign : b.isNegative = isSet s) : b.level =
      if 2047 * 2 ^ 52 < magnitude exponent mantissa then if isSet s then 0 else 2 else 1 := by
  unfold level
  simp only [isUndefined_iff, hnumber, assembled_eq_notANumber_iff, hsign]

/-- No magnitude of a number is larger than that of an undefined value. -/
theorem level_mono {a b : Bits} (h : a.sortKey ≤ b.sortKey) : a.level ≤ b.level := by
  obtain ⟨s, e, m, ha, hsign, hkey⟩ := exists_assembled a
  obtain ⟨s', e', m', hb, hsign', hkey'⟩ := exists_assembled b
  rw [hkey, hkey'] at h
  rw [level_eq ha hsign, level_eq hb hsign']
  rcases s with _ | _ <;> rcases s' with _ | _ <;>
    simp only [keyOf, isSet, Bool.false_eq_true, if_true, if_false] at h ⊢ <;>
    split <;> split <;> omega

theorem totalLe_iff {a b : Bits} : a.totalLe b = true ↔ a.sortKey ≤ b.sortKey := decide_eq_true_iff

end Bits

instance : Scalar.LawfulSort Float where
  totalLe_trans h h' := Bits.totalLe_iff.2 ((Bits.totalLe_iff.1 h).trans (Bits.totalLe_iff.1 h'))
  totalLe_total x y := by
    rcases le_total (Bits.ofFloat x).sortKey (Bits.ofFloat y).sortKey with h | h
    · exact .inl (Bits.totalLe_iff.2 h)
    · exact .inr (Bits.totalLe_iff.2 h)
  not_totalLe_of_lt {x y} h := by
    have hkey : (Bits.ofFloat x).sortKey < (Bits.ofFloat y).sortKey := by
      apply sortKey_lt_of_lt
      rw [toFloat_ofFloat, toFloat_ofFloat]
      exact h
    exact decide_eq_false hkey.not_ge

end Metropolis.Double
