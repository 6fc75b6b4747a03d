import Metropolis.Scalar.Double.Laws
import Metropolis.Scalar.Special

/-!
Special doubles.

A double is known from the number that is read of its bits, and so is what becomes of it in sums,
differences and negations: they are taken of the numbers and stored again.
-/

namespace Metropolis.Double

open Float.Model (UnpackedFloat Format)
open Float.Model.UnpackedFloat

variable {x y : Float}

/-- The number that a double stores. -/
def number (x : Float) : UnpackedFloat := x.toModel.unpack

theorem number_add (x y : Float) :
    number (x + y) = stored ((number x).add Format.binary64 (number y)) := rfl

theorem number_sub (x y : Float) :
    number (x - y) = stored ((number x).sub Format.binary64 (number y)) := rfl

theorem number_inj : number x = number y ↔ x = y := by
  refine ⟨fun h => ?_, congrArg number⟩
  have hbits := (unpack_inj_of_valid x.toModel.valid y.toModel.valid).1 h
  exact Float.toBits_inj.1 (UInt64.toBitVec_inj.1 hbits)

theorem isCanonical_number (x : Float) : IsCanonical (number x) := isCanonical_toModel x

theorem stored_number (x : Float) : stored (number x) = number x :=
  congrArg (unpack Format.binary64) (pack_unpack_of_valid x.toModel.valid)

theorem isUndefined_iff : Scalar.isUndefined x = true ↔ number x = .notANumber := isNaN_iff

theorem stored_notANumber : stored .notANumber = .notANumber := unpack_packedNaN

theorem stored_infinity (s : Sign) : stored (.infinity s) = .infinity s := by
  cases s <;> rfl

theorem number_infinity : number (Scalar.infinity : Float) = .infinity .positive := by
  have hmodel : (Scalar.infinity : Float).toModel = .pack (.infinity .positive) := by
    decide +kernel
  rw [number, hmodel]
  exact stored_infinity .positive

theorem number_zero : number (0 : Float) = .zero .positive := by
  have hmodel : (0 : Float).toModel = .pack (.zero .positive) := by
    decide +kernel
  rw [number, hmodel]
  exact stored_zero .positive

/-! ## Negation -/

/-- Whatever else is stored of a number is stored of its opposite as well. -/
theorem unpack_packComponents_neg (s : Sign) (exponent : BitVec 11) (mantissa : BitVec 52) :
    unpack Format.binary64 (packComponents Format.binary64 (-s) exponent mantissa) =
      (unpack Format.binary64 (packComponents Format.binary64 s exponent mantissa)).neg := by
  unfold unpack
  simp only [unpackMantissa_packComponents, unpackExponent_packComponents,
    unpackSign_packComponents, Sign.ofBitVec_toBitVec]
  split
  · split <;> rfl
  · split
    · split <;> rfl
    · rfl

theorem stored_neg (a : UnpackedFloat) : stored a.neg = (stored a).neg := by
  rcases a with s | _ | s | ⟨s, m, e, hm⟩
  case infinity => rw [stored_infinity]; exact stored_infinity (-s)
  case notANumber => rw [stored_notANumber]; exact stored_notANumber
  case zero => rw [stored_zero]; exact stored_zero (-s)
  case finite =>
    unfold stored pack
    dsimp only [UnpackedFloat.neg]
    split
    · exact unpack_packComponents_neg s _ _
    · split <;> exact unpack_packComponents_neg s _ _

theorem number_neg (x : Float) : number (-x) = (number x).neg := by
  show stored (number x).neg = _
  rw [stored_neg, stored_number]

theorem number_neg_infinity : number (-Scalar.infinity : Float) = .infinity .negative := by
  rw [number_neg, number_infinity]
  rfl

/-! ## Signs -/

theorem zero_lt_iff : 0 < x ↔ HasSign .positive (number x) := by
  rw [lt_iff_unpack, ← number, ← number, number_zero]
  rcases number x with ⟨_ | _⟩ | _ | _ | ⟨_ | _, m, e, hm⟩
  case infinity.positive => exact iff_of_true rfl .infinity
  case finite.positive => exact iff_of_true rfl .finite
  all_goals exact iff_of_false Bool.false_ne_true fun h => nomatch h

theorem zero_le_iff : 0 ≤ x ↔ HasSign .positive (number x) ∨ ∃ s, number x = .zero s := by
  rw [le_iff_unpack, ← number, ← number, number_zero]
  rcases number x with ⟨_ | _⟩ | _ | s | ⟨_ | _, m, e, hm⟩
  case infinity.positive => exact iff_of_true rfl (.inl .infinity)
  case finite.positive => exact iff_of_true rfl (.inl .finite)
  case zero => exact iff_of_true rfl (.inr ⟨s, rfl⟩)
  all_goals
    refine iff_of_false Bool.false_ne_true ?_
    rintro (h | ⟨_, h⟩) <;> nomatch h

/-- A number that is not negative is infinity or a multiple that is not negative. -/
theorem cases_of_nonneg {a : UnpackedFloat} (h : HasSign .positive a ∨ ∃ s, a = .zero s) :
    a = .infinity .positive ∨
      a.isFinite = true ∧ 0 ≤ multiple a ∧ (HasSign .positive a → 0 < multiple a) := by
  rcases h with (_ | @⟨m, e, hm⟩) | ⟨s, rfl⟩
  · exact .inl rfl
  · have hunits : 0 < multiple (.finite .positive m e hm) := Int.natCast_pos.2 (units_pos hm e)
    exact .inr ⟨rfl, hunits.le, fun _ => hunits⟩
  · exact .inr ⟨rfl, le_rfl, fun h => nomatch h⟩

theorem HasSignOf.ne_notANumber {n : ℤ} {a : UnpackedFloat} (h : HasSignOf n a) :
    a ≠ .notANumber := by
  rcases lt_trichotomy n 0 with hneg | hzero | hpos
  · cases h.neg hneg <;> exact UnpackedFloat.noConfusion
  · obtain ⟨s, rfl⟩ := h.zero hzero
    exact UnpackedFloat.noConfusion
  · cases h.pos hpos <;> exact UnpackedFloat.noConfusion

theorem HasSignOf.le_zero_iff {n : ℤ} {a : UnpackedFloat} (h : HasSignOf n a) :
    a.le (.zero .positive) = true ↔ n ≤ 0 := by
  rcases lt_trichotomy n 0 with hneg | hzero | hpos
  · refine iff_of_true ?_ hneg.le
    cases h.neg hneg <;> rfl
  · obtain ⟨s, rfl⟩ := h.zero hzero
    exact iff_of_true rfl hzero.le
  · refine iff_of_false ?_ hpos.not_ge
    cases h.pos hpos <;> exact Bool.false_ne_true

/-! ## Sums and differences -/

theorem add_infinity_positive {a : UnpackedFloat} (hdefined : a ≠ .notANumber)
    (h : a ≠ .infinity .negative) :
    a.add Format.binary64 (.infinity .positive) = .infinity .positive ∧
      UnpackedFloat.add Format.binary64 (.infinity .positive) a = .infinity .positive := by
  rcases a with ⟨_ | _⟩ | _ | _ | _
  case infinity.negative => exact absurd rfl h
  case notANumber => exact absurd rfl hdefined
  all_goals exact ⟨rfl, rfl⟩

theorem sub_infinity {a : UnpackedFloat} (hdefined : a ≠ .notANumber)
    (h : a ≠ .infinity .positive) :
    a.sub Format.binary64 (.infinity .positive) = .infinity .negative := by
  rcases a with ⟨_ | _⟩ | _ | _ | _
  case infinity.positive => exact absurd rfl h
  case notANumber => exact absurd rfl hdefined
  all_goals rfl

/-- A sum of numbers that are not negative is positive if one of them is, and zero otherwise. -/
theorem stored_add_of_nonneg {a b : UnpackedFloat} (hacanonical : IsCanonical a)
    (hbcanonical : IsCanonical b) (ha : HasSign .positive a ∨ ∃ s, a = .zero s)
    (hb : HasSign .positive b ∨ ∃ s, b = .zero s) :
    (HasSign .positive a ∨ HasSign .positive b →
        HasSign .positive (stored (a.add Format.binary64 b))) ∧
      (HasSign .positive (stored (a.add Format.binary64 b)) ∨
        ∃ s, stored (a.add Format.binary64 b) = .zero s) := by
  have hinfinite : HasSign .positive (stored (.infinity .positive)) := by
    rw [stored_infinity]
    exact .infinity
  have hplain {c : UnpackedFloat} (hc : HasSign .positive c ∨ ∃ s, c = .zero s) :
      c ≠ .notANumber ∧ c ≠ .infinity .negative := by
    rcases hc with (_ | _) | ⟨s, rfl⟩ <;> exact ⟨(fun h => nomatch h), (fun h => nomatch h)⟩
  rcases cases_of_nonneg ha with rfl | ⟨hafinite, hanonneg, hapos⟩
  · rw [(add_infinity_positive (hplain hb).1 (hplain hb).2).2]
    exact ⟨fun _ => hinfinite, .inl hinfinite⟩
  rcases cases_of_nonneg hb with rfl | ⟨hbfinite, hbnonneg, hbpos⟩
  · rw [(add_infinity_positive (hplain ha).1 (hplain ha).2).1]
    exact ⟨fun _ => hinfinite, .inl hinfinite⟩
  have hsum := hasSignOf_add hacanonical hbcanonical hafinite hbfinite
  constructor
  · rintro (h | h)
    · exact hsum.pos (add_pos_of_pos_of_nonneg (hapos h) hbnonneg)
    · exact hsum.pos (add_pos_of_nonneg_of_pos hanonneg (hbpos h))
  · rcases (add_nonneg hanonneg hbnonneg).eq_or_lt with hzero | hpos
    · exact .inr (hsum.zero hzero.symm)
    · exact .inl (hsum.pos hpos)

theorem number_add_of_nonneg (hx : 0 ≤ x) (hy : 0 ≤ y) :
    (0 < x ∨ 0 < y → 0 < x + y) ∧ 0 ≤ x + y := by
  rw [zero_le_iff] at hx hy
  rw [zero_lt_iff, zero_lt_iff, zero_lt_iff, zero_le_iff, number_add]
  exact stored_add_of_nonneg (isCanonical_number x) (isCanonical_number y) hx hy

/-- An infinite sum of numbers none of which is infinity is too large. -/
theorem isFinite_of_stored_add {a b : UnpackedFloat} (ha : a ≠ .infinity .positive)
    (hb : b ≠ .infinity .positive)
    (h : stored (a.add Format.binary64 b) = .infinity .positive) :
    a.isFinite = true ∧ b.isFinite = true := by
  have hother {c : UnpackedFloat} (hc : c = .notANumber ∨ c = .infinity .negative) :
      stored c ≠ .infinity .positive := by
    rcases hc with rfl | rfl
    · rw [stored_notANumber]
      exact UnpackedFloat.noConfusion
    · rw [stored_infinity]
      exact fun h => nomatch h
  rcases a with ⟨_ | _⟩ | _ | _ | _ <;> rcases b with ⟨_ | _⟩ | _ | _ | _
  all_goals
    first
    | exact ⟨rfl, rfl⟩
    | exact absurd rfl ha
    | exact absurd rfl hb
    | exact absurd h (hother (.inl rfl))
    | exact absurd h (hother (.inr rfl))

theorem sub_self {a : UnpackedFloat} (h : a.isFinite = true) :
    a.sub Format.binary64 a = .zero .positive := by
  rcases a with _ | _ | s | ⟨s, m, e, hm⟩
  case infinity => cases h
  case notANumber => cases h
  case zero => cases s <;> rfl
  case finite => simp [UnpackedFloat.sub, UnpackedFloat.normalize]

theorem undefined_sub_self {a : UnpackedFloat} (h : a.isFinite = false) :
    a.sub Format.binary64 a = .notANumber := by
  rcases a with ⟨_ | _⟩ | _ | _ | _
  case zero => cases h
  case finite => cases h
  all_goals rfl

/-- A number that is neither finite nor undefined is the difference of itself and any finite one. -/
theorem sub_of_infinite {a b : UnpackedFloat} (ha : a ≠ .notANumber)
    (hainfinite : a.isFinite = false) (hb : b.isFinite = true) :
    ∃ s, a = .infinity s ∧ a.sub Format.binary64 b = .infinity s := by
  obtain ⟨s, rfl⟩ : ∃ s, a = .infinity s := by
    rcases a with s | _ | _ | _
    case infinity => exact ⟨s, rfl⟩
    case notANumber => exact absurd rfl ha
    all_goals cases hainfinite
  refine ⟨s, rfl, ?_⟩
  rcases b with _ | _ | _ | _
  case infinity => cases hb
  case notANumber => cases hb
  all_goals rfl

theorem stored_sub_ne_notANumber {a b : UnpackedFloat} (hacanonical : IsCanonical a)
    (hbcanonical : IsCanonical b) (ha : a ≠ .notANumber) (hb : b.isFinite = true) :
    stored (a.sub Format.binary64 b) ≠ .notANumber := by
  cases hafinite : a.isFinite with
  | true => exact (hasSignOf_sub hacanonical hbcanonical hafinite hb).ne_notANumber
  | false =>
    obtain ⟨s, -, hsub⟩ := sub_of_infinite ha hafinite hb
    rw [hsub, stored_infinity]
    exact UnpackedFloat.noConfusion

theorem stored_sub_le_zero_iff {a b : UnpackedFloat} (hacanonical : IsCanonical a)
    (hbcanonical : IsCanonical b) (ha : a ≠ .notANumber) (hb : b.isFinite = true) :
    (stored (a.sub Format.binary64 b)).le (.zero .positive) = true ↔ ¬ b.lt a = true := by
  cases hafinite : a.isFinite with
  | true =>
    rw [(hasSignOf_sub hacanonical hbcanonical hafinite hb).le_zero_iff,
      lt_iff_multiple hbcanonical hacanonical hb hafinite, not_lt, sub_nonpos]
  | false =>
    obtain ⟨s, rfl, hsub⟩ := sub_of_infinite ha hafinite hb
    rw [hsub, stored_infinity]
    rcases b with _ | _ | _ | _
    case infinity => cases hb
    case notANumber => cases hb
    all_goals
      cases s
      · exact iff_of_true rfl Bool.false_ne_true
      · exact iff_of_false Bool.false_ne_true fun h => h rfl

/-! ## The rules -/

theorem defined_iff : Scalar.isUndefined x = false ↔ number x ≠ .notANumber := by
  rw [← Bool.not_eq_true, isUndefined_iff]

theorem eq_infinity_iff : x = Scalar.infinity ↔ number x = .infinity .positive := by
  rw [← number_inj, number_infinity]

theorem lt_infinity (hx : Scalar.isFinite x = true) : x < Scalar.infinity := by
  change (number x).isFinite = true at hx
  rw [lt_iff_unpack, ← number, ← number, number_infinity]
  generalize number x = a at hx
  rcases a with _ | _ | _ | _
  case infinity => cases hx
  case notANumber => cases hx
  all_goals rfl

theorem eq_neg_infinity_iff : x = -Scalar.infinity ↔ number x = .infinity .negative := by
  rw [← number_inj, number_neg_infinity]

instance : Scalar.LawfulSpecial Float where
  defined_infinity := by decide +kernel
  defined_neg_infinity := by decide +kernel
  not_lt_neg_infinity x h := by
    rw [lt_iff_unpack, ← number, ← number, number_neg_infinity] at h
    generalize number x = a at h
    rcases a with ⟨_ | _⟩ | _ | _ | ⟨_ | _, _, _, _⟩ <;> cases h
  neg_infinity_lt {x} hx h := by
    rw [defined_iff] at hx
    rw [Ne, eq_neg_infinity_iff] at h
    rw [lt_iff_unpack, ← number, ← number, number_neg_infinity]
    generalize number x = a at hx h
    rcases a with ⟨_ | _⟩ | _ | _ | _
    case infinity.negative => exact absurd rfl h
    case notANumber => exact absurd rfl hx
    all_goals rfl
  defined_of_isFinite {x} h := by
    change (number x).isFinite = true at h
    rw [defined_iff]
    intro hundefined
    rw [hundefined] at h
    cases h
  not_isFinite_infinity := by decide +kernel
  isFinite_of_defined {x} hx h h' := by
    rw [defined_iff] at hx
    rw [Ne, eq_infinity_iff] at h
    rw [Ne, eq_neg_infinity_iff] at h'
    show (number x).isFinite = true
    generalize number x = a at hx h h'
    rcases a with ⟨_ | _⟩ | _ | _ | _
    case infinity.negative => exact absurd rfl h'
    case infinity.positive => exact absurd rfl h
    case notANumber => exact absurd rfl hx
    all_goals rfl
  isUndefined_neg x := by
    rw [Bool.eq_iff_iff, isUndefined_iff, isUndefined_iff, number_neg]
    rcases number x with _ | _ | _ | _
    case notANumber => exact iff_of_true rfl rfl
    all_goals exact iff_of_false (fun h => nomatch h) fun h => nomatch h
  isFinite_neg x := by
    show (number (-x)).isFinite = (number x).isFinite
    rw [number_neg]
    cases number x <;> rfl
  neg_eq_neg_infinity_iff {x} := by
    rw [eq_neg_infinity_iff, eq_infinity_iff, number_neg]
    rcases number x with ⟨_ | _⟩ | _ | _ | _
    case infinity.positive => exact iff_of_true rfl rfl
    all_goals exact iff_of_false (fun h => nomatch h) fun h => nomatch h
  undefined_add {x y} h := by
    rw [isUndefined_iff, isUndefined_iff] at h
    have hsum : (number x).add Format.binary64 (number y) = .notANumber := by
      rcases h with h | h <;> rw [h]
      · rfl
      · cases number x <;> rfl
    rw [isUndefined_iff, number_add, hsum]
    exact stored_notANumber
  undefined_sub {x y} h := by
    rw [isUndefined_iff, isUndefined_iff] at h
    have hdifference : (number x).sub Format.binary64 (number y) = .notANumber := by
      rcases h with h | h <;> rw [h]
      · rfl
      · cases number x <;> rfl
    rw [isUndefined_iff, number_sub, hdifference]
    exact stored_notANumber
  defined_sub {x y} hx hy := by
    rw [defined_iff] at hx ⊢
    exact stored_sub_ne_notANumber (isCanonical_number x) (isCanonical_number y) hx hy
  sub_self {x} h := by
    refine number_inj.1 (Eq.trans ?_ number_zero.symm)
    rw [number_sub, sub_self (a := number x) h, stored_zero]
  undefined_sub_self {x} h := by
    rw [isUndefined_iff, number_sub, undefined_sub_self (a := number x) h]
    exact stored_notANumber
  sub_nonpos_iff {x y} hx hy := by
    rw [defined_iff] at hx
    rw [le_iff_unpack, lt_iff_unpack, ← number, ← number, number_zero, number_sub]
    exact stored_sub_le_zero_iff (isCanonical_number x) (isCanonical_number y) hx hy
  infinity_add {x} hx h := by
    rw [defined_iff] at hx
    rw [Ne, eq_neg_infinity_iff] at h
    rw [eq_infinity_iff, number_add, number_infinity, (add_infinity_positive hx h).2,
      stored_infinity]
  add_infinity {x} hx h := by
    rw [defined_iff] at hx
    rw [Ne, eq_neg_infinity_iff] at h
    rw [eq_infinity_iff, number_add, number_infinity, (add_infinity_positive hx h).1,
      stored_infinity]
  sub_infinity {x} hx h := by
    rw [defined_iff] at hx
    rw [Ne, eq_infinity_iff] at h
    rw [eq_neg_infinity_iff, number_sub, number_infinity, sub_infinity hx h, stored_infinity]
  isFinite_of_add_infinite {x y} hx hy h := by
    rw [Ne, eq_infinity_iff] at hx hy
    rw [eq_infinity_iff, number_add] at h
    exact isFinite_of_stored_add hx hy h
  neg_zero_nonneg := by decide +kernel
  nonneg_add hx hy := (number_add_of_nonneg hx hy).2
  pos_add hx hy := (number_add_of_nonneg hx hy).1

end Metropolis.Double
