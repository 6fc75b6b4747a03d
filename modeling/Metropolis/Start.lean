import Metropolis.DenseMatrix.Cholesky
import Metropolis.Random.Normal

/-!
Starting distributions: multivariate normal distributions from which a chain's start is drawn.
-/

namespace Metropolis

/-- What keeps a mean and a covariance from being a starting distribution. -/
inductive StartDefect where
  | emptyMean
  | shape
  | nonFinite
  | indefinite
  | variances
deriving Repr, DecidableEq

def StartDefect.message : StartDefect → String
  | .emptyMean => "empty mean vector"
  | .shape => "covariance shape does not match mean length"
  | .nonFinite => "non-finite values"
  | .indefinite => "covariance is not positive definite"
  | .variances => "variances must be positive"

inductive StartError (α : Type) where
  | coefficient (value : α)
  | invalid (defect : StartDefect)

/-- The wording of an error, with a text for numbers. -/
def StartError.message {α : Type} (number : α → String) : StartError α → String
  | .coefficient value =>
    "coefficient of variation must be positive and finite; found " ++ number value
  | .invalid defect => "invalid starting distribution: " ++ defect.message

/-- A multivariate normal distribution with a lower factor of its covariance. -/
structure Start (α : Type) where
  mean : List α
  covariance : DenseMatrix α
  factor : DenseMatrix α
  rows_factor : factor.rows = mean.length

namespace Start

variable {α : Type} [Scalar α]

/-- The distribution with a mean and a covariance, factored with diagonal jitter if need be. -/
def ofCovariance (mean : List α) (covariance : DenseMatrix α) : Except (StartError α) (Start α) :=
  if mean.isEmpty then .error (.invalid .emptyMean)
  else if hshape : covariance.rows ≠ mean.length ∨ covariance.cols ≠ mean.length then
    .error (.invalid .shape)
  else if (mean.any fun x => !Scalar.isFinite x) || !covariance.isFinite then
    .error (.invalid .nonFinite)
  else
    match hfactor : covariance.choleskyWithJitter? with
    | none => .error (.invalid .indefinite)
    | some (factor, _) =>
      .ok ⟨mean, covariance, factor, by
        rw [DenseMatrix.rows_of_choleskyWithJitter? hfactor]
        omega⟩

/-- Independent components. -/
def ofVariances (mean variances : List α) : Except (StartError α) (Start α) :=
  if variances.any fun v => Scalar.isUndefined v || decide (v ≤ 0) then
    .error (.invalid .variances)
  else ofCovariance mean (DenseMatrix.diagonal variances)

/-- Whether a number can be a coefficient of variation. -/
def isCoefficient (value : α) : Bool := decide (0 < value) && Scalar.isFinite value

/-- The standard deviation of a component: the coefficient of variation times the size of its
mean, which is taken to be at least one. -/
def deviationOf (coefficient mean : α) : α :=
  coefficient * Scalar.larger (Scalar.abs mean) 1

/-- Independent components with a coefficient of variation. -/
def ofCoefficient (mean : List α) (coefficient : α) : Except (StartError α) (Start α) :=
  if isCoefficient coefficient then
    ofVariances mean <| mean.map fun x =>
      let deviation := deviationOf coefficient x
      deviation * deviation
  else .error (.coefficient coefficient)

/-! ## What is accepted -/

variable {mean variances : List α} {covariance : DenseMatrix α} {s : Start α}

/-- A finite mean with a finite covariance of its dimension, which is not zero. -/
structure Admissible (mean : List α) (covariance : DenseMatrix α) : Prop where
  mean_ne_nil : mean ≠ []
  rows : covariance.rows = mean.length
  cols : covariance.cols = mean.length
  finite_mean : ∀ x ∈ mean, Scalar.isFinite x = true
  finite : covariance.isFinite = true

/-- What can become of a mean and a covariance. -/
inductive Outcome (mean : List α) (covariance : DenseMatrix α) :
    Except (StartError α) (Start α) → Prop
  | refused (defect : StartDefect) (hdefect : defect ≠ .indefinite)
      (hnot : ¬ Admissible mean covariance) : Outcome mean covariance (.error (.invalid defect))
  | indefinite (h : Admissible mean covariance) (hnone : covariance.choleskyWithJitter? = none) :
      Outcome mean covariance (.error (.invalid .indefinite))
  | accepted (s : Start α) (h : Admissible mean covariance) (hmean : s.mean = mean)
      (hcovariance : s.covariance = covariance) (jitter : α)
      (hfactor : covariance.choleskyWithJitter? = some (s.factor, jitter)) :
      Outcome mean covariance (.ok s)

theorem ofCovariance_outcome (mean : List α) (covariance : DenseMatrix α) :
    Outcome mean covariance (ofCovariance mean covariance) := by
  unfold ofCovariance
  by_cases hempty : mean.isEmpty = true
  · rw [if_pos hempty]
    exact .refused _ (by decide) fun h => h.mean_ne_nil (List.isEmpty_iff.1 hempty)
  rw [if_neg hempty]
  by_cases hshape : covariance.rows ≠ mean.length ∨ covariance.cols ≠ mean.length
  · rw [dif_pos hshape]
    exact .refused _ (by decide) fun h => hshape.elim (· h.rows) (· h.cols)
  rw [dif_neg hshape]
  by_cases hbad : ((mean.any fun x => !Scalar.isFinite x) || !covariance.isFinite) = true
  · rw [if_pos hbad]
    refine .refused _ (by decide) fun h => ?_
    rw [h.finite, Bool.not_true, Bool.or_false, List.any_eq_true] at hbad
    obtain ⟨x, hx, hinfinite⟩ := hbad
    simp [h.finite_mean x hx] at hinfinite
  rw [if_neg hbad]
  have hadmissible : Admissible mean covariance := by
    simp only [Bool.or_eq_true, List.any_eq_true, not_or, not_exists, not_and, Bool.not_eq_true',
      Bool.not_eq_false] at hbad
    refine ⟨fun hnil => hempty (List.isEmpty_iff.2 hnil), ?_, ?_, hbad.1, hbad.2⟩ <;> omega
  split
  next hnone => exact .indefinite hadmissible hnone
  next factor jitter hfactor => exact .accepted _ hadmissible rfl rfl jitter hfactor

theorem ofCovariance_eq_ok (h : ofCovariance mean covariance = .ok s) :
    Admissible mean covariance ∧ s.mean = mean ∧ s.covariance = covariance ∧
      ∃ jitter, covariance.choleskyWithJitter? = some (s.factor, jitter) := by
  have houtcome := ofCovariance_outcome mean covariance
  rw [h] at houtcome
  cases houtcome with
  | accepted s hadmissible hmean hcovariance jitter hfactor =>
    exact ⟨hadmissible, hmean, hcovariance, jitter, hfactor⟩

theorem ofCovariance_of_factor (h : Admissible mean covariance) {factor : DenseMatrix α}
    {jitter : α} (hfactor : covariance.choleskyWithJitter? = some (factor, jitter)) :
    ∃ s, ofCovariance mean covariance = .ok s ∧ s.mean = mean ∧ s.covariance = covariance ∧
      s.factor = factor := by
  have houtcome := ofCovariance_outcome mean covariance
  generalize ofCovariance mean covariance = result at houtcome
  cases houtcome with
  | refused defect hdefect hnot => exact absurd h hnot
  | indefinite h hnone =>
    rw [hfactor] at hnone
    cases hnone
  | accepted s h hmean hcovariance jitter' hfound =>
    rw [hfactor] at hfound
    cases hfound
    exact ⟨s, rfl, hmean, hcovariance, rfl⟩

theorem ofCovariance_eq_indefinite_iff :
    ofCovariance mean covariance = .error (.invalid .indefinite) ↔
      Admissible mean covariance ∧ covariance.choleskyWithJitter? = none := by
  have houtcome := ofCovariance_outcome mean covariance
  generalize ofCovariance mean covariance = result at houtcome
  cases houtcome with
  | refused defect hdefect hnot => simp [hdefect, hnot]
  | indefinite h hnone => simp [h, hnone]
  | accepted s h hmean hcovariance jitter hfound => simp [hfound]

theorem ofVariances_eq_ok_iff : ofVariances mean variances = .ok s ↔
    (∀ v ∈ variances, Scalar.isUndefined v = false ∧ ¬ v ≤ 0) ∧
      ofCovariance mean (.diagonal variances) = .ok s := by
  unfold ofVariances
  by_cases hbad : (variances.any fun v => Scalar.isUndefined v || decide (v ≤ 0)) = true
  · obtain ⟨v, hv, hcase⟩ := List.any_eq_true.1 hbad
    rw [if_pos hbad]
    refine iff_of_false (fun h => nomatch h) fun h => ?_
    simp [h.1 v hv] at hcase
  · rw [if_neg hbad, iff_and_self]
    intro _
    simpa using hbad

theorem ofCoefficient_eq_ok_iff {coefficient : α} : ofCoefficient mean coefficient = .ok s ↔
    isCoefficient coefficient = true ∧
      ofVariances mean (mean.map fun x =>
        deviationOf coefficient x * deviationOf coefficient x) = .ok s := by
  unfold ofCoefficient
  by_cases hcoefficient : isCoefficient coefficient = true
  · rw [if_pos hcoefficient, and_iff_right hcoefficient]
  · rw [if_neg hcoefficient]
    exact iff_of_false (fun h => nomatch h) fun h => hcoefficient h.1

/-! ## Draws -/

def dimension (s : Start α) : Nat := s.mean.length

/-- The point that standard normal noise leads to. -/
def pointOf (s : Start α) (noise : List α) : List α :=
  List.zipWith (fun offset centre => centre + offset) (s.factor.lowerTimes noise) s.mean

/-- A draw, from two uniforms for each component. -/
def sample (s : Start α) : Sampling α (List α) := do
  let noise ← standardNormals s.dimension
  return s.pointOf noise

theorem length_sample (s : Start α) (tape : Tape α) :
    (s.sample tape).1.length = s.dimension := by
  show (List.zipWith _ (s.factor.lowerTimes _) s.mean).length = _
  rw [List.length_zipWith, DenseMatrix.lowerTimes, List.length_map, List.length_range,
    s.rows_factor, Nat.min_self]
  rfl

end Start

end Metropolis
