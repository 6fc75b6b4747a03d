import Mathlib.Data.List.Forall2
import Metropolis.Proofs.Ensemble
import Metropolis.Proofs.ScaleReduction

/-!
# What a scale reduction says of chains

The scale reduction of equally long chains is one just if the chains have no spread or stand no
further apart than they are wide, and it grows with the distance between their means. Which lists of
chains have one is told by their lengths alone.
-/

namespace Metropolis.Series

/-! ## Chains without a scale reduction -/

/-- Why chains cannot be compared: there are too few of them, the first is too short, or another
is not as long. -/
inductive Incomparable {β : Type} (chains : List (List β)) : EnsembleError → Prop where
  | few (h : chains.length < 2) : Incomparable chains (.tooFewChains 2 chains.length)
  | short (h : 2 ≤ chains.length) {first : List β} (hfirst : chains.head? = some first)
      (hshort : first.length < 2) : Incomparable chains (.tooFewDraws 2 first.length)
  | uneven (h : 2 ≤ chains.length) {first other : List β} (hfirst : chains.head? = some first)
      (hlong : 2 ≤ first.length) (hother : other ∈ chains)
      (hne : other.length ≠ first.length) : Incomparable chains .mismatched

theorem splitRhat_eq_error_iff {α : Type} [Scalar α] {chains : List (List α)}
    {cause : EnsembleError} : splitRhat chains = .error cause ↔ Incomparable chains cause := by
  unfold splitRhat
  dsimp only
  constructor
  · intro h
    by_cases hfew : chains.length < 2
    · rw [if_pos hfew] at h
      cases h
      exact .few hfew
    · obtain ⟨first, rest, rfl⟩ := List.exists_cons_of_length_pos (l := chains) (by omega)
      rw [if_neg hfew] at h
      split at h
      next hshort =>
        cases h
        exact .short (by omega) rfl hshort
      next hlong =>
        split at h
        next huneven =>
          cases h
          obtain ⟨other, hother, hne⟩ := List.any_eq_true.1 huneven
          exact .uneven (by omega) rfl (Nat.le_of_not_lt hlong) hother (by simpa using hne)
        next => cases h
  · intro h
    cases h with
    | few hfew => rw [if_pos hfew]
    | @short h first hfirst hshort =>
      rw [hfirst, Option.map_some, Option.getD_some, if_neg (by omega), if_pos hshort]
    | @uneven h first other hfirst hlong hother hne =>
      have huneven : chains.any (fun c => c.length != first.length) = true :=
        List.any_eq_true.2 ⟨other, hother, by simpa using hne⟩
      rw [hfirst, Option.map_some, Option.getD_some, if_neg (by omega), if_neg (by omega),
        if_pos huneven]

/-! ## The two variances -/

variable {xs : List ℝ} {chains others : List (List ℝ)} {n : ℕ} {factor : ℝ}

noncomputable def arithmeticMean (xs : List ℝ) : ℝ := xs.sum / xs.length

noncomputable def unbiasedVariance (xs : List ℝ) : ℝ :=
  (xs.map fun x => (x - arithmeticMean xs) ^ 2).sum / (xs.length - 1)

/-- How wide chains are: the mean of their unbiased variances. -/
noncomputable def width (chains : List (List ℝ)) : ℝ :=
  arithmeticMean (chains.map unbiasedVariance)

/-- How far apart chains of length `n` stand: `n` times the unbiased variance of their means. -/
noncomputable def separation (n : ℕ) (chains : List (List ℝ)) : ℝ :=
  n * unbiasedVariance (chains.map arithmeticMean)

theorem variance_of_le (h : xs.length ≤ Scalar.countLimit) : variance xs = unbiasedVariance xs := by
  rw [variance, Nat.min_eq_left h, average_of_le h]
  simp only [spread, unbiasedVariance, arithmeticMean, sq]

theorem unbiasedVariance_nonneg (hne : xs ≠ []) : 0 ≤ unbiasedVariance xs := by
  have hlength : (1 : ℝ) ≤ xs.length := by exact_mod_cast List.length_pos_iff.2 hne
  refine div_nonneg (List.sum_nonneg ?_) (sub_nonneg.2 hlength)
  intro y hy
  obtain ⟨x, -, rfl⟩ := List.mem_map.1 hy
  exact sq_nonneg _

theorem width_nonneg (hlength : ∀ c ∈ chains, c ≠ []) : 0 ≤ width chains := by
  refine div_nonneg (List.sum_nonneg ?_) (Nat.cast_nonneg _)
  intro v hv
  obtain ⟨c, hc, rfl⟩ := List.mem_map.1 hv
  exact unbiasedVariance_nonneg (hlength c hc)

theorem separation_nonneg (hne : chains ≠ []) : 0 ≤ separation n chains :=
  mul_nonneg (Nat.cast_nonneg n) (unbiasedVariance_nonneg (mt List.map_eq_nil_iff.1 hne))

/-- Equally long chains, at least two of at least two numbers, which can be counted. -/
structure IsBalanced (n : ℕ) (chains : List (List ℝ)) : Prop where
  chains_two : 2 ≤ chains.length
  chains_le : chains.length ≤ Scalar.countLimit
  length_two : 2 ≤ n
  length_le : n ≤ Scalar.countLimit
  length_eq : ∀ c ∈ chains, c.length = n

namespace IsBalanced

theorem ne_nil (h : IsBalanced n chains) : chains ≠ [] :=
  List.ne_nil_of_length_pos (by have := h.chains_two; omega)

theorem ne_nil_of_mem (h : IsBalanced n chains) : ∀ c ∈ chains, c ≠ [] := by
  intro c hc
  have hlength := h.length_eq c hc
  have htwo := h.length_two
  exact List.ne_nil_of_length_pos (by omega)

theorem within_eq (h : IsBalanced n chains) : within chains = width chains := by
  have hvariances : chains.map variance = chains.map unbiasedVariance :=
    List.map_congr_left fun c hc => variance_of_le ((h.length_eq c hc).trans_le h.length_le)
  rw [within, hvariances, average_of_le (by rw [List.length_map]; exact h.chains_le), width,
    arithmeticMean]

theorem between_eq (h : IsBalanced n chains) : between n chains = separation n chains := by
  have hmeans : chains.map average = chains.map arithmeticMean :=
    List.map_congr_left fun c hc => average_of_le ((h.length_eq c hc).trans_le h.length_le)
  have hone : 1 ≤ chains.length := by have := h.chains_two; omega
  have hle := h.chains_le
  rw [between, Nat.min_eq_left h.length_le, Nat.min_eq_left (by omega), hmeans,
    average_of_le (by rw [List.length_map]; exact hle), Nat.cast_sub hone, Nat.cast_one,
    separation, unbiasedVariance, List.length_map, ← mul_div_assoc]
  simp only [spread, arithmeticMean, List.length_map, sq]

/-- The variance of all chains together lies between the two. -/
theorem pooledVariance_eq (h : IsBalanced n chains) :
    pooledVariance n chains = width chains + (separation n chains - width chains) / n := by
  have hn : (n : ℝ) ≠ 0 := by exact_mod_cast (show n ≠ 0 by have := h.length_two; omega)
  rw [pooledVariance, Nat.min_eq_left h.length_le, h.within_eq, h.between_eq]
  field_simp
  ring

theorem pooledVariance_pos (h : IsBalanced n chains) (hwidth : 0 < width chains) :
    0 < pooledVariance n chains := by
  have hn : (2 : ℝ) ≤ n := by exact_mod_cast h.length_two
  have hseparation : 0 ≤ separation n chains / n :=
    div_nonneg (separation_nonneg h.ne_nil) (by linarith)
  have hrest : 0 < (n - 1) / n * width chains :=
    mul_pos (div_pos (by linarith) (by linarith)) hwidth
  rw [pooledVariance, Nat.min_eq_left h.length_le, h.within_eq, h.between_eq]
  linarith

theorem pooledVariance_div (h : IsBalanced n chains) (hwidth : 0 < width chains) :
    pooledVariance n chains / width chains =
      1 + (separation n chains - width chains) / (n * width chains) := by
  rw [h.pooledVariance_eq, add_div, div_self hwidth.ne', div_div]

end IsBalanced

/-! ## The two tests -/

/-- The estimate of the variance of all chains together. -/
def estimatedVariance {α : Type} [Scalar α] (n : ℕ) (chains : List (List α)) : α :=
  ((Scalar.ofCount n : α) - 1) / Scalar.ofCount n * withinVariance chains +
    betweenVariance n chains / Scalar.ofCount n

/-- Whether chains have a spread, and a finite one. -/
def HasSpread {α : Type} [Scalar α] (n : ℕ) (chains : List (List α)) : Prop :=
  Scalar.isFinite (withinVariance chains) = true ∧ 0 < withinVariance chains ∧
    Scalar.isFinite (betweenVariance n chains) = true

instance {α : Type} [Scalar α] {n : ℕ} {chains : List (List α)} : Decidable (HasSpread n chains) :=
  inferInstanceAs (Decidable (_ ∧ _ ∧ _))

theorem scaleReduction_eq {α : Type} [Scalar α] (n : ℕ) (chains : List (List α)) :
    scaleReduction n chains =
      if HasSpread n chains then
        if Scalar.isFinite (estimatedVariance n chains) = true ∧ ¬ estimatedVariance n chains ≤ 0
        then Scalar.larger (Scalar.sqrt (estimatedVariance n chains / withinVariance chains)) 1
        else 1
      else 1 := rfl

theorem IsBalanced.estimatedVariance_real (h : IsBalanced n chains) :
    estimatedVariance n (chains.map (List.map Exact.real)) =
      Exact.real (pooledVariance n chains) := by
  have hcount : (0 : ℝ) < (min n Scalar.countLimit : ℕ) :=
    Exact.min_countLimit_pos (by have := h.length_two; omega)
  rw [estimatedVariance, withinVariance_real h.ne_nil,
    betweenVariance_real h.chains_two h.ne_nil_of_mem, Exact.ofCount_eq, Exact.ofNat_eq,
    Exact.real_sub, Exact.real_div _ hcount.ne', Exact.real_mul, Exact.real_div _ hcount.ne',
    Exact.real_add, pooledVariance, Nat.cast_one]

/-- Chains with a spread have one together: the second test never fails. -/
theorem IsBalanced.estimatedVariance_pos (h : IsBalanced n chains)
    (hspread : HasSpread n (chains.map (List.map Exact.real))) :
    Scalar.isFinite (estimatedVariance n (chains.map (List.map Exact.real))) = true ∧
      ¬ estimatedVariance n (chains.map (List.map Exact.real)) ≤ 0 := by
  have hwidth : 0 < width chains := by
    have hwithin := hspread.2.1
    rw [withinVariance_real h.ne_nil, h.within_eq, Exact.ofNat_eq, Exact.real_lt,
      Nat.cast_zero] at hwithin
    exact hwithin
  rw [h.estimatedVariance_real]
  exact ⟨rfl, mt (Exact.real_le_zero_iff _).1 (h.pooledVariance_pos hwidth).not_ge⟩

/-! ## The value -/

/-- What the scale reduction of equally long chains is. -/
structure IsReduction (n : ℕ) (chains : List (List ℝ)) (r : ℝ) : Prop where
  one_le : 1 ≤ r
  eq_one_iff : r = 1 ↔ width chains = 0 ∨ separation n chains ≤ width chains
  eq_sqrt : ¬ (width chains = 0 ∨ separation n chains ≤ width chains) →
    r = √(1 + (separation n chains - width chains) / (n * width chains)) ∧ 1 < r

/-- The reduction is a function of the two variances. -/
theorem IsBalanced.reduction_eq (h : IsBalanced n chains) : reduction n chains =
    if width chains = 0 then 1
    else max √(1 + (separation n chains - width chains) / (n * width chains)) 1 := by
  rw [reduction, h.within_eq]
  rcases (width_nonneg h.ne_nil_of_mem).eq_or_lt with hzero | hpos
  · rw [if_neg fun hguard => hzero.not_lt hguard.1, if_pos hzero.symm]
  · rw [if_pos ⟨hpos, h.pooledVariance_pos hpos⟩, if_neg hpos.ne', h.pooledVariance_div hpos]

theorem IsBalanced.isReduction (h : IsBalanced n chains) :
    IsReduction n chains (reduction n chains) := by
  have hn : (0 : ℝ) < n := Nat.cast_pos.2 (by have := h.length_two; omega)
  rw [h.reduction_eq]
  by_cases hzero : width chains = 0
  · rw [if_pos hzero]
    exact ⟨le_rfl, iff_of_true rfl (.inl hzero), fun hnot => absurd (.inl hzero) hnot⟩
  · have hpos : 0 < n * width chains :=
      mul_pos hn ((width_nonneg h.ne_nil_of_mem).lt_of_ne' hzero)
    have hsqrt : √(1 + (separation n chains - width chains) / (n * width chains)) ≤ 1 ↔
        separation n chains ≤ width chains := by
      rw [Real.sqrt_le_one, add_le_iff_nonpos_right, div_le_iff₀ hpos, zero_mul, sub_nonpos]
    rw [if_neg hzero]
    refine ⟨le_max_right _ _, ?_, fun hnot => ?_⟩
    · rw [max_eq_right_iff, hsqrt, or_iff_right hzero]
    · have hlarge : 1 < √(1 + (separation n chains - width chains) / (n * width chains)) :=
        not_le.1 (mt hsqrt.1 fun hle => hnot (.inr hle))
      rw [max_eq_left hlarge.le]
      exact ⟨rfl, hlarge⟩

/-! ## Chains spread apart -/

/-- Chains with their means `factor` times as far from the mean of these, and each as it is about
its own mean. -/
noncomputable def spreadApart (factor : ℝ) (chains : List (List ℝ)) : List (List ℝ) :=
  let grand := arithmeticMean (chains.map arithmeticMean)
  chains.map fun c => c.map fun x =>
    grand + factor * (arithmeticMean c - grand) + (x - arithmeticMean c)

theorem arithmeticMean_map_affine (a b : ℝ) (hne : xs ≠ []) :
    arithmeticMean (xs.map fun x => a * x + b) = a * arithmeticMean xs + b := by
  have hpos : (0 : ℝ) < xs.length := Nat.cast_pos.2 (List.length_pos_iff.2 hne)
  rw [arithmeticMean, arithmeticMean, List.length_map, List.sum_map_add, List.sum_map_mul_left,
    List.map_id', List.map_const', List.sum_replicate, nsmul_eq_mul]
  field_simp

theorem unbiasedVariance_map_affine (a b : ℝ) (hne : xs ≠ []) :
    unbiasedVariance (xs.map fun x => a * x + b) = a ^ 2 * unbiasedVariance xs := by
  have hterms : (xs.map fun x => (a * x + b - (a * arithmeticMean xs + b)) ^ 2) =
      xs.map fun x => a ^ 2 * (x - arithmeticMean xs) ^ 2 :=
    List.map_congr_left fun x _ => by ring
  rw [unbiasedVariance, arithmeticMean_map_affine a b hne, List.map_map, List.length_map,
    Function.comp_def, hterms, List.sum_map_mul_left, unbiasedVariance, mul_div_assoc]

/-- Spread apart, a chain is moved as a whole. -/
theorem spreadApart_eq (factor : ℝ) (chains : List (List ℝ)) :
    spreadApart factor chains = chains.map fun c => c.map fun x => 1 * x + (factor - 1) *
      (arithmeticMean c - arithmeticMean (chains.map arithmeticMean)) := by
  apply List.map_congr_left
  intro c _
  apply List.map_congr_left
  intro x _
  ring

theorem width_spreadApart (hlength : ∀ c ∈ chains, c ≠ []) :
    width (spreadApart factor chains) = width chains := by
  rw [width, spreadApart_eq, List.map_map, width]
  congr 1
  apply List.map_congr_left
  intro c hc
  rw [Function.comp_apply, unbiasedVariance_map_affine _ _ (hlength c hc), one_pow, one_mul]

theorem separation_spreadApart (hne : chains ≠ []) (hlength : ∀ c ∈ chains, c ≠ []) :
    separation n (spreadApart factor chains) = factor ^ 2 * separation n chains := by
  have hmeans : (spreadApart factor chains).map arithmeticMean =
      (chains.map arithmeticMean).map fun μ => factor * μ +
        (1 - factor) * arithmeticMean (chains.map arithmeticMean) := by
    rw [spreadApart_eq, List.map_map, List.map_map]
    apply List.map_congr_left
    intro c hc
    rw [Function.comp_apply, arithmeticMean_map_affine _ _ (hlength c hc), Function.comp_apply]
    ring
  rw [separation, hmeans, unbiasedVariance_map_affine _ _ (mt List.map_eq_nil_iff.1 hne),
    separation]
  ring

theorem IsBalanced.spreadApart (h : IsBalanced n chains) (factor : ℝ) :
    IsBalanced n (spreadApart factor chains) where
  chains_two := by rw [spreadApart_eq, List.length_map]; exact h.chains_two
  chains_le := by rw [spreadApart_eq, List.length_map]; exact h.chains_le
  length_two := h.length_two
  length_le := h.length_le
  length_eq := by
    rw [spreadApart_eq, List.forall_mem_map]
    intro c hc
    rw [List.length_map, h.length_eq c hc]

theorem IsBalanced.reduction_le_spreadApart (h : IsBalanced n chains) (hfactor : 1 ≤ factor) :
    reduction n chains ≤ reduction n (Series.spreadApart factor chains) := by
  have hseparation : separation n chains ≤ factor ^ 2 * separation n chains :=
    le_mul_of_one_le_left (separation_nonneg h.ne_nil) (one_le_pow₀ hfactor)
  rw [h.reduction_eq, (h.spreadApart factor).reduction_eq, width_spreadApart h.ne_nil_of_mem,
    separation_spreadApart h.ne_nil h.ne_nil_of_mem]
  split
  · exact le_rfl
  · have hwidth := width_nonneg h.ne_nil_of_mem
    gcongr

/-! ## The scale reduction of a list of chains -/

theorem IsBalanced.splitRhat_eq (h : IsBalanced n chains) :
    splitRhat (chains.map (List.map Exact.real)) =
      .ok (scaleReduction n (chains.map (List.map Exact.real))) := by
  have hlengths : ∀ c ∈ chains.map (List.map Exact.real), c.length = n := by
    rw [List.forall_mem_map]
    intro c hc
    rw [List.length_map, h.length_eq c hc]
  exact Convergence.splitRhat_of_length (by rw [List.length_map]; exact h.chains_two) hlengths
    h.length_two

theorem IsBalanced.splitRhat_real (h : IsBalanced n chains) :
    splitRhat (chains.map (List.map Exact.real)) = .ok (.real (reduction n chains)) := by
  rw [h.splitRhat_eq, scaleReduction_real (by have := h.length_two; omega) h.chains_two
    h.ne_nil_of_mem]

/-- Chains have no scale reduction just if there are too few of them, the first is too short or
another is not as long. That of equally long chains of real numbers is one if they have no width or
are no further apart than wide, else larger, and no smaller for chains spread apart. The estimate
it is taken from is positive wherever it is tested. -/
theorem splitRhat_characterized :
    (∀ {α : Type} [Scalar α] (chains : List (List α)) (cause : EnsembleError),
      splitRhat chains = .error cause ↔ Incomparable chains cause) ∧
    ∀ (n : ℕ) (chains : List (List ℝ)), IsBalanced n chains →
      let numbers := chains.map (List.map Exact.real)
      (HasSpread n numbers → ¬ estimatedVariance n numbers ≤ 0 ∧ splitRhat numbers = .ok
        (Scalar.larger (Scalar.sqrt (estimatedVariance n numbers / withinVariance numbers)) 1)) ∧
      ∃ r : ℝ, splitRhat numbers = .ok (.real r) ∧ IsReduction n chains r ∧
        ∀ factor ≥ 1, ∃ r' : ℝ,
          splitRhat ((spreadApart factor chains).map (List.map Exact.real)) = .ok (.real r') ∧
            r ≤ r' := by
  refine ⟨fun chains cause => splitRhat_eq_error_iff, fun n chains h => ⟨?_, ?_⟩⟩
  · intro hspread
    have hestimate := h.estimatedVariance_pos hspread
    refine ⟨hestimate.2, ?_⟩
    rw [h.splitRhat_eq, scaleReduction_eq, if_pos hspread, if_pos hestimate]
  · refine ⟨reduction n chains, h.splitRhat_real, h.isReduction, fun factor hfactor => ?_⟩
    exact ⟨_, (h.spreadApart factor).splitRhat_real, h.reduction_le_spreadApart hfactor⟩

/-- Two chains with means one and five that are four times as far apart as wide. -/
theorem splitRhat_characterized_pair :
    let chains : List (List ℝ) := [[0, 2], [4, 6]]
    IsBalanced 2 chains ∧ width chains = 2 ∧ separation 2 chains = 16 ∧
      splitRhat (chains.map (List.map Exact.real)) = .ok (.real √(9 / 2)) ∧
      spreadApart 2 chains = [[-2, 0], [6, 8]] := by
  intro chains
  have hbalanced : IsBalanced 2 chains := by
    refine ⟨by decide, by decide, le_rfl, by decide, fun c hc => ?_⟩
    rcases List.mem_pair.1 hc with rfl | rfl <;> rfl
  have hwidth : width chains = 2 := by
    norm_num [chains, width, arithmeticMean, unbiasedVariance]
  have hseparation : separation 2 chains = 16 := by
    norm_num [chains, separation, arithmeticMean, unbiasedVariance]
  have hspread : spreadApart 2 chains = [[-2, 0], [6, 8]] := by
    norm_num [chains, spreadApart, arithmeticMean]
  obtain ⟨-, r, hr, hreduction, -⟩ := splitRhat_characterized.2 2 chains hbalanced
  have hvalue : r = √(9 / 2) := by
    rw [(hreduction.eq_sqrt (by rw [hwidth, hseparation]; norm_num)).1, hwidth, hseparation]
    norm_num
  rw [hvalue] at hr
  exact ⟨hbalanced, hwidth, hseparation, hr, hspread⟩

end Metropolis.Series
