import Metropolis.Proofs.Ordinates
import Metropolis.Scalar.Special

/-!
# Infinite ordinates

The largest exponent passes over those that are undefined. So the logarithm of a sum of exponentials
is `-infinity` not only without a term but also if no exponent is defined, and the ordinate of a
subject is infinite just if each of its predictions is infinite or undefined. Any other prediction
beside an undefined one keeps the ordinate from being infinite.
-/

namespace Metropolis

variable {α : Type} [Scalar α] [Scalar.LawfulSpecial α]

namespace Series

variable {xs : List α} {total x : α}

/-! ## The largest number -/

omit [Scalar.LawfulSpecial α] in
theorem defined_larger (h : Scalar.isUndefined total = false) (x : α) :
    Scalar.isUndefined (Scalar.larger total x) = false := by
  unfold Scalar.larger
  rw [h, if_neg Bool.false_ne_true]
  split
  · exact h
  next hx =>
    split
    · exact Bool.not_eq_true _ ▸ hx
    · exact h

theorem larger_eq_neg_infinity_iff (h : Scalar.isUndefined total = false) :
    Scalar.larger total x = -Scalar.infinity ↔
      total = -Scalar.infinity ∧ (Scalar.isUndefined x = true ∨ x = -Scalar.infinity) := by
  unfold Scalar.larger
  rw [h, if_neg Bool.false_ne_true]
  split
  next hx => exact ⟨fun htotal => ⟨htotal, .inl hx⟩, And.left⟩
  next hx =>
    rw [Bool.not_eq_true] at hx
    split
    next hlt =>
      -- A number that another one is below is not the least.
      refine iff_of_false ?_ ?_
      · rintro rfl
        exact Scalar.LawfulSpecial.not_lt_neg_infinity _ hlt
      · rintro ⟨-, hundefined | rfl⟩
        · rw [hx] at hundefined
          cases hundefined
        · exact Scalar.LawfulSpecial.not_lt_neg_infinity _ hlt
    next hle =>
      constructor
      · rintro rfl
        by_contra hne
        exact hle (Scalar.LawfulSpecial.neg_infinity_lt hx fun h => hne ⟨rfl, .inr h⟩)
      · exact And.left

theorem foldl_larger_eq_neg_infinity_iff (h : Scalar.isUndefined total = false) :
    xs.foldl Scalar.larger total = -Scalar.infinity ↔ total = -Scalar.infinity ∧
      ∀ x ∈ xs, Scalar.isUndefined x = true ∨ x = -Scalar.infinity := by
  induction xs generalizing total with
  | nil => simp
  | cons x xs ih =>
    rw [List.foldl_cons, ih (defined_larger h x), larger_eq_neg_infinity_iff h,
      List.forall_mem_cons, and_assoc]

/-- The maximum is `-infinity` if there is no other number to take. -/
theorem maximum_eq_neg_infinity_iff : maximum xs = -Scalar.infinity ↔
    ∀ x ∈ xs, Scalar.isUndefined x = true ∨ x = -Scalar.infinity := by
  rw [maximum, foldl_larger_eq_neg_infinity_iff Scalar.LawfulSpecial.defined_neg_infinity]
  exact and_iff_right rfl

omit [Scalar.LawfulSpecial α] in
theorem foldl_larger_mem (total : α) (xs : List α) :
    xs.foldl Scalar.larger total = total ∨ xs.foldl Scalar.larger total ∈ xs := by
  induction xs generalizing total with
  | nil => exact .inl rfl
  | cons x xs ih =>
    have hlarger : Scalar.larger total x = total ∨ Scalar.larger total x = x := by
      unfold Scalar.larger
      split_ifs <;> simp
    rw [List.foldl_cons]
    rcases ih (Scalar.larger total x) with h | h
    · rw [h]
      rcases hlarger with hx | hx <;> rw [hx]
      · exact .inl rfl
      · exact .inr List.mem_cons_self
    · exact .inr (List.mem_cons_of_mem x h)

/-! ## Sums -/

theorem undefined_foldl (h : Scalar.isUndefined total = true ∨
    ∃ x ∈ xs, Scalar.isUndefined x = true) :
    Scalar.isUndefined (xs.foldl (· + ·) total) = true := by
  induction xs generalizing total with
  | nil => simpa using h
  | cons x xs ih =>
    rw [List.exists_mem_cons_iff, ← or_assoc] at h
    exact ih (h.imp_left Scalar.LawfulSpecial.undefined_add)

theorem pos_foldl (htotal : 0 ≤ total) (h : ∀ x ∈ xs, 0 ≤ x)
    (hpos : 0 < total ∨ ∃ x ∈ xs, 0 < x) : 0 < xs.foldl (· + ·) total := by
  induction xs generalizing total with
  | nil => simpa using hpos
  | cons x xs ih =>
    rw [List.forall_mem_cons] at h
    rw [List.exists_mem_cons_iff, ← or_assoc] at hpos
    exact ih (Scalar.LawfulSpecial.nonneg_add htotal h.1) h.2
      (hpos.imp_left (Scalar.LawfulSpecial.pos_add htotal h.1))

/-! Sums of which none is too large. -/

theorem ne_infinity_of_isFinite (h : Scalar.isFinite x = true) : x ≠ Scalar.infinity := by
  rintro rfl
  rw [Scalar.LawfulSpecial.not_isFinite_infinity] at h
  cases h

theorem foldl_ne_infinity (exact : Scalar.NoOverflow α) (htotal : total ≠ Scalar.infinity)
    (h : ∀ x ∈ xs, x ≠ Scalar.infinity) : xs.foldl (· + ·) total ≠ Scalar.infinity := by
  induction xs generalizing total with
  | nil => exact htotal
  | cons x xs ih =>
    rw [List.forall_mem_cons] at h
    refine ih (fun hsum => ?_) h.2
    change total + x = Scalar.infinity at hsum
    obtain ⟨hfinite, hfinite'⟩ :=
      Scalar.LawfulSpecial.isFinite_of_add_infinite htotal h.1 hsum
    exact ne_infinity_of_isFinite (exact total x hfinite hfinite') hsum

variable [Scalar.LawfulInfinity α]

theorem isFinite_neg_zero : Scalar.isFinite (-0 : α) = true :=
  (Scalar.LawfulSpecial.isFinite_neg 0).trans Scalar.LawfulInfinity.isFinite_zero

theorem foldl_eq_infinity (exact : Scalar.NoOverflow α)
    (htotal : Scalar.isFinite total = true ∨ total = Scalar.infinity)
    (h : ∀ x ∈ xs, Scalar.isUndefined x = false ∧ x ≠ -Scalar.infinity)
    (hinfinite : total = Scalar.infinity ∨ Scalar.infinity ∈ xs) :
    xs.foldl (· + ·) total = Scalar.infinity := by
  induction xs generalizing total with
  | nil => simpa using hinfinite
  | cons x xs ih =>
    rw [List.forall_mem_cons] at h
    obtain ⟨⟨hx, hx'⟩, h⟩ := h
    rw [List.mem_cons, eq_comm (b := x)] at hinfinite
    rw [List.foldl_cons]
    by_cases hsum : total = Scalar.infinity ∨ x = Scalar.infinity
    · have hsum' : total + x = Scalar.infinity := by
        rcases hsum with rfl | rfl
        · exact Scalar.LawfulSpecial.infinity_add hx hx'
        · rcases htotal with htotal | rfl
          · refine Scalar.LawfulSpecial.add_infinity
              (Scalar.LawfulSpecial.defined_of_isFinite htotal) ?_
            rintro rfl
            rw [Scalar.LawfulInfinity.not_isFinite_neg_infinity] at htotal
            cases htotal
          · exact Scalar.LawfulSpecial.infinity_add hx hx'
      exact ih (.inr hsum') h (.inl hsum')
    · rw [not_or] at hsum
      have hfinite := exact total x (htotal.resolve_right hsum.1)
        (Scalar.LawfulSpecial.isFinite_of_defined hx hsum.2 hx')
      exact ih (.inl hfinite) h
        (.inr ((hinfinite.resolve_left hsum.1).resolve_left hsum.2))

/-! ## The logarithm of a sum of exponentials -/

variable [Scalar.LawfulExpLog α]

omit [Scalar.LawfulInfinity α] in
/-- A sum of exponentials about a finite number of the series is undefined or positive. -/
theorem sum_exp_cases (hfinite : Scalar.isFinite x = true) (hmem : x ∈ xs) :
    Scalar.isUndefined (sum (xs.map fun y => Scalar.exp (y - x))) = true ∨
      0 < sum (xs.map fun y => Scalar.exp (y - x)) := by
  by_cases hundefined : ∃ y ∈ xs, Scalar.isUndefined y = true
  · obtain ⟨y, hy, hundefined⟩ := hundefined
    have hterm : Scalar.isUndefined (Scalar.exp (y - x)) = true :=
      Scalar.LawfulExpLog.undefined_exp (Scalar.LawfulSpecial.undefined_sub (.inl hundefined))
    exact .inl (undefined_foldl (.inr ⟨_, List.mem_map_of_mem hy, hterm⟩))
  · have hdefined : ∀ y ∈ xs, Scalar.isUndefined y = false :=
      fun y hy => Bool.eq_false_iff.2 fun h => hundefined ⟨y, hy, h⟩
    -- The number itself gives a term that is not zero.
    have hself : 0 < Scalar.exp (x - x) := by
      rw [Scalar.LawfulSpecial.sub_self hfinite]
      exact Scalar.LawfulExpLog.exp_zero_pos
    refine .inr (pos_foldl Scalar.LawfulSpecial.neg_zero_nonneg ?_
      (.inr ⟨_, List.mem_map_of_mem hmem, hself⟩))
    intro term hterm
    obtain ⟨y, hy, rfl⟩ := List.mem_map.1 hterm
    exact Scalar.LawfulExpLog.exp_nonneg
      (Scalar.LawfulSpecial.defined_sub (hdefined y hy) hfinite)

theorem logSumExp_eq_neg_infinity_iff : logSumExp xs = -Scalar.infinity ↔
    ∀ x ∈ xs, Scalar.isUndefined x = true ∨ x = -Scalar.infinity := by
  rw [← maximum_eq_neg_infinity_iff]
  unfold logSumExp
  dsimp only
  split
  next hfinite =>
    have hne : maximum xs ≠ -Scalar.infinity := by
      intro h
      rw [h, Scalar.LawfulInfinity.not_isFinite_neg_infinity] at hfinite
      cases hfinite
    have hmem : maximum xs ∈ xs := (foldl_larger_mem _ xs).resolve_left hne
    refine iff_of_false (fun h => ?_) hne
    rcases sum_exp_cases hfinite hmem with hundefined | hpos
    · have hsum := Scalar.LawfulSpecial.undefined_add (x := maximum xs)
        (.inr (Scalar.LawfulExpLog.undefined_log hundefined))
      rw [h, Scalar.LawfulSpecial.defined_neg_infinity] at hsum
      cases hsum
    · exact Scalar.LawfulExpLog.add_log_ne hfinite hpos h
  next => exact Iff.rfl

end Series

namespace PseudoMarginal

/-! ## Scores -/

section Answers

variable {σ : Type} {m : Model α σ} {points : List (Point α)} {subjects : List Nat}
  {memory memory' : σ}

omit [Scalar α] [Scalar.LawfulSpecial α] in
theorem replies_of_predictions {subject : Nat} {values : List α}
    (h : predictions m subject points memory = .ok values memory') :
    replies m (atAll points subject) memory = values.map .ok ∧
      memory' = memoryAfter m (atAll points subject) memory := by
  cases hfirst : firstError (replies m (atAll points subject) memory) with
  | some cause =>
    have herror := predictions_of_error hfirst
    rw [h] at herror
    cases herror
  | none =>
    obtain ⟨others, hothers⟩ := firstError_eq_none_iff.1 hfirst
    have hsame := (predictions_of_ok hothers).symm.trans h
    cases hsame
    exact ⟨hothers, rfl⟩

omit [Scalar.LawfulSpecial α] in
/-- Ordinates are means of what the model answered for a subject each. -/
theorem replies_of_ordinates {ords : List α}
    (h : ordinates m points subjects memory = .ok ords memory') :
    ∃ logs : List (List α), ords = logs.map logHarmonicMean ∧ logs.length = subjects.length ∧
      (∀ values ∈ logs, values.length = points.length) ∧
      replies m (subjects.flatMap (atAll points)) memory = logs.flatten.map .ok := by
  induction subjects generalizing memory ords with
  | nil =>
    cases h
    exact ⟨[], rfl, rfl, List.forall_mem_nil _, rfl⟩
  | cons subject subjects ih =>
    unfold ordinates at h
    obtain ⟨values, middle, hvalues, h⟩ := bind_eq_ok h
    obtain ⟨others, last, hothers, h⟩ := bind_eq_ok h
    cases h
    obtain ⟨hreplies, rfl⟩ := replies_of_predictions hvalues
    obtain ⟨logs, rfl, hcount, hlength, hrest⟩ := ih hothers
    have hpoints : values.length = points.length := by
      have hlengths := congrArg List.length hreplies
      rwa [length_replies, List.length_map, atAll, List.length_map, eq_comm] at hlengths
    refine ⟨values :: logs, rfl, congrArg (· + 1) hcount,
      List.forall_mem_cons.2 ⟨hpoints, hlength⟩, ?_⟩
    rw [List.flatMap_cons, replies_append, hreplies, hrest, List.flatten_cons, List.map_append]

omit [Scalar.LawfulSpecial α] in
theorem ordinates_of_ofDraws {d : Draws α} {score : PseudoMarginal α}
    (h : ofDraws m d memory = .ok score memory') :
    d.points ≠ [] ∧ score.total = Series.sum score.logOrdinates ∧
      ordinates m d.points (List.range m.subjects) memory = .ok score.logOrdinates memory' := by
  unfold ofDraws at h
  split at h
  · cases h
  next hsome =>
    cases hlogs : ordinates m d.points (List.range m.subjects) memory with
    | error cause after =>
      rw [bind_of_error _ (adaptExcept_of_error Error.model hlogs)] at h
      cases h
    | ok logs after =>
      rw [bind_of_ok _ (adaptExcept_of_ok Error.model hlogs)] at h
      cases h
      exact ⟨mt List.isEmpty_iff.2 hsome, rfl, rfl⟩

end Answers

variable [Scalar.LawfulInfinity α] [Scalar.LawfulExpLog α]

theorem logHarmonicMean_eq_infinity_iff {logs : List α} (hne : logs ≠ []) :
    logHarmonicMean logs = Scalar.infinity ↔
      ∀ x ∈ logs, Scalar.isUndefined x = true ∨ x = Scalar.infinity := by
  rw [logHarmonicMean,
    Scalar.LawfulExpLog.log_count_sub_eq_infinity_iff (List.length_pos_iff.2 hne),
    Series.logSumExp_eq_neg_infinity_iff, List.forall_mem_map]
  simp only [Scalar.LawfulSpecial.isUndefined_neg, Scalar.LawfulSpecial.neg_eq_neg_infinity_iff]

/-- The ordinate of a subject is infinite just if every answer of the model for it is infinite or
undefined: of undefined answers alone it is infinite, and any other answer keeps it from that. If no
sum is too large, then the score is infinite only with an infinite ordinate, and with one it is
unless another is undefined or `-infinity`. -/
theorem infinite_ordinate_iff {σ : Type} {m : Model α σ} {d : Draws α} {memory memory' : σ}
    {score : PseudoMarginal α} (h : ofDraws m d memory = .ok score memory') :
    ∃ logs : List (List α), logs.length = m.subjects ∧
      (∀ values ∈ logs, values.length = d.points.length) ∧
      replies m (questions m d.points) memory = logs.flatten.map .ok ∧
      score.logOrdinates.length = m.subjects ∧
      (∀ (i : Nat) values, logs[i]? = some values →
        (score.logOrdinates[i]? = some Scalar.infinity ↔
          ∀ x ∈ values, Scalar.isUndefined x = true ∨ x = Scalar.infinity)) ∧
      (Scalar.NoOverflow α →
        (score.total = Scalar.infinity → Scalar.infinity ∈ score.logOrdinates) ∧
        (Scalar.infinity ∈ score.logOrdinates →
          (∀ x ∈ score.logOrdinates, Scalar.isUndefined x = false ∧ x ≠ -Scalar.infinity) →
          score.total = Scalar.infinity)) := by
  obtain ⟨hne, htotal, hordinates⟩ := ordinates_of_ofDraws h
  obtain ⟨logs, hlogs, hcount, hlength, hreplies⟩ := replies_of_ordinates hordinates
  rw [List.length_range] at hcount
  refine ⟨logs, hcount, hlength, hreplies, ?_, fun i values hi => ?_, fun exact => ⟨fun h => ?_,
    fun hmem hplain => ?_⟩⟩
  · rw [hlogs, List.length_map, hcount]
  · have hvalues : values ≠ [] := by
      rw [← List.length_pos_iff, hlength values (List.mem_of_getElem? hi)]
      exact List.length_pos_iff.2 hne
    rw [hlogs, List.getElem?_map, hi, Option.map_some, Option.some_inj,
      logHarmonicMean_eq_infinity_iff hvalues]
  · by_contra hnone
    refine Series.foldl_ne_infinity exact
      (Series.ne_infinity_of_isFinite Series.isFinite_neg_zero) (fun x hx => ?_) (htotal ▸ h)
    rintro rfl
    exact hnone hx
  · rw [htotal]
    exact Series.foldl_eq_infinity exact (.inl Series.isFinite_neg_zero) hplain (.inr hmem)

/-- A model of one subject with the parameter for a likelihood, also where that is negative. -/
noncomputable def signedModel : Model Exact Nat :=
  let likelihood : Likelihood Exact Nat := fun θ _ calls => .ok (θ.getD 0 0) (calls + 1)
  { levelModel none with
    likelihood := likelihood
    logLikelihood := Model.logOf likelihood
    logPredictive := Model.logOf likelihood }

theorem log_neg_one : Scalar.log (.real (-1) : Exact) = .undefined := by
  have hnegative : ¬ (0 : ℝ) < -1 := by norm_num
  have hnonzero : (-1 : ℝ) ≠ 0 := by norm_num
  exact (if_neg hnegative).trans (if_neg hnonzero)

/-- An undefined answer beside a finite one. -/
theorem infinite_ordinate_iff_mixed : ∃ score memory',
    ofDraws signedModel (levelDraws [.real (-1), .real 1]) 0 = .ok score memory' ∧
      score.logOrdinates[0]? ≠ some Scalar.infinity := by
  have answered : ofDraws signedModel (levelDraws [.real (-1), .real 1]) 0 = .ok _ _ := rfl
  refine ⟨_, _, answered, ?_⟩
  obtain ⟨logs, hcount, -, hreplies, -, hinfinite, -⟩ :=
    infinite_ordinate_iff (m := signedModel) (d := levelDraws [.real (-1), .real 1]) answered
  obtain ⟨values, rfl⟩ := List.length_eq_one_iff.1 hcount
  have hvalues : values = [Scalar.log (.real (-1)), Scalar.log (.real 1)] := by
    have hanswers : values.map Except.ok = [Scalar.log (.real (-1)), Scalar.log (.real 1)].map
        (Except.ok (ε := ModelError)) := by
      rw [List.flatten_singleton] at hreplies
      exact hreplies.symm
    exact List.map_injective_iff.2 (fun _ _ => Except.ok.inj) hanswers
  rw [Ne, hinfinite 0 values rfl, hvalues]
  intro hall
  have hlog := hall (Scalar.log (.real 1)) (by simp)
  rw [Exact.log_real one_pos] at hlog
  rcases hlog with h | h <;> cases h

/-- A likelihood that is negative at the only draw. -/
theorem ordinate_of_undefined : ∃ score memory',
    ofDraws signedModel (levelDraws [.real (-1)]) 0 = .ok score memory' ∧
      replies signedModel (questions signedModel (levelDraws [.real (-1)]).points) 0 =
        [.ok .undefined] ∧
      score.logOrdinates = [.posInf] ∧ score.total = .posInf := by
  have hordinate : logHarmonicMean [Scalar.log (.real (-1) : Exact)] = .posInf := by
    refine (logHarmonicMean_eq_infinity_iff (List.cons_ne_nil _ _)).2 fun x hx => .inl ?_
    rw [List.mem_singleton.1 hx, log_neg_one]
    rfl
  refine ⟨⟨Series.sum [.posInf], [.posInf]⟩, 1, ?_, ?_, rfl, rfl⟩
  · rw [← hordinate]
    rfl
  · rw [← log_neg_one]
    rfl

end PseudoMarginal

end Metropolis
