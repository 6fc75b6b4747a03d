import Mathlib.Algebra.Order.BigOperators.Ring.Finset
import Metropolis.Proofs.Score

/-!
# Ordinates are harmonic means

A score asks the model for every subject at all draws, one subject after another, and fails with the
first answer that is an error. Over the exact numbers the ordinate of a subject is the harmonic mean
of its likelihoods, which lies between the least and the greatest of them and is at most their
arithmetic mean. So neither the order of the draws nor how often all of them are repeated matters,
and a constant factor of a subject's likelihoods is one of its ordinate.
-/

namespace Metropolis.PseudoMarginal

variable {α σ : Type}

/-! ## The questions of a score -/

/-- What a model answers when it is asked for predictions one after another. -/
def replies (m : Model α σ) : List (Nat × Point α) → σ → List (Except ModelError α)
  | [], _ => []
  | (subject, p) :: rest, memory =>
    let result := m.logPredictive p.parameters subject memory
    answer result :: replies m rest (leaves result)

/-- A model's memory after these questions. -/
def memoryAfter (m : Model α σ) (asked : List (Nat × Point α)) (memory : σ) : σ :=
  asked.foldl (fun memory q => leaves (m.logPredictive q.2.parameters q.1 memory)) memory

/-- A subject at all draws. -/
def atAll (points : List (Point α)) (subject : Nat) : List (Nat × Point α) :=
  points.map fun p => (subject, p)

variable {m : Model α σ} {points : List (Point α)} {subject : Nat} {subjects : List Nat}
  {memory : σ} {values : List α} {cause : ModelError}

theorem replies_append (asked later : List (Nat × Point α)) :
    replies m (asked ++ later) memory =
      replies m asked memory ++ replies m later (memoryAfter m asked memory) := by
  induction asked generalizing memory with
  | nil => rfl
  | cons q asked ih => exact congrArg (_ :: ·) ih

theorem memoryAfter_append (asked later : List (Nat × Point α)) :
    memoryAfter m (asked ++ later) memory = memoryAfter m later (memoryAfter m asked memory) :=
  List.foldl_append

theorem length_replies (asked : List (Nat × Point α)) (memory : σ) :
    (replies m asked memory).length = asked.length := by
  induction asked generalizing memory with
  | nil => rfl
  | cons q asked ih => exact congrArg (· + 1) (ih _)

/-- The first error among answers. -/
def firstError {ε β : Type} (answers : List (Except ε β)) : Option ε :=
  answers.findSome? fun
    | .error cause => some cause
    | .ok _ => none

@[simp] theorem firstError_error {ε β : Type} (cause : ε) (later : List (Except ε β)) :
    firstError (.error cause :: later) = some cause := rfl

@[simp] theorem firstError_ok {ε β : Type} (value : β) (later : List (Except ε β)) :
    firstError (.ok value :: later) = firstError later := rfl

theorem firstError_append {ε β : Type} (answers later : List (Except ε β)) :
    firstError (answers ++ later) = (firstError answers).or (firstError later) :=
  List.findSome?_append

theorem firstError_eq_none_iff {ε β : Type} {answers : List (Except ε β)} :
    firstError answers = none ↔ ∃ values : List β, answers = values.map .ok := by
  constructor
  · intro h
    induction answers with
    | nil => exact ⟨[], rfl⟩
    | cons head tail ih =>
      cases head with
      | error cause => cases h
      | ok value =>
        obtain ⟨values, rfl⟩ := ih h
        exact ⟨value :: values, rfl⟩
  · rintro ⟨values, rfl⟩
    simp [firstError]

theorem predictions_of_ok (h : replies m (atAll points subject) memory = values.map .ok) :
    predictions m subject points memory =
      .ok values (memoryAfter m (atAll points subject) memory) := by
  induction points generalizing memory values with
  | nil =>
    rw [List.map_eq_nil_iff.1 h.symm]
    rfl
  | cons p points ih =>
    obtain ⟨value, values, rfl, hvalue, hvalues⟩ := List.map_eq_cons_iff.1 h.symm
    unfold predictions
    rw [bind_of_ok _ (answer_eq_ok hvalue.symm), bind_of_ok _ (ih hvalues.symm)]
    rfl

theorem predictions_of_error
    (h : firstError (replies m (atAll points subject) memory) = some cause) :
    answer (predictions m subject points memory) = .error cause := by
  induction points generalizing memory with
  | nil => cases h
  | cons p points ih =>
    unfold predictions
    cases hp : m.logPredictive p.parameters subject memory with
    | error other after =>
      simp only [atAll, List.map_cons, replies, hp, answer_error, firstError_error,
        Option.some.injEq] at h
      rw [bind_of_error _ hp, h, answer_error]
    | ok value after =>
      simp only [atAll, List.map_cons, replies, hp, answer_ok, leaves_ok, firstError_ok] at h
      rw [bind_of_ok _ hp, bind_of_error _ (answer_eq_error (ih h)), answer_error]

variable [Scalar α]

theorem ordinates_of_ok {logs : Nat → List α}
    (hlength : ∀ subject ∈ subjects, (logs subject).length = points.length)
    (h : replies m (subjects.flatMap (atAll points)) memory = (subjects.flatMap logs).map .ok) :
    ordinates m points subjects memory = .ok (subjects.map fun i => logHarmonicMean (logs i))
      (memoryAfter m (subjects.flatMap (atAll points)) memory) := by
  induction subjects generalizing memory with
  | nil => rfl
  | cons subject subjects ih =>
    rw [List.flatMap_cons, List.flatMap_cons, replies_append, List.map_append] at h
    have hhead : (replies m (atAll points subject) memory).length =
        ((logs subject).map (Except.ok (ε := ModelError))).length := by
      rw [length_replies, List.length_map, hlength subject List.mem_cons_self, atAll,
        List.length_map]
    -- So many answers are this subject's; the others are given with the memory that it leaves.
    obtain ⟨hlogs, hothers⟩ := List.append_inj h hhead
    unfold ordinates
    rw [bind_of_ok _ (predictions_of_ok hlogs), bind_of_ok _
      (ih (fun other hother => hlength other (List.mem_cons_of_mem _ hother)) hothers),
      List.flatMap_cons, memoryAfter_append]
    rfl

theorem ordinates_eq_error_iff : answer (ordinates m points subjects memory) = .error cause ↔
    firstError (replies m (subjects.flatMap (atAll points)) memory) = some cause := by
  induction subjects generalizing memory with
  | nil =>
    show Except.ok [] = Except.error cause ↔ none = some cause
    simp
  | cons subject subjects ih =>
    rw [List.flatMap_cons, replies_append, firstError_append]
    unfold ordinates
    -- It is an error of this subject, or else of those after it.
    cases hfirst : firstError (replies m (atAll points subject) memory) with
    | some other =>
      rw [bind_of_error _ (answer_eq_error (predictions_of_error hfirst))]
      simp
    | none =>
      obtain ⟨values, hvalues⟩ := firstError_eq_none_iff.1 hfirst
      rw [bind_of_ok _ (predictions_of_ok hvalues), Option.none_or, ← ih]
      cases hothers : ordinates m points subjects (memoryAfter m (atAll points subject) memory) with
      | ok others after =>
        rw [bind_of_ok _ hothers]
        show Except.ok _ = Except.error cause ↔ Except.ok others = Except.error cause
        simp
      | error other after => rw [bind_of_error _ hothers, answer_error]

/-- The questions of a score in their order. -/
def questions (m : Model α σ) (points : List (Point α)) : List (Nat × Point α) :=
  (List.range m.subjects).flatMap (atAll points)

/-- A score fails without draws, or with the first error among the answers. -/
theorem ofDraws_eq_error_iff {d : Draws α} {e : Error α} :
    answer (ofDraws m d memory) = .error e ↔ d.points = [] ∧ e = .noDraws ∨
      d.points ≠ [] ∧ ∃ cause, firstError (replies m (questions m d.points) memory) = some cause ∧
        e = .model cause := by
  unfold ofDraws
  by_cases hempty : d.points = []
  · have hnone : d.isEmpty = true := List.isEmpty_iff.2 hempty
    rw [if_pos hnone]
    show Except.error Error.noDraws = Except.error e ↔ _
    simp [hempty, eq_comm]
  · have hsome : ¬ d.isEmpty = true := mt List.isEmpty_iff.1 hempty
    rw [if_neg hsome]
    simp only [questions, ← ordinates_eq_error_iff]
    cases hlogs : ordinates m d.points (List.range m.subjects) memory with
    | ok logs after =>
      rw [bind_of_ok _ (adaptExcept_of_ok Error.model hlogs)]
      show Except.ok _ = Except.error e ↔ _
      simp [hempty]
    | error cause after =>
      rw [bind_of_error _ (adaptExcept_of_error Error.model hlogs)]
      simp [hempty, eq_comm]

/-! ## Harmonic means -/

section Harmonic

variable {xs ys : List ℝ} {c lo hi : ℝ}

/-- The logarithm of the harmonic mean of positive numbers. -/
noncomputable def logHarmonic (xs : List ℝ) : ℝ := -Real.log ((xs.map (·⁻¹)).sum / xs.length)

theorem length_pos_real (hne : xs ≠ []) : (0 : ℝ) < xs.length :=
  Nat.cast_pos.2 (List.length_pos_iff.2 hne)

theorem sum_inv_pos (hne : xs ≠ []) (h : ∀ x ∈ xs, 0 < x) : 0 < (xs.map (·⁻¹)).sum := by
  apply List.sum_pos
  · intro y hy
    obtain ⟨x, hx, rfl⟩ := List.mem_map.1 hy
    exact inv_pos.2 (h x hx)
  · exact mt List.map_eq_nil_iff.1 hne

theorem logHarmonic_eq (xs : List ℝ) :
    logHarmonic xs = Real.log (xs.length / (xs.map (·⁻¹)).sum) := by
  rw [logHarmonic, ← Real.log_inv, inv_div]

theorem le_logHarmonic (hne : xs ≠ []) (hlo : 0 < lo) (h : ∀ x ∈ xs, lo ≤ x) :
    Real.log lo ≤ logHarmonic xs := by
  have hterm : ∀ y ∈ xs.map (·⁻¹), y ≤ lo⁻¹ := by
    intro y hy
    obtain ⟨x, hx, rfl⟩ := List.mem_map.1 hy
    exact inv_anti₀ hlo (h x hx)
  have hsum : (xs.map (·⁻¹)).sum ≤ xs.length * lo⁻¹ := by
    simpa only [List.length_map, nsmul_eq_mul] using List.sum_le_card_nsmul _ _ hterm
  have hpos := sum_inv_pos hne fun x hx => hlo.trans_le (h x hx)
  rw [logHarmonic_eq]
  apply Real.log_le_log hlo
  rw [le_div_iff₀ hpos]
  calc lo * (xs.map (·⁻¹)).sum ≤ lo * (xs.length * lo⁻¹) := by gcongr
    _ = xs.length := by field_simp

theorem logHarmonic_le (hne : xs ≠ []) (hpos : ∀ x ∈ xs, 0 < x) (h : ∀ x ∈ xs, x ≤ hi) :
    logHarmonic xs ≤ Real.log hi := by
  have hhi : 0 < hi := by
    obtain ⟨x, hx⟩ := List.exists_mem_of_ne_nil xs hne
    exact (hpos x hx).trans_le (h x hx)
  have hterm : ∀ y ∈ xs.map (·⁻¹), hi⁻¹ ≤ y := by
    intro y hy
    obtain ⟨x, hx, rfl⟩ := List.mem_map.1 hy
    exact inv_anti₀ (hpos x hx) (h x hx)
  have hsum : xs.length * hi⁻¹ ≤ (xs.map (·⁻¹)).sum := by
    simpa only [List.length_map, nsmul_eq_mul] using List.card_nsmul_le_sum _ _ hterm
  have hinv := sum_inv_pos hne hpos
  rw [logHarmonic_eq]
  apply Real.log_le_log (div_pos (length_pos_real hne) hinv)
  rw [div_le_iff₀ hinv]
  calc (xs.length : ℝ) = hi * (xs.length * hi⁻¹) := by field_simp
    _ ≤ hi * (xs.map (·⁻¹)).sum := by gcongr

/-- The square of the number of terms, by the inequality of Cauchy and Schwarz. -/
theorem sq_length_le (hpos : ∀ x ∈ xs, 0 < x) :
    (xs.length : ℝ) ^ 2 ≤ xs.sum * (xs.map (·⁻¹)).sum := by
  have hsquare := Finset.sum_sq_le_sum_mul_sum_of_sq_le_mul (Finset.univ : Finset (Fin xs.length))
    (r := fun _ => (1 : ℝ)) (f := fun i => xs[i]) (g := fun i => xs[i]⁻¹)
    (fun i _ => (hpos _ (List.getElem_mem i.isLt)).le)
    (fun i _ => (inv_pos.2 (hpos _ (List.getElem_mem i.isLt))).le)
    (fun i _ => by
      have hne := (hpos _ (List.getElem_mem i.isLt)).ne'
      simp [hne])
  simpa using hsquare

/-- The harmonic mean is at most the arithmetic one. -/
theorem logHarmonic_le_mean (hne : xs ≠ []) (hpos : ∀ x ∈ xs, 0 < x) :
    logHarmonic xs ≤ Real.log (xs.sum / xs.length) := by
  have hlength := length_pos_real hne
  have hinv := sum_inv_pos hne hpos
  rw [logHarmonic_eq]
  apply Real.log_le_log (div_pos hlength hinv)
  rw [div_le_div_iff₀ hinv hlength, ← sq]
  exact sq_length_le hpos

theorem logHarmonic_perm (h : xs.Perm ys) : logHarmonic xs = logHarmonic ys := by
  rw [logHarmonic, logHarmonic, (h.map _).sum_eq, h.length_eq]

theorem logHarmonic_append_self (xs : List ℝ) : logHarmonic (xs ++ xs) = logHarmonic xs := by
  rw [logHarmonic, logHarmonic, List.map_append, List.sum_append, List.length_append,
    Nat.cast_add, ← two_mul, ← two_mul, mul_div_mul_left _ _ two_ne_zero]

theorem logHarmonic_map_mul (hne : xs ≠ []) (hpos : ∀ x ∈ xs, 0 < x) (hc : 0 < c) :
    logHarmonic (xs.map (c * ·)) = logHarmonic xs + Real.log c := by
  have hsum : ((xs.map (c * ·)).map (·⁻¹)).sum = c⁻¹ * (xs.map (·⁻¹)).sum := by
    rw [List.map_map, ← List.sum_map_mul_left]
    simp [Function.comp_def, mul_comm]
  have hquotient := (div_pos (sum_inv_pos hne hpos) (length_pos_real hne)).ne'
  rw [logHarmonic, logHarmonic, hsum, List.length_map, mul_div_assoc,
    Real.log_mul (inv_pos.2 hc).ne' hquotient, Real.log_inv]
  ring

end Harmonic

/-! ## Ordinates -/

section Ordinates

variable {xs ys : List ℝ} {c : ℝ}

/-- The logarithm of the ordinate of a subject with these likelihoods. -/
noncomputable def ordinate (xs : List ℝ) : Exact :=
  logHarmonicMean (xs.map fun y => Scalar.log (Exact.real y))

/-- No draw is lost, as long as their number can be told. -/
theorem ordinate_of_pos (hne : xs ≠ []) (hlength : xs.length ≤ Scalar.countLimit)
    (hpos : ∀ x ∈ xs, 0 < x) : ordinate xs = .real (logHarmonic xs) := by
  have hlogs : (xs.map fun y => Scalar.log (Exact.real y)) = (xs.map Real.log).map Exact.real := by
    rw [List.map_map]
    exact List.map_congr_left fun x hx => Exact.log_real (hpos x hx)
  -- The exponential of a negated logarithm is the inverse that the harmonic mean adds up.
  have hinverses : (xs.map Real.log).map (fun x => Real.exp (-x)) = xs.map (·⁻¹) := by
    rw [List.map_map]
    apply List.map_congr_left
    intro x hx
    rw [Function.comp_apply, Real.exp_neg, Real.exp_log (hpos x hx)]
  have hinv := sum_inv_pos hne hpos
  rw [ordinate, hlogs, logHarmonicMean_real (mt List.map_eq_nil_iff.1 hne), hinverses,
    List.length_map, Nat.min_eq_left hlength, logHarmonic_eq,
    Real.log_div (length_pos_real hne).ne' hinv.ne']

/-- A draw that a subject rules out. -/
theorem ordinate_of_zero (h : 0 ∈ xs) : ordinate xs = .negInf := by
  -- Negated, its logarithm is the largest exponent, and an infinite one.
  have hinfinite : Exact.posInf ∈ (xs.map fun y => Scalar.log (Exact.real y)).map (- ·) := by
    rw [List.map_map]
    refine List.mem_map.2 ⟨0, h, ?_⟩
    rw [Function.comp_apply, Exact.log_zero]
    rfl
  have hlength : 0 < (xs.map fun y => Scalar.log (Exact.real y)).length := by
    rw [List.length_map]
    exact List.length_pos_of_mem h
  obtain ⟨n, hn, hpos⟩ := Scalar.ofCount_real hlength
  rw [ordinate, logHarmonicMean, Series.logSumExp_posInf hinfinite, hn, Exact.log_real hpos]
  rfl

end Ordinates

/-! ## Scores -/

section Scores

variable {m m' : Model Exact σ} {d d' : Draws Exact} {points : List (Point Exact)}
  {memory memory' : σ} {likelihoods : ℕ → List ℝ} {n : ℕ}

/-- The score of the first subjects with these likelihoods. -/
noncomputable def scoreOf (n : ℕ) (likelihoods : ℕ → List ℝ) : PseudoMarginal Exact where
  total := Series.sum ((List.range n).map fun i => ordinate (likelihoods i))
  logOrdinates := (List.range n).map fun i => ordinate (likelihoods i)

/-- Whether a model answers the questions of a score with the logarithms of these likelihoods. -/
structure AnswersWith (m : Model Exact σ) (points : List (Point Exact)) (memory : σ)
    (likelihoods : ℕ → List ℝ) : Prop where
  length_eq : ∀ i < m.subjects, (likelihoods i).length = points.length
  replies_eq : replies m (questions m points) memory =
    ((List.range m.subjects).flatMap likelihoods).map fun y => .ok (Scalar.log (Exact.real y))

theorem ofDraws_of_answersWith (h : AnswersWith m d.points memory likelihoods)
    (hne : d.points ≠ []) : ofDraws m d memory =
      .ok (scoreOf m.subjects likelihoods) (memoryAfter m (questions m d.points) memory) := by
  have hlogs : replies m ((List.range m.subjects).flatMap (atAll d.points)) memory =
      ((List.range m.subjects).flatMap fun i =>
        (likelihoods i).map fun y => Scalar.log (Exact.real y)).map .ok := by
    rw [← questions, h.replies_eq, List.map_flatMap, List.map_flatMap]
    simp only [List.map_map]
    rfl
  refine ofDraws_of_ordinates hne (ordinates_of_ok (fun i hi => ?_) hlogs)
  rw [List.length_map, h.length_eq i (List.mem_range.1 hi)]

/-- Whether a number is a mean of the logarithms of numbers, not above that of the arithmetic
mean. -/
structure IsMean (xs : List ℝ) (v : ℝ) : Prop where
  between : ∃ lo ∈ xs, ∃ hi ∈ xs, (∀ x ∈ xs, lo ≤ x ∧ x ≤ hi) ∧ Real.log lo ≤ v ∧ v ≤ Real.log hi
  le_mean : v ≤ Real.log (xs.sum / xs.length)

theorem isMean_logHarmonic {xs : List ℝ} (hne : xs ≠ []) (hpos : ∀ x ∈ xs, 0 < x) :
    IsMean xs (logHarmonic xs) where
  between := by
    have hnonempty : xs.toFinset.Nonempty := List.toFinset_nonempty_iff xs |>.2 hne
    obtain ⟨lo, hlo, hle⟩ := xs.toFinset.exists_min_image id hnonempty
    obtain ⟨hi, hhi, hge⟩ := xs.toFinset.exists_max_image id hnonempty
    simp only [List.mem_toFinset, id_eq] at hlo hle hhi hge
    exact ⟨lo, hlo, hi, hhi, fun x hx => ⟨hle x hx, hge x hx⟩,
      le_logHarmonic hne (hpos lo hlo) hle, logHarmonic_le hne hpos hge⟩
  le_mean := logHarmonic_le_mean hne hpos

/-- What the score of likelihoods is: the ordinate of a subject that a draw rules out is zero, and
that of any other subject is the harmonic mean. -/
structure IsScore (n : ℕ) (likelihoods : ℕ → List ℝ) (score : PseudoMarginal Exact) : Prop where
  length_eq : score.logOrdinates.length = n
  zero : ∀ i < n, 0 ∈ likelihoods i → score.logOrdinates[i]? = some .negInf
  harmonic : ∀ i < n, (∀ y ∈ likelihoods i, 0 < y) →
    score.logOrdinates[i]? = some (.real (logHarmonic (likelihoods i))) ∧
      IsMean (likelihoods i) (logHarmonic (likelihoods i))
  total_eq : score.total = Series.sum score.logOrdinates
  total_harmonic : (∀ i < n, ∀ y ∈ likelihoods i, 0 < y) →
    score.total = .real (∑ i ∈ Finset.range n, logHarmonic (likelihoods i))

theorem scoreOf_total (h : ∀ i < n, likelihoods i ≠ [])
    (hlength : ∀ i < n, (likelihoods i).length ≤ Scalar.countLimit)
    (hpos : ∀ i < n, ∀ y ∈ likelihoods i, 0 < y) :
    (scoreOf n likelihoods).total =
      .real (∑ i ∈ Finset.range n, logHarmonic (likelihoods i)) := by
  have hordinates : (List.range n).map (fun i => ordinate (likelihoods i)) =
      ((List.range n).map fun i => logHarmonic (likelihoods i)).map Exact.real := by
    rw [List.map_map]
    apply List.map_congr_left
    intro i hi
    have hlt := List.mem_range.1 hi
    exact ordinate_of_pos (h i hlt) (hlength i hlt) (hpos i hlt)
  rw [scoreOf, hordinates, Series.sum_real]
  rfl

theorem isScore_scoreOf (h : ∀ i < n, likelihoods i ≠ [])
    (hlength : ∀ i < n, (likelihoods i).length ≤ Scalar.countLimit) :
    IsScore n likelihoods (scoreOf n likelihoods) where
  length_eq := by simp [scoreOf]
  zero i hi hzero := by simp [scoreOf, hi, ordinate_of_zero hzero]
  harmonic i hi hpos := by
    have hordinate := ordinate_of_pos (h i hi) (hlength i hi) hpos
    exact ⟨by simp [scoreOf, hi, hordinate], isMean_logHarmonic (h i hi) hpos⟩
  total_eq := rfl
  total_harmonic := scoreOf_total h hlength

/-- Whether a model always answers with the logarithm of a subject's likelihood at a draw. -/
structure AnswersBy (m : Model Exact σ) (points : List (Point Exact))
    (f : ℕ → Point Exact → ℝ) : Prop where
  pos : ∀ p ∈ points, ∀ i < m.subjects, 0 < f i p
  answer_eq : ∀ p ∈ points, ∀ i < m.subjects, ∀ memory,
    answer (m.logPredictive p.parameters i memory) = .ok (Scalar.log (Exact.real (f i p)))

variable {f : ℕ → Point Exact → ℝ}

theorem AnswersBy.mono (h : AnswersBy m points f) {fewer : List (Point Exact)}
    (hsubset : ∀ p ∈ fewer, p ∈ points) : AnswersBy m fewer f :=
  ⟨fun p hp => h.pos p (hsubset p hp), fun p hp => h.answer_eq p (hsubset p hp)⟩

theorem AnswersBy.replies_eq (h : AnswersBy m points f) {asked : List (ℕ × Point Exact)}
    (hasked : ∀ q ∈ asked, q.2 ∈ points ∧ q.1 < m.subjects) (memory : σ) :
    replies m asked memory = asked.map fun q => .ok (Scalar.log (Exact.real (f q.1 q.2))) := by
  induction asked generalizing memory with
  | nil => rfl
  | cons q asked ih =>
    obtain ⟨hp, hi⟩ := hasked q List.mem_cons_self
    rw [List.map_cons, ← h.answer_eq q.2 hp q.1 hi memory,
      ← ih (fun q hq => hasked q (List.mem_cons_of_mem _ hq))]
    rfl

theorem AnswersBy.answersWith (h : AnswersBy m points f) (memory : σ) :
    AnswersWith m points memory fun i => points.map (f i) where
  length_eq i _ := List.length_map _
  replies_eq := by
    have hasked : ∀ q ∈ questions m points, q.2 ∈ points ∧ q.1 < m.subjects := by
      intro q hq
      simp only [questions, atAll, List.mem_flatMap, List.mem_range, List.mem_map] at hq
      obtain ⟨i, hi, p, hp, rfl⟩ := hq
      exact ⟨hp, hi⟩
    rw [h.replies_eq hasked, questions, List.map_flatMap, List.map_flatMap]
    simp only [atAll, List.map_map]
    rfl

theorem ordinate_map {g : Point Exact → ℝ} (hne : points ≠ [])
    (hlength : points.length ≤ Scalar.countLimit) (hpos : ∀ p ∈ points, 0 < g p) :
    ordinate (points.map g) = .real (logHarmonic (points.map g)) := by
  apply ordinate_of_pos (mt List.map_eq_nil_iff.1 hne)
  · rwa [List.length_map]
  · exact List.forall_mem_map.2 hpos

theorem total_map (hne : points ≠ []) (hlength : points.length ≤ Scalar.countLimit)
    (hpos : ∀ p ∈ points, ∀ i < n, 0 < f i p) :
    (scoreOf n fun i => points.map (f i)).total =
      .real (∑ i ∈ Finset.range n, logHarmonic (points.map (f i))) := by
  apply scoreOf_total
  · exact fun i _ => mt List.map_eq_nil_iff.1 hne
  · intro i _
    rwa [List.length_map]
  · exact fun i hi => List.forall_mem_map.2 fun p hp => hpos p hp i hi

theorem answer_of_answersBy (h : AnswersBy m d.points f) (hne : d.points ≠ []) (memory : σ) :
    answer (ofDraws m d memory) = .ok (scoreOf m.subjects fun i => d.points.map (f i)) := by
  rw [ofDraws_of_answersWith (h.answersWith memory) hne, answer_ok]

/-- Scores depend on the harmonic means only. -/
theorem answer_congr (h : AnswersBy m d.points f) (hne : d.points ≠ [])
    (hlength : d.points.length ≤ Scalar.countLimit) (h' : AnswersBy m d'.points f)
    (hne' : d'.points ≠ []) (hlength' : d'.points.length ≤ Scalar.countLimit)
    (hsame : ∀ i, logHarmonic (d'.points.map (f i)) = logHarmonic (d.points.map (f i))) :
    answer (ofDraws m d' memory') = answer (ofDraws m d memory) := by
  have hordinates : (List.range m.subjects).map (fun i => ordinate (d'.points.map (f i))) =
      (List.range m.subjects).map fun i => ordinate (d.points.map (f i)) := by
    apply List.map_congr_left
    intro i hi
    have hlt := List.mem_range.1 hi
    rw [ordinate_map hne hlength fun p hp => h.pos p hp i hlt,
      ordinate_map hne' hlength' fun p hp => h'.pos p hp i hlt, hsame]
  rw [answer_of_answersBy h hne, answer_of_answersBy h' hne', scoreOf, scoreOf, hordinates]

theorem answer_perm (h : AnswersBy m d.points f) (hne : d.points ≠ [])
    (hlength : d.points.length ≤ Scalar.countLimit) (hperm : d'.points.Perm d.points) :
    answer (ofDraws m d' memory') = answer (ofDraws m d memory) := by
  refine answer_congr h hne hlength (h.mono fun p => hperm.mem_iff.1) ?_ ?_ fun i => ?_
  · intro hnil
    rw [hnil] at hperm
    exact hne hperm.nil_eq.symm
  · rwa [hperm.length_eq]
  · exact logHarmonic_perm (hperm.map _)

theorem answer_append_self (h : AnswersBy m d.points f) (hne : d.points ≠ [])
    (hlength : d'.points.length ≤ Scalar.countLimit) (hdouble : d'.points = d.points ++ d.points) :
    answer (ofDraws m d' memory') = answer (ofDraws m d memory) := by
  have hless : d.points.length ≤ d'.points.length := by
    rw [hdouble, List.length_append]
    omega
  refine answer_congr h hne (hless.trans hlength) (h.mono fun p hp => ?_) ?_ hlength fun i => ?_
  · rw [hdouble, List.mem_append] at hp
    exact hp.elim id id
  · rw [hdouble]
    exact List.append_ne_nil_of_left_ne_nil hne _
  · rw [hdouble, List.map_append, logHarmonic_append_self]

/-- The likelihoods with those of one subject multiplied. -/
noncomputable def scaled (f : ℕ → Point Exact → ℝ) (k : ℕ) (c : ℝ) (i : ℕ) (p : Point Exact) : ℝ :=
  if i = k then c * f i p else f i p

variable {k : ℕ} {c : ℝ}

theorem scaled_pos (hpos : ∀ p ∈ points, ∀ i < n, 0 < f i p) (hc : 0 < c) :
    ∀ p ∈ points, ∀ i < n, 0 < scaled f k c i p := by
  intro p hp i hi
  unfold scaled
  split
  · exact mul_pos hc (hpos p hp i hi)
  · exact hpos p hp i hi

theorem logHarmonic_scaled (hne : points ≠ []) (hc : 0 < c) {i : ℕ}
    (hpos : ∀ p ∈ points, 0 < f i p) : logHarmonic (points.map (scaled f k c i)) =
      logHarmonic (points.map (f i)) + if i = k then Real.log c else 0 := by
  by_cases hik : i = k
  · have hmap : points.map (scaled f k c i) = (points.map (f i)).map (c * ·) := by
      rw [List.map_map]
      exact List.map_congr_left fun p _ => if_pos hik
    rw [if_pos hik, hmap, logHarmonic_map_mul (mt List.map_eq_nil_iff.1 hne)
      (List.forall_mem_map.2 hpos) hc]
  · have hmap : points.map (scaled f k c i) = points.map (f i) :=
      List.map_congr_left fun p _ => if_neg hik
    rw [if_neg hik, hmap, add_zero]

theorem logOrdinates_scaled (hne : points ≠ []) (hlength : points.length ≤ Scalar.countLimit)
    (hpos : ∀ p ∈ points, ∀ i < n, 0 < f i p) (hc : 0 < c) :
    (scoreOf n fun i => points.map (scaled f k c i)).logOrdinates =
      (scoreOf n fun i => points.map (f i)).logOrdinates.modify k (· + .real (Real.log c)) := by
  apply List.ext_getElem
  · simp [scoreOf]
  · intro i hi hi'
    have hlt : i < n := by simpa [scoreOf] using hi
    have hordinate := ordinate_map hne hlength fun p hp => hpos p hp i hlt
    have hscaled := ordinate_map hne hlength fun p hp => scaled_pos (k := k) hpos hc p hp i hlt
    rw [logHarmonic_scaled hne hc fun p hp => hpos p hp i hlt] at hscaled
    simp only [scoreOf, List.getElem_map, List.getElem_range, List.getElem_modify]
    rw [hscaled, hordinate]
    by_cases hik : i = k
    · simp [hik]
    · simp [hik, Ne.symm hik]

theorem total_scaled (hne : points ≠ []) (hlength : points.length ≤ Scalar.countLimit)
    (hpos : ∀ p ∈ points, ∀ i < n, 0 < f i p) (hk : k < n) (hc : 0 < c) :
    (scoreOf n fun i => points.map (scaled f k c i)).total =
      (scoreOf n fun i => points.map (f i)).total + .real (Real.log c) := by
  -- The factor is counted once, for the subject that has it.
  have hsum : ∑ i ∈ Finset.range n, logHarmonic (points.map (scaled f k c i)) =
      ∑ i ∈ Finset.range n, logHarmonic (points.map (f i)) + Real.log c := by
    calc ∑ i ∈ Finset.range n, logHarmonic (points.map (scaled f k c i))
        = ∑ i ∈ Finset.range n,
            (logHarmonic (points.map (f i)) + if i = k then Real.log c else 0) := by
          apply Finset.sum_congr rfl
          intro i hi
          exact logHarmonic_scaled hne hc fun p hp => hpos p hp i (Finset.mem_range.1 hi)
      _ = ∑ i ∈ Finset.range n, logHarmonic (points.map (f i)) + Real.log c := by
          rw [Finset.sum_add_distrib, Finset.sum_ite_eq', if_pos (Finset.mem_range.2 hk)]
  rw [total_map hne hlength (scaled_pos hpos hc), total_map hne hlength hpos, hsum,
    Exact.real_add]

/-- The score of draws fails just without draws or with the first error of the model. Of what the
model answers, over the exact numbers, it is the sum of the logarithms of the subjects' harmonic
means, which lie between the extreme likelihoods and are at most the arithmetic means; one draw that
a subject rules out makes its ordinate zero. If the answers are by subject and draw alone, neither
the order of the draws nor a repetition of all of them changes the score, and a factor of one
subject's likelihoods is one of its ordinate and of no other. -/
theorem ofDraws_harmonic (m : Model Exact σ) (d : Draws Exact) (memory : σ) :
    (∀ e, answer (ofDraws m d memory) = .error e ↔ d.points = [] ∧ e = .noDraws ∨
      d.points ≠ [] ∧ ∃ cause, firstError (replies m (questions m d.points) memory) = some cause ∧
        e = .model cause) ∧
      (d.points ≠ [] → d.points.length ≤ Scalar.countLimit →
        (∀ likelihoods, AnswersWith m d.points memory likelihoods →
          ∃ score, answer (ofDraws m d memory) = .ok score ∧
            IsScore m.subjects likelihoods score) ∧
        ∀ f, AnswersBy m d.points f →
          (∀ d' memory', d'.points.Perm d.points →
            answer (ofDraws m d' memory') = answer (ofDraws m d memory)) ∧
          (∀ d' memory', d'.points = d.points ++ d.points →
            d'.points.length ≤ Scalar.countLimit →
            answer (ofDraws m d' memory') = answer (ofDraws m d memory)) ∧
          ∀ (m' : Model Exact σ) memory' k c, m'.subjects = m.subjects → k < m.subjects → 0 < c →
            AnswersBy m' d.points (scaled f k c) →
            ∃ score score', answer (ofDraws m d memory) = .ok score ∧
              answer (ofDraws m' d memory') = .ok score' ∧
              score'.logOrdinates = score.logOrdinates.modify k (· + .real (Real.log c)) ∧
              score'.total = score.total + .real (Real.log c)) := by
  refine ⟨fun e => ofDraws_eq_error_iff, fun hne hlength => ⟨fun likelihoods h => ?_, fun f h =>
    ⟨fun d' memory' => answer_perm h hne hlength,
      fun d' memory' hdouble hlength' => answer_append_self h hne hlength' hdouble,
      fun m' memory' k c hsubjects hk hc h' => ?_⟩⟩⟩
  · refine ⟨_, by rw [ofDraws_of_answersWith h hne, answer_ok], isScore_scoreOf ?_ ?_⟩
    · intro i hi
      rw [← List.length_pos_iff, h.length_eq i hi]
      exact List.length_pos_iff.2 hne
    · intro i hi
      rwa [h.length_eq i hi]
  · refine ⟨_, _, answer_of_answersBy h hne memory, answer_of_answersBy h' hne memory', ?_, ?_⟩
    · rw [hsubjects]
      exact logOrdinates_scaled hne hlength h.pos hc
    · rw [hsubjects]
      exact total_scaled hne hlength h.pos hk hc

/-- Likelihoods that grow with the subject and with the parameter. -/
noncomputable def multiple (subject : ℕ) (p : Point Exact) : ℝ :=
  (subject + 1 : ℕ) * (p.parameters.getD 0 0).toReal

/-- A model of two subjects with these likelihoods, which counts the questions. -/
noncomputable def multipleModel : Model Exact Nat :=
  { levelModel none with
    subjects := 2
    logPredictive := fun θ subject calls =>
      .ok (Scalar.log (Exact.real (multiple subject ⟨θ, 0, 0⟩))) (calls + 1) }

noncomputable def levelDraws (values : List Exact) : Draws Exact := ⟨["x"], values.map levelPoint⟩

theorem answersBy_multiple : AnswersBy multipleModel (levelDraws [1, 2]).points multiple where
  pos := by
    intro p hp i _
    simp only [levelDraws, List.map_cons, List.map_nil, List.mem_cons, List.not_mem_nil,
      or_false] at hp
    obtain rfl | rfl := hp <;> simp [multiple, levelPoint, Exact.ofNat_eq] <;> positivity
  answer_eq _ _ _ _ _ := rfl

/-- The harmonic mean of one and two is four thirds. -/
theorem ofDraws_harmonic_multiple : ∃ score,
    answer (ofDraws multipleModel (levelDraws [1, 2]) 0) = .ok score ∧
      score.logOrdinates[0]? = some (.real (Real.log (4 / 3))) ∧
      answer (ofDraws multipleModel (levelDraws [2, 1]) 7) = .ok score := by
  obtain ⟨-, hscores⟩ := ofDraws_harmonic multipleModel (levelDraws [1, 2]) 0
  have hlength : (levelDraws [1, 2]).points.length ≤ Scalar.countLimit := by
    simp [levelDraws, Scalar.countLimit]
  obtain ⟨hvalues, hsame⟩ := hscores (by simp [levelDraws]) hlength
  obtain ⟨score, hscore, hscored⟩ := hvalues _ (answersBy_multiple.answersWith 0)
  obtain ⟨hperm, -⟩ := hsame multiple answersBy_multiple
  obtain ⟨hharmonic, -⟩ := hscored.harmonic 0 Nat.two_pos
    (List.forall_mem_map.2 fun p hp => answersBy_multiple.pos p hp 0 Nat.two_pos)
  have hmean : logHarmonic ((levelDraws [1, 2]).points.map (multiple 0)) = Real.log (4 / 3) := by
    rw [logHarmonic_eq]
    simp only [levelDraws, levelPoint, multiple, List.map_cons, List.map_nil, List.sum_cons,
      List.sum_nil, List.length_cons, List.length_nil, List.getD_cons_zero, Exact.ofNat_eq,
      Exact.toReal_real]
    norm_num
  exact ⟨score, hscore, hmean ▸ hharmonic, (hperm (levelDraws [2, 1]) 7 (.swap _ _ _)).trans hscore⟩

end Scores

end Metropolis.PseudoMarginal
