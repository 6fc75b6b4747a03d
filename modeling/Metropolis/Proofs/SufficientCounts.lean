import Mathlib.Probability.Distributions.Poisson.Basic
import Metropolis.Proofs.Balance
import Metropolis.Proofs.Contract

/-!
# Counts through their tallies

A tally keeps of the counts of a subject their number, their sum and the sum of the logarithms of
their factorials. Over the exact numbers that is enough: the likelihood of a subject is the product
of the Poisson probabilities of its counts, at the common rate shifted by the subject's own
intercept, and the sum over the subjects is one over the rows of the data, each of them once. The
tallies do not depend on the order of the rows, nor the sum on the labels if no subject has an
intercept.
-/

namespace Metropolis

open ProbabilityTheory (poissonMeasure poissonMeasure_real_singleton)

theorem map_getD_range {β γ : Type} (xs : List β) (default : β) (f : β → γ) :
    (List.range xs.length).map (fun i => f (xs.getD i default)) = xs.map f := by
  apply List.ext_getElem
  · rw [List.length_map, List.length_map, List.length_range]
  · intro i hi hi'
    rw [List.getElem_map, List.getElem_map, List.getElem_range, List.getD_eq_getElem]

/-! ## Labelled counts -/

namespace Outcomes

/-- The outcomes that have rows of a count and a label. -/
noncomputable def ofCounts (rows : List (ℕ × ℕ)) : Outcomes Exact where
  values := rows.map fun row => .real row.1
  labels := rows.map Prod.snd

/-- The counts with a label, in the order of the rows. -/
def countsOf (rows : List (ℕ × ℕ)) (label : ℕ) : List ℕ :=
  (rows.filter fun row => row.2 = label).map Prod.fst

variable {o : Outcomes Exact} {rows rows' : List (ℕ × ℕ)}

theorem checkCounts_ofCounts (hrows : rows ≠ []) : (ofCounts rows).checkCounts = .ok () := by
  have hvalue (y : Exact) (hy : y ∈ (ofCounts rows).values) : ∃ n : ℕ, y = .real n := by
    obtain ⟨row, -, rfl⟩ := List.mem_map.1 hy
    exact ⟨row.1, rfl⟩
  refine checkCounts_eq_ok_iff.2 ⟨?_, fun y hy => ?_, fun y hy => ?_⟩
  · have hempty : ¬ (ofCounts rows).values.isEmpty = true := by
      rw [List.isEmpty_iff]
      exact mt List.map_eq_nil_iff.1 hrows
    have hlength : (ofCounts rows).labels.length = (ofCounts rows).values.length := by
      rw [ofCounts, List.length_map, List.length_map]
    have hfinite : ¬ ((ofCounts rows).values.any fun y => !Scalar.isFinite y) = true := by
      rw [Bool.not_eq_true, List.any_eq_false]
      intro y hy
      obtain ⟨n, rfl⟩ := hvalue y hy
      exact Bool.false_ne_true
    rw [check, if_neg hempty, if_neg (not_not.2 hlength), if_neg hfinite]
  · obtain ⟨n, rfl⟩ := hvalue y hy
    exact mt (Exact.real_lt_zero_iff _).1 (Nat.cast_nonneg n).not_gt
  · obtain ⟨n, rfl⟩ := hvalue y hy
    exact Exact.isWhole_real n

/-- The outcomes that pass are those of labelled counts. -/
theorem checkCounts_eq_ok_iff_exists :
    o.checkCounts = .ok () ↔ ∃ rows, rows ≠ [] ∧ o = ofCounts rows := by
  constructor
  · intro h
    obtain ⟨hcheck, -, hwhole⟩ := checkCounts_eq_ok_iff.1 h
    obtain ⟨hvalues, hlength, hfinite⟩ := check_eq_ok hcheck
    have hcount (y : Exact) (hy : y ∈ o.values) : Exact.real (Scalar.floor y : ℕ) = y := by
      have hy' := hwhole y hy
      rw [Exact.eq_real_of_isFinite (hfinite y hy)] at hy' ⊢
      exact congrArg Exact.real (of_decide_eq_true hy')
    let rows := (o.values.map Scalar.floor).zip o.labels
    have hfst : rows.map Prod.fst = o.values.map Scalar.floor :=
      List.map_fst_zip (by rw [List.length_map, hlength])
    have hsnd : rows.map Prod.snd = o.labels :=
      List.map_snd_zip (by rw [List.length_map, hlength])
    have hreal : rows.map (fun row => Exact.real row.1) = o.values := by
      show rows.map ((fun n : ℕ => Exact.real n) ∘ Prod.fst) = _
      rw [← List.map_map, hfst, List.map_map]
      exact (List.map_congr_left hcount).trans (List.map_id' _)
    refine ⟨rows, fun hnil => hvalues ?_, ?_⟩
    · rw [← hreal, hnil, List.map_nil]
    · rw [ofCounts, hreal, hsnd]
  · rintro ⟨rows, hrows, rfl⟩
    exact checkCounts_ofCounts hrows

theorem countsOf_perm (h : rows'.Perm rows) (label : ℕ) :
    (countsOf rows' label).Perm (countsOf rows label) :=
  (h.filter _).map _

theorem length_countsOf_le (rows : List (ℕ × ℕ)) (label : ℕ) :
    (countsOf rows label).length ≤ rows.length := by
  rw [countsOf, List.length_map]
  exact List.length_filter_le _ rows

/-- The rows with a label hold its counts. -/
theorem map_rowsOf (rows : List (ℕ × ℕ)) (label : ℕ) :
    (rowsOf (ofCounts rows).labels label).map (fun i => (ofCounts rows).values.getD i 0) =
      (countsOf rows label).map fun y : ℕ => Exact.real y := by
  let row := fun i => rows.getD i (0, 0)
  have hrange : (List.range rows.length).map row = rows :=
    (map_getD_range rows (0, 0) id).trans (List.map_id rows)
  have hvalue (i : ℕ) : (ofCounts rows).values.getD i 0 = Exact.real (row i).1 := by
    have hzero : (0 : Exact) = Exact.real ((0, 0) : ℕ × ℕ).1 := Exact.ofNat_eq 0
    rw [ofCounts, hzero, List.getD_map _ _ (fun row : ℕ × ℕ => Exact.real row.1)]
  have hlabel : rowsOf (ofCounts rows).labels label =
      (List.range rows.length).filter fun i => (row i).2 = label := by
    rw [rowsOf, ofCounts, List.length_map]
    refine List.filter_congr fun i hi => ?_
    have hlt := List.mem_range.1 hi
    have hrow : row i = rows[i] := List.getD_eq_getElem _ _ hlt
    rw [List.getElem?_map, List.getElem?_eq_getElem hlt, hrow, Option.map_some]
    rfl
  calc (rowsOf (ofCounts rows).labels label).map (fun i => (ofCounts rows).values.getD i 0)
      = ((List.range rows.length).filter fun i => (row i).2 = label).map
          fun i => Exact.real (row i).1 := by
        rw [hlabel]
        exact List.map_congr_left fun i _ => hvalue i
    _ = (((List.range rows.length).map row).filter fun r => r.2 = label).map
          fun r => Exact.real r.1 := by
        rw [List.filter_map, List.map_map]
        rfl
    _ = (countsOf rows label).map fun y : ℕ => Exact.real y := by
        rw [hrange, countsOf, List.map_map]
        rfl

/-- The counts of the labels, summed label by label, are those of the rows. -/
theorem sum_countsOf {labels : List ℕ} (hnodup : labels.Nodup)
    (hlabels : ∀ row ∈ rows, row.2 ∈ labels) (f : ℕ → ℕ → ℝ) :
    (labels.map fun label => ((countsOf rows label).map (f label)).sum).sum =
      (rows.map fun row => f row.2 row.1).sum := by
  induction rows with
  | nil => exact List.sum_eq_zero fun x hx => by obtain ⟨label, -, rfl⟩ := List.mem_map.1 hx; rfl
  | cons row rows ih =>
    obtain ⟨hrow, hrows⟩ := List.forall_mem_cons.1 hlabels
    have hsplit (label : ℕ) : ((countsOf (row :: rows) label).map (f label)).sum =
        (if row.2 = label then f label row.1 else 0) +
          ((countsOf rows label).map (f label)).sum := by
      unfold countsOf
      rw [List.filter_cons]
      by_cases heq : row.2 = label
      · rw [if_pos (decide_eq_true heq), if_pos heq, List.map_cons, List.map_cons, List.sum_cons]
      · rw [if_neg (mt of_decide_eq_true heq), if_neg heq, zero_add]
    -- One label, which occurs once, has the count of the first row.
    have hfirst : (labels.map fun label => if row.2 = label then f label row.1 else 0).sum =
        f row.2 row.1 := by
      rw [List.sum_map_eq_nsmul_single row.2 _ fun label hne _ => if_neg hne.symm,
        List.count_eq_one_of_mem hnodup hrow, one_nsmul, if_pos rfl]
    rw [List.map_congr_left fun label _ => hsplit label, List.sum_map_add, hfirst, ih hrows,
      List.map_cons, List.sum_cons]

end Outcomes

/-! ## Tallies -/

/-- The logarithm of the Poisson probability of a count, for the logarithm `η` of the rate. -/
noncomputable def logMass (η : ℝ) (y : ℕ) : ℝ := y * η - Real.exp η - Real.log y.factorial

theorem exp_logMass (η : ℝ) (y : ℕ) :
    Real.exp (logMass η y) = (poissonMeasure (Real.exp η).toNNReal).real {y} := by
  have hfactorial : (0 : ℝ) < y.factorial := Nat.cast_pos.2 y.factorial_pos
  rw [poissonMeasure_real_singleton, Real.coe_toNNReal _ (Real.exp_pos η).le, logMass,
    Real.exp_sub, Real.exp_log hfactorial, sub_eq_neg_add, Real.exp_add, Real.exp_nat_mul]

namespace Tally

/-- What the counts of a subject amount to. -/
noncomputable def ofCounts (label : ℕ) (counts : List ℕ) : Tally Exact where
  label := label
  observations := counts.length
  total := .real (counts.map fun y : ℕ => (y : ℝ)).sum
  logFactorials := .real (counts.map fun y : ℕ => Real.log y.factorial).sum

theorem ofCounts_of_perm {counts counts' : List ℕ} (h : counts'.Perm counts) (label : ℕ) :
    ofCounts label counts' = ofCounts label counts := by
  rw [ofCounts, ofCounts, h.length_eq, (h.map _).sum_eq, (h.map _).sum_eq]

theorem ofRows_ofCounts (rows : List (ℕ × ℕ)) (label : ℕ) :
    ofRows (Outcomes.ofCounts rows).values
        ⟨label, Outcomes.rowsOf (Outcomes.ofCounts rows).labels label⟩ =
      ofCounts label (Outcomes.countsOf rows label) := by
  generalize hcounts : Outcomes.countsOf rows label = counts
  have hfactorial (y : ℕ) :
      Scalar.logGamma (Exact.real y + 1) = Exact.real (Real.log y.factorial) := by
    rw [Exact.one_eq, Exact.real_add, Exact.logGamma_real (by positivity),
      Real.Gamma_nat_eq_factorial]
  unfold ofRows
  dsimp only
  rw [Outcomes.map_rowsOf, hcounts, ofCounts, List.length_map, List.map_map]
  congr 1
  · rw [← Series.sum_real, List.map_map]
    rfl
  · rw [← Series.sum_real, List.map_map]
    exact congrArg Series.sum (List.map_congr_left fun y _ => hfactorial y)

/-- The sums of a tally are enough for the probabilities of its counts. -/
theorem logProbability_ofCounts (label : ℕ) {counts : List ℕ}
    (hsize : counts.length ≤ Scalar.countLimit) (η : ℝ) :
    (ofCounts label counts).logProbability (.real η) = .real (counts.map (logMass η)).sum := by
  have hsum : (counts.map fun y : ℕ => (y : ℝ)).sum * η + -counts.length * Real.exp η -
      (counts.map fun y : ℕ => Real.log y.factorial).sum = (counts.map (logMass η)).sum := by
    clear hsize
    induction counts with
    | nil => simp
    | cons y counts ih =>
      rw [List.map_cons, List.map_cons, List.map_cons, List.sum_cons, List.sum_cons, List.sum_cons,
        List.length_cons, ← ih, logMass, Nat.cast_add_one]
      ring
  have hcount : (Scalar.ofCount counts.length : Exact) = .real counts.length := by
    rw [Scalar.ofCount, Nat.min_eq_left hsize]
    rfl
  rw [← hsum, logProbability, ofCounts]
  dsimp only
  rw [hcount]
  rfl

end Tally

/-! ## The model of labelled counts -/

theorem Target.addSubjects_of_real {σ : Type} {m : Model Exact σ} {θ : List Exact}
    {subjects : List ℕ} {f : ℕ → ℝ} {memory : σ}
    (h : ∀ i ∈ subjects, m.logLikelihood θ i memory = .ok (.real (f i)) memory) (total : ℝ) :
    addSubjects m θ subjects (.real total) memory =
      .ok (.real (total + (subjects.map f).sum)) memory := by
  induction subjects generalizing total with
  | nil =>
    rw [List.map_nil, List.sum_nil, add_zero]
    rfl
  | cons i subjects ih =>
    obtain ⟨hi, hrest⟩ := List.forall_mem_cons.1 h
    have hpositive : ¬ (Exact.real (f i) == -Scalar.infinity) = true := Bool.false_ne_true
    unfold addSubjects
    rw [bind_of_ok _ hi, if_neg hpositive, Exact.real_add, ih hrest, List.map_cons, List.sum_cons,
      add_assoc]

namespace Counts

variable {σ : Type} {c : Counts Exact} {rows rows' : List (ℕ × ℕ)} {intercepts : Intercepts}
  {θ : List ℝ}

/-- Whether a model has the tallies of labelled counts. -/
def IsTallied (c : Counts Exact) (rows : List (ℕ × ℕ)) : Prop :=
  c.tallies = (Outcomes.distinct (rows.map Prod.snd)).map fun label =>
    .ofCounts label (Outcomes.countsOf rows label)

/-- The logarithm of the rate of a subject, which its own intercept shifts if it has one. -/
noncomputable def logRate (c : Counts Exact) (θ : List ℝ) (subject : ℕ) : ℝ :=
  θ.getD 0 0 + if c.intercepts = .perSubject then θ.getD (1 + subject) 0 else 0

theorem tallies_ofCounts (rows : List (ℕ × ℕ)) :
    (Outcomes.ofCounts rows).subjects.map (Tally.ofRows (Outcomes.ofCounts rows).values) =
      (Outcomes.distinct (rows.map Prod.snd)).map fun label =>
        .ofCounts label (Outcomes.countsOf rows label) := by
  rw [Outcomes.subjects, List.map_map]
  exact List.map_congr_left fun label _ => Tally.ofRows_ofCounts rows label

theorem isTallied_of_ofOutcomes (h : ofOutcomes (.ofCounts rows) intercepts = .ok c) :
    c.IsTallied rows :=
  (ofOutcomes_eq_ok h).2.1.trans (tallies_ofCounts rows)

/-- The order of the rows makes no difference to the model. -/
theorem ofOutcomes_of_perm (h : rows'.Perm rows) (hrows : rows ≠ []) (intercepts : Intercepts) :
    ofOutcomes (.ofCounts rows') intercepts = ofOutcomes (.ofCounts rows) intercepts := by
  have hrows' : rows' ≠ [] := fun hnil => hrows (h.symm.trans (.of_eq hnil)).eq_nil
  have htallies : (Outcomes.ofCounts rows').subjects.map
        (Tally.ofRows (Outcomes.ofCounts rows').values) =
      (Outcomes.ofCounts rows).subjects.map (Tally.ofRows (Outcomes.ofCounts rows).values) := by
    rw [tallies_ofCounts, tallies_ofCounts, Outcomes.distinct_of_perm (h.map Prod.snd)]
    exact List.map_congr_left fun label _ =>
      Tally.ofCounts_of_perm (Outcomes.countsOf_perm h label) label
  have hsize : (Outcomes.ofCounts rows').size = (Outcomes.ofCounts rows).size := by
    rw [Outcomes.size, Outcomes.size, Outcomes.ofCounts, Outcomes.ofCounts, List.length_map,
      List.length_map, h.length_eq]
  unfold ofOutcomes
  rw [Outcomes.checkCounts_ofCounts hrows', Outcomes.checkCounts_ofCounts hrows, htallies, hsize]

theorem real_logRate (c : Counts Exact) (θ : List ℝ) (subject : ℕ) :
    logMean (θ.map .real) + c.intercept (θ.map .real) subject = .real (c.logRate θ subject) := by
  unfold logMean intercept logRate
  rw [getD_map_real]
  cases c.intercepts with
  | none =>
    rw [Exact.zero_eq, Exact.real_add, if_neg Intercepts.noConfusion]
  | perSubject =>
    dsimp only
    rw [getD_map_real, Exact.real_add, if_pos rfl]

/-- The likelihood of a subject is that of the counts with its label. -/
theorem logProbability_of_isTallied (h : c.IsTallied rows)
    (hsize : rows.length ≤ Scalar.countLimit) (hθ : θ.length = c.dimension) {i label : ℕ}
    (hlabel : (Outcomes.distinct (rows.map Prod.snd))[i]? = some label) :
    c.logProbability (θ.map .real) i =
      .ok (.real ((Outcomes.countsOf rows label).map (logMass (c.logRate θ i))).sum) := by
  have hlength : (θ.map Exact.real).length = c.dimension := by rw [List.length_map, hθ]
  have hcheck : c.check (θ.map .real) i =
      .ok (.ofCounts label (Outcomes.countsOf rows label)) := by
    unfold check
    rw [if_neg (not_not.2 hlength), h, List.getElem?_map, hlabel]
    rfl
  have hcounts : (Outcomes.countsOf rows label).length ≤ Scalar.countLimit :=
    (Outcomes.length_countsOf_le rows label).trans hsize
  unfold logProbability
  rw [hcheck, real_logRate]
  exact congrArg Except.ok (Tally.logProbability_ofCounts label hcounts _)

theorem likelihoods_of_isTallied (h : c.IsTallied rows) (hsize : rows.length ≤ Scalar.countLimit)
    (hθ : θ.length = c.dimension) {i label : ℕ}
    (hlabel : (Outcomes.distinct (rows.map Prod.snd))[i]? = some label) (memory : σ) :
    (c.model : Model Exact σ).logLikelihood (θ.map .real) i memory =
        .ok (.real ((Outcomes.countsOf rows label).map (logMass (c.logRate θ i))).sum) memory ∧
      (c.model : Model Exact σ).likelihood (θ.map .real) i memory =
        .ok (.real ((Outcomes.countsOf rows label).map fun y =>
          (poissonMeasure (Real.exp (c.logRate θ i)).toNNReal).real {y}).prod) memory := by
  have hlog := logProbability_of_isTallied h hsize hθ hlabel
  constructor
  · show Likelihood.ofPure c.logProbability _ _ _ = _
    unfold Likelihood.ofPure
    rw [hlog]
  · have hprod (counts : List ℕ) (η : ℝ) : Real.exp (counts.map (logMass η)).sum =
        (counts.map fun y => (poissonMeasure (Real.exp η).toNNReal).real {y}).prod := by
      rw [Real.exp_list_sum, List.map_map]
      exact congrArg List.prod (List.map_congr_left fun y _ => exp_logMass η y)
    show Likelihood.ofPure (fun θ subject => (c.logProbability θ subject).map Scalar.exp) _ _ _ = _
    unfold Likelihood.ofPure
    dsimp only
    rw [hlog, ← hprod]
    rfl

/-- The sum over the subjects is one over the rows. -/
theorem total_of_isTallied (h : c.IsTallied rows) (hsize : rows.length ≤ Scalar.countLimit)
    {t : Target Exact σ} (ht : t.model = c.model) (hθ : θ.length = c.dimension) (memory : σ) :
    t.logLikelihood (θ.map .real) memory = .ok (.real (rows.map fun row => logMass
      (c.logRate θ ((Outcomes.distinct (rows.map Prod.snd)).idxOf row.2)) row.1).sum) memory := by
  generalize hlabels : Outcomes.distinct (rows.map Prod.snd) = labels
  have hnodup : labels.Nodup := by
    rw [← hlabels]
    exact (Outcomes.pairwise_distinct _).imp Nat.ne_of_lt
  have hmem : ∀ row ∈ rows, row.2 ∈ labels := by
    rw [← hlabels]
    exact fun row hrow => Outcomes.mem_distinct.2 (List.mem_map_of_mem hrow)
  have hsubjects : t.model.subjects = labels.length := by
    rw [ht]
    show c.tallies.length = _
    rw [h, hlabels, List.length_map]
  -- The subject with a label is numbered by the place of the label among all labels.
  let term := fun label => ((Outcomes.countsOf rows label).map
    (logMass (c.logRate θ (labels.idxOf label)))).sum
  have hterm (i : ℕ) (hi : i ∈ List.range t.model.subjects) :
      t.model.logLikelihood (θ.map .real) i memory =
        .ok (.real (term (labels.getD i 0))) memory := by
    rw [hsubjects, List.mem_range] at hi
    have hlabel : (Outcomes.distinct (rows.map Prod.snd))[i]? = some labels[i] := by
      rw [hlabels, List.getElem?_eq_getElem hi]
    rw [ht, (likelihoods_of_isTallied h hsize hθ hlabel memory).1, List.getD_eq_getElem _ _ hi]
    dsimp only [term]
    rw [hnodup.idxOf_getElem i hi]
  have hrange : (List.range t.model.subjects).map (fun i => term (labels.getD i 0)) =
      labels.map term := by
    rw [hsubjects]
    exact map_getD_range labels 0 term
  have hrows : (labels.map term).sum = (rows.map fun row =>
      logMass (c.logRate θ (labels.idxOf row.2)) row.1).sum :=
    Outcomes.sum_countsOf hnodup hmem fun label => logMass (c.logRate θ (labels.idxOf label))
  have hsum := Target.addSubjects_of_real hterm 0
  rw [hrange, hrows, zero_add] at hsum
  refine Target.logLikelihood_of_addSubjects ?_ ?_
  · rw [List.length_map, hθ, Target.dimension, ht, dimension_model]
  · rw [Exact.zero_eq]
    exact hsum

/-- Without intercepts the sum takes the counts as those of one subject. -/
theorem total_of_isTallied_none (h : c.IsTallied rows) (hsize : rows.length ≤ Scalar.countLimit)
    (hintercepts : c.intercepts = .none) {t : Target Exact σ} (ht : t.model = c.model)
    (hθ : θ.length = 1) (memory : σ) :
    t.logLikelihood (θ.map .real) memory =
      .ok (.real ((rows.map Prod.fst).map (logMass (θ.getD 0 0))).sum) memory := by
  have hθ' : θ.length = c.dimension := by rw [hθ, dimension, hintercepts]
  have hrate (i : ℕ) : c.logRate θ i = θ.getD 0 0 := by
    rw [logRate, hintercepts, if_neg Intercepts.noConfusion, add_zero]
  rw [total_of_isTallied h hsize ht hθ' memory, List.map_map]
  congr 3
  exact List.map_congr_left fun row _ => congrFun (congrArg logMass (hrate _)) row.1

theorem exists_ofOutcomes (hrows : rows ≠ []) (intercepts : Intercepts) :
    ∃ c, ofOutcomes (.ofCounts rows) intercepts = .ok c := by
  unfold ofOutcomes
  rw [Outcomes.checkCounts_ofCounts hrows]
  exact ⟨_, rfl⟩

/-- Data that pass are labelled counts, and their model has the intercepts that are asked for and
the labels in order as its subjects. The likelihood of a subject is the product of the Poisson
probabilities of the counts with its label, at the common rate shifted by the subject's own
intercept if there are intercepts; the sum of the log-likelihoods is over the rows, each of them
once. The model is the same for every order of the rows, and without intercepts the sum is the same
for all labels. -/
theorem logLikelihood_sufficient (data : Outcomes Exact) (accepted : data.checkCounts = .ok ())
    (hsize : data.size < 2 ^ 32) (intercepts : Intercepts) :
    (∃ rows, data = .ofCounts rows) ∧ ∀ rows, data = .ofCounts rows →
      let labels := Outcomes.distinct data.labels
      ∃ c, ofOutcomes data intercepts = .ok c ∧ c.intercepts = intercepts ∧
        c.tallies.map Tally.label = labels ∧
        (∀ (logMeanPrior deviationPrior : Prior Exact) (rule : Quadrature.Rule Exact) (σ : Type)
            (t : Target Exact σ) (θ : List ℝ) (memory : σ),
          t.model = { c with logMeanPrior, deviationPrior, rule }.model →
          θ.length = t.dimension →
            (∀ i label, labels[i]? = some label →
              t.model.logLikelihood (θ.map .real) i memory = .ok (.real
                ((Outcomes.countsOf rows label).map (logMass (c.logRate θ i))).sum) memory ∧
              t.model.likelihood (θ.map .real) i memory = .ok (.real
                ((Outcomes.countsOf rows label).map fun y =>
                  (poissonMeasure (Real.exp (c.logRate θ i)).toNNReal).real {y}).prod) memory) ∧
            t.logLikelihood (θ.map .real) memory = .ok (.real
              (rows.map fun row => logMass (c.logRate θ (labels.idxOf row.2)) row.1).sum)
              memory) ∧
        (∀ rows', rows'.Perm rows → ofOutcomes (.ofCounts rows') intercepts = .ok c) ∧
        (intercepts = .none → ∀ rows', (rows'.map Prod.fst).Perm (rows.map Prod.fst) →
          ∃ c', ofOutcomes (.ofCounts rows') .none = .ok c' ∧
            ∀ (σ : Type) (t t' : Target Exact σ) (θ : List ℝ) (memory : σ), t.model = c.model →
              t'.model = c'.model → θ.length = 1 →
                t'.logLikelihood (θ.map .real) memory = t.logLikelihood (θ.map .real) memory) := by
  obtain ⟨rows, -, hdata⟩ := Outcomes.checkCounts_eq_ok_iff_exists.1 accepted
  refine ⟨⟨rows, hdata⟩, ?_⟩
  rintro rows rfl labels
  have hlimit (rows' : List (ℕ × ℕ)) (h : rows'.length = rows.length) :
      rows'.length ≤ Scalar.countLimit := by
    rw [Outcomes.size, Outcomes.ofCounts, List.length_map] at hsize
    have hcount : Scalar.countLimit = 2 ^ 32 - 1 := rfl
    omega
  have hne : rows ≠ [] := by
    rintro rfl
    cases accepted
  obtain ⟨c, hc⟩ := exists_ofOutcomes hne intercepts
  have htallied := isTallied_of_ofOutcomes hc
  refine ⟨c, hc, (ofOutcomes_eq_ok hc).2.2.2, ?_, ?_,
    fun rows' h => (ofOutcomes_of_perm h hne intercepts).trans hc, ?_⟩
  · rw [htallied, List.map_map]
    exact List.map_id _
  · intro logMeanPrior deviationPrior rule σ t θ memory ht hθ
    have htallied' : { c with logMeanPrior, deviationPrior, rule }.IsTallied rows := htallied
    rw [Target.dimension, ht, dimension_model] at hθ
    refine ⟨fun i label hlabel => ?_, total_of_isTallied htallied' (hlimit rows rfl) ht hθ memory⟩
    rw [ht]
    exact likelihoods_of_isTallied htallied' (hlimit rows rfl) hθ hlabel memory
  · rintro rfl rows' hperm
    have hlength : rows'.length = rows.length := by
      rw [← List.length_map (f := Prod.fst), hperm.length_eq, List.length_map]
    have hne' : rows' ≠ [] := by
      rw [← List.length_pos_iff, hlength]
      exact List.length_pos_iff.2 hne
    obtain ⟨c', hc'⟩ := exists_ofOutcomes hne' .none
    refine ⟨c', hc', fun σ t t' θ memory ht ht' hθ => ?_⟩
    rw [total_of_isTallied_none (isTallied_of_ofOutcomes hc') (hlimit rows' hlength)
        (ofOutcomes_eq_ok hc').2.2.2 ht' hθ memory,
      total_of_isTallied_none htallied (hlimit rows rfl) (ofOutcomes_eq_ok hc).2.2.2 ht hθ memory,
      (hperm.map _).sum_eq]

/-- Three counts on the subjects 3 and 7, in the order 7, 3, 7. The second subject has two of them,
and its own intercept in the third component. -/
theorem logLikelihood_sufficient_pairedCounts :
    ∃ c, ofOutcomes pairedCounts .perSubject = .ok c ∧
      let θ : List ℝ := [0, 1, 2, 3]
      let t : Target Exact Unit := ⟨c.model, .empty⟩
      pairedCounts.checkCounts = .ok () ∧ pairedCounts.size < 2 ^ 32 ∧
        t.model.logLikelihood (θ.map .real) 1 () =
          .ok (.real ([2, 1].map (logMass 2)).sum) () ∧
        t.logLikelihood (θ.map .real) () =
          .ok (.real [logMass 2 2, logMass 1 0, logMass 2 1].sum) () := by
  have hdata : pairedCounts = .ofCounts [(2, 7), (0, 3), (1, 7)] := rfl
  have hsize : pairedCounts.size < 2 ^ 32 := by decide
  have hlabels : Outcomes.distinct pairedCounts.labels = [3, 7] := by
    rw [← Outcomes.labels_subjects, subjects_pairedCounts]
    rfl
  obtain ⟨-, counts⟩ :=
    logLikelihood_sufficient pairedCounts checkCounts_pairedCounts hsize .perSubject
  obtain ⟨c, hc, hintercepts, -, likelihoods, -⟩ := counts _ hdata
  rw [hlabels] at likelihoods
  have hsubjects : c.subjects = 2 := by
    rw [subjects, (ofOutcomes_eq_ok hc).2.1, subjects_pairedCounts]
    rfl
  have hdimension : (c.model : Model Exact Unit).dimension = 4 := by
    rw [dimension_model, dimension, hintercepts, hsubjects]
  have hrate (i : ℕ) : c.logRate [0, 1, 2, 3] i = ([0, 1, 2, 3] : List ℝ).getD (1 + i) 0 := by
    rw [logRate, hintercepts, if_pos rfl, List.getD_cons_zero, zero_add]
  obtain ⟨subject, total⟩ := likelihoods c.logMeanPrior c.deviationPrior c.rule Unit
    ⟨c.model, .empty⟩ [0, 1, 2, 3] () rfl hdimension.symm
  refine ⟨c, hc, checkCounts_pairedCounts, hsize, ?_, ?_⟩
  · have hsecond := (subject 1 7 rfl).1
    rw [hrate] at hsecond
    exact hsecond
  · simp only [hrate] at total
    exact total

end Counts

end Metropolis
