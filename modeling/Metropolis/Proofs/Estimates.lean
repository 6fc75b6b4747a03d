import Metropolis.Model.Counts
import Metropolis.Model.Gaussian
import Metropolis.Proofs.Diagonal
import Metropolis.Proofs.Grouping

/-!
# Point estimates

Over the exact numbers the estimates that the models take from data that pass their checks are
finite, since no subject is without an observation and every logarithm is one of a number that is
kept away from zero. So both models have a starting distribution for every positive coefficient of
variation.
-/

namespace Metropolis

/-! ## Series of finite numbers -/

namespace Exact

/-- A number of things, which stays at the limit above it. -/
theorem ofCount_eq (n : ℕ) :
    (Scalar.ofCount n : Exact) = real (min n Scalar.countLimit : ℕ) := rfl

theorem ofCount_of_le {n : ℕ} (h : n ≤ Scalar.countLimit) :
    (Scalar.ofCount n : Exact) = real n := by
  rw [ofCount_eq, Nat.min_eq_left h]

theorem one_le_min_countLimit {n : ℕ} (h : 0 < n) :
    (1 : ℝ) ≤ (min n Scalar.countLimit : ℕ) := by
  have hlimit : 0 < Scalar.countLimit := by decide
  exact Nat.one_le_cast.2 (lt_min h hlimit)

theorem min_countLimit_pos {n : ℕ} (h : 0 < n) : (0 : ℝ) < (min n Scalar.countLimit : ℕ) :=
  zero_lt_one.trans_le (one_le_min_countLimit h)

end Exact

theorem Scalar.ofCount_real {n : Nat} (h : 0 < n) :
    ∃ r : ℝ, (Scalar.ofCount n : Exact) = Exact.real r ∧ 0 < r :=
  ⟨_, Exact.ofCount_eq n, Exact.min_countLimit_pos h⟩

namespace Series

variable {xs : List Exact}

theorem isFinite_foldl {total : Exact} (htotal : Scalar.isFinite total = true)
    (h : ∀ x ∈ xs, Scalar.isFinite x = true) : Scalar.isFinite (xs.foldl (· + ·) total) = true := by
  induction xs generalizing total with
  | nil => exact htotal
  | cons x xs ih =>
    exact ih (Exact.isFinite_add htotal (h x List.mem_cons_self))
      fun y hy => h y (List.mem_cons_of_mem _ hy)

theorem isFinite_sum (h : ∀ x ∈ xs, Scalar.isFinite x = true) :
    Scalar.isFinite (sum xs) = true :=
  isFinite_foldl rfl h

theorem sum_real (xs : List ℝ) : sum (xs.map Exact.real) = Exact.real xs.sum := by
  have hfold : ∀ (ys : List ℝ) (total : ℝ),
      (ys.map Exact.real).foldl (· + ·) (Exact.real total) = Exact.real (total + ys.sum) := by
    intro ys
    induction ys with
    | nil =>
      intro total
      rw [List.sum_nil, add_zero]
      rfl
    | cons y ys ih =>
      intro total
      rw [List.map_cons, List.foldl_cons, Exact.real_add, ih, List.sum_cons, add_assoc]
  rw [sum, Exact.ofNat_eq, Exact.real_neg, hfold, Nat.cast_zero, neg_zero, zero_add]

theorem isFinite_mean (hne : xs ≠ []) (h : ∀ x ∈ xs, Scalar.isFinite x = true) :
    Scalar.isFinite (mean xs) = true := by
  obtain ⟨r, hr, hpos⟩ := Scalar.ofCount_real (List.length_pos_iff.2 hne)
  unfold mean
  rw [if_neg (mt List.isEmpty_iff.1 hne), hr]
  exact Exact.isFinite_div (isFinite_sum h) hpos.ne'

theorem isFinite_squaredDistances {center : Exact} (hcenter : Scalar.isFinite center = true)
    (h : ∀ x ∈ xs, Scalar.isFinite x = true) :
    Scalar.isFinite (squaredDistances center xs) = true := by
  refine isFinite_sum fun y hy => ?_
  obtain ⟨x, hx, rfl⟩ := List.mem_map.1 hy
  have hdistance := Exact.isFinite_sub (h x hx) hcenter
  exact Exact.isFinite_mul hdistance hdistance

theorem isFinite_sampleVariance (h : ∀ x ∈ xs, Scalar.isFinite x = true) :
    Scalar.isFinite (sampleVariance xs) = true := by
  unfold sampleVariance
  split
  · rfl
  next hlength =>
    have hne : xs ≠ [] := by
      rintro rfl
      exact hlength (by decide)
    have htwo : 2 ≤ min xs.length Scalar.countLimit := by
      have hlimit : 2 ≤ Scalar.countLimit := by decide
      omega
    generalize hn : min xs.length Scalar.countLimit = n at htwo
    have hcount : (Scalar.ofCount xs.length - 1 : Exact) = Exact.real (n - 1) := by
      rw [Scalar.ofCount, hn, Exact.ofNat_eq 1]
      show Exact.real n - _ = _
      rw [Exact.real_sub, Nat.cast_one]
    have hnonzero : (n - 1 : ℝ) ≠ 0 := by
      have hreal : (2 : ℝ) ≤ n := by exact_mod_cast htwo
      linarith
    rw [hcount]
    exact Exact.isFinite_div (isFinite_squaredDistances (isFinite_mean hne h) h) hnonzero

end Series

namespace Exact

variable {x : Exact} {low : ℝ}

/-- A number that is kept above a bound is finite if it was, and also if it was undefined. -/
theorem larger_eq_real (h : Scalar.isFinite x = true ∨ Scalar.isUndefined x = true) (low : ℝ) :
    ∃ r, Scalar.larger x (real low) = real r ∧ low ≤ r := by
  cases x with
  | real x => exact ⟨max x low, larger_real x low, le_max_right x low⟩
  | undefined => exact ⟨low, rfl, le_refl low⟩
  | _ => rcases h with h | h <;> cases h

theorem isFinite_larger (h : Scalar.isFinite x = true ∨ Scalar.isUndefined x = true) (low : ℝ) :
    Scalar.isFinite (Scalar.larger x (real low)) = true := by
  obtain ⟨r, hr, -⟩ := larger_eq_real h low
  rw [hr]
  rfl

theorem isFinite_log_larger (h : Scalar.isFinite x = true) (hlow : 0 < low) :
    Scalar.isFinite (Scalar.log (Scalar.larger x (real low))) = true := by
  obtain ⟨r, hr, hle⟩ := larger_eq_real (.inl h) low
  rw [hr, log_real (lt_of_lt_of_le hlow hle)]
  rfl

theorem sqrt_cases (h : Scalar.isFinite x = true) :
    Scalar.isFinite (Scalar.sqrt x) = true ∨ Scalar.isUndefined (Scalar.sqrt x) = true := by
  rw [eq_real_of_isFinite h]
  by_cases hnonneg : 0 ≤ x.toReal
  · exact .inl (by rw [sqrt_real hnonneg]; rfl)
  · exact .inr (congrArg isUndefined (if_neg hnonneg))

end Exact

/-! ## The estimates of a normal model -/

namespace Gaussian

variable {g : Gaussian Exact} {data : Outcomes Exact}

theorem ofOutcomes_eq_ok {α : Type} [Scalar α] {g : Gaussian α} {data : Outcomes α}
    (h : ofOutcomes data = .ok g) : data.check = .ok () ∧ g.outcomes = data.values := by
  unfold ofOutcomes at h
  cases hcheck : data.check with
  | error cause => rw [hcheck] at h; cases h
  | ok u =>
    rw [hcheck] at h
    cases h
    exact ⟨rfl, rfl⟩

theorem isFinite_estimates (hne : g.outcomes ≠ [])
    (h : ∀ y ∈ g.outcomes, Scalar.isFinite y = true) :
    ∀ x ∈ g.estimates, Scalar.isFinite x = true := by
  intro x hx
  unfold estimates at hx
  rcases List.mem_cons.1 hx with rfl | hx
  · exact Series.isFinite_mean hne h
  · rw [List.mem_singleton.1 hx]
    exact Exact.isFinite_larger (.inl (Series.isFinite_sampleVariance h)) _

end Gaussian

/-! ## The estimates of a model of counts -/

/-- What is kept of the counts of a subject is finite. -/
theorem Tally.isFinite_ofRows {values : List Exact}
    (h : ∀ y ∈ values, Scalar.isFinite y = true ∧ ¬ y < 0) (subject : Subject) :
    Scalar.isFinite (ofRows values subject).total = true ∧
      Scalar.isFinite (ofRows values subject).logFactorials = true := by
  have hcount (y : Exact) (hy : y ∈ subject.rows.map fun row => values.getD row 0) :
      ∃ r : ℝ, y = .real r ∧ 0 ≤ r := by
    obtain ⟨row, -, rfl⟩ := List.mem_map.1 hy
    rw [List.getD_eq_getElem?_getD]
    cases hrow : values[row]? with
    | none => exact ⟨_, rfl, Nat.cast_nonneg 0⟩
    | some y =>
      obtain ⟨hfinite, hneg⟩ := h y (List.mem_of_getElem? hrow)
      rw [Exact.eq_real_of_isFinite hfinite, Exact.ofNat_eq, Exact.real_lt, Nat.cast_zero] at hneg
      exact ⟨_, Exact.eq_real_of_isFinite hfinite, not_lt.1 hneg⟩
  refine ⟨Series.isFinite_sum fun y hy => ?_, Series.isFinite_sum fun x hx => ?_⟩
  · obtain ⟨r, rfl, -⟩ := hcount y hy
    rfl
  · obtain ⟨y, hy, rfl⟩ := List.mem_map.1 hx
    obtain ⟨r, rfl, hr⟩ := hcount y hy
    have hpos : 0 < r + (1 : ℕ) := by
      rw [Nat.cast_one]
      linarith
    rw [Exact.ofNat_eq, Exact.real_add, Exact.logGamma_real hpos]
    rfl

namespace Counts

/-- A model of counts whose subjects have different labels and have all been observed. -/
structure IsObserved (c : Counts Exact) : Prop where
  labels_nodup : (c.tallies.map Tally.label).Nodup
  tallies_ne_nil : c.tallies ≠ []
  observations_pos : 0 < c.observations
  isFinite_total : ∀ t ∈ c.tallies, Scalar.isFinite t.total = true
  isFinite_logFactorials : ∀ t ∈ c.tallies, Scalar.isFinite t.logFactorials = true
  tally_pos : ∀ t ∈ c.tallies, 0 < t.observations

theorem ofOutcomes_eq_ok {α : Type} [Scalar α] {c : Counts α} {data : Outcomes α}
    {intercepts : Intercepts} (h : ofOutcomes data intercepts = .ok c) :
    data.checkCounts = .ok () ∧ c.tallies = data.subjects.map (Tally.ofRows data.values) ∧
      c.observations = data.size ∧ c.intercepts = intercepts := by
  unfold ofOutcomes at h
  cases hcheck : data.checkCounts with
  | error cause => rw [hcheck] at h; cases h
  | ok u =>
    rw [hcheck] at h
    cases h
    exact ⟨rfl, rfl, rfl, rfl⟩

theorem isObserved_of_ofOutcomes {c : Counts Exact} {data : Outcomes Exact}
    {intercepts : Intercepts} (h : ofOutcomes data intercepts = .ok c) : c.IsObserved := by
  obtain ⟨hcounts, htallies, hobservations, -⟩ := ofOutcomes_eq_ok h
  have hcheck := Outcomes.check_of_checkCounts hcounts
  obtain ⟨hvalues, -, hfinite⟩ := Outcomes.check_eq_ok hcheck
  have htally (t : Tally Exact) (ht : t ∈ c.tallies) : Scalar.isFinite t.total = true ∧
      Scalar.isFinite t.logFactorials = true ∧ 0 < t.observations := by
    rw [htallies] at ht
    obtain ⟨subject, hsubject, rfl⟩ := List.mem_map.1 ht
    obtain ⟨htotal, hfactorials⟩ := Tally.isFinite_ofRows
      (fun y hy => ⟨hfinite y hy, Outcomes.not_negative_of_checkCounts hcounts y hy⟩) subject
    refine ⟨htotal, hfactorials, ?_⟩
    show 0 < (subject.rows.map _).length
    rw [List.length_map, List.length_pos_iff]
    exact (Outcomes.rows_of_mem_subjects hsubject).2
  refine ⟨?_, ?_, ?_, fun t ht => (htally t ht).1, fun t ht => (htally t ht).2.1,
    fun t ht => (htally t ht).2.2⟩
  · rw [htallies, List.map_map]
    show (data.subjects.map Subject.label).Nodup
    rw [Outcomes.labels_subjects]
    exact (Outcomes.pairwise_distinct _).imp Nat.ne_of_lt
  · rw [htallies, Ne, List.map_eq_nil_iff]
    exact Outcomes.subjects_ne_nil hcheck
  · rw [hobservations]
    exact List.length_pos_iff.2 hvalues

variable {c : Counts Exact}

theorem IsObserved.subjects_pos (h : c.IsObserved) : 0 < c.subjects :=
  List.length_pos_iff.2 h.tallies_ne_nil

theorem isFinite_commonLogRate (h : c.IsObserved) : Scalar.isFinite c.commonLogRate = true := by
  obtain ⟨r, hr, hpos⟩ := Scalar.ofCount_real h.observations_pos
  have hsum : Scalar.isFinite (Series.sum (c.tallies.map Tally.total)) = true := by
    refine Series.isFinite_sum fun x hx => ?_
    obtain ⟨t, ht, rfl⟩ := List.mem_map.1 hx
    exact h.isFinite_total t ht
  unfold commonLogRate
  rw [hr]
  exact Exact.isFinite_log_larger (Exact.isFinite_div hsum hpos.ne') (by norm_num)

theorem isFinite_logRate (h : c.IsObserved) {t : Tally Exact} (ht : t ∈ c.tallies) :
    Scalar.isFinite (Scalar.log t.rate) = true := by
  obtain ⟨r, hr, hpos⟩ := Scalar.ofCount_real (h.tally_pos t ht)
  unfold Tally.rate
  rw [hr]
  exact Exact.isFinite_log_larger (Exact.isFinite_div (h.isFinite_total t ht) hpos.ne')
    (by norm_num)

theorem length_estimates {α : Type} [Scalar α] (c : Counts α) :
    c.estimates.length = c.dimension := by
  unfold estimates dimension
  cases c.intercepts with
  | none => rfl
  | perSubject =>
    simp only [List.length_append, List.length_cons, List.length_map, List.length_nil, subjects]

theorem isFinite_estimates (h : c.IsObserved) : ∀ x ∈ c.estimates, Scalar.isFinite x = true := by
  have hcommon := isFinite_commonLogRate h
  intro x hx
  unfold estimates at hx
  dsimp only at hx
  split at hx
  · rw [List.mem_singleton.1 hx]
    exact hcommon
  · generalize hraw : c.tallies.map (fun t => Scalar.log t.rate - c.commonLogRate) = raw at hx
    have hfinite : ∀ u ∈ raw, Scalar.isFinite u = true := by
      rw [← hraw]
      intro u hu
      obtain ⟨t, ht, rfl⟩ := List.mem_map.1 hu
      exact Exact.isFinite_sub (isFinite_logRate h ht) hcommon
    have hne : raw ≠ [] := by
      rw [← hraw, Ne, List.map_eq_nil_iff]
      exact h.tallies_ne_nil
    have hcentre := Series.isFinite_mean hne hfinite
    rcases List.mem_append.1 hx with hx | hx
    · rcases List.mem_cons.1 hx with rfl | hx
      · exact Exact.isFinite_add hcommon hcentre
      · obtain ⟨u, hu, rfl⟩ := List.mem_map.1 hx
        exact Exact.isFinite_sub (hfinite u hu) hcentre
    · rw [List.mem_singleton.1 hx]
      exact Exact.isFinite_larger (Exact.sqrt_cases (Series.isFinite_sampleVariance hfinite)) _

end Counts

end Metropolis
