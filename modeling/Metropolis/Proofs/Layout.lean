import Metropolis.Proofs.Estimates
import Metropolis.Proofs.Factorization
import Metropolis.Proofs.Order

/-!
# The layout of a parameter vector

The names of a model's parameters, its starting mean, its priors and its likelihoods each follow the
same layout: for counts with intercepts the logarithm of the rate, the intercept of every subject,
and their standard deviation. `IsLaidOut` and `Registers` say what it means that they agree, and in
both models they do.
-/

namespace Metropolis

variable {α σ : Type}

/-! ## Priors that compare with themselves -/

namespace Exact

theorem beq_self {x : Exact} (h : Scalar.isUndefined x = false) : (x == x) = true := by
  cases x with
  | real x => exact decide_eq_true rfl
  | undefined => cases h
  | _ => rfl

theorem beq_self_of_pos {x : Exact} (h : 0 < x) : (x == x) = true := by
  obtain rfl | ⟨r, rfl, -⟩ := cases_of_pos h <;> exact beq_self rfl

theorem beq_self_of_isFinite {x : Exact} (h : Scalar.isFinite x = true) : (x == x) = true := by
  rw [eq_real_of_isFinite h]
  exact beq_self rfl

end Exact

/-- A valid prior has no undefined hyperparameter, so that it equals itself. -/
theorem Prior.beq_self {p : Prior Exact} (h : p.isValid = true) : (p == p) = true := by
  have both {a b : Bool} (ha : a = true) (hb : b = true) : (a && b) = true := by rw [ha, hb]; rfl
  cases p with
  | flat => rfl
  | normal mean variance =>
    rw [isValid, Bool.and_eq_true, decide_eq_true_eq] at h
    exact both (Exact.beq_self_of_isFinite h.1) (Exact.beq_self_of_pos h.2)
  | uniform lower upper =>
    rw [isValid, Bool.and_eq_true, Bool.and_eq_true] at h
    exact both (Exact.beq_self_of_isFinite h.1.1) (Exact.beq_self_of_isFinite h.1.2)
  | gamma shape rate =>
    rw [isValid, Bool.and_eq_true, decide_eq_true_eq, decide_eq_true_eq] at h
    exact both (Exact.beq_self_of_pos h.1) (Exact.beq_self_of_pos h.2)
  | inverseGamma shape scale =>
    rw [isValid, Bool.and_eq_true, decide_eq_true_eq, decide_eq_true_eq] at h
    exact both (Exact.beq_self_of_pos h.1) (Exact.beq_self_of_pos h.2)
  | halfNormal scale =>
    rw [isValid, Bool.and_eq_true, decide_eq_true_eq] at h
    exact Exact.beq_self_of_pos h.1
  | logNormal mu sigma =>
    rw [isValid, Bool.and_eq_true, decide_eq_true_eq] at h
    exact both (Exact.beq_self_of_isFinite h.1) (Exact.beq_self_of_pos h.2)

/-- A prior of its own for a parameter that another registration does not mention. -/
theorem Registration.compatible_fixed [Scalar α] {index : Nat} (prior : Prior α)
    (other : Registration α) (hother : ¬ other.Mentions index) (hindex : index ≠ other.index) :
    (Registration.fixed index prior).Compatible other where
  left := hother
  right := hindex
  hyper _ _ _ _ _ _ _ h := by cases h

/-! ## Registries of a whole parameter vector -/

namespace Registry

variable {r : Registry α} {log : List (Registration α)}

theorem firstGap_range' {entries : List (Nat × Entry α)} {start n : Nat}
    (h : entries.map Prod.fst = List.range' start n) : firstGap start entries = start + n := by
  induction n generalizing entries start with
  | zero =>
    rw [List.range'_zero, List.map_eq_nil_iff] at h
    rw [h]
    rfl
  | succ n ih =>
    cases entries with
    | nil => cases h
    | cons head rest =>
      rw [List.map_cons, List.range'_succ, List.cons.injEq] at h
      rw [firstGap, if_pos h.1, ih h.2]
      omega

/-- A registry with an entry for every parameter, and no others, covers the parameter vector. -/
theorem checkCoverage_of_indices {n : Nat} (h : r.indices = List.range n) :
    r.checkCoverage n = .ok () := by
  have hnone : (List.range n).find? (fun i => decide (n ≤ i)) = none := by
    rw [List.find?_eq_none]
    intro i hi
    have hlt := List.mem_range.1 hi
    rw [decide_eq_true_eq]
    omega
  have hgap : firstGap 0 r.entries = n := by
    rw [List.range_eq_range'] at h
    rw [firstGap_range' h, Nat.zero_add]
  rw [checkCoverage_eq, h, hnone, hgap]
  exact if_neg (Nat.lt_irrefl n)

theorem mem_realizations (ordered : r.indices.Pairwise (· < ·)) {i : Nat} :
    i ∈ r.realizations ↔ ∃ effect spread, r.get? i = some (.realization effect spread) := by
  simp only [realizations, List.mem_filterMap, get?_eq_some_iff ordered]
  constructor
  · rintro ⟨⟨j, entry⟩, hmem, hi⟩
    cases entry <;> cases hi
    exact ⟨_, _, hmem⟩
  · rintro ⟨effect, spread, hmem⟩
    exact ⟨_, hmem, rfl⟩

theorem pairwise_realizations (ordered : r.indices.Pairwise (· < ·)) :
    r.realizations.Pairwise (· < ·) := by
  apply List.Pairwise.filterMap _ _ (List.pairwise_map.1 ordered)
  rintro ⟨i, entry⟩ ⟨i', entry'⟩ hlt j hj j' hj'
  cases entry <;> cases hj
  cases entry' <;> cases hj'
  exact hlt

variable [Scalar α]

/-- The entries are those of the parameters that are mentioned. -/
theorem Holds.indices_eq_range (h : r.Holds log) {n : Nat}
    (hmentions : ∀ i, i < n ↔ ∃ reg ∈ log, reg.Mentions i) : r.indices = List.range n := by
  apply List.Pairwise.eq_of_mem_iff h.ordered List.pairwise_lt_range
  intro i
  rw [h.mem_indices_iff, List.mem_range, hmentions, ← Option.ne_none_iff_exists', Ne,
    h.get?_eq_none_iff]
  push Not
  rfl

end Registry

/-! ## Models whose parts agree -/

/-- Whether a likelihood can be evaluated for every subject at every vector of a length. -/
def Likelihood.IsTotal (likelihood : Likelihood α σ) (dimension subjects : Nat) : Prop :=
  ∀ θ subject memory, θ.length = dimension → subject < subjects →
    ∃ x memory', likelihood θ subject memory = .ok x memory'

theorem Likelihood.isTotal_ofPure {f : List α → Nat → Except ModelError α}
    {dimension subjects : Nat}
    (h : ∀ θ subject, θ.length = dimension → subject < subjects → ∃ x, f θ subject = .ok x) :
    (Likelihood.ofPure f : Likelihood α σ).IsTotal dimension subjects := by
  intro θ subject memory hθ hsubject
  obtain ⟨x, hx⟩ := h θ subject hθ hsubject
  refine ⟨x, memory, ?_⟩
  unfold ofPure
  rw [hx]

structure Model.IsTotal (m : Model α σ) : Prop where
  likelihood : m.likelihood.IsTotal m.dimension m.subjects
  logLikelihood : m.logLikelihood.IsTotal m.dimension m.subjects
  logPredictive : m.logPredictive.IsTotal m.dimension m.subjects

/-- Whether the names, the starting distributions and the likelihoods of a model agree on the
parameters. -/
structure Model.IsLaidOut (m : Model Exact σ) : Prop where
  names_nodup : m.parameterNames.Nodup
  /-- The starting distribution is found without jitter. -/
  start : ∀ v : ℝ, 0 < v → ∃ distribution, m.start (.real v) = .ok distribution ∧
    distribution.mean.length = m.dimension ∧
    distribution.covariance.choleskyWithJitter? = some (distribution.factor, 0) ∧
    distribution.covariance.cholesky? = some distribution.factor
  total : m.IsTotal

/-- Whether the priors of a model make a registry with an entry for every parameter. -/
structure Model.Registers [Scalar α] (m : Model α σ) (r : Registry α) : Prop where
  registered : Registry.ofRegistrations m.priors = .ok r
  size : r.size = m.dimension
  covered : r.checkCoverage m.dimension = .ok ()

theorem Model.registers_of_mentions [Scalar α] {m : Model α σ} {r : Registry α}
    (h : Registry.ofRegistrations m.priors = .ok r)
    (hmentions : ∀ i, i < m.dimension ↔ ∃ reg ∈ m.priors, reg.Mentions i) : m.Registers r := by
  have hindices : r.indices = List.range m.dimension :=
    (Registry.holds_ofRegistrations h).indices_eq_range hmentions
  refine ⟨h, ?_, Registry.checkCoverage_of_indices hindices⟩
  have hlength := congrArg List.length hindices
  rwa [Registry.indices, List.length_map, List.length_range] at hlength

/-- The starting distributions of a model with finite estimates. -/
theorem Start.exists_distribution {mean : List Exact} (hne : mean ≠ [])
    (hmean : ∀ x ∈ mean, Scalar.isFinite x = true) (v : ℝ) (hv : 0 < v) :
    ∃ distribution, (ofCoefficient mean (.real v)).mapError Error.start = .ok distribution ∧
      distribution.mean.length = mean.length ∧
      distribution.covariance.choleskyWithJitter? = some (distribution.factor, 0) ∧
      distribution.covariance.cholesky? = some distribution.factor := by
  obtain ⟨distribution, hdistribution, hsame, hfactor⟩ := ofCoefficient_eq_ok hne hmean hv
  refine ⟨distribution, ?_, ?_, hfactor⟩
  · rw [hdistribution]
    rfl
  · rw [hsame]

/-! ## The normal model -/

namespace Gaussian

section Layout

variable {g : Gaussian α}

theorem check_eq_ok {θ : List α} {subject : Nat} (hθ : θ.length = 2)
    (hsubject : subject < g.outcomes.length) : ∃ x, g.check θ subject = .ok x := by
  obtain ⟨mean, variance, rfl⟩ := List.length_eq_two.1 hθ
  unfold check
  dsimp only
  rw [List.getElem?_eq_getElem hsubject]
  exact ⟨_, rfl⟩

/-- What is read of a parameter vector and of the outcomes is there. -/
theorem bounds_of_check {θ : List α} {subject : Nat} {x : α × α × α}
    (h : g.check θ subject = .ok x) : θ.length = 2 ∧ subject < g.outcomes.length := by
  unfold check at h
  split at h
  · split at h
    next hy => exact ⟨rfl, (List.getElem?_eq_some_iff.1 hy).1⟩
    next => cases h
  · cases h

variable [Scalar α]

theorem isTotal_model (g : Gaussian α) : (g.model : Model α σ).IsTotal := by
  have hdensity (θ : List α) (subject : Nat) (hθ : θ.length = 2)
      (hsubject : subject < g.outcomes.length) : ∃ x, g.logDensity θ subject = .ok x := by
    obtain ⟨⟨y, mean, variance⟩, hx⟩ := check_eq_ok hθ hsubject
    unfold logDensity
    rw [hx]
    exact ⟨_, rfl⟩
  refine ⟨Likelihood.isTotal_ofPure fun θ subject hθ hsubject => ?_,
    Likelihood.isTotal_ofPure hdensity, Likelihood.isTotal_ofPure hdensity⟩
  obtain ⟨x, hx⟩ := hdensity θ subject hθ hsubject
  rw [hx]
  exact ⟨_, rfl⟩

theorem realization_not_mem_priors (i : Nat) (effect : Effect) (spread : Nat) (prior : Prior α) :
    .realization i effect spread prior ∉ (g.model : Model α σ).priors := by
  intro h
  rcases List.mem_cons.1 h with h | h
  · cases h
  · cases List.mem_singleton.1 h

theorem registers_of_ofRegistrations {r : Registry α}
    (h : Registry.ofRegistrations (g.model : Model α σ).priors = .ok r) :
    (g.model : Model α σ).Registers r ∧ r.realizations = [] := by
  have holds := Registry.holds_ofRegistrations h
  refine ⟨Model.registers_of_mentions h fun i => ⟨fun hi => ?_, ?_⟩, ?_⟩
  · obtain rfl | rfl : i = 0 ∨ i = 1 := by
      have htwo : i < 2 := hi
      omega
    · exact ⟨_, List.mem_cons_self, rfl⟩
    · exact ⟨_, List.mem_cons_of_mem _ List.mem_cons_self, rfl⟩
  · show _ → i < 2
    rintro ⟨reg, hreg, hi⟩
    rcases List.mem_cons.1 hreg with rfl | hreg
    · cases hi
      decide
    · rw [List.mem_singleton.1 hreg] at hi
      cases hi
      decide
  · rw [List.eq_nil_iff_forall_not_mem]
    intro i hi
    obtain ⟨effect, spread, hi⟩ := (Registry.mem_realizations holds.ordered).1 hi
    obtain ⟨prior, hmem⟩ := holds.realization hi
    exact realization_not_mem_priors _ _ _ _ hmem

theorem registrable_iff : (∃ r, Registry.ofRegistrations (g.model : Model α σ).priors = .ok r) ↔
    g.meanPrior.isValid = true ∧ g.variancePrior.isValid = true := by
  have identical : Registry.IdenticalHyperPriors (g.model : Model α σ).priors :=
    fun _ _ _ _ _ _ _ h => absurd h (realization_not_mem_priors _ _ _ _)
  have hcompatible : (Registration.fixed 0 g.meanPrior).Compatible (.fixed 1 g.variancePrior) :=
    Registration.compatible_fixed g.meanPrior (.fixed 1 g.variancePrior) Nat.one_ne_zero
      Nat.zero_ne_one
  rw [Registry.exists_ofRegistrations_iff identical]
  show (∀ reg ∈ [Registration.fixed 0 g.meanPrior, .fixed 1 g.variancePrior], reg.IsProper) ∧
    List.Pairwise _ [_, _] ↔ _
  rw [List.forall_mem_cons, List.forall_mem_singleton]
  exact and_iff_left (List.pairwise_pair.2 hcompatible)

end Layout

theorem isLaidOut_model {g : Gaussian Exact} (hne : g.outcomes ≠ [])
    (hfinite : ∀ y ∈ g.outcomes, Scalar.isFinite y = true) :
    (g.model : Model Exact σ).IsLaidOut where
  names_nodup := by
    show ["mean", "variance"].Nodup
    decide
  start := Start.exists_distribution (List.cons_ne_nil _ _) (isFinite_estimates hne hfinite)
  total := isTotal_model g

end Gaussian

/-! ## The model of counts -/

namespace Counts

section Priors

variable {c : Counts α}

/-- The indices of the intercepts. -/
def interceptIndices (c : Counts α) : List Nat :=
  match c.intercepts with
  | .none => []
  | .perSubject => List.range' 1 c.subjects

theorem mem_interceptIndices {i : Nat} :
    i ∈ c.interceptIndices ↔ c.intercepts = .perSubject ∧ 0 < i ∧ i < c.deviationIndex := by
  unfold interceptIndices
  cases c.intercepts with
  | none => simp only [List.not_mem_nil, reduceCtorEq, false_and]
  | perSubject =>
    simp only [List.mem_range'_1, deviationIndex, true_and]
    omega

theorem pairwise_interceptIndices (c : Counts α) : c.interceptIndices.Pairwise (· < ·) := by
  unfold interceptIndices
  cases c.intercepts with
  | none => exact .nil
  | perSubject => exact List.pairwise_lt_range'

/-- The registration of an intercept. -/
def interceptPrior (c : Counts α) (i : Nat) : Registration α :=
  .realization i .normal c.deviationIndex c.deviationPrior

theorem priors_eq (c : Counts α) :
    c.priors = .fixed 0 c.logMeanPrior :: c.interceptIndices.map c.interceptPrior := by
  unfold priors interceptIndices
  cases c.intercepts with
  | none => rfl
  | perSubject =>
    rw [List.range'_eq_map_range, List.map_map]
    dsimp only
    congr 2
    funext i
    rw [Function.comp_apply, Nat.add_comm]
    rfl

/-- Every intercept is a realization with the same standard deviation, and there are no others. -/
theorem mem_priors_iff {i : Nat} {effect : Effect} {spread : Nat} {prior : Prior α} :
    .realization i effect spread prior ∈ c.priors ↔
      i ∈ c.interceptIndices ∧ effect = .normal ∧ spread = c.deviationIndex ∧
        prior = c.deviationPrior := by
  rw [priors_eq, List.mem_cons, List.mem_map]
  constructor
  · rintro (h | ⟨j, hj, h⟩)
    · cases h
    · cases h
      exact ⟨hj, rfl, rfl, rfl⟩
  · rintro ⟨hi, rfl, rfl, rfl⟩
    exact .inr ⟨i, hi, rfl⟩

theorem governedBy_priors (c : Counts α) :
    Registry.governedBy c.deviationIndex c.priors = c.interceptIndices := by
  have hmap : Registration.governedBy? c.deviationIndex ∘ c.interceptPrior = some := by
    funext i
    exact if_pos rfl
  rw [Registry.governedBy, priors_eq, List.filterMap_cons_none rfl, List.filterMap_map, hmap,
    List.filterMap_some]

theorem first_mem_interceptIndices (hintercepts : c.intercepts = .perSubject)
    (hsubjects : 0 < c.subjects) : 1 ∈ c.interceptIndices :=
  mem_interceptIndices.2 ⟨hintercepts, Nat.one_pos, Nat.succ_lt_succ hsubjects⟩

/-- The parameters that are mentioned are all of the vector. -/
theorem mentions_iff (hsubjects : 0 < c.subjects) (i : Nat) :
    i < c.dimension ↔ ∃ reg ∈ c.priors, reg.Mentions i := by
  have hdeviation : c.deviationIndex = c.subjects + 1 := rfl
  simp only [priors_eq, List.mem_cons, List.mem_map, exists_eq_or_imp, exists_exists_and_eq_and]
  show _ ↔ 0 = i ∨ ∃ j ∈ c.interceptIndices, j = i ∨ c.deviationIndex = i
  simp only [mem_interceptIndices, dimension]
  cases c.intercepts with
  | none =>
    simp only [reduceCtorEq, false_and, exists_false, or_false]
    omega
  | perSubject =>
    simp only [true_and]
    constructor
    · intro hi
      by_cases hzero : 0 = i
      · exact .inl hzero
      · by_cases hlast : c.deviationIndex = i
        · exact .inr ⟨1, ⟨Nat.one_pos, by omega⟩, .inr hlast⟩
        · exact .inr ⟨i, ⟨by omega, by omega⟩, .inl rfl⟩
    · rintro (rfl | ⟨j, ⟨-, hj⟩, rfl | rfl⟩) <;> omega

/-! ### The registry of the priors -/

variable [Scalar α]

/-- Whether a registry has a prior for the logarithm of the rate, the intercepts as realizations,
and what governs them. -/
structure HasEffects (c : Counts α) (r : Registry α) : Prop where
  rate : r.get? 0 = some (.fixed c.logMeanPrior)
  realizations : r.realizations = c.interceptIndices
  intercept : ∀ i ∈ c.interceptIndices, r.get? i = some (.realization .normal c.deviationIndex)
  deviation : c.intercepts = .perSubject →
    r.get? c.deviationIndex = some (.hyper c.deviationPrior c.interceptIndices)

theorem identicalHyperPriors_priors (c : Counts α) : Registry.IdenticalHyperPriors c.priors := by
  intro i effect spread prior j effect' prior' h h' _
  rw [(mem_priors_iff.1 h).2.2.2, (mem_priors_iff.1 h').2.2.2]

theorem hasEffects_of_holds {r : Registry α} (h : r.Holds c.priors) (hsubjects : 0 < c.subjects) :
    c.HasEffects r := by
  have hintercept (i : Nat) (hi : i ∈ c.interceptIndices) :
      .realization i .normal c.deviationIndex c.deviationPrior ∈ c.priors :=
    mem_priors_iff.2 ⟨hi, rfl, rfl, rfl⟩
  have hrate : .fixed 0 c.logMeanPrior ∈ c.priors := by
    rw [priors_eq]
    exact List.mem_cons_self
  refine ⟨h.own _ hrate, ?_, fun i hi => h.own _ (hintercept i hi), fun hintercepts => ?_⟩
  · apply List.Pairwise.eq_of_mem_iff (Registry.pairwise_realizations h.ordered)
      c.pairwise_interceptIndices
    intro i
    rw [Registry.mem_realizations h.ordered]
    constructor
    · rintro ⟨effect, spread, hi⟩
      obtain ⟨prior, hmem⟩ := h.realization hi
      exact (mem_priors_iff.1 hmem).1
    · exact fun hi => ⟨_, _, h.own _ (hintercept i hi)⟩
  · have hfirst := hintercept 1 (first_mem_interceptIndices hintercepts hsubjects)
    obtain ⟨stored, hstored, -⟩ := h.spread _ _ _ _ hfirst
    rw [hstored, h.stored_eq c.identicalHyperPriors_priors hstored hfirst, governedBy_priors]

theorem dimension_model (c : Counts α) : (c.model : Model α σ).dimension = c.dimension := by
  show (["log_mean"] ++ c.otherNames).length = c.dimension
  rw [List.length_append, List.length_singleton, otherNames, dimension]
  cases c.intercepts with
  | none => rfl
  | perSubject =>
    simp only [List.length_append, List.length_map, List.length_singleton, subjects]
    omega

theorem registers_of_ofRegistrations {r : Registry α} (hsubjects : 0 < c.subjects)
    (h : Registry.ofRegistrations (c.model : Model α σ).priors = .ok r) :
    (c.model : Model α σ).Registers r ∧ c.HasEffects r :=
  ⟨Model.registers_of_mentions h fun i => by
      rw [dimension_model]
      exact mentions_iff hsubjects i,
    hasEffects_of_holds (Registry.holds_ofRegistrations h) hsubjects⟩

end Priors

section Registrable

variable {c : Counts Exact}

theorem compatible_intercepts {i j : Nat} (hi : i ∈ c.interceptIndices)
    (hj : j ∈ c.interceptIndices) (hlt : i < j) (hvalid : c.deviationPrior.isValid = true) :
    (c.interceptPrior i).Compatible (c.interceptPrior j) where
  left := by
    rintro (h | h)
    · exact hlt.ne h.symm
    · exact (mem_interceptIndices.1 hi).2.2.ne h.symm
  right := by
    rintro (h | h)
    · exact hlt.ne h
    · exact (mem_interceptIndices.1 hj).2.2.ne h.symm
  hyper := by
    rintro _ _ _ _ _ _ _ ⟨⟩ ⟨⟩
    exact ⟨rfl, Prior.beq_self hvalid⟩

theorem pairwise_priors
    (hvalid : c.intercepts = .perSubject → c.deviationPrior.isValid = true) :
    c.priors.Pairwise Registration.Compatible := by
  rw [priors_eq, List.pairwise_cons, List.pairwise_map]
  constructor
  · intro reg hreg
    obtain ⟨i, hi, rfl⟩ := List.mem_map.1 hreg
    obtain ⟨-, hpos, hlt⟩ := mem_interceptIndices.1 hi
    refine Registration.compatible_fixed _ _ ?_ hpos.ne
    rintro (h | h)
    · exact hpos.ne h.symm
    · exact (Nat.zero_lt_of_lt hlt).ne h.symm
  · refine c.pairwise_interceptIndices.imp_of_mem fun hi hj hlt => ?_
    exact compatible_intercepts hi hj hlt (hvalid (mem_interceptIndices.1 hi).1)

/-- The priors can be registered if those that are used are valid. -/
theorem registrable_iff (hsubjects : 0 < c.subjects) :
    (∃ r, Registry.ofRegistrations (c.model : Model Exact σ).priors = .ok r) ↔
      c.logMeanPrior.isValid = true ∧
        (c.intercepts = .perSubject → c.deviationPrior.isValid = true) := by
  show (∃ r, Registry.ofRegistrations c.priors = .ok r) ↔ _
  rw [Registry.exists_ofRegistrations_iff c.identicalHyperPriors_priors]
  constructor
  · rintro ⟨hproper, -⟩
    rw [priors_eq, List.forall_mem_cons] at hproper
    refine ⟨hproper.1, fun hintercepts => ?_⟩
    have hfirst := first_mem_interceptIndices hintercepts hsubjects
    exact (hproper.2 _ (List.mem_map_of_mem hfirst)).1
  · rintro ⟨hrate, hdeviation⟩
    refine ⟨?_, pairwise_priors hdeviation⟩
    rw [priors_eq, List.forall_mem_cons]
    refine ⟨hrate, fun reg hreg => ?_⟩
    obtain ⟨i, hi, rfl⟩ := List.mem_map.1 hreg
    obtain ⟨hintercepts, -, hlt⟩ := mem_interceptIndices.1 hi
    exact ⟨hdeviation hintercepts, hlt.ne⟩

end Registrable

/-! ### Names and likelihoods -/

section Names

variable {c : Counts α}

/-- The name of an intercept. -/
def interceptName (label : Nat) : String := "u_" ++ toString label

theorem interceptName_injective : Function.Injective interceptName := by
  intro label label' h
  have hdigits : Nat.toDigits 10 label = Nat.toDigits 10 label' :=
    String.ofList_injective ((String.append_right_inj "u_").1 h)
  have hread (n : Nat) : Nat.ofDigitChars 10 (Nat.toDigits 10 n) 0 = n :=
    Nat.ofDigitChars_toDigits (by decide) (by decide)
  rw [← hread label, hdigits, hread]

theorem toList_interceptName (label : Nat) :
    (interceptName label).toList = 'u' :: '_' :: (toString label).toList :=
  String.toList_append

theorem nodup_parameterNames [Scalar α] (h : (c.tallies.map Tally.label).Nodup) :
    (c.model : Model α σ).parameterNames.Nodup := by
  show ("log_mean" :: c.otherNames).Nodup
  unfold otherNames
  cases c.intercepts with
  | none => exact List.nodup_singleton _
  | perSubject =>
    have hnames : c.tallies.map (fun t => "u_" ++ toString t.label) =
        (c.tallies.map Tally.label).map interceptName := by
      rw [List.map_map]
      rfl
    -- The other names do not begin with the letter of the intercepts.
    have hname (name : String) (hhead : name.toList.head? ≠ some 'u') :
        name ∉ (c.tallies.map Tally.label).map interceptName := by
      intro hmem
      obtain ⟨label, -, rfl⟩ := List.mem_map.1 hmem
      rw [toList_interceptName] at hhead
      exact hhead rfl
    dsimp only
    rw [hnames, List.nodup_cons, List.mem_append, List.mem_singleton, List.nodup_append]
    refine ⟨not_or.2 ⟨hname _ (by decide), by decide⟩, h.map interceptName_injective,
      List.nodup_singleton _, fun name hmem tau htau heq => ?_⟩
    rw [heq, List.mem_singleton.1 htau] at hmem
    exact hname "tau" (by decide) hmem

theorem check_eq_ok {θ : List α} {subject : Nat} (hθ : θ.length = c.dimension)
    (hsubject : subject < c.subjects) : ∃ t, c.check θ subject = .ok t := by
  unfold check
  rw [if_neg (not_not.2 hθ), List.getElem?_eq_getElem hsubject]
  exact ⟨_, rfl⟩

/-- What is read of a parameter vector and of the tallies is there. -/
theorem bounds_of_check {θ : List α} {subject : Nat} {t : Tally α}
    (h : c.check θ subject = .ok t) : subject < c.subjects ∧ 0 < θ.length ∧
      (c.intercepts = .perSubject → 1 + subject < θ.length ∧ c.deviationIndex < θ.length) := by
  unfold check at h
  split at h
  · cases h
  next hlength =>
    split at h
    next htally =>
      have hsubject : subject < c.subjects := (List.getElem?_eq_some_iff.1 htally).1
      rw [not_not.1 hlength, dimension]
      refine ⟨hsubject, ?_, fun hintercepts => ?_⟩
      · split <;> omega
      · rw [hintercepts, deviationIndex]
        dsimp only
        omega
    next => cases h

theorem isTotal_model [Scalar α] (c : Counts α) : (c.model : Model α σ).IsTotal := by
  have hprobability (θ : List α) (subject : Nat) (hθ : θ.length = c.dimension)
      (hsubject : subject < c.subjects) : ∃ x, c.logProbability θ subject = .ok x := by
    obtain ⟨t, ht⟩ := check_eq_ok hθ hsubject
    unfold logProbability
    rw [ht]
    exact ⟨_, rfl⟩
  constructor <;> rw [dimension_model] <;>
    refine Likelihood.isTotal_ofPure fun θ subject hθ hsubject => ?_
  · obtain ⟨x, hx⟩ := hprobability θ subject hθ hsubject
    rw [hx]
    exact ⟨_, rfl⟩
  · exact hprobability θ subject hθ hsubject
  · unfold logPredictive
    cases c.intercepts with
    | none => exact hprobability θ subject hθ hsubject
    | perSubject =>
      obtain ⟨t, ht⟩ := check_eq_ok hθ hsubject
      dsimp only
      rw [ht]
      exact ⟨_, rfl⟩

end Names

theorem isLaidOut_model {c : Counts Exact} (h : c.IsObserved) :
    (c.model : Model Exact σ).IsLaidOut where
  names_nodup := nodup_parameterNames h.labels_nodup
  start := by
    have hne : c.estimates ≠ [] := by
      rw [← List.length_pos_iff, length_estimates, dimension]
      split <;> omega
    rw [dimension_model, ← length_estimates]
    exact Start.exists_distribution hne (isFinite_estimates h)
  total := isTotal_model c

end Counts

end Metropolis
