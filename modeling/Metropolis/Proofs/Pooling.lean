import Metropolis.Proofs.QuantileOrder
import Metropolis.Proofs.RealPoints
import Metropolis.Proofs.Separation

/-!
# The summary of all chains together

All chains of an ensemble keep the same number of draws. So the mean of all draws is the mean of the
chains' means, and their variance is what the chains vary within themselves and from each other.
-/

namespace Metropolis

variable {σ : Type}

namespace Series

variable {xs : List ℝ} {chains : List (List ℝ)} {n : ℕ}

/-! ## The variance of all draws -/

theorem arithmeticMean_const_mul (a : ℝ) (xs : List ℝ) :
    arithmeticMean (xs.map (a * ·)) = a * arithmeticMean xs := by
  rw [arithmeticMean, List.sum_map_mul_left, List.length_map, List.map_id', mul_div_assoc]
  rfl

theorem arithmeticMean_map_add {β : Type} (f g : β → ℝ) (values : List β) :
    arithmeticMean (values.map fun v => f v + g v) =
      arithmeticMean (values.map f) + arithmeticMean (values.map g) := by
  simp only [arithmeticMean, List.sum_map_add, List.length_map, add_div]

theorem sum_eq_arithmeticMean (xs : List ℝ) : xs.sum = xs.length * arithmeticMean xs := by
  by_cases hne : xs = []
  · simp [hne]
  · have hlength : (xs.length : ℝ) ≠ 0 := by simpa using hne
    rw [arithmeticMean, mul_div_cancel₀ _ hlength]

/-- From another center the spread is larger by the distance of the mean, once for each number. -/
theorem spread_eq (center : ℝ) (xs : List ℝ) : spread center xs =
    spread (arithmeticMean xs) xs + xs.length * (arithmeticMean xs - center) ^ 2 := by
  have hexpand (a x : ℝ) : (x - center) * (x - center) =
      (x - a) * (x - a) + (2 * (a - center) * x + (center ^ 2 - a ^ 2)) := by
    ring
  rw [spread, List.map_congr_left fun x _ => hexpand (arithmeticMean xs) x, List.sum_map_add,
    List.sum_map_add, List.sum_map_mul_left, List.map_id', List.map_const', List.sum_replicate,
    nsmul_eq_mul, sum_eq_arithmeticMean xs, spread]
  ring

theorem spread_flatten (center : ℝ) (chains : List (List ℝ)) :
    spread center chains.flatten = (chains.map (spread center)).sum := by
  induction chains with
  | nil => rfl
  | cons c rest ih => rw [List.flatten_cons, spread_append, ih, List.map_cons, List.sum_cons]

/-- Equally long chains of at least one number, which can all be counted together. -/
structure IsPoolable (n : ℕ) (chains : List (List ℝ)) : Prop where
  length_pos : 0 < n
  length_eq : ∀ c ∈ chains, c.length = n
  total_le : chains.length * n ≤ Scalar.countLimit

namespace IsPoolable

theorem length_flatten (h : IsPoolable n chains) : chains.flatten.length = chains.length * n := by
  rw [List.length_flatten, List.sum_eq_card_nsmul _ n (List.forall_mem_map.2 h.length_eq),
    List.length_map, smul_eq_mul]

theorem length_flatten_le (h : IsPoolable n chains) :
    chains.flatten.length ≤ Scalar.countLimit := by
  rw [h.length_flatten]
  exact h.total_le

theorem length_le (h : IsPoolable n chains) {c : List ℝ} (hc : c ∈ chains) :
    c.length ≤ Scalar.countLimit := by
  rw [h.length_eq c hc]
  exact (Nat.le_mul_of_pos_left n (List.length_pos_of_mem hc)).trans h.total_le

theorem map_average (h : IsPoolable n chains) :
    chains.map average = chains.map arithmeticMean :=
  List.map_congr_left fun _ hc => average_of_le (h.length_le hc)

theorem map_dispersion (h : IsPoolable n chains) : chains.map dispersion =
    chains.map fun c => spread (arithmeticMean c) c / n := by
  apply List.map_congr_left
  intro c hc
  rw [dispersion, average_of_le (h.length_le hc), Nat.min_eq_left (h.length_le hc),
    h.length_eq c hc, arithmeticMean, h.length_eq c hc]

/-- The mean of all numbers is the mean of the chains' means. -/
theorem average_flatten (h : IsPoolable n chains) :
    average chains.flatten = arithmeticMean (chains.map average) := by
  have hn : (n : ℝ) ≠ 0 := Nat.cast_ne_zero.2 h.length_pos.ne'
  have hmeans : chains.map arithmeticMean = (chains.map List.sum).map ((n : ℝ)⁻¹ * ·) := by
    rw [List.map_map]
    apply List.map_congr_left
    intro c hc
    rw [arithmeticMean, h.length_eq c hc, Function.comp_apply, div_eq_inv_mul]
  rw [average_of_le h.length_flatten_le, h.map_average, hmeans, arithmeticMean_const_mul,
    arithmeticMean, h.length_flatten, List.sum_flatten, List.length_map, Nat.cast_mul,
    ← div_eq_inv_mul, div_div]

/-- The variance of all numbers: the mean of the chains' variances, and the mean squared distance of
the chains' means to the mean of all. -/
theorem dispersion_flatten (h : IsPoolable n chains) : dispersion chains.flatten =
    arithmeticMean (chains.map dispersion) + arithmeticMean
      ((chains.map average).map fun x => (x - average chains.flatten) ^ 2) := by
  have hn : (n : ℝ) ≠ 0 := Nat.cast_ne_zero.2 h.length_pos.ne'
  have hspreads (center : ℝ) : chains.map (spread center) = (chains.map fun c =>
      spread (arithmeticMean c) c / n + (arithmeticMean c - center) ^ 2).map ((n : ℝ) * ·) := by
    rw [List.map_map]
    apply List.map_congr_left
    intro c hc
    rw [spread_eq, h.length_eq c hc, Function.comp_apply, mul_add, mul_div_cancel₀ _ hn]
  -- The chains are equally long, so each counts as much as any other.
  calc dispersion chains.flatten
      = arithmeticMean (chains.map (spread (average chains.flatten))) / n := by
        rw [dispersion, Nat.min_eq_left h.length_flatten_le, spread_flatten, h.length_flatten,
          Nat.cast_mul, arithmeticMean, List.length_map, div_div]
    _ = arithmeticMean (chains.map fun c => spread (arithmeticMean c) c / n +
          (arithmeticMean c - average chains.flatten) ^ 2) := by
        rw [hspreads, arithmeticMean_const_mul, mul_div_cancel_left₀ _ hn]
    _ = _ := by
        rw [arithmeticMean_map_add, h.map_dispersion, h.map_average, List.map_map]
        rfl

end IsPoolable

end Series

/-! ## The summary of all draws -/

/-- What the summary of a parameter from the draws of several chains is to the chains' own: the
mean of all is the mean of the chains' means, and the variance of all the mean of their variances
and of the squared distances of their means to it. -/
structure ParameterSummary.IsPooled (pooled : ParameterSummary Exact)
    (own : List (ParameterSummary Exact)) : Prop where
  name : ∀ s ∈ own, s.name = pooled.name
  moments : ∃ means variances : List ℝ,
    own.map mean = means.map Exact.real ∧ own.map variance = variances.map Exact.real ∧
    pooled.mean = .real (Series.arithmeticMean means) ∧
    pooled.variance = .real (Series.arithmeticMean variances +
      Series.arithmeticMean (means.map fun x => (x - Series.arithmeticMean means) ^ 2))

/-- What a summary of the draws of several chains is to the summaries of the chains. -/
structure Summary.IsPooled (pooled : Summary Exact) (chains : List (Draws Exact)) : Prop where
  draws : pooled.draws = (chains.map fun c => c.summary.draws).sum
  names : ∀ c ∈ chains, c.summary.parameters.map ParameterSummary.name =
    pooled.parameters.map ParameterSummary.name
  parameters : ∀ (i : ℕ) (s : ParameterSummary Exact), pooled.parameters[i]? = some s →
    ∃ own, (chains.map fun c => c.summary.parameters[i]?) = own.map some ∧ s.IsPooled own
  spanned : ∀ (i : ℕ) (s : ParameterSummary Exact), pooled.parameters[i]? = some s →
    s.IsSpanned (chains.flatMap fun c => c.column i)

@[simp]
theorem ParameterSummary.name_ofValues {α : Type} [Scalar α] (name : String) (values : List α) :
    (ofValues name values).name = name := by
  unfold ofValues
  split <;> rfl

namespace Draws

theorem names_summary {α : Type} [Scalar α] {d : Draws α} (hsome : ¬ d.isEmpty = true) :
    d.summary.parameters.map ParameterSummary.name = d.names := by
  apply List.ext_getElem?
  intro i
  rw [List.getElem?_map, getElem?_summary, if_neg hsome]
  cases d.names[i]? <;> simp

/-- Chains that have real draws under the same names, `n` of them each. -/
structure AreAlike (names : List String) (n : ℕ) (chains : List (Draws Exact)) : Prop where
  isReal : ∀ c ∈ chains, c.IsReal
  names_eq : ∀ c ∈ chains, c.names = names
  size_eq : ∀ c ∈ chains, c.size = n

namespace AreAlike

variable {names : List String} {n i : ℕ} {chains : List (Draws Exact)}

theorem isReal_pool (h : AreAlike names n chains) : IsReal ⟨names, chains.flatMap points⟩ := by
  intro p hp i hi
  obtain ⟨c, hc, hp⟩ := List.mem_flatMap.1 hp
  exact h.isReal c hc p hp i (by rwa [h.names_eq c hc])

theorem column_pool (h : AreAlike names n chains) (i : ℕ) :
    column ⟨names, chains.flatMap points⟩ i = chains.flatMap fun c => c.column i := by
  by_cases hi : names.length ≤ i
  · have hnone : ∀ c ∈ chains, c.column i = [] := by
      intro c hc
      rw [column, if_pos (by rwa [h.names_eq c hc])]
    rw [column, if_pos hi, eq_comm, List.flatMap_eq_nil_iff]
    exact hnone
  · have hvalues : ∀ c ∈ chains, c.column i =
        c.points.map fun p => p.parameters.getD i Scalar.undefined := by
      intro c hc
      rw [column, if_neg (by rwa [h.names_eq c hc])]
    rw [column, if_neg hi, List.map_flatMap]
    exact (List.flatMap_congr hvalues).symm

theorem reals_pool (h : AreAlike names n chains) (i : ℕ) :
    reals ⟨names, chains.flatMap points⟩ i = (chains.map fun c => c.reals i).flatten := by
  rw [reals, h.column_pool, List.map_flatMap, List.flatMap_def]
  rfl

theorem isPoolable (h : AreAlike names n chains) (hn : 0 < n)
    (hle : chains.length * n ≤ Scalar.countLimit) (hi : i < names.length) :
    Series.IsPoolable n (chains.map fun c => c.reals i) where
  length_pos := hn
  length_eq := by
    intro xs hxs
    obtain ⟨c, hc, rfl⟩ := List.mem_map.1 hxs
    rw [length_reals (by rwa [h.names_eq c hc]), h.size_eq c hc]
  total_le := by rwa [List.length_map]

theorem sum_size (h : AreAlike names n chains) :
    (chains.map Draws.size).sum = chains.length * n := by
  rw [List.sum_eq_card_nsmul _ n (List.forall_mem_map.2 h.size_eq), List.length_map, smul_eq_mul]

theorem not_isEmpty (h : AreAlike names n chains) (hn : 0 < n) {c : Draws Exact}
    (hc : c ∈ chains) : ¬ c.isEmpty = true := by
  rw [isEmpty, List.isEmpty_iff_length_eq_zero]
  exact fun hzero => hn.ne' ((h.size_eq c hc).symm.trans hzero)

theorem not_isEmpty_pool (h : AreAlike names n chains) (hne : chains ≠ []) (hn : 0 < n) :
    ¬ (isEmpty ⟨names, chains.flatMap points⟩ : Bool) = true := by
  obtain ⟨c, hc⟩ := List.exists_mem_of_ne_nil chains hne
  have hsome := h.not_isEmpty hn hc
  rw [isEmpty, List.isEmpty_iff] at hsome ⊢
  exact fun hnil => hsome (List.flatMap_eq_nil_iff.1 hnil c hc)

/-- The summary of a parameter of one of the chains, in terms of real numbers. -/
theorem ofValues_column (h : AreAlike names n chains) (hn : 0 < n) (hi : i < names.length)
    (name : String) {c : Draws Exact} (hc : c ∈ chains) :
    (ParameterSummary.ofValues name (c.column i)).mean = .real (Series.average (c.reals i)) ∧
      (ParameterSummary.ofValues name (c.column i)).variance =
        .real (Series.dispersion (c.reals i)) := by
  have hne := reals_ne_nil (h.not_isEmpty hn hc) (by rwa [h.names_eq c hc])
  rw [← (h.isReal c hc).map_reals, ParameterSummary.ofValues_real hne]
  exact ⟨rfl, rfl⟩

theorem isPooled_ofValues (h : AreAlike names n chains) (hne : chains ≠ []) (hn : 0 < n)
    (hle : chains.length * n ≤ Scalar.countLimit) (hi : i < names.length) (name : String) :
    (ParameterSummary.ofValues name (column ⟨names, chains.flatMap points⟩ i)).IsPooled
      (chains.map fun c => .ofValues name (c.column i)) where
  name := by simp
  moments := by
    have hpoolable := h.isPoolable hn hle hi
    have hsome := reals_ne_nil (h.not_isEmpty_pool hne hn) hi
    have hown {c : Draws Exact} (hc : c ∈ chains) := h.ofValues_column hn hi name hc
    refine ⟨(chains.map fun c => c.reals i).map Series.average,
      (chains.map fun c => c.reals i).map Series.dispersion, ?_, ?_, ?_⟩
    · simp only [List.map_map]
      exact List.map_congr_left fun c hc => (hown hc).1
    · simp only [List.map_map]
      exact List.map_congr_left fun c hc => (hown hc).2
    · rw [← h.isReal_pool.map_reals, ParameterSummary.ofValues_real hsome, h.reals_pool,
        ← hpoolable.average_flatten, ← hpoolable.dispersion_flatten]
      exact ⟨rfl, rfl⟩

/-- The summary of all draws pools those of the chains. -/
theorem isPooled_summary (h : AreAlike names n chains) (hne : chains ≠ []) (hn : 0 < n)
    (hle : chains.length * n ≤ Scalar.countLimit) :
    (summary ⟨names, chains.flatMap points⟩).IsPooled chains where
  draws := by
    simp only [draws_summary]
    exact List.length_flatMap
  names := by
    intro c hc
    rw [names_summary (h.not_isEmpty hn hc), names_summary (h.not_isEmpty_pool hne hn),
      h.names_eq c hc]
  parameters := by
    intro i s hs
    rw [getElem?_summary, if_neg (h.not_isEmpty_pool hne hn)] at hs
    obtain ⟨name, hname, rfl⟩ := Option.map_eq_some_iff.1 hs
    have hi := (List.getElem?_eq_some_iff.1 hname).1
    refine ⟨chains.map fun c => .ofValues name (c.column i), ?_,
      h.isPooled_ofValues hne hn hle hi name⟩
    rw [List.map_map]
    apply List.map_congr_left
    intro c hc
    rw [getElem?_summary, if_neg (h.not_isEmpty hn hc), h.names_eq c hc, hname]
    rfl
  spanned := by
    intro i s hs
    rw [← h.column_pool]
    exact isSpanned_of_summary h.isReal_pool hs

end AreAlike

end Draws

/-! ## The fit of an ensemble -/

namespace Ensemble

variable {e : Ensemble} {m : Model Exact σ} {settings : Settings Exact}

theorem areAlike_of_fits (accepted : m.StartsAccepted) {fits : List (Fit Exact)}
    (hfits : ∀ f ∈ fits, ∃ i memory memory',
      m.fit (e.settingsOf settings i) memory = .ok f memory') :
    Draws.AreAlike m.parameterNames settings.schedule.retained (fits.map Fit.draws) := by
  have hdraws : ∀ d ∈ fits.map Fit.draws, d.IsReal ∧ d.names = m.parameterNames ∧
      d.size = settings.schedule.retained := by
    intro d hd
    obtain ⟨f, hf, rfl⟩ := List.mem_map.1 hd
    obtain ⟨i, memory, memory', hf⟩ := hfits f hf
    have hisOf := isOf_of_fit hf
    exact ⟨Model.isReal_of_fit accepted hf, (Convergence.agrees_iff.1 hisOf.agrees).1, hisOf.size⟩
  exact ⟨fun d hd => (hdraws d hd).1, fun d hd => (hdraws d hd).2.1, fun d hd => (hdraws d hd).2.2⟩

/-- All chains of a fitted ensemble have as many draws, of real numbers, and each reports its
summary. The summary of the draws of all chains, fewer than can be counted, has the same parameters
as those of the chains: it counts the draws of all of them, its means and variances come from
theirs, and its quantiles are not beyond all their draws. -/
theorem fit_pooled (e : Ensemble) {m : Model Exact σ} (accepted : m.StartsAccepted)
    (settings : Settings Exact) {memory memory' : σ} {fit : EnsembleFit Exact}
    (h : e.fit m settings memory = .ok fit memory')
    (hcount : (fit.draws.map Draws.size).sum < 2 ^ 32) :
    fit.draws.length = e.chains ∧
      Draws.AreAlike m.parameterNames settings.schedule.retained fit.draws ∧
      fit.reports.map ChainReport.summary = fit.draws.map (fun c => some c.summary) ∧
      ∃ pooled, fit.pooled = some pooled ∧
        pooled.parameters.map ParameterSummary.name = m.parameterNames ∧
        pooled.IsPooled fit.draws := by
  obtain ⟨hchains, hretained, fits, hlength, hfits, hpools⟩ := fit_eq_ok h
  have halike := areAlike_of_fits accepted hfits
  rw [← hpools.draws] at halike
  have hdraws : fit.draws.length = e.chains := by
    rw [hpools.draws, List.length_map, hlength]
  have hne : fit.draws ≠ [] := List.ne_nil_of_length_pos (by omega)
  have hpos : 0 < settings.schedule.retained := by omega
  rw [halike.sum_size] at hcount
  refine ⟨hdraws, halike, ?_, _, hpools.pooled, ?_,
    halike.isPooled_summary hne hpos (Nat.le_of_lt_succ hcount)⟩
  · rw [hpools.reports, hpools.draws, List.map_map, List.map_map]
    apply List.map_congr_left
    intro f hf
    obtain ⟨i, memory₁, memory₂, hfit⟩ := hfits f hf
    exact Model.summary_of_fit hfit
  · exact Draws.names_summary (halike.not_isEmpty_pool hne hpos)

theorem startsAccepted_level : (levelModel none).StartsAccepted := by
  have hone : DenseMatrix.ArePositive [1] := by
    intro v hv
    rw [List.mem_singleton.1 hv, Exact.ofNat_eq]
    exact ⟨_, rfl, by norm_num⟩
  have hadmissible : Start.Admissible [0] (DenseMatrix.diagonal [(1 : Exact)]) := by
    refine ⟨List.cons_ne_nil _ _, rfl, rfl, fun x hx => ?_, DenseMatrix.isFinite_diagonal hone⟩
    rw [List.mem_singleton.1 hx]
    rfl
  have hrow : DenseMatrix.rootRow [1] 0 = [1] := by
    show [Scalar.sqrt (1 : Exact)] = [1]
    rw [Exact.ofNat_eq, Nat.cast_one, Exact.sqrt_real zero_le_one, Real.sqrt_one]
  have hfactor : DenseMatrix.rootFactor [1] = .identity 1 := by
    show DenseMatrix.ofLowerRows [DenseMatrix.rootRow [1] 0] = .identity 1
    rw [hrow]
    rfl
  obtain ⟨s, hs, hmean, hcovariance, hroot⟩ :=
    Start.ofCovariance_of_factor hadmissible (DenseMatrix.choleskyWithJitter?_diagonal hone)
  rw [hfactor] at hroot
  have hstart : s = levelStart := by
    cases s
    cases hmean
    cases hcovariance
    cases hroot
    rfl
  intro coefficient distribution h
  cases h
  exact ⟨_, _, hstart ▸ hs⟩

/-- On the level target both of two chains succeed, and so does the ensemble. -/
theorem exists_fit_level :
    let e : Ensemble := ⟨2, 1⟩
    let settings : Settings Exact := { Settings.standard with schedule := longSchedule }
    ∃ fit, answer (e.fit (levelModel none) settings 0) = .ok fit := by
  intro e settings
  obtain ⟨reply, replies⟩ := exists_reply isConsistent_level
  have hjoins : e.Joins (levelModel none) settings (e.own (levelModel none) settings reply)
      (answer (e.fit (levelModel none) settings 0)) := by
    rw [answer_fit_joined replies (check_standard longSchedule_valid) rfl]
    exact joins_joined rfl fun i fit h => isOf_of_own replies 0 h
  have hfits : ∀ i < e.chains, ∃ fit, e.own (levelModel none) settings reply i = .ok fit := by
    intro i _
    have valid : ({ longSchedule with seed := e.seed 42 i } : Schedule).Valid :=
      ⟨longSchedule_valid.iterations_pos, longSchedule_valid.burnIn_lt,
        longSchedule_valid.thin_pos, longSchedule_valid.warmUp_le⟩
    rw [← answer_fit_own replies 0]
    exact fit_level valid rfl (show longSchedule.warmUp ≠ 0 by decide)
  obtain ⟨fits, fit, -, hfit, -⟩ := hjoins.fitted hfits (by decide)
  exact ⟨fit, hfit⟩

/-- Two chains of six draws each on the level target. -/
theorem fit_pooled_level :
    let e : Ensemble := ⟨2, 1⟩
    let settings : Settings Exact := { Settings.standard with schedule := longSchedule }
    (levelModel none).StartsAccepted ∧ ∃ fit memory pooled,
      e.fit (levelModel none) settings 0 = .ok fit memory ∧
      (fit.draws.map Draws.size).sum < 2 ^ 32 ∧ fit.draws.length = 2 ∧
      Draws.AreAlike ["x"] 6 fit.draws ∧
      fit.reports.map ChainReport.summary = fit.draws.map (fun c => some c.summary) ∧
      fit.pooled = some pooled ∧ pooled.draws = 12 ∧
      pooled.parameters.map ParameterSummary.name = ["x"] ∧ pooled.IsPooled fit.draws := by
  intro e settings
  obtain ⟨fit, hanswer⟩ := exists_fit_level
  have hfit := answer_eq_ok hanswer
  obtain ⟨-, -, fits, hlength, hfits, hpools⟩ := fit_eq_ok hfit
  have hsum : (fit.draws.map Draws.size).sum = 12 := by
    rw [hpools.draws, (areAlike_of_fits startsAccepted_level hfits).sum_size, List.length_map,
      hlength]
    decide
  have hcount : (fit.draws.map Draws.size).sum < 2 ^ 32 := by omega
  obtain ⟨hdraws, halike, hreports, pooled, hpooled, hnames, hispooled⟩ :=
    fit_pooled e startsAccepted_level settings hfit hcount
  have hretained : settings.schedule.retained = 6 := by decide
  rw [hretained] at halike
  refine ⟨startsAccepted_level, fit, _, pooled, hfit, hcount, hdraws, halike, hreports, hpooled,
    ?_, hnames, hispooled⟩
  rw [hispooled.draws]
  simpa only [Draws.draws_summary] using hsum

end Ensemble

end Metropolis
