import Metropolis.Proofs.Driving
import Metropolis.Proofs.Interleaving
import Metropolis.Proofs.Seeds

/-!
# What an ensemble returns

An ensemble returns what its chains, each fitted alone, come to: the error of the first that fails,
or their reports and draws in order with a summary of all the draws. However the chains take turns
at a consistent model, that is the same. The draws of the chains can always be compared, unless the
schedule keeps fewer than four.
-/

namespace Metropolis

variable {α ε σ β γ : Type}

/-! ## Computations for all elements of a list -/

section Lists

variable {f : β → Except ε γ} {xs : List β}

theorem exists_mapM_eq_ok (h : ∀ x ∈ xs, ∃ y, f x = .ok y) :
    ∃ ys, xs.mapM f = .ok ys ∧ xs.map f = ys.map .ok := by
  induction xs with
  | nil => exact ⟨[], rfl, rfl⟩
  | cons x xs ih =>
    obtain ⟨y, hy⟩ := h x List.mem_cons_self
    obtain ⟨ys, hys, hmap⟩ := ih fun x hx => h x (List.mem_cons_of_mem _ hx)
    refine ⟨y :: ys, ?_, ?_⟩
    · rw [List.mapM_cons, hy, hys]
      rfl
    · rw [List.map_cons, hy, hmap, List.map_cons]

theorem map_of_mapM_eq_ok {ys : List γ} (h : xs.mapM f = .ok ys) : xs.map f = ys.map .ok := by
  induction xs generalizing ys with
  | nil =>
    cases h
    rfl
  | cons x xs ih =>
    rw [List.mapM_cons] at h
    cases hx : f x with
    | error cause => rw [hx] at h; cases h
    | ok y =>
      cases hxs : xs.mapM f with
      | error cause => rw [hx, hxs] at h; cases h
      | ok rest =>
        rw [hx, hxs] at h
        cases h
        rw [List.map_cons, List.map_cons, hx, ih hxs]

theorem mapM_eq_error {i : Nat} {x : β} {cause : ε} (hx : xs[i]? = some x)
    (hfails : f x = .error cause) (hearlier : ∀ j < i, ∀ x, xs[j]? = some x → ∃ y, f x = .ok y) :
    xs.mapM f = .error cause := by
  induction xs generalizing i with
  | nil => cases hx
  | cons head xs ih =>
    rw [List.mapM_cons]
    cases i with
    | zero =>
      cases hx
      rw [hfails]
      rfl
    | succ i =>
      obtain ⟨y, hy⟩ := hearlier 0 (Nat.succ_pos i) head rfl
      have hrest : xs.mapM f = .error cause :=
        ih hx fun j hj x hx => hearlier (j + 1) (Nat.succ_lt_succ hj) x hx
      rw [hy, hrest]
      rfl

theorem mapM_eq_some_iff {g : β → Option γ} {value : β → γ} {P : β → Prop}
    (h : ∀ x y, g x = some y ↔ y = value x ∧ P x) {ys : List γ} :
    xs.mapM g = some ys ↔ ys = xs.map value ∧ ∀ x ∈ xs, P x := by
  induction xs generalizing ys with
  | nil => simp [eq_comm]
  | cons x xs ih =>
    have hcons : (x :: xs).mapM g = some ys ↔
        ∃ y, g x = some y ∧ ∃ rest, xs.mapM g = some rest ∧ y :: rest = ys := by
      simp [List.mapM_cons, Option.bind_eq_some_iff]
    rw [hcons, List.map_cons, List.forall_mem_cons]
    constructor
    · rintro ⟨y, hy, rest, hrest, rfl⟩
      obtain ⟨rfl, hx⟩ := (h x y).1 hy
      obtain ⟨rfl, hxs⟩ := ih.1 hrest
      exact ⟨rfl, hx, hxs⟩
    · rintro ⟨rfl, hx, hxs⟩
      exact ⟨_, (h x _).2 ⟨rfl, hx⟩, _, ih.2 ⟨rfl, hxs⟩, rfl⟩

end Lists

/-! ## The comparison of chains that agree -/

namespace Convergence

variable {chains : List (Draws α)} {names : List String} {n : Nat}

theorem agrees_iff {chain : Draws α} : agrees names chain = true ↔
    chain.names = names ∧ ∀ p ∈ chain.points, p.parameters.length = names.length := by
  simp [agrees]

/-- The names of the first chain are those that all chains agree on. -/
theorem names_head (hchains : chains ≠ []) (hagrees : ∀ c ∈ chains, agrees names c = true) :
    (chains.head?.map Draws.names).getD [] = names := by
  cases chains with
  | nil => exact absurd rfl hchains
  | cons c rest => exact (agrees_iff.1 (hagrees c List.mem_cons_self)).1

theorem usableDraws_eq (hchains : chains ≠ []) (hsize : ∀ c ∈ chains, c.size = n) :
    usableDraws chains = n - n % 2 := by
  have hsizes : chains.map Draws.size = List.replicate chains.length n :=
    List.map_eq_replicate_iff.2 hsize
  have hne : chains.length ≠ 0 := fun h => hchains (List.eq_nil_of_length_eq_zero h)
  rw [usableDraws, hsizes, List.min?_replicate, if_neg hne, Option.getD_some]

/-- Two halves of one length for every chain. -/
theorem halves_spec {used : Nat} (heven : used % 2 = 0) {columns : List (List α)}
    (hlong : ∀ c ∈ columns, used ≤ c.length) :
    (halves used columns).length = 2 * columns.length ∧
      ∀ c ∈ halves used columns, c.length = used / 2 := by
  constructor
  · rw [halves, List.length_flatMap]
    simp [Nat.mul_comm]
  · intro c hc
    obtain ⟨values, hmem, hc⟩ := List.mem_flatMap.1 hc
    have hvalues := hlong values hmem
    simp only [List.mem_cons, List.not_mem_nil, or_false] at hc
    rcases hc with rfl | rfl
    · rw [List.length_take]
      omega
    · rw [List.length_drop, List.length_take]
      omega

variable [Scalar α]

theorem length_column {chain : Draws α} {index : Nat} (h : index < chain.names.length) :
    (chain.column index).length = chain.size := by
  rw [Draws.column, if_neg (by omega), List.length_map, Draws.size]

theorem splitRhat_of_length {columns : List (List α)} {length : Nat} (hcolumns : 2 ≤ columns.length)
    (hlength : ∀ c ∈ columns, c.length = length) (hlong : 2 ≤ length) :
    Series.splitRhat columns = .ok (Series.scaleReduction length columns) := by
  have hhead : (columns.head?.map List.length).getD 0 = length := by
    cases columns with
    | nil => simp at hcolumns
    | cons c rest => exact hlength c List.mem_cons_self
  have hsame : ¬ columns.any (fun c => c.length != length) = true := by
    simpa using hlength
  rw [Series.splitRhat]
  simp only [hhead]
  rw [if_neg (by omega), if_neg (by omega), if_neg hsame]

/-- Chains of one length that agree on the names can be compared if they have four draws. -/
theorem ofChains_of_agreeing (hchains : 2 ≤ chains.length) (hsize : ∀ c ∈ chains, c.size = n)
    (hagrees : ∀ c ∈ chains, agrees names c = true) :
    (n < 4 → ofChains chains = .error (.tooFewDraws 4 (n - n % 2))) ∧
      (4 ≤ n → ∃ convergence, ofChains chains = .ok convergence) := by
  have hne := List.ne_nil_of_length_pos (Nat.zero_lt_of_lt hchains)
  have hused := usableDraws_eq hne hsize
  have hnames := names_head hne hagrees
  rw [ofChains]
  simp only [hused, hnames]
  rw [if_neg (by omega)]
  constructor
  · intro hfew
    rw [if_pos (by omega)]
  · intro henough
    have hall : ¬ (!chains.all (agrees names)) = true := by
      simpa using hagrees
    rw [if_neg (by omega), if_neg hall]
    have hrhats : ∀ index ∈ List.range names.length, ∃ rhat,
        Series.splitRhat (halves (n - n % 2) (chains.map fun c => c.column index)) = .ok rhat := by
      intro index hindex
      have hcolumns : ∀ c ∈ chains.map fun c => c.column index, n - n % 2 ≤ c.length := by
        intro c hc
        obtain ⟨chain, hmem, rfl⟩ := List.mem_map.1 hc
        rw [length_column, hsize chain hmem]
        · exact Nat.sub_le _ _
        rw [(agrees_iff.1 (hagrees chain hmem)).1]
        exact List.mem_range.1 hindex
      obtain ⟨hcount, hlength⟩ := halves_spec (by omega) hcolumns
      rw [List.length_map] at hcount
      exact ⟨_, splitRhat_of_length (by omega) hlength (by omega)⟩
    obtain ⟨rhats, hrhats, -⟩ := exists_mapM_eq_ok hrhats
    rw [hrhats]
    exact ⟨_, rfl⟩

end Convergence

/-! ## What a fit is -/

variable [Scalar α]

/-- A fit of a model by settings: as many draws as the schedule keeps, with a value for each of the
model's parameters. -/
structure Fit.IsOf (fit : Fit α) (m : Model α σ) (settings : Settings α) : Prop where
  info : fit.info = m.info
  size : fit.draws.size = settings.schedule.retained
  agrees : Convergence.agrees m.parameterNames fit.draws = true

theorem Target.model_of_ofModel {m : Model α σ} {t : Target α σ} (h : ofModel m = .ok t) :
    t.model = m := by
  obtain ⟨r, -, h⟩ := ofModel_eq_ok h
  unfold ofRegistry at h
  cases hcoverage : r.checkCoverage m.dimension with
  | error cause => rw [hcoverage] at h; cases h
  | ok u =>
    rw [hcoverage] at h
    cases h
    rfl

/-- A fit has the draws of a chain that has run to its end, and reports their summary. -/
theorem Sampler.fit_eq_ok {s : Sampler α σ} (valid : s.settings.schedule.Valid) {fit : Fit α}
    {memory memory' : σ} (h : s.fit memory = .ok fit memory') :
    ∃ (log : List (Iteration α)) (c : Chain α σ) (trace : Trace α),
      s.Path (s.newChain memory) log c ∧ c.stage.trace? = some trace ∧
      trace.history.size = s.settings.schedule.iterations ∧ fit.info = s.target.model.info ∧
      fit.draws = s.select trace.history ∧ fit.report.summary =
        if fit.draws.summary.draws = 0 then none else some fit.draws.summary := by
  unfold Sampler.fit at h
  cases hcomplete : s.complete (s.newChain memory) with
  | error cause c => rw [hcomplete] at h; cases h
  | ok result c =>
    obtain ⟨draws, report⟩ := result
    rw [hcomplete] at h
    cases h
    obtain ⟨⟨⟩, d, hrun, h⟩ := bind_eq_ok hcomplete
    obtain ⟨selection, d', hrelease, h⟩ := bind_eq_ok h
    rw [bind_get] at h
    obtain ⟨report', d'', hreport, h⟩ := bind_eq_ok h
    cases h
    have hd : s.after memory [.run] = d := by
      rw [after_singleton, call, hrun, leaves_ok]
    have hsound := sound_after valid memory [.run]
    obtain ⟨log, path⟩ := after_path s memory [.run]
    rw [hd] at hsound path
    obtain ⟨trace, started, -, hsize, rfl, rfl⟩ := release_eq_ok valid hsound hrelease
    -- A report of a finalized chain cannot fail.
    obtain ⟨hreport, -⟩ := ofExcept_eq_ok hreport
    cases hreport
    exact ⟨log, d, trace, path, started, hsize, rfl, rfl, rfl⟩

theorem Sampler.isOf_of_fit {s : Sampler α σ} {m : Model α σ} {settings : Settings α}
    (accepted : Sampler.ofModel m settings = .ok s) {fit : Fit α} {memory memory' : σ}
    (h : s.fit memory = .ok fit memory') : fit.IsOf m settings := by
  obtain ⟨hsettings, valid, htarget⟩ := ofModel_eq_ok accepted
  have hmodel := Target.model_of_ofModel htarget
  obtain ⟨log, c, trace, path, started, hsize, hinfo, hdraws, -⟩ := fit_eq_ok valid h
  refine ⟨?_, ?_, ?_⟩
  · rw [hinfo, hmodel]
  · rw [hdraws, (isSelection_select valid hsize).size_eq, hsettings]
  · rw [hdraws, Convergence.agrees_iff, ← hmodel]
    refine ⟨rfl, fun p hp => ?_⟩
    have hmem : p ∈ c.history := by
      rw [Chain.history_of_started started]
      exact mem_of_mem_select hp
    exact (stored_of_stores (isRecorded_of_path path) (.inr (.inl hmem))).length_parameters

theorem Model.fit_eq_ok {m : Model α σ} {settings : Settings α} {fit : Fit α}
    {memory memory' : σ} (h : m.fit settings memory = .ok fit memory') :
    ∃ s, Sampler.ofModel m settings = .ok s ∧ s.fit memory = .ok fit memory' := by
  obtain ⟨s, memory₁, hsampler, hfit⟩ := bind_eq_ok h
  obtain ⟨accepted, rfl⟩ := ofExcept_eq_ok hsampler
  exact ⟨s, accepted, hfit⟩

theorem Model.isOf_of_fit {m : Model α σ} {settings : Settings α} {fit : Fit α}
    {memory memory' : σ} (h : m.fit settings memory = .ok fit memory') : fit.IsOf m settings := by
  obtain ⟨s, accepted, h⟩ := fit_eq_ok h
  exact Sampler.isOf_of_fit accepted h

theorem Draws.draws_summary (d : Draws α) : d.summary.draws = d.size := by
  unfold summary
  split
  next hempty =>
    rw [isEmpty, List.isEmpty_iff] at hempty
    rw [size, hempty]
    rfl
  next => rfl

/-- A fit has draws, so that it reports their summary. -/
theorem Model.summary_of_fit {m : Model α σ} {settings : Settings α} {fit : Fit α}
    {memory memory' : σ} (h : m.fit settings memory = .ok fit memory') :
    fit.report.summary = some fit.draws.summary := by
  obtain ⟨s, accepted, hfit⟩ := fit_eq_ok h
  have valid := (Sampler.ofModel_eq_ok accepted).2.1
  obtain ⟨log, c, trace, -, -, hsize, -, hdraws, hsummary⟩ := Sampler.fit_eq_ok valid hfit
  have hpos : 0 < fit.draws.size := by
    rw [hdraws]
    exact (Sampler.isSelection_select valid hsize).size_pos
  rw [hsummary, if_neg]
  rw [Draws.draws_summary]
  exact hpos.ne'

/-! ## What the chains come to together -/

namespace Draws

variable {chains : List (Draws α)} {names : List String} {n : Nat}

omit [Scalar α] in
theorem size_pool (hsize : ∀ c ∈ chains, c.size = n) : (pool chains).size = chains.length * n := by
  have hsizes : (chains.map fun c => c.points.length) = List.replicate chains.length n :=
    List.map_eq_replicate_iff.2 hsize
  show (chains.flatMap points).length = _
  rw [List.length_flatMap, hsizes, List.sum_replicate, smul_eq_mul]

end Draws

namespace Ensemble

variable {e : Ensemble} {m : Model α σ} {settings : Settings α} {fits : List (Fit α)}

/-- The summary of all draws of several chains, one chain after another. -/
def pooledSummary (m : Model α σ) (draws : List (Draws α)) : Summary α :=
  Draws.summary ⟨m.parameterNames, draws.flatMap Draws.points⟩

/-- What the fits of several chains are together. -/
structure Pools (m : Model α σ) (fits : List (Fit α)) (fit : EnsembleFit α) : Prop where
  info : fit.info = m.info
  reports : fit.reports = fits.map Fit.report
  draws : fit.draws = fits.map Fit.draws
  pooled : fit.pooled = some (pooledSummary m fit.draws)
  convergence : Convergence.ofChains fit.draws = .ok fit.convergence

theorem combine_of_isOf (hcount : 2 ≤ fits.length) (hfits : ∀ f ∈ fits, f.IsOf m settings) :
    (settings.schedule.retained < 4 → combine m.info fits = .error (.ensemble
        (.tooFewDraws 4 (settings.schedule.retained - settings.schedule.retained % 2)))) ∧
      (4 ≤ settings.schedule.retained → ∃ fit, combine m.info fits = .ok fit ∧
        Pools m fits fit ∧
          (pooledSummary m fit.draws).draws = fits.length * settings.schedule.retained) := by
  have hdraws : ∀ d ∈ fits.map Fit.draws, d.size = settings.schedule.retained ∧
      Convergence.agrees m.parameterNames d = true := by
    intro d hd
    obtain ⟨f, hf, rfl⟩ := List.mem_map.1 hd
    exact ⟨(hfits f hf).size, (hfits f hf).agrees⟩
  have hlength : (fits.map Fit.draws).length = fits.length := List.length_map _
  obtain ⟨hfew, henough⟩ := Convergence.ofChains_of_agreeing (hlength ▸ hcount)
    (fun d hd => (hdraws d hd).1) fun d hd => (hdraws d hd).2
  constructor
  · intro hretained
    simp only [combine, hfew hretained]
    rfl
  · intro hretained
    obtain ⟨convergence, hconvergence⟩ := henough hretained
    have hsize := Draws.size_pool fun d hd => (hdraws d hd).1
    have hpool : Draws.pool (fits.map Fit.draws) =
        ⟨m.parameterNames, (fits.map Fit.draws).flatMap Draws.points⟩ := by
      cases fits with
      | nil => simp at hcount
      | cons f rest =>
        have hnames := (Convergence.agrees_iff.1 (hfits f List.mem_cons_self).agrees).1
        rw [Draws.pool, List.map_cons, List.head?_cons, Option.map_some, Option.getD_some, hnames]
    rw [hlength, hpool] at hsize
    have hnonempty : ¬ (Draws.pool (fits.map Fit.draws)).isEmpty = true := by
      intro hempty
      rw [hpool, Draws.isEmpty, List.isEmpty_iff] at hempty
      rw [Draws.size, hempty, List.length_nil] at hsize
      have hpos : 0 < fits.length * settings.schedule.retained :=
        Nat.mul_pos (by omega) (by omega)
      omega
    have hcombine : combine m.info fits =
        .ok ⟨m.info, fits.map Fit.report, fits.map Fit.draws,
          some (pooledSummary m (fits.map Fit.draws)), convergence⟩ := by
      rw [hpool] at hnonempty
      simp only [combine, hconvergence, hpool, if_neg hnonempty]
      rfl
    refine ⟨_, hcombine, ⟨rfl, rfl, rfl, rfl, hconvergence⟩, ?_⟩
    rw [← hsize]
    exact Draws.draws_summary _

/-! ## The result in terms of the chains -/

variable (e m settings)

/-- The result of an ensemble from the outcomes of its chains in order. -/
def joined (m : Model α σ) (outcomes : List (Except (Error α) (Fit α))) :
    Except (Error α) (EnsembleFit α) := do
  let fits ← outcomes.mapM id
  combine m.info fits

/-- The result of an ensemble once all its chains have ended. -/
def result? (p : Progress α σ) : Option (Except (Error α) (EnsembleFit α)) :=
  ((List.range e.chains).mapM (e.outcome? m settings p)).map (joined m)

/-- What a result is of the outcomes that the chains have each alone. -/
structure Joins (own : Nat → Except (Error α) (Fit α))
    (result : Except (Error α) (EnsembleFit α)) : Prop where
  /-- The error is that of the first chain that fails. -/
  failed : ∀ i < e.chains, ∀ cause, own i = .error cause → (∀ j < i, ∃ fit, own j = .ok fit) →
    result = .error cause
  tooFew : (∀ i < e.chains, ∃ fit, own i = .ok fit) → settings.schedule.retained < 4 →
    result = .error (.ensemble
      (.tooFewDraws 4 (settings.schedule.retained - settings.schedule.retained % 2)))
  fitted : (∀ i < e.chains, ∃ fit, own i = .ok fit) → 4 ≤ settings.schedule.retained →
    ∃ fits fit, (List.range e.chains).map own = fits.map .ok ∧ result = .ok fit ∧
      Pools m fits fit ∧
      (pooledSummary m fit.draws).draws = e.chains * settings.schedule.retained

variable {e m settings}

theorem joins_joined {own : Nat → Except (Error α) (Fit α)} (hcheck : e.check = .ok ())
    (hown : ∀ i fit, own i = .ok fit → fit.IsOf m settings) :
    e.Joins m settings own (joined m ((List.range e.chains).map own)) := by
  obtain ⟨hchains, -⟩ := e.check_eq_ok_iff.1 hcheck
  -- If all chains succeed, their fits are combined.
  have hjoined : (∀ i < e.chains, ∃ fit, own i = .ok fit) → ∃ fits,
      (List.range e.chains).map own = fits.map .ok ∧ fits.length = e.chains ∧
      (∀ f ∈ fits, f.IsOf m settings) ∧
      joined m ((List.range e.chains).map own) = combine m.info fits := by
    intro hall
    have houtcomes : ∀ outcome ∈ (List.range e.chains).map own, ∃ fit, id outcome = .ok fit := by
      intro outcome hmem
      obtain ⟨i, hi, rfl⟩ := List.mem_map.1 hmem
      exact hall i (List.mem_range.1 hi)
    obtain ⟨fits, hfits, hmap⟩ := exists_mapM_eq_ok houtcomes
    rw [List.map_id] at hmap
    refine ⟨fits, hmap, ?_, fun f hf => ?_, ?_⟩
    · rw [← List.length_map (f := Except.ok), ← hmap, List.length_map, List.length_range]
    · have hmem : Except.ok f ∈ (List.range e.chains).map own := by
        rw [hmap]
        exact List.mem_map_of_mem hf
      obtain ⟨i, -, hi⟩ := List.mem_map.1 hmem
      exact hown i f hi
    · rw [joined, hfits]
      rfl
  constructor
  · intro i hi cause hfails hearlier
    have hget : ∀ j < e.chains, ((List.range e.chains).map own)[j]? = some (own j) := by
      intro j hj
      rw [List.getElem?_map, List.getElem?_range hj, Option.map_some]
    have herror : ((List.range e.chains).map own).mapM id = .error cause := by
      refine mapM_eq_error (hget i hi) hfails fun j hj outcome houtcome => ?_
      rw [hget j (by omega)] at houtcome
      cases houtcome
      exact hearlier j hj
    rw [joined, herror]
    rfl
  · intro hall hretained
    obtain ⟨fits, hmap, hlength, hfits, hcombine⟩ := hjoined hall
    rw [hcombine]
    exact (combine_of_isOf (by omega) hfits).1 hretained
  · intro hall hretained
    obtain ⟨fits, hmap, hlength, hfits, hcombine⟩ := hjoined hall
    obtain ⟨fit, hfit, hpools, hdraws⟩ := (combine_of_isOf (by omega) hfits).2 hretained
    rw [hlength] at hdraws
    exact ⟨fits, fit, hmap, hcombine.trans hfit, hpools, hdraws⟩

/-! ## The fit -/

omit [Scalar α] in
theorem settingsOf_zero (e : Ensemble) (settings : Settings α) :
    e.settingsOf settings 0 = settings := by
  have hseed : e.seed settings.schedule.seed 0 = settings.schedule.seed := by
    have hoffset : e.offset 0 = 0 := by
      apply UInt64.toNat_inj.1
      rw [toNat_offset, Nat.zero_mul, Nat.zero_min]
      rfl
    rw [seed, hoffset, UInt64.add_zero]
  rw [settingsOf, hseed]

/-- The settings of a chain differ in the seed only. -/
theorem isOf_of_fit {i : Nat} {fit : Fit α} {memory memory' : σ}
    (h : m.fit (e.settingsOf settings i) memory = .ok fit memory') : fit.IsOf m settings := by
  obtain ⟨hinfo, hsize, hagrees⟩ := Model.isOf_of_fit h
  exact ⟨hinfo, hsize, hagrees⟩

/-- The fit joins the outcomes of a run of one chain after another. -/
theorem answer_fit (hsettings : settings.check = .ok ()) (hcheck : e.check = .ok ()) (memory : σ) :
    answer (e.fit m settings memory) =
      joined m (e.runChains m settings (List.range e.chains) memory).1 := by
  unfold Ensemble.fit
  rw [hsettings, hcheck]
  cases hsampler : Sampler.ofModel m settings with
  | ok s =>
    have hmodel : s.target.model = m :=
      Target.model_of_ofModel (Sampler.ofModel_eq_ok hsampler).2.2
    show answer ((do
      let fits ← MonadExcept.ofExcept
        ((e.runChains m settings (List.range e.chains) memory).1.mapM id)
      MonadExcept.ofExcept (combine s.target.model.info fits) :
        EStateM (Error α) σ (EnsembleFit α))
          (e.runChains m settings (List.range e.chains) memory).2) = _
    rw [hmodel, joined]
    cases (e.runChains m settings (List.range e.chains) memory).1.mapM id with
    | error cause => rfl
    | ok fits =>
      show answer ((MonadExcept.ofExcept (combine m.info fits) :
        EStateM (Error α) σ (EnsembleFit α)) _) = combine m.info fits
      cases combine m.info fits <;> rfl
  | error cause =>
    -- The first of the chains fails for the same reason.
    obtain ⟨hchains, -⟩ := e.check_eq_ok_iff.1 hcheck
    obtain ⟨n, hn⟩ : ∃ n, e.chains = n + 1 := ⟨e.chains - 1, by omega⟩
    have hfit : m.fit settings memory = .error cause memory := by
      unfold Model.fit
      rw [hsampler]
      rfl
    show Except.error cause = _
    rw [hn, List.range_succ_eq_map, runChains_cons, settingsOf_zero, hfit, joined, List.mapM_cons]
    rfl

theorem joined_eq_ok {outcomes : List (Except (Error α) (Fit α))} {fit : EnsembleFit α}
    (h : joined m outcomes = .ok fit) :
    ∃ fits, outcomes = fits.map .ok ∧ combine m.info fits = .ok fit := by
  unfold joined at h
  cases hfits : outcomes.mapM id with
  | error cause => rw [hfits] at h; cases h
  | ok fits =>
    rw [hfits] at h
    refine ⟨fits, ?_, h⟩
    rw [← map_of_mapM_eq_ok hfits, List.map_id]

/-- An ensemble that is fitted has as many fits as chains, each of at least four draws, and pools
them. -/
theorem fit_eq_ok {fit : EnsembleFit α} {memory memory' : σ}
    (h : e.fit m settings memory = .ok fit memory') : 2 ≤ e.chains ∧
      4 ≤ settings.schedule.retained ∧ ∃ fits : List (Fit α), fits.length = e.chains ∧
        (∀ f ∈ fits, ∃ i memory₁ memory₂,
          m.fit (e.settingsOf settings i) memory₁ = .ok f memory₂) ∧ Pools m fits fit := by
  obtain ⟨⟨⟩, memory₁, hsettings, hrest⟩ := bind_eq_ok h
  obtain ⟨⟨⟩, memory₂, hcheck, -⟩ := bind_eq_ok hrest
  have hsettings := (ofExcept_eq_ok hsettings).1
  have hcheck := mapError_eq_ok (ofExcept_eq_ok hcheck).1
  have hjoined := answer_fit (m := m) hsettings hcheck memory
  rw [h, answer_ok, eq_comm] at hjoined
  obtain ⟨fits, houtcomes, hcombine⟩ := joined_eq_ok hjoined
  have hlength : fits.length = e.chains := by
    rw [← List.length_map (f := Except.ok), ← houtcomes, length_runChains, List.length_range]
  have hfits : ∀ f ∈ fits, ∃ i memory₁ memory₂,
      m.fit (e.settingsOf settings i) memory₁ = .ok f memory₂ := by
    intro f hf
    have hmem : Except.ok f ∈ (e.runChains m settings (List.range e.chains) memory).1 := by
      rw [houtcomes]
      exact List.mem_map_of_mem hf
    obtain ⟨i, -, memory₁, hanswer⟩ := exists_of_mem_runChains e m settings hmem
    exact ⟨i, memory₁, _, answer_eq_ok hanswer⟩
  have hisOf : ∀ f ∈ fits, f.IsOf m settings := by
    intro f hf
    obtain ⟨i, memory₁, memory₂, hf⟩ := hfits f hf
    exact isOf_of_fit hf
  have hchains := (e.check_eq_ok_iff.1 hcheck).1
  obtain ⟨hfew, henough⟩ := combine_of_isOf (hlength.symm ▸ hchains) hisOf
  by_cases hretained : settings.schedule.retained < 4
  · -- Chains of fewer draws are not compared.
    rw [hfew hretained] at hcombine
    cases hcombine
  · obtain ⟨fit', hcombine', hpools, -⟩ := henough (not_lt.1 hretained)
    rw [hcombine] at hcombine'
    cases hcombine'
    exact ⟨hchains, not_lt.1 hretained, fits, hlength, hfits, hpools⟩

omit [Scalar α] in
theorem exists_reply (consistent : m.IsConsistent) :
    ∃ reply : List α → Nat → Except ModelError α,
      ∀ θ subject memory, answer (m.logLikelihood θ subject memory) = reply θ subject := by
  by_cases h : Nonempty σ
  · obtain ⟨memory₀⟩ := h
    exact ⟨fun θ subject => answer (m.logLikelihood θ subject memory₀),
      fun θ subject memory => consistent θ subject memory memory₀⟩
  · exact ⟨fun _ subject => .error (.noSuchSubject subject 0), fun _ _ memory => absurd ⟨memory⟩ h⟩

section Own

variable (e m settings) (reply : List α → Nat → Except ModelError α)

/-- The outcome of a chain if every question has one answer. -/
noncomputable def own (i : Nat) : Except (Error α) (Fit α) :=
  (m.inquiry (e.settingsOf settings i)).resolve reply

/-- The number of turns that a chain then takes. -/
noncomputable def turns (i : Nat) : Nat := (m.inquiry (e.settingsOf settings i)).calls reply

variable {e m settings reply}
  (replies : ∀ θ subject memory, answer (m.logLikelihood θ subject memory) = reply θ subject)

include replies

theorem answer_fit_own (memory : σ) (i : Nat) :
    answer (m.fit (e.settingsOf settings i) memory) = e.own m settings reply i := by
  rw [(fit_eq_run e m settings memory i).1]
  exact Inquiry.run_eq_resolve replies _ memory

theorem isOf_of_own (memory : σ) {i : Nat} {fit : Fit α}
    (h : e.own m settings reply i = .ok fit) : fit.IsOf m settings := by
  rw [← answer_fit_own replies memory i] at h
  exact isOf_of_fit (answer_eq_ok h)

theorem outcome?_fresh_iff (memory : σ) (schedule : List Nat) (i : Nat)
    (outcome : Except (Error α) (Fit α)) :
    e.outcome? m settings (e.play m settings (fresh memory) schedule) i = some outcome ↔
      outcome = e.own m settings reply i ∧ e.turns m settings reply i ≤ schedule.count i := by
  have hleft : e.left m settings (fresh memory) i = m.inquiry (e.settingsOf settings i) :=
    Inquiry.after_nil _
  rw [outcome?_play_iff e settings replies, hleft]
  rfl

/-- The outcomes that a fit joins are those of the chains alone. -/
theorem answer_fit_joined (hsettings : settings.check = .ok ()) (hcheck : e.check = .ok ())
    (memory : σ) : answer (e.fit m settings memory) =
      joined m ((List.range e.chains).map (e.own m settings reply)) := by
  obtain ⟨schedule, -, -, houtcomes, -⟩ := play_runChains e m settings (List.range e.chains)
    List.nodup_range (fresh memory) fun _ _ => rfl
  have hown := (mapM_eq_some_iff (outcome?_fresh_iff replies memory schedule)).1 houtcomes
  rw [answer_fit hsettings hcheck, ← hown.1]
  rfl

theorem result?_fresh_iff (hsettings : settings.check = .ok ()) (hcheck : e.check = .ok ())
    (memory memory' : σ) (schedule : List Nat) (result : Except (Error α) (EnsembleFit α)) :
    e.result? m settings (e.play m settings (fresh memory) schedule) = some result ↔
      result = answer (e.fit m settings memory') ∧
        ∀ i < e.chains, e.turns m settings reply i ≤ schedule.count i := by
  have hended : ∀ outcomes, (List.range e.chains).mapM
      (e.outcome? m settings (e.play m settings (fresh memory) schedule)) = some outcomes ↔
        outcomes = (List.range e.chains).map (e.own m settings reply) ∧
          ∀ i < e.chains, e.turns m settings reply i ≤ schedule.count i := by
    intro outcomes
    rw [mapM_eq_some_iff (outcome?_fresh_iff replies memory schedule)]
    simp only [List.mem_range]
  rw [result?, answer_fit_joined replies hsettings hcheck, Option.map_eq_some_iff]
  constructor
  · rintro ⟨outcomes, houtcomes, rfl⟩
    obtain ⟨rfl, hturns⟩ := (hended outcomes).1 houtcomes
    exact ⟨rfl, hturns⟩
  · rintro ⟨rfl, hturns⟩
    exact ⟨_, (hended _).2 ⟨rfl, hturns⟩, rfl⟩

end Own

/-- With a consistent model the outcome of a chain is that of the fit by this chain alone, whose
settings differ from the given ones only in the seed, whatever the others do and however many there
are. The first chain has the settings as they are given. Once every chain has had its turns the
result is there, the same for all schedules: the one of the fit, which joins the outcomes of the
chains. -/
theorem fit_interleaved (e : Ensemble) (m : Model α σ) (settings : Settings α)
    (consistent : m.IsConsistent) (hsettings : settings.check = .ok ())
    (hcheck : e.check = .ok ()) :
    ∃ own : Nat → Except (Error α) (Fit α),
      (∀ i memory, answer (m.fit { settings with schedule :=
        { settings.schedule with seed := e.seed settings.schedule.seed i } } memory) = own i) ∧
      (∀ chains i, (Ensemble.mk chains e.stride).seed settings.schedule.seed i =
        e.seed settings.schedule.seed i) ∧
      (∀ memory, answer (m.fit settings memory) = own 0) ∧
      (∃ turns : Nat → Nat,
        (∀ memory schedule i outcome,
          e.outcome? m settings (e.play m settings (fresh memory) schedule) i = some outcome ↔
            outcome = own i ∧ turns i ≤ schedule.count i) ∧
        ∀ memory memory' schedule result,
          e.result? m settings (e.play m settings (fresh memory) schedule) = some result ↔
            result = answer (e.fit m settings memory') ∧
              ∀ i < e.chains, turns i ≤ schedule.count i) ∧
      ∀ memory, e.Joins m settings own (answer (e.fit m settings memory)) := by
  obtain ⟨reply, replies⟩ := exists_reply consistent
  refine ⟨e.own m settings reply, fun i memory => answer_fit_own replies memory i,
    fun _ _ => rfl, fun memory => ?_, ⟨e.turns m settings reply, outcome?_fresh_iff replies,
      result?_fresh_iff replies hsettings hcheck⟩, fun memory => ?_⟩
  · rw [← answer_fit_own replies memory 0, settingsOf_zero]
  · rw [answer_fit_joined replies hsettings hcheck]
    exact joins_joined hcheck fun i fit h => isOf_of_own replies memory h

/-- A schedule that keeps six draws. -/
def longSchedule : Schedule where
  iterations := 8
  burnIn := 2
  thin := 1
  warmUp := 1

theorem longSchedule_valid : longSchedule.Valid := by
  constructor <;> decide

/-- The level model without a limit can be fitted on every schedule that has a warm-up and needs no
search. -/
theorem fit_level {schedule : Schedule} (valid : schedule.Valid) (hgrid : schedule.gridSize = 0)
    (hwarm : schedule.warmUp ≠ 0) : ∃ fit,
      answer ((levelModel none).fit { Settings.standard with schedule } 0) = .ok fit := by
  obtain ⟨c, hrun, hcompleted⟩ := Sampler.run_levelSampler hgrid hwarm
  have hafter : (levelSampler none schedule).after 0 [.run] = c := by
    rw [Sampler.after_singleton, Sampler.call, hrun, leaves_ok]
  have hsound := Sampler.sound_after (s := levelSampler none schedule) valid 0 [.run]
  rw [hafter] at hsound
  obtain ⟨selection, d, hrelease⟩ :=
    Sampler.release_complete (s := levelSampler none schedule) valid hcompleted
  obtain ⟨trace, -, -, -, rfl, rfl⟩ := Sampler.release_eq_ok valid hsound hrelease
  obtain ⟨fit, memory', hfit, -⟩ := Sampler.fit_of_run (ofModel_level none valid) hrun hrelease
  exact ⟨fit, by rw [hfit, answer_ok]⟩

theorem count_alternate {i : Nat} (hi : i < 2) (n : Nat) :
    (List.replicate n [0, 1]).flatten.count i = n := by
  have hone : [0, 1].count i = 1 := by
    rcases (show i = 0 ∨ i = 1 by omega) with rfl | rfl <;> rfl
  rw [List.count_flatten, List.map_replicate, hone, List.sum_replicate, smul_eq_mul, Nat.mul_one]

/-- Two chains on the level target that alternate, the first with the seed of the settings and the
second with the next one. -/
theorem fit_interleaved_level :
    let e : Ensemble := ⟨2, 1⟩
    let settings : Settings Exact := { Settings.standard with schedule := longSchedule }
    let alone (seed : UInt64) : Except (Error Exact) (Fit Exact) := answer ((levelModel none).fit
      { Settings.standard with schedule := { longSchedule with seed } } 0)
    (levelModel none).IsConsistent ∧ settings.check = .ok () ∧ e.check = .ok () ∧
      settings.schedule.seed = 42 ∧
      ∃ fits fit, [alone 42, alone 43] = fits.map .ok ∧
        answer (e.fit (levelModel none) settings 0) = .ok fit ∧
        Pools (levelModel none) fits fit ∧
        (pooledSummary (levelModel none) fit.draws).draws = 12 ∧
        ∃ n, e.result? (levelModel none) settings (e.play (levelModel none) settings (fresh 0)
          (List.replicate n [0, 1]).flatten) = some (.ok fit) := by
  intro e settings alone
  have hsettings : settings.check = .ok () := check_standard longSchedule_valid
  have hcheck : e.check = .ok () := rfl
  obtain ⟨own, hown, -, -, ⟨turns, -, hresult⟩, hjoins⟩ :=
    fit_interleaved e (levelModel none) settings isConsistent_level hsettings hcheck
  have hfits : ∀ i < e.chains, ∃ fit, own i = .ok fit := by
    intro i _
    have valid : ({ longSchedule with seed := e.seed 42 i } : Schedule).Valid :=
      ⟨longSchedule_valid.iterations_pos, longSchedule_valid.burnIn_lt,
        longSchedule_valid.thin_pos, longSchedule_valid.warmUp_le⟩
    rw [← hown i 0]
    exact fit_level valid rfl (show longSchedule.warmUp ≠ 0 by decide)
  obtain ⟨fits, fit, hmap, hfit, hpools, hdraws⟩ := (hjoins 0).fitted hfits (by decide)
  refine ⟨isConsistent_level, hsettings, hcheck, rfl, fits, fit, ?_, hfit, hpools,
    hdraws.trans (by decide), max (turns 0) (turns 1), ?_⟩
  · have hfirst : alone 42 = own 0 := hown 0 0
    have hsecond : alone 43 = own 1 := hown 1 0
    rw [hfirst, hsecond]
    exact hmap
  · refine (hresult 0 0 _ _).2 ⟨hfit.symm, fun i (hi : i < 2) => ?_⟩
    rw [count_alternate hi]
    rcases (show i = 0 ∨ i = 1 by omega) with rfl | rfl
    · exact le_max_left _ _
    · exact le_max_right _ _

end Ensemble

end Metropolis
