import Metropolis.Proofs.Consultation
import Metropolis.Proofs.FirstBest
import Metropolis.Proofs.Normalization

/-!
# Priors that are feasible nowhere

A prior with an infinite variance, shape, rate or scale passes the check of its hyperparameters, but
its density is finite nowhere; with finite hyperparameters it is finite just on the support. So a
registry has a vector with a finite prior just if all hyperparameters in it are finite and every
standard deviation of realizations can be positive. Without such a vector every chain fails in its
search, whatever the model: the model is not asked once.
-/

namespace Metropolis

variable {σ : Type}

/-! ## One prior -/

namespace Prior

variable {p : Prior Exact} {x : Exact}

/-- Only finite hyperparameters give a finite density. -/
theorem finite_of_logDensity (hvalid : p.isValid = true)
    (h : Scalar.isFinite (p.logDensity x) = true) :
    ∀ y ∈ p.hyperparameters, Scalar.isFinite y = true := by
  have pair {a b : Exact} (ha : Scalar.isFinite a = true) (hb : Scalar.isFinite b = true) :
      ∀ y ∈ [a, b], Scalar.isFinite y = true :=
    List.forall_mem_cons.2 ⟨ha, List.forall_mem_singleton.2 hb⟩
  cases p with
  | flat => exact List.forall_mem_nil _
  | normal mean variance =>
    simp only [isValid, Bool.and_eq_true] at hvalid
    exact pair hvalid.1 (scale_of_logNormalDensity h).2
  | uniform lower upper =>
    simp only [isValid, Bool.and_eq_true] at hvalid
    exact pair hvalid.1.1 hvalid.1.2
  | gamma shape rate =>
    simp only [logDensity, logGammaDensity] at h
    split at h
    · -- The factors of the first term are the shape and the logarithm of the rate.
      have hfirst := (Exact.isFinite_of_add (Exact.isFinite_of_add h).1).1
      obtain ⟨hshape, hlog⟩ := Exact.isFinite_of_mul hfirst
      exact pair hshape (Exact.isFinite_of_log hlog).2
    · cases h
  | inverseGamma shape scale =>
    simp only [logDensity, logInverseGammaDensity] at h
    split at h
    · have hfirst := (Exact.isFinite_of_add (Exact.isFinite_of_sub h).1).1
      obtain ⟨hshape, hlog⟩ := Exact.isFinite_of_mul hfirst
      exact pair hshape (Exact.isFinite_of_log hlog).2
    · cases h
  | halfNormal scale =>
    simp only [isValid, Bool.and_eq_true] at hvalid
    exact List.forall_mem_singleton.2 hvalid.2
  | logNormal mu sigma =>
    simp only [isValid, Bool.and_eq_true] at hvalid
    simp only [logDensity, logLogNormalDensity] at h
    split at h
    · have hsquare := (scale_of_logNormalDensity (Exact.isFinite_of_sub h).1).2
      exact pair hvalid.1 (Exact.isFinite_of_mul hsquare).1
    · cases h

theorem isFinite_logDensity_iff (hvalid : p.isValid = true) (x : ℝ) :
    Scalar.isFinite (p.logDensity (.real x)) = true ↔
      x ∈ p.support ∧ ∀ y ∈ p.hyperparameters, Scalar.isFinite y = true := by
  by_cases hflat : p = .flat
  · subst hflat
    exact iff_of_true rfl ⟨Set.mem_univ x, List.forall_mem_nil _⟩
  · refine ⟨fun h => ?_, fun ⟨hx, hfinite⟩ => ?_⟩
    · have hfinite := finite_of_logDensity hvalid h
      have hproper := isProper_of_isValid hvalid hflat hfinite
      exact ⟨(hproper.supports_iff x).1 (supports_of_isFinite h), hfinite⟩
    · rw [(isProper_of_isValid hvalid hflat hfinite).isLogOf.inside x hx]
      rfl

theorem support_nonempty (hvalid : p.isValid = true) : p.support.Nonempty := by
  cases p with
  | uniform lower upper =>
    simp only [isValid, Bool.and_eq_true, decide_eq_true_eq] at hvalid
    obtain ⟨⟨hlower, hupper⟩, hlt⟩ := hvalid
    rw [Exact.eq_real_of_isFinite hlower, Exact.eq_real_of_isFinite hupper, Exact.real_lt] at hlt
    exact Set.nonempty_Icc.2 hlt.le
  | flat | normal => exact Set.univ_nonempty
  | halfNormal => exact Set.nonempty_Ici
  | gamma | inverseGamma | logNormal => exact Set.nonempty_Ioi

end Prior

/-! ## The priors of a registry -/

namespace Registry

variable {r : Registry Exact} {log : List (Registration Exact)} {θ : List Exact}

/-- Whether all hyperparameters are finite, and standard deviations of realizations can be
positive. -/
structure IsFeasible (r : Registry Exact) : Prop where
  finite : ∀ i entry p, r.get? i = some entry → entry.prior? = some p →
    ∀ y ∈ p.hyperparameters, Scalar.isFinite y = true
  positive : ∀ s p governed, r.get? s = some (.hyper p governed) → ∃ x ∈ p.support, 0 < x

/-- A number in the support of a parameter's prior, positive for a standard deviation. -/
theorem Holds.exists_coordinate (h : r.Holds log) (feasible : r.IsFeasible) (i : Nat) :
    ∃ x : ℝ, (∀ entry p, r.get? i = some entry → entry.prior? = some p → x ∈ p.support) ∧
      ∀ p governed, r.get? i = some (.hyper p governed) → 0 < x := by
  by_cases hhyper : ∃ p governed, r.get? i = some (.hyper p governed)
  · obtain ⟨p, governed, hi⟩ := hhyper
    obtain ⟨x, hx, hpos⟩ := feasible.positive i p governed hi
    refine ⟨x, fun entry q hentry hq => ?_, fun _ _ _ => hpos⟩
    cases hi.symm.trans hentry
    cases hq
    exact hx
  by_cases hprior : ∃ entry p, r.get? i = some entry ∧ entry.prior? = some p
  · obtain ⟨entry, p, hi, hp⟩ := hprior
    obtain ⟨x, hx⟩ := Prior.support_nonempty (h.linked.valid i entry p hi hp)
    refine ⟨x, fun entry' q hentry hq => ?_, fun q governed hq => absurd ⟨q, governed, hq⟩ hhyper⟩
    cases hi.symm.trans hentry
    cases hp.symm.trans hq
    exact hx
  · exact ⟨0, fun entry p hi hp => absurd ⟨entry, p, hi, hp⟩ hprior,
      fun p governed hi => absurd ⟨p, governed, hi⟩ hhyper⟩

theorem Holds.exists_logPrior (h : r.Holds log) (feasible : r.IsFeasible) {n : Nat}
    (covered : ∀ i ∈ r.indices, i < n) :
    ∃ (θ : List Exact) (x : Exact), θ.length = n ∧ r.logPrior θ = .ok x ∧
      Scalar.isFinite x = true := by
  choose f hsupport hpositive using h.exists_coordinate feasible
  let θ := (List.range n).map fun i => Exact.real (f i)
  have hlength : θ.length = n := by rw [List.length_map, List.length_range]
  have hcoordinate {i : Nat} (hi : i < n) : coordinate θ i = .real (f i) := by
    rw [coordinate_of_lt (by rwa [hlength]), List.getElem_map, List.getElem_range]
  suffices hfinite : ∀ e ∈ r.entries, Scalar.isFinite (e.2.logDensity θ e.1) = true by
    obtain ⟨x, hx, hxfinite⟩ :=
      logPrior_finite Exact.noOverflow h.isClosed (by rwa [hlength]) hfinite
    exact ⟨θ, x, hlength, hx, hxfinite⟩
  rintro ⟨i, entry⟩ hmem
  have hi : r.get? i = some entry := (get?_eq_some_iff h.ordered).2 hmem
  have hlt : i < n := covered i (List.mem_map_of_mem (f := Prod.fst) hmem)
  have hprior (p : Prior Exact) (hp : entry.prior? = some p) :
      Scalar.isFinite (p.logDensity (coordinate θ i)) = true := by
    rw [hcoordinate hlt]
    exact (Prior.isFinite_logDensity_iff (h.linked.valid i entry p hi hp) _).2
      ⟨hsupport i entry p hi hp, feasible.finite i entry p hi hp⟩
  cases entry with
  | fixed p => exact hprior p rfl
  | hyper p governed => exact hprior p rfl
  | realization effect spread =>
    -- The standard deviation has a hyper-prior, so that its number is positive.
    obtain ⟨-, stored, governed, hspread, -⟩ := h.linked.realization i effect spread hi
    have hspreadlt : spread < n := covered spread (h.isClosed i effect spread hmem)
    show Scalar.isFinite (effect.logDensity (coordinate θ i) (coordinate θ spread)) = true
    rw [hcoordinate hlt, hcoordinate hspreadlt]
    exact effect.isFinite_logDensity _ (hpositive spread stored governed hspread)

theorem Holds.isFeasible_of_logPrior (h : r.Holds log) (covered : ∀ i ∈ r.indices, i < θ.length)
    {x : Exact} (hprior : r.logPrior θ = .ok x) (hx : Scalar.isFinite x = true) :
    r.IsFeasible := by
  have hterm (i : Nat) (entry : Entry Exact) (hi : r.get? i = some entry) :
      Scalar.isFinite (entry.logDensity θ i) = true :=
    finite_of_logPrior h.isClosed covered hprior hx _ ((get?_eq_some_iff h.ordered).1 hi)
  refine ⟨fun i entry p hi hp => ?_, fun s p governed hs => ?_⟩
  · refine Prior.finite_of_logDensity (x := coordinate θ i) (h.linked.valid i entry p hi hp) ?_
    have hdensity := hterm i entry hi
    cases entry <;> cases hp <;> exact hdensity
  · -- A realization is finite, so that its standard deviation is positive.
    obtain ⟨-, j, effect, hreg⟩ := h.hyper hs
    obtain ⟨hpos, hfinite⟩ := Effect.scale_of_logDensity (hterm j _ (h.own _ hreg))
    have hspread : Scalar.isFinite (p.logDensity (coordinate θ s)) = true := hterm s _ hs
    rw [Exact.eq_real_of_isFinite hfinite] at hpos hspread
    exact ⟨_, ((Prior.isFinite_logDensity_iff (h.linked.valid s _ p hs rfl) _).1 hspread).1,
      (Exact.zero_lt_real_iff _).1 hpos⟩

end Registry

/-! ## A search without a feasible vector -/

theorem Target.evaluate_of_infeasible {m : Model Exact σ} {t : Target Exact σ}
    (ht : ofModel m = .ok t) (infeasible : ¬ t.registry.IsFeasible) {θ : List Exact}
    (hθ : θ.length = t.dimension) (memory : σ) :
    t.evaluate θ memory = .ok (.impossible θ) memory := by
  obtain ⟨rfl, holds, hcoverage⟩ := holds_of_ofModel ht
  have hcovered : ∀ i ∈ t.registry.indices, i < θ.length := by
    rw [hθ]
    exact Registry.lt_of_checkCoverage hcoverage
  obtain ⟨x, hx⟩ := isCovered_of_ofModel ht θ hθ
  have hprior := registry_logPrior_of_ok hx
  rcases Registry.logPrior_cases holds.isClosed hcovered hprior with rfl | hfinite
  · exact evaluate_of_impossible hx (Exact.beq_neg_infinity_iff _ |>.2 rfl) memory
  · obtain ⟨y, hy, hyfinite⟩ :=
      Registry.logPrior_finite Exact.noOverflow holds.isClosed hcovered hfinite
    exact absurd (holds.isFeasible_of_logPrior hcovered hy hyfinite) infeasible

namespace Search

variable {t : Target Exact σ} {start : Start Exact}

theorem mapM_impossible
    (h : ∀ θ memory, θ.length = t.dimension → t.evaluate θ memory = .ok (.impossible θ) memory)
    {points : List (List Exact)} (hpoints : ∀ θ ∈ points, θ.length = t.dimension) (memory : σ) :
    points.mapM t.evaluate memory = .ok (points.map .impossible) memory := by
  induction points with
  | nil => rfl
  | cons θ points ih =>
    rw [List.forall_mem_cons] at hpoints
    rw [List.mapM_cons, bind_of_ok _ (h θ memory hpoints.1), bind_of_ok _ (ih hpoints.2)]
    rfl

/-- A search that finds zero density at every candidate uses up its draws and fails. -/
theorem run_of_impossible
    (h : ∀ θ memory, θ.length = t.dimension → t.evaluate θ memory = .ok (.impossible θ) memory)
    (hstart : start.dimension = t.dimension) (gridSize : Nat) (memory : σ) (tape : Tape Exact) :
    run t start gridSize ⟨memory, tape⟩ = .error (.noFeasibleStart (gridSize + 1))
      ⟨memory, tape.skip (2 * t.dimension * gridSize)⟩ := by
  have hlength (θ : List Exact) (hθ : θ ∈ start.candidates tape gridSize) :
      θ.length = t.dimension := (Start.length_of_mem_candidates hθ).trans hstart
  have hcandidates := mapM_impossible h hlength memory
  obtain ⟨best, incumbent, hrun⟩ := run_of_ok hcandidates
  have hbest : ¬ best.isFeasible = true := by
    intro hfeasible
    obtain ⟨θ, -, rfl⟩ := List.mem_map.1 (incumbent.firstBest hfeasible).mem
    cases hfeasible
  rw [hrun, if_neg hbest, hstart]

end Search

namespace Sampler

/-- A valid prior is finite just at the points of its support if its hyperparameters are finite, and
nowhere if one is infinite. The priors of a chain are finite at some vector just if all their
hyperparameters are finite and every standard deviation of realizations can be positive. If not,
every vector has zero density without a question to the model, and the chain fails in its search
after the last draw, as a chain does whose candidates are infeasible. -/
theorem infeasible_priors :
    (∀ p : Prior Exact, p.isValid = true → ∀ x : ℝ,
      Scalar.isFinite (p.logDensity (.real x)) = true ↔
        x ∈ p.support ∧ ∀ y ∈ p.hyperparameters, Scalar.isFinite y = true) ∧
    ∀ (m : Model Exact σ) (settings : Settings Exact) (s : Sampler Exact σ),
      ofModel m settings = .ok s →
        ((∃ θ x, s.target.logPrior θ = .ok x ∧ Scalar.isFinite x = true) ↔
          s.target.registry.IsFeasible) ∧
        (¬ s.target.registry.IsFeasible →
          (∀ θ memory, θ.length = m.dimension →
            s.target.evaluate θ memory = .ok (.impossible θ) memory) ∧
          ∀ distribution memory, m.start settings.coefficient = .ok distribution →
            distribution.dimension = m.dimension →
              s.prepare (s.newChain memory) =
                .error (.noFeasibleStart (settings.schedule.gridSize + 1))
                  ⟨⟨memory, (Tape.ofSeed settings.schedule.seed).skip
                    (2 * m.dimension * settings.schedule.gridSize)⟩, .initializing⟩) := by
  refine ⟨fun p hvalid => Prior.isFinite_logDensity_iff hvalid, fun m settings s hs => ?_⟩
  obtain ⟨rfl, -, ht⟩ := ofModel_eq_ok hs
  obtain ⟨hmodel, holds, hcoverage⟩ := Target.holds_of_ofModel ht
  have hcovered := Registry.lt_of_checkCoverage hcoverage
  have hdimension : s.target.dimension = m.dimension := by rw [Target.dimension, hmodel]
  constructor
  · constructor
    · rintro ⟨θ, x, hprior, hx⟩
      have hθ : θ.length = m.dimension := (Target.logPrior_eq_ok hprior).trans hdimension
      refine holds.isFeasible_of_logPrior ?_ (Target.registry_logPrior_of_ok hprior) hx
      rwa [hθ]
    · intro feasible
      obtain ⟨θ, x, hθ, hprior, hx⟩ := holds.exists_logPrior feasible hcovered
      refine ⟨θ, x, ?_, hx⟩
      rw [Target.logPrior_of_length (hθ.trans hdimension.symm), hprior]
      rfl
  · intro infeasible
    have himpossible (θ : List Exact) (memory : σ) (hθ : θ.length = s.target.dimension) :=
      Target.evaluate_of_infeasible ht infeasible hθ memory
    rw [← hdimension]
    refine ⟨himpossible, fun distribution memory hstart hlength => ?_⟩
    rw [← hmodel] at hstart
    apply prepare_of_start_error
    rw [start_eq_search hstart hlength]
    exact bind_of_error _ (Search.run_of_impossible himpossible hlength _ memory _)

end Sampler

/-! ## An infinite variance -/

theorem Prior.isValid_infiniteVariance : (normal 0 .posInf : Prior Exact).isValid = true := by
  have hpositive : (0 : Exact) < .posInf := trivial
  show (true && decide _) = true
  rw [decide_eq_true hpositive]
  rfl

theorem Registry.addFixed_infiniteVariance :
    empty.addFixed 0 (.normal 0 .posInf : Prior Exact) =
      .ok ⟨[(0, .fixed (.normal 0 .posInf))]⟩ := by
  unfold addFixed
  rw [Prior.isValid_infiniteVariance]
  rfl

/-- A normal prior with an infinite variance is registered, and has zero density everywhere. -/
theorem Prior.infiniteVariance_impossible :
    let p : Prior Exact := .normal 0 .posInf
    p.isValid = true ∧ Registry.empty.addFixed 0 p = .ok ⟨[(0, .fixed p)]⟩ ∧
      (0 : ℝ) ∈ interior p.support ∧ ∀ x : ℝ, p.logDensity (.real x) = -Scalar.infinity := by
  intro p
  have hinterior : (0 : ℝ) ∈ interior p.support := by
    show (0 : ℝ) ∈ interior Set.univ
    rw [interior_univ]
    exact Set.mem_univ 0
  refine ⟨isValid_infiniteVariance, Registry.addFixed_infiniteVariance, hinterior, fun x => ?_⟩
  have hscale : ¬ Exact.posInf ≤ 0 := id
  have hhalf : -(0.5 : ℝ) < 0 := by norm_num
  show logNormalDensity (Exact.real x) 0 .posInf = _
  unfold logNormalDensity squaredDeviation
  rw [if_neg hscale, Exact.ofNat_eq 2, Exact.pi_eq, Exact.real_mul, Exact.log_real (by positivity),
    Exact.ofNat_eq 0, Exact.real_sub, Exact.real_mul, Exact.ofScientific_eq, Exact.real_neg]
  -- The logarithm of the variance makes the sum infinite.
  show Exact.infinityOf _ = _
  rw [Exact.infinityOf, if_neg hhalf.le.not_gt, if_pos hhalf]
  rfl

/-- The level model with this prior. -/
noncomputable def infiniteVarianceModel : Model Exact Nat :=
  { levelModel none with priors := [.fixed 0 (.normal 0 .posInf)] }

/-- The prior is finite nowhere. A chain on the model can be made, but fails in its search without a
question to the model. -/
theorem Sampler.infeasible_priors_infiniteVariance :
    let p : Prior Exact := .normal 0 .posInf
    let settings : Settings Exact := { Settings.standard with schedule := shortSchedule }
    p.isValid = true ∧ (∀ x : ℝ, ¬ Scalar.isFinite (p.logDensity (.real x)) = true) ∧
      ∃ s, ofModel infiniteVarianceModel settings = .ok s ∧ ¬ s.target.registry.IsFeasible ∧
        infiniteVarianceModel.start settings.coefficient = .ok levelStart ∧
        ∃ tape, s.prepare (s.newChain 0) =
          .error (.noFeasibleStart (shortSchedule.gridSize + 1)) ⟨⟨0, tape⟩, .initializing⟩ := by
  intro p settings
  let target : Target Exact Nat := ⟨infiniteVarianceModel, ⟨[(0, .fixed p)]⟩⟩
  let s : Sampler Exact Nat := ⟨target, settings⟩
  have hinfinite : ¬ ∀ y ∈ p.hyperparameters, Scalar.isFinite y = true := fun h =>
    Bool.false_ne_true (h .posInf (.tail _ (.head _)))
  have htarget : Target.ofModel infiniteVarianceModel = .ok target := by
    have hregistry : Registry.ofRegistrations infiniteVarianceModel.priors =
        .ok ⟨[(0, .fixed p)]⟩ := by
      show (Registry.empty.addFixed 0 p >>= fun r => pure r) = _
      rw [Registry.addFixed_infiniteVariance]
      rfl
    unfold Target.ofModel
    rw [hregistry]
    rfl
  have hs : ofModel infiniteVarianceModel settings = .ok s := by
    unfold ofModel
    rw [check_standard shortSchedule_valid, htarget]
    rfl
  have infeasible : ¬ s.target.registry.IsFeasible := fun feasible =>
    hinfinite (feasible.finite 0 _ p rfl rfl)
  obtain ⟨priors, models⟩ := infeasible_priors (σ := Nat)
  have hvalid := Prior.isValid_infiniteVariance
  obtain ⟨-, fails⟩ := models infiniteVarianceModel settings s hs
  exact ⟨hvalid, fun x h => hinfinite ((priors p hvalid x).1 h).2, s, hs, infeasible, rfl, _,
    (fails infeasible).2 levelStart 0 rfl rfl⟩

end Metropolis
