import Metropolis.Proofs.Failure

/-!
# Targets that only their model can refuse

With priors that were checked to be those of a model's parameters, the prior of every vector of
the right length can be evaluated. A chain on such a target proposes no other vectors once it has
started, and no error but one of the model is left to it.
-/

namespace Metropolis

variable {α σ : Type} [Scalar α]

namespace Target

variable {t : Target α σ} {θ : List α}

/-- Whether a vector of a wrong length is refused for that, whatever the likelihood and without
asking for it, and any other by nothing but the model. -/
structure IsTotal (t : Target α σ) : Prop where
  logPrior_of_ne : ∀ θ : List α, θ.length ≠ t.dimension →
    t.logPrior θ = .error (.dimension t.dimension θ.length)
  evaluate_of_ne : ∀ θ : List α, θ.length ≠ t.dimension →
    ∀ (logLikelihood : Likelihood α σ) (memory : σ),
      { t with model := { t.model with logLikelihood } }.evaluate θ memory =
        .error (.dimension t.dimension θ.length) memory
  logPrior_of_eq : ∀ θ : List α, θ.length = t.dimension → ∃ x, t.logPrior θ = .ok x
  evaluate_of_eq : ∀ θ : List α, θ.length = t.dimension → ∀ cause memory memory',
    t.evaluate θ memory = .error cause memory' → ∃ reason, cause = .model reason

theorem logPrior_of_length_ne (h : θ.length ≠ t.dimension) :
    t.logPrior θ = .error (.dimension t.dimension θ.length) := by
  unfold logPrior checkDimension
  rw [if_neg h]
  rfl

theorem evaluate_of_length_ne (h : θ.length ≠ t.dimension) (memory : σ) :
    t.evaluate θ memory = .error (.dimension t.dimension θ.length) memory := by
  unfold evaluate
  rw [logPrior_of_length_ne h]
  rfl

theorem IsCovered.isTotal (covered : t.IsCovered) : t.IsTotal where
  logPrior_of_ne := fun _ h => logPrior_of_length_ne h
  evaluate_of_ne := fun _ h logLikelihood memory =>
    evaluate_of_length_ne (t := { t with model := { t.model with logLikelihood } }) h memory
  logPrior_of_eq := covered
  evaluate_of_eq := fun _ h _ _ _ heval => evaluate_error covered h heval

end Target

namespace Sampler

variable {s : Sampler α σ} {c d : Chain α σ} {trace : Trace α} {cause : Error α}

theorem model_of_canFail (covered : s.target.IsCovered) (h : s.CanFail cause) :
    ∃ reason, cause = .model reason := by
  obtain ⟨walker, w, w', hfits, hiterate⟩ := h
  exact Walker.iterate_error covered hfits hiterate

theorem canFail_of_step (running : c.stage.running? = some trace) (fitting : s.IsFitting c.stage)
    (h : s.step c = .error cause d) : s.CanFail cause := by
  obtain ⟨⟨w', hiterate⟩, -⟩ := step_eq_error running h
  exact ⟨trace.walker, c.world, w', fitting trace (Stage.trace?_of_running running), hiterate⟩

theorem canFail_of_run (running : c.stage.running? = some trace) (fitting : s.IsFitting c.stage)
    (h : s.run c = .error cause d) : s.CanFail cause := by
  rcases run_stepsOut running fitting with
    ⟨d', hrun, -⟩ | ⟨n, cause', d', -, hrun, -, -, hfail, -⟩
  · cases hrun.symm.trans h
  · cases hrun.symm.trans h
    exact hfail

/-- A chain whose start was found goes on until its model fails or its draws are released. -/
theorem cause_of_fails {k : Call} (hk : k.Advances) (covered : s.target.IsCovered)
    (fitting : s.IsFitting c.stage) (hphase : c.phase ≠ .initializing)
    (h : s.Fails c k cause d) : (∃ reason, cause = .model reason) ∨ cause = .alreadyReleased := by
  cases hprepare : s.prepare c with
  | error cause' d' =>
    obtain ⟨rfl, rfl⟩ := h.unique (fails_of_prepare hk hprepare)
    rcases prepare_eq_error hprepare with
      ⟨fresh, -⟩ | ⟨-, hcause, -⟩ | ⟨trace?, reason, -, hcause, -⟩
    · rw [Chain.phase, fresh] at hphase
      exact absurd rfl hphase
    · exact .inr hcause
    · exact .inl ⟨reason, hcause⟩
  | ok u first =>
    obtain ⟨trace, running⟩ := running_of_prepare hprepare
    have hfirst := isFitting_of_prepare hprepare fitting
    left
    apply model_of_canFail covered
    rcases hk with rfl | rfl | rfl
    · cases hprepare.symm.trans h
    · exact canFail_of_step running hfirst ((step_eq_of_prepared hprepare).symm.trans h)
    · exact canFail_of_run running hfirst ((run_eq_of_prepared hprepare).symm.trans h)

/-- Whether, on any chain that has found its start, all that can keep a call from going on is an
error of the model, or that the draws were released. -/
def FailsByModel (s : Sampler α σ) : Prop :=
  ∀ (memory : σ) (calls : List Call) (k : Call) (cause : Error α) (d : Chain α σ),
    (s.after memory calls).phase ≠ .initializing → k.Advances →
      s.Fails (s.after memory calls) k cause d →
        (∃ reason, cause = .model reason) ∨ cause = .alreadyReleased

theorem failsByModel_of_isCovered (covered : s.target.IsCovered) : s.FailsByModel :=
  fun memory calls _ _ _ hphase hk h =>
    cause_of_fails hk covered (isFitting_after s memory calls) hphase h

/-- Whatever was registered, if it passes as the priors of a model then it is total, and so are
a model's own priors. No chain is stopped by its prior or by a vector of a wrong length. -/
theorem priors_total (m : Model α σ) :
    (∀ regs t, Target.ofRegistry m (Registry.after regs) = .ok t →
      t.IsTotal ∧ ∀ s : Sampler α σ, s.target = t → s.FailsByModel) ∧
    ∀ settings s, ofModel m settings = .ok s → s.target.IsTotal ∧ s.FailsByModel := by
  constructor
  · intro regs t h
    have closed := (Registry.holds_after regs).isClosed
    have covered : t.IsCovered := Target.isCovered_of_ofRegistry closed h
    refine ⟨covered.isTotal, fun s hs => ?_⟩
    apply failsByModel_of_isCovered
    rw [hs]
    exact covered
  · intro settings s h
    have covered := isCovered_of_ofModel h
    exact ⟨covered.isTotal, failsByModel_of_isCovered covered⟩

/-- A realization and its standard deviation, which may not have a second prior, cover two
parameters. The level target that can be asked only once stops its chain in the first iteration. -/
theorem priors_total_level :
    let regs : List (Registration Exact) := [.realization 0 .normal 1 .flat, .fixed 1 .flat]
    let s := levelSampler (some 1) shortSchedule
    (∃ t, Target.ofRegistry { levelModel none with effects := ["x", "spread"] }
        (Registry.after regs) = .ok t ∧ t.IsTotal) ∧
      s.target.IsTotal ∧ s.FailsByModel ∧
      ∃ cause d, (s.after 0 [.prepare]).phase ≠ .initializing ∧
        s.Fails (s.after 0 [.prepare]) .run cause d ∧
        ((∃ reason, cause = .model reason) ∨ cause = .alreadyReleased) := by
  have hpair := (priors_total { levelModel none with effects := ["x", "spread"] }).1
    [.realization 0 .normal 1 .flat, .fixed 1 .flat] _ rfl
  have hlevel := (priors_total (levelModel (some 1))).2 _ _ (ofModel_level _ shortSchedule_valid)
  obtain ⟨d, hd⟩ := fails_level
  exact ⟨⟨_, rfl, hpair.1⟩, hlevel.1, hlevel.2, _, d, by exact nofun, hd,
    hlevel.2 0 [.prepare] .run _ d (by exact nofun) (.inr (.inr rfl)) hd⟩

end Sampler

end Metropolis
