import Metropolis.Fit
import Metropolis.Proofs.Transition

/-!
# A fit as a dialogue with its model

A fit learns nothing of its model while it runs but the answers to the questions for likelihoods
that it asks. So it is a tree: an inquiry that has ended, or a question and an inquiry for each
answer. The tree is the same for all models that differ in their likelihoods and memories only. It
is found in the steps that a fit consists of, from the likelihood of one subject up.
-/

namespace Metropolis

variable {α ε ε' β γ π ρ ρ' τ : Type}

/-! ## Inquiries -/

/-- A computation by the questions that it asks, each depending on the answers before. -/
inductive Inquiry (α ρ : Type) where
  | done (result : ρ)
  | ask (θ : List α) (subject : Nat) (next : Except ModelError α → Inquiry α ρ)

namespace Inquiry

/-- The result with a likelihood, and the memory that is left. -/
def run (likelihood : Likelihood α τ) : Inquiry α ρ → τ → ρ × τ
  | .done result, memory => (result, memory)
  | .ask θ subject next, memory =>
    run likelihood (next (answer (likelihood θ subject memory)))
      (leaves (likelihood θ subject memory))

def bind (f : ρ → Inquiry α ρ') : Inquiry α ρ → Inquiry α ρ'
  | .done result => f result
  | .ask θ subject next => .ask θ subject fun reply => bind f (next reply)

theorem run_bind (f : ρ → Inquiry α ρ') (inquiry : Inquiry α ρ) (likelihood : Likelihood α τ)
    (memory : τ) : (inquiry.bind f).run likelihood memory =
      (f (inquiry.run likelihood memory).1).run likelihood (inquiry.run likelihood memory).2 := by
  induction inquiry generalizing memory with
  | done result => rfl
  | ask θ subject next ih => exact ih _ _

end Inquiry

/-! ## Computations that are inquiries -/

/-- How a state `S τ` is made of a memory of type `τ` and of the rest. -/
abbrev Layout (π : Type) (S : Type → Type) := ∀ τ : Type, π → τ → S τ

/-- The state of a model is its memory. -/
abbrev Layout.memory : Layout Unit fun τ => τ := fun _ _ memory => memory

abbrev Layout.world (α : Type) : Layout (Tape α) (World α) := fun _ tape memory => ⟨memory, tape⟩

abbrev Layout.chain (α : Type) : Layout (Tape α × Stage α) (Chain α) :=
  fun _ rest memory => ⟨⟨memory, rest.1⟩, rest.2⟩

/-- The result of a computation from the result of an inquiry, which is an outcome and the rest of
the state. -/
def conclude {S : Type} (put : π → τ → S) : (Except ε β × π) × τ → EStateM.Result ε S β
  | ((.ok value, rest), memory) => .ok value (put rest memory)
  | ((.error cause, rest), memory) => .error cause (put rest memory)

/-- Whether a computation that is given for all models is an inquiry, from the states with a
rest. -/
def AsksAt {S : Type → Type} (L : Layout π S) (rest : π)
    (x : ∀ τ, Model α τ → EStateM ε (S τ) β) : Prop :=
  ∃ inquiry : Inquiry α (Except ε β × π), ∀ (τ : Type) (m : Model α τ) (memory : τ),
    x τ m (L τ rest memory) = conclude (L τ) (inquiry.run m.logLikelihood memory)

namespace AsksAt

variable {S : Type → Type} {L : Layout π S} {rest : π}
  {x y : ∀ τ, Model α τ → EStateM ε (S τ) β}

theorem congr (hy : AsksAt L rest y)
    (h : ∀ τ (m : Model α τ) memory, x τ m (L τ rest memory) = y τ m (L τ rest memory)) :
    AsksAt L rest x := by
  obtain ⟨inquiry, hinquiry⟩ := hy
  exact ⟨inquiry, fun τ m memory => (h τ m memory).trans (hinquiry τ m memory)⟩

theorem pure (value : β) :
    AsksAt L rest fun τ (_ : Model α τ) => (pure value : EStateM ε (S τ) β) :=
  ⟨.done (.ok value, rest), fun _ _ _ => rfl⟩

theorem throw (cause : ε) :
    AsksAt L rest fun τ (_ : Model α τ) => (throw cause : EStateM ε (S τ) β) :=
  ⟨.done (.error cause, rest), fun _ _ _ => rfl⟩

theorem ofExcept (outcome : Except ε β) :
    AsksAt L rest fun τ (_ : Model α τ) =>
      (MonadExcept.ofExcept outcome : EStateM ε (S τ) β) := by
  cases outcome with
  | ok value => exact pure value
  | error cause => exact throw cause

/-- What a computation asks after another has ended: nothing if that had no value. -/
def goOn (next : β → π → Inquiry α (Except ε γ × π)) :
    Except ε β × π → Inquiry α (Except ε γ × π)
  | (.ok value, rest) => next value rest
  | (.error cause, rest) => .done (.error cause, rest)

theorem bind {f : β → ∀ τ, Model α τ → EStateM ε (S τ) γ} (hx : AsksAt L rest x)
    (hf : ∀ value rest', AsksAt L rest' (f value)) :
    AsksAt L rest fun τ m => x τ m >>= fun value => f value τ m := by
  obtain ⟨inquiry, hinquiry⟩ := hx
  choose next hnext using hf
  refine ⟨inquiry.bind (goOn next), fun τ m memory => ?_⟩
  have hfirst := hinquiry τ m memory
  rw [Inquiry.run_bind]
  generalize inquiry.run m.logLikelihood memory = result at hfirst ⊢
  obtain ⟨⟨outcome, rest'⟩, memory'⟩ := result
  cases outcome with
  | ok value => exact (bind_of_ok _ hfirst).trans (hnext value rest' τ m memory')
  | error cause => exact bind_of_error _ hfirst

theorem ite (c : Prop) [Decidable c] (hx : AsksAt L rest x) (hy : AsksAt L rest y) :
    AsksAt L rest fun τ m => if c then x τ m else y τ m := by
  split
  · exact hx
  · exact hy

theorem map (f : β → γ) (hx : AsksAt L rest x) : AsksAt L rest fun τ m => f <$> x τ m := by
  refine (hx.bind fun value _ => pure (f value)).congr fun τ m memory => ?_
  show EStateM.map f (x τ m) _ = EStateM.bind (x τ m) _ _
  unfold EStateM.map EStateM.bind
  cases x τ m (L τ rest memory) <;> rfl

theorem adaptExcept (g : ε → ε') (hx : AsksAt L rest x) :
    AsksAt L rest fun τ m => EStateM.adaptExcept g (x τ m) := by
  obtain ⟨inquiry, hinquiry⟩ := hx
  refine ⟨inquiry.bind fun result => .done (result.1.mapError g, result.2), fun τ m memory => ?_⟩
  have hfirst := hinquiry τ m memory
  rw [Inquiry.run_bind]
  unfold EStateM.adaptExcept
  simp only [hfirst]
  generalize inquiry.run m.logLikelihood memory = result
  obtain ⟨⟨outcome, rest'⟩, memory'⟩ := result
  cases outcome <;> rfl

end AsksAt

theorem Engine.asksAt_ofModel {x : ∀ τ, Model α τ → EStateM (Error α) τ β}
    (hx : AsksAt .memory () x) (tape : Tape α) :
    AsksAt (.world α) tape fun τ m => Engine.ofModel (x τ m) := by
  obtain ⟨inquiry, hinquiry⟩ := hx
  refine ⟨inquiry.bind fun result => .done (result.1, tape), fun τ m memory => ?_⟩
  have hfirst : x τ m memory = _ := hinquiry τ m memory
  unfold Engine.ofModel
  rw [Inquiry.run_bind]
  simp only [hfirst]
  generalize inquiry.run m.logLikelihood memory = result
  obtain ⟨⟨outcome, rest'⟩, memory'⟩ := result
  cases outcome <;> rfl

theorem Engine.asksAt_ofSampling (x : Sampling α β) (tape : Tape α) :
    AsksAt (.world α) tape fun τ (_ : Model α τ) => (Engine.ofSampling x : Engine α τ β) :=
  ⟨.done (.ok (x tape).1, (x tape).2), fun _ _ _ => rfl⟩

/-- The outcome and the stage of a chain from the outcome of a computation that leads to a new
stage. -/
def Stage.entered (stage : Stage α) :
    Except (Error α) (β × Stage α) × Tape α → Except (Error α) β × Tape α × Stage α
  | (.ok (value, stage'), tape) => (.ok value, tape, stage')
  | (.error cause, tape) => (.error cause, tape, stage.afterError cause)

theorem Sampler.asksAt_enter {x : ∀ τ, Model α τ → Engine α τ (β × Stage α)} {tape : Tape α}
    (hx : AsksAt (.world α) tape x) (stage : Stage α) :
    AsksAt (.chain α) (tape, stage) fun τ m => Sampler.enter (x τ m) := by
  obtain ⟨inquiry, hinquiry⟩ := hx
  refine ⟨inquiry.bind fun result => .done (stage.entered result), fun τ m memory => ?_⟩
  have hfirst := hinquiry τ m memory
  rw [Inquiry.run_bind]
  generalize inquiry.run m.logLikelihood memory = result at hfirst ⊢
  obtain ⟨⟨outcome, tape'⟩, memory'⟩ := result
  cases outcome with
  | ok value => exact enter_of_ok hfirst
  | error cause => exact enter_of_error hfirst

/-! ## Models that differ in their likelihoods -/

variable {σ : Type}

/-- A model with the likelihoods, and the memory, of another. -/
def Model.withLikelihoods (m : Model α σ) (other : Model α τ) : Model α τ :=
  { m with
    likelihood := other.likelihood
    logLikelihood := other.logLikelihood
    logPredictive := other.logPredictive }

def Target.withLikelihoods (t : Target α σ) (other : Model α τ) : Target α τ :=
  ⟨t.model.withLikelihoods other, t.registry⟩

def Sampler.withLikelihoods (s : Sampler α σ) (other : Model α τ) : Sampler α τ :=
  ⟨s.target.withLikelihoods other, s.settings⟩

variable [Scalar α]

theorem Target.ofModel_withLikelihoods (m : Model α σ) (other : Model α τ) :
    ofModel (m.withLikelihoods other) = (ofModel m).map (·.withLikelihoods other) := by
  unfold ofModel ofRegistry
  show (Registry.ofRegistrations m.priors >>= fun registry =>
    registry.checkCoverage m.dimension >>= fun _ => _) = _
  cases Registry.ofRegistrations m.priors with
  | error cause => rfl
  | ok registry =>
    show (registry.checkCoverage m.dimension >>= fun _ => _) =
      (registry.checkCoverage m.dimension >>= fun _ => _).map _
    cases registry.checkCoverage m.dimension <;> rfl

theorem Sampler.ofModel_withLikelihoods (m : Model α σ) (other : Model α τ)
    (settings : Settings α) :
    ofModel (m.withLikelihoods other) settings =
      (ofModel m settings).map (·.withLikelihoods other) := by
  unfold ofModel
  rw [Target.ofModel_withLikelihoods]
  cases settings.check with
  | error cause => rfl
  | ok _ => cases Target.ofModel m <;> rfl

/-! ## The steps of a fit -/

namespace Target

omit [Scalar α] in
theorem asksAt_logLikelihood (θ : List α) (subject : Nat) :
    AsksAt .memory () fun τ (m : Model α τ) => m.logLikelihood θ subject := by
  refine ⟨.ask θ subject fun reply => .done (reply, ()), fun τ m memory => ?_⟩
  show m.logLikelihood θ subject memory = conclude _ ((answer _, ()), leaves _)
  cases m.logLikelihood θ subject memory <;> rfl

theorem asksAt_addSubjects (m : Model α σ) (θ : List α) (subjects : List Nat) (total : α) :
    AsksAt .memory () fun τ (other : Model α τ) =>
      addSubjects (m.withLikelihoods other) θ subjects total := by
  induction subjects generalizing total with
  | nil => exact AsksAt.pure total
  | cons subject rest ih =>
    refine AsksAt.bind (asksAt_logLikelihood θ subject) fun term _ => ?_
    split
    · exact AsksAt.pure _
    · exact ih _

theorem asksAt_evaluate (t : Target α σ) (θ : List α) :
    AsksAt .memory () fun τ (m : Model α τ) => (t.withLikelihoods m).evaluate θ := by
  refine AsksAt.bind (AsksAt.ofExcept (t.logPrior θ)) fun logPrior _ => ?_
  split
  · exact AsksAt.pure _
  · refine AsksAt.bind (AsksAt.bind (AsksAt.ofExcept (t.checkDimension θ)) fun _ _ => ?_)
      fun _ _ => AsksAt.pure _
    exact AsksAt.adaptExcept _ (asksAt_addSubjects t.model θ (List.range t.model.subjects) 0)

end Target

namespace Search

theorem asksAt_improve (t : Target α σ) (start : Start α) (n : Nat) (best : Point α)
    (tape : Tape α) :
    AsksAt (.world α) tape fun τ (m : Model α τ) =>
      improve (t.withLikelihoods m) start n best := by
  induction n generalizing best tape with
  | zero => exact AsksAt.pure best
  | succ n ih =>
    exact AsksAt.bind (Engine.asksAt_ofSampling _ _) fun θ _ =>
      AsksAt.bind (Engine.asksAt_ofModel (t.asksAt_evaluate θ) _) fun _ _ => ih _ _

theorem asksAt_run (t : Target α σ) (start : Start α) (gridSize : Nat) (tape : Tape α) :
    AsksAt (.world α) tape fun τ (m : Model α τ) =>
      run (t.withLikelihoods m) start gridSize := by
  refine AsksAt.bind (Engine.asksAt_ofModel (t.asksAt_evaluate _) _) fun centre _ =>
    AsksAt.bind (asksAt_improve t start gridSize centre _) fun best _ => ?_
  split
  · exact AsksAt.pure _
  · exact AsksAt.throw _

end Search

theorem Walker.asksAt_iterate (t : Target α σ) (w : Walker α) (tape : Tape α) :
    AsksAt (.world α) tape fun τ (m : Model α τ) => w.iterate (t.withLikelihoods m) :=
  AsksAt.bind (Engine.asksAt_ofSampling _ _) fun θ _ =>
    AsksAt.bind (Engine.asksAt_ofModel (t.asksAt_evaluate θ) _) fun _ _ =>
      AsksAt.bind (Engine.asksAt_ofSampling _ _) fun _ _ => AsksAt.pure _

namespace Sampler

variable (s : Sampler α σ)

theorem asksAt_start (tape : Tape α) :
    AsksAt (.world α) tape fun τ (m : Model α τ) => (s.withLikelihoods m).start := by
  refine AsksAt.bind (AsksAt.ofExcept (s.target.model.start s.settings.coefficient))
    fun distribution tape' => ?_
  have hsearch : ∀ tape, AsksAt (.world α) tape fun τ (m : Model α τ) => (do
      let point ← Search.run (s.target.withLikelihoods m) distribution s.settings.schedule.gridSize
      let walk := RandomWalk.ofFactor distribution.factor s.settings.tuning
      if s.settings.schedule.warmUp = 0 then
        return .sampling ⟨point, .ofPoint point walk.freeze, #[], {}⟩
      else return .warmingUp ⟨point, .ofPoint point walk, #[], {}⟩ : Engine α τ (Stage α)) :=
    fun _ => AsksAt.bind (Search.asksAt_run s.target distribution _ _) fun _ _ =>
      AsksAt.ite _ (AsksAt.pure _) (AsksAt.pure _)
  exact AsksAt.ite (distribution.dimension ≠ s.target.dimension)
    (AsksAt.bind (AsksAt.throw (Error.dimension s.target.dimension distribution.dimension))
      fun _ _ => hsearch _)
    (hsearch tape')

theorem asksAt_iterate (stage : Stage α) (trace : Trace α) (tape : Tape α) :
    AsksAt (.world α) tape fun τ (m : Model α τ) => (s.withLikelihoods m).iterate stage trace := by
  refine AsksAt.bind (trace.walker.asksAt_iterate s.target tape) fun (accepted, walker) _ => ?_
  cases stage with
  | warmingUp => exact AsksAt.pure (accepted, s.afterWarmUp (extend trace walker))
  | _ => exact AsksAt.pure (accepted, Stage.sampling (extend trace walker))

omit [Scalar α] in
theorem asksAt_checkRunnable (rest : Tape α × Stage α) :
    AsksAt (.chain α) rest fun τ (_ : Model α τ) => (checkRunnable : ChainM α τ Unit) := by
  obtain ⟨tape, stage⟩ := rest
  cases stage with
  | failed trace cause => exact (AsksAt.throw (.model cause)).congr fun _ _ _ => rfl
  | finalized trace selection => exact (AsksAt.throw .alreadyReleased).congr fun _ _ _ => rfl
  | _ => exact (AsksAt.pure ()).congr fun _ _ _ => rfl

theorem asksAt_ensureStarted (rest : Tape α × Stage α) :
    AsksAt (.chain α) rest fun τ (m : Model α τ) => (s.withLikelihoods m).ensureStarted := by
  obtain ⟨tape, stage⟩ := rest
  cases stage with
  | initializing =>
    have hstart : AsksAt (.world α) tape fun τ (m : Model α τ) =>
        (do return ((), ← (s.withLikelihoods m).start) : Engine α τ (Unit × Stage α)) :=
      AsksAt.bind (s.asksAt_start tape) fun stage _ => AsksAt.pure ((), stage)
    exact (asksAt_enter hstart .initializing).congr fun _ _ _ => rfl
  | _ => exact (AsksAt.pure ()).congr fun _ _ _ => rfl

theorem asksAt_advance (rest : Tape α × Stage α) :
    AsksAt (.chain α) rest fun τ (m : Model α τ) => (s.withLikelihoods m).advance := by
  obtain ⟨tape, stage⟩ := rest
  cases started : stage.trace? with
  | none =>
    by_cases left : 0 < s.settings.schedule.iterations
    · exact (AsksAt.throw (Error.incomplete 0 s.settings.schedule.iterations)).congr
        fun _ _ _ => advance_unstarted started left
    · refine (AsksAt.pure none).congr fun _ _ _ => advance_done ?_
      rw [Chain.completed_of_unstarted started]
      exact Nat.le_of_not_lt left
  | some trace =>
    by_cases left : trace.history.size < s.settings.schedule.iterations
    · exact (AsksAt.map some (asksAt_enter (s.asksAt_iterate stage trace tape) stage)).congr
        fun _ _ _ => advance_started started left
    · refine (AsksAt.pure none).congr fun _ _ _ => advance_done ?_
      rw [Chain.completed_of_started started]
      exact Nat.le_of_not_lt left

theorem asksAt_advanceTimes (n : Nat) (rest : Tape α × Stage α) :
    AsksAt (.chain α) rest fun τ (m : Model α τ) => (s.withLikelihoods m).advanceTimes n := by
  induction n generalizing rest with
  | zero => exact AsksAt.pure ()
  | succ n ih => exact AsksAt.bind (s.asksAt_advance rest) fun _ _ => ih _

theorem asksAt_run (rest : Tape α × Stage α) :
    AsksAt (.chain α) rest fun τ (m : Model α τ) => (s.withLikelihoods m).run := by
  refine AsksAt.bind (asksAt_checkRunnable rest) fun _ _ =>
    AsksAt.bind (s.asksAt_ensureStarted _) fun _ rest' => ?_
  exact (s.asksAt_advanceTimes (s.settings.schedule.iterations -
    ((rest'.2.trace?.map Trace.history).getD #[]).size) rest').congr fun _ _ _ => rfl

omit [Scalar α] in
theorem asksAt_release (rest : Tape α × Stage α) :
    AsksAt (.chain α) rest fun τ (m : Model α τ) => (s.withLikelihoods m).release := by
  obtain ⟨tape, stage⟩ := rest
  cases unreleased : stage.selection? with
  | some selection =>
    exact (AsksAt.pure selection).congr fun _ _ _ => release_finalized unreleased
  | none =>
    cases started : stage.trace? with
    | none =>
      exact (AsksAt.throw (Error.incomplete 0 s.settings.schedule.iterations)).congr
        fun _ _ _ => release_unstarted unreleased started
    | some trace =>
      by_cases hshort : trace.history.size < s.settings.schedule.iterations
      · refine (AsksAt.throw (Error.incomplete trace.history.size
          s.settings.schedule.iterations)).congr fun _ _ _ => ?_
        exact (release_started unreleased started).trans (if_pos hshort)
      · exact ⟨.done (.ok (s.select trace.history), tape,
            .finalized trace (s.select trace.history)),
          fun _ _ _ => (release_started unreleased started).trans (if_neg hshort)⟩

theorem asksAt_complete (rest : Tape α × Stage α) :
    AsksAt (.chain α) rest fun τ (m : Model α τ) => (s.withLikelihoods m).complete := by
  refine AsksAt.bind (s.asksAt_run rest) fun _ _ =>
    AsksAt.bind (s.asksAt_release _) fun draws rest' => ?_
  have hreport : AsksAt (.chain α) rest' fun τ (_ : Model α τ) =>
      (do
        let report ← MonadExcept.ofExcept (Chain.report ⟨⟨(), rest'.1⟩, rest'.2⟩)
        return (draws, report) : ChainM α τ (Draws α × ChainReport α)) :=
    AsksAt.bind (AsksAt.ofExcept _) fun report _ => AsksAt.pure (draws, report)
  exact hreport.congr fun _ _ _ => rfl

theorem asksAt_fit : AsksAt .memory () fun τ (m : Model α τ) => (s.withLikelihoods m).fit := by
  obtain ⟨inquiry, hinquiry⟩ :=
    s.asksAt_complete (Tape.ofSeed s.settings.schedule.seed, .initializing)
  refine ⟨inquiry.bind fun result => .done (result.1.map fun (draws, report) =>
    ⟨s.target.model.info, report, draws⟩, ()), fun τ m memory => ?_⟩
  have hcomplete : (s.withLikelihoods m).complete ((s.withLikelihoods m).newChain memory) = _ :=
    hinquiry τ m memory
  unfold fit
  rw [Inquiry.run_bind]
  simp only [hcomplete]
  generalize inquiry.run m.logLikelihood memory = result
  obtain ⟨⟨outcome, tape, stage⟩, memory'⟩ := result
  cases outcome <;> rfl

end Sampler

theorem Model.asksAt_fit (m : Model α σ) (settings : Settings α) :
    AsksAt .memory () fun τ (other : Model α τ) => (m.withLikelihoods other).fit settings := by
  cases hsampler : Sampler.ofModel m settings with
  | ok s =>
    refine s.asksAt_fit.congr fun τ other memory => ?_
    unfold Model.fit
    rw [Sampler.ofModel_withLikelihoods, hsampler]
    rfl
  | error cause =>
    refine (AsksAt.throw cause).congr fun τ other memory => ?_
    unfold Model.fit
    rw [Sampler.ofModel_withLikelihoods, hsampler]
    rfl

theorem Model.exists_inquiry (m : Model α σ) (settings : Settings α) :
    ∃ inquiry : Inquiry α (Except (Error α) (Fit α)), ∀ τ (other : Model α τ) (memory : τ),
      answer ((m.withLikelihoods other).fit settings memory) =
          (inquiry.run other.logLikelihood memory).1 ∧
        leaves ((m.withLikelihoods other).fit settings memory) =
          (inquiry.run other.logLikelihood memory).2 := by
  obtain ⟨inquiry, hinquiry⟩ := m.asksAt_fit settings
  refine ⟨inquiry.bind fun result => .done result.1, fun τ other memory => ?_⟩
  have hfit : (m.withLikelihoods other).fit settings memory = _ := hinquiry τ other memory
  rw [hfit, Inquiry.run_bind]
  generalize inquiry.run other.logLikelihood memory = result
  obtain ⟨⟨outcome, rest⟩, memory'⟩ := result
  cases outcome <;> exact ⟨rfl, rfl⟩

/-- What a fit asks its model. -/
noncomputable def Model.inquiry (m : Model α σ) (settings : Settings α) :
    Inquiry α (Except (Error α) (Fit α)) :=
  (m.exists_inquiry settings).choose

theorem Model.fit_withLikelihoods (m : Model α σ) (settings : Settings α) (other : Model α τ)
    (memory : τ) :
    answer ((m.withLikelihoods other).fit settings memory) =
        ((m.inquiry settings).run other.logLikelihood memory).1 ∧
      leaves ((m.withLikelihoods other).fit settings memory) =
        ((m.inquiry settings).run other.logLikelihood memory).2 :=
  (m.exists_inquiry settings).choose_spec τ other memory

end Metropolis
