import Metropolis.Proofs.Release
import Metropolis.Proofs.Running

/-!
# A model that fails

An error of the model is the one thing that makes a chain fail. The failed chain holds what the
chain held after the last iteration that was completed, and from then on every call that would go
on returns the same error without asking the model or reading the tape.
-/

namespace Metropolis

variable {α σ : Type}

namespace Stage

variable {stage : Stage α} {trace : Trace α} {cause : Error α}

theorem phase_ne_failed_of_running (h : stage.running? = some trace) : stage.phase ≠ .failed := by
  rcases running?_cases h with rfl | rfl <;> exact nofun

/-- Of the errors, only one of the model makes a stage fail. -/
theorem model_of_afterError (unfailed : stage.phase ≠ .failed)
    (h : (stage.afterError cause).phase = .failed) : ∃ reason, cause = .model reason := by
  cases cause with
  | model reason => exact ⟨reason, rfl⟩
  | _ => exact absurd h unfailed

theorem afterError_of_ne_model (stage : Stage α) (h : ∀ reason, cause ≠ .model reason) :
    stage.afterError cause = stage := by
  cases cause with
  | model reason => exact absurd rfl (h reason)
  | _ => rfl

end Stage

variable [Scalar α]

namespace Sampler

variable {s : Sampler α σ} {c d e : Chain α σ} {trace : Trace α} {cause : Error α}
  {reason : ModelError}

/-- Whether a call is one that makes a chain go on. -/
def Call.Advances (k : Call) : Prop := k = .prepare ∨ k = .step ∨ k = .run

/-- Whether a call returns an error, and leaves `d`. -/
def Fails (s : Sampler α σ) (c : Chain α σ) (k : Call) (cause : Error α) (d : Chain α σ) : Prop :=
  match k with
  | .prepare => s.prepare c = .error cause d
  | .step => s.step c = .error cause d
  | .run => s.run c = .error cause d
  | .release => s.release c = .error cause d
  | .score => s.pseudoMarginal c = .error cause d

theorem Fails.unique {k : Call} {cause' : Error α} (h : s.Fails c k cause d)
    (h' : s.Fails c k cause' e) : cause' = cause ∧ e = d := by
  cases k <;> cases h.symm.trans h' <;> exact ⟨rfl, rfl⟩

theorem Fails.call_eq {k : Call} (h : s.Fails c k cause d) : s.call c k = d := by
  cases k <;> exact congrArg leaves h

/-- A start that is refused refuses every call that would go on. -/
theorem fails_of_prepare {k : Call} (hk : k.Advances) (h : s.prepare c = .error cause d) :
    s.Fails c k cause d := by
  rcases hk with rfl | rfl | rfl
  · exact h
  · exact step_of_error h
  · exact run_of_error h

/-- Steps that each complete an iteration. -/
inductive Steps (s : Sampler α σ) : Chain α σ → Chain α σ → Prop where
  | refl {c : Chain α σ} : Steps s c c
  | head {c d e : Chain α σ} {moved : Bool} (h : s.step c = .ok (some moved) d)
      (rest : Steps s d e) : Steps s c e

/-- How the model stopped a chain that was at `c`: either the start could not be found, or after
some steps the next iteration failed. Then `last` is the chain after the iterations that were
completed, and the stopped chain holds what it held. -/
inductive Stops (s : Sampler α σ) (c : Chain α σ) (reason : ModelError) (d : Chain α σ) : Prop where
  | start (fresh : c.stage = .initializing) (failed : s.prepare c = .error (.model reason) d)
      (stage : d.stage = .failed none reason)
  | iteration {first last : Chain α σ} (prepared : s.prepare c = .ok () first)
      (steps : s.Steps first last) (failed : s.step last = .error (.model reason) d)
      (stage : d.stage = .failed last.stage.trace? reason)
      (unreleased : last.stage.selection? = none)

/-! ## What a call that fails leaves -/

/-- A start that is refused, a finalized chain or a failed one. -/
theorem prepare_eq_error (h : s.prepare c = .error cause d) :
    (c.stage = .initializing ∧ d.stage = Stage.initializing.afterError cause) ∨
      ((∃ trace selection, c.stage = .finalized trace selection) ∧ cause = .alreadyReleased ∧
        d = c) ∨
      ∃ trace? reason, c.stage = .failed trace? reason ∧ cause = .model reason ∧ d = c := by
  rcases c with ⟨w, _ | trace | trace | ⟨trace, selection⟩ | ⟨trace?, reason⟩⟩
  case initializing =>
    cases hstart : s.start w with
    | ok stage w' =>
      rw [prepare_of_start_ok hstart] at h
      cases h
    | error cause' w' =>
      rw [prepare_of_start_error hstart] at h
      cases h
      exact .inl ⟨rfl, rfl⟩
  case warmingUp => cases h
  case sampling => cases h
  case finalized =>
    cases h
    exact .inr (.inl ⟨⟨trace, selection, rfl⟩, rfl, rfl⟩)
  case failed =>
    cases h
    exact .inr (.inr ⟨trace?, reason, rfl, rfl, rfl⟩)

/-- A step of a chain that goes on fails in its iteration. -/
theorem step_eq_error (running : c.stage.running? = some trace) (h : s.step c = .error cause d) :
    (∃ w', trace.walker.iterate s.target c.world = .error cause w') ∧
      d.stage = c.stage.afterError cause := by
  rw [step_of_prepared (prepare_running running)] at h
  rcases advance_cases (s := s) running with
    ⟨-, hadvance⟩ | ⟨-, ⟨moved, walker, w', -, hadvance⟩ | ⟨cause', w', hiterate, hadvance⟩⟩
  · cases hadvance.symm.trans h
  · cases hadvance.symm.trans h
  · cases hadvance.symm.trans h
    exact ⟨⟨w', hiterate⟩, rfl⟩

/-- A chain that could be stepped goes on. -/
theorem running_of_step {moved : Option Bool} (h : s.step c = .ok moved d) :
    ∃ trace, d.stage.running? = some trace := by
  rw [step_eq] at h
  obtain ⟨u, first, hprepare, h⟩ := bind_eq_ok h
  obtain ⟨trace, running⟩ := running_of_prepare hprepare
  rcases advance_cases (s := s) running with
    ⟨-, hadvance⟩ | ⟨-, ⟨moved', walker, w', -, hadvance⟩ | ⟨cause', w', -, hadvance⟩⟩
  · cases hadvance.symm.trans h
    exact ⟨trace, running⟩
  · cases hadvance.symm.trans h
    obtain ⟨trace', running', -⟩ := running?_nextStage s first.stage (extend trace walker)
    exact ⟨trace', running'⟩
  · cases hadvance.symm.trans h

theorem Steps.running (h : s.Steps c d) (running : c.stage.running? = some trace) :
    ∃ trace, d.stage.running? = some trace := by
  induction h generalizing trace with
  | refl => exact ⟨trace, running⟩
  | head h _ ih =>
    obtain ⟨trace', running'⟩ := running_of_step h
    exact ih running'

/-- The loop that fails does so at a step after some that succeeded. -/
theorem StepsOut.steps {n : Nat} (h : s.StepsOut c n (.error cause d)) :
    ∃ last, s.Steps c last ∧ s.step last = .error cause d := by
  generalize hr : (EStateM.Result.error cause d : EStateM.Result (Error α) (Chain α σ) Unit) = r
    at h
  induction h with
  | last h => cases hr
  | stop h =>
    cases hr
    exact ⟨_, .refl, h⟩
  | more h _ ih =>
    obtain ⟨last, hsteps, hlast⟩ := ih hr
    exact ⟨last, .head h hsteps, hlast⟩

/-! ## What stops a chain -/

theorem stops_of_prepare (unfailed : c.phase ≠ .failed)
    (h : s.prepare c = .error (.model reason) d) : s.Stops c reason d := by
  rcases prepare_eq_error h with
    ⟨fresh, hstage⟩ | ⟨-, hcause, -⟩ | ⟨trace?, reason', hfailed, -, -⟩
  · exact .start fresh h hstage
  · cases hcause
  · rw [Chain.phase, hfailed] at unfailed
    exact absurd rfl unfailed

theorem stops_of_steps {first last : Chain α σ} (prepared : s.prepare c = .ok () first)
    (steps : s.Steps first last) (failed : s.step last = .error (.model reason) d) :
    s.Stops c reason d := by
  obtain ⟨trace, running⟩ := running_of_prepare prepared
  obtain ⟨trace', running'⟩ := steps.running running
  exact .iteration prepared steps failed (step_eq_error running' failed).2
    (Stage.selection?_of_running running')

theorem step_eq_of_prepared {first : Chain α σ} (h : s.prepare c = .ok () first) :
    s.step c = s.step first := by
  obtain ⟨trace, running⟩ := running_of_prepare h
  rw [step_of_prepared h, step_of_prepared (prepare_running running)]

theorem run_eq_of_prepared {first : Chain α σ} (h : s.prepare c = .ok () first) :
    s.run c = s.run first := by
  obtain ⟨trace, running⟩ := running_of_prepare h
  rw [run_of_prepared h, run_of_prepared (prepare_running running)]

theorem isFitting_of_prepare {first : Chain α σ} (h : s.prepare c = .ok () first)
    (fitting : s.IsFitting c.stage) : s.IsFitting first.stage := by
  have path := prepare_path s c
  rw [h] at path
  exact isFitting_of_path path fitting

theorem stepsOut_run {first : Chain α σ} (h : s.prepare c = .ok () first)
    (fitting : s.IsFitting c.stage) : ∃ n, s.StepsOut first n (s.run c) := by
  obtain ⟨trace, running⟩ := running_of_prepare h
  rw [run_eq_of_prepared h]
  rcases run_stepsOut running (isFitting_of_prepare h fitting) with
    ⟨d, hd, hsteps, -⟩ | ⟨n, cause, d, -, hd, hsteps, -⟩
  · rw [hd]
    exact ⟨_, hsteps⟩
  · rw [hd]
    exact ⟨_, hsteps⟩

/-- However the chain was made to go on, it was the start or the first iteration to fail that
stopped it. -/
theorem stops_of_fails {k : Call} (hk : k.Advances) (fitting : s.IsFitting c.stage)
    (unfailed : c.phase ≠ .failed) (h : s.Fails c k (.model reason) d) : s.Stops c reason d := by
  cases hprepare : s.prepare c with
  | error cause d' =>
    obtain ⟨rfl, rfl⟩ := h.unique (fails_of_prepare hk hprepare)
    exact stops_of_prepare unfailed hprepare
  | ok u first =>
    rcases hk with rfl | rfl | rfl
    · cases hprepare.symm.trans h
    · exact stops_of_steps hprepare .refl ((step_eq_of_prepared hprepare).symm.trans h)
    · obtain ⟨n, hsteps⟩ := stepsOut_run hprepare fitting
      rw [show s.run c = .error (.model reason) d from h] at hsteps
      obtain ⟨last, steps, hlast⟩ := hsteps.steps
      exact stops_of_steps hprepare steps hlast

/-! ## Nothing else makes a chain fail -/

theorem model_of_prepare (unfailed : c.phase ≠ .failed) (h : s.prepare c = .error cause d)
    (hd : d.phase = .failed) : ∃ reason, cause = .model reason := by
  rcases prepare_eq_error h with ⟨-, hstage⟩ | ⟨-, -, rfl⟩ | ⟨_, _, -, -, rfl⟩
  · have fresh : (Stage.initializing : Stage α).phase ≠ .failed := fun h => by cases h
    rw [Chain.phase, hstage] at hd
    exact Stage.model_of_afterError fresh hd
  · exact absurd hd unfailed
  · exact absurd hd unfailed

theorem fails_of_step (running : c.stage.running? = some trace)
    (hd : (leaves (s.step c)).phase = .failed) :
    ∃ reason, s.step c = .error (.model reason) (leaves (s.step c)) := by
  cases h : s.step c with
  | ok moved d =>
    obtain ⟨trace', running'⟩ := running_of_step h
    rw [h] at hd
    exact absurd hd (Stage.phase_ne_failed_of_running running')
  | error cause d =>
    rw [h, leaves_error, Chain.phase, (step_eq_error running h).2] at hd
    obtain ⟨reason, rfl⟩ := Stage.model_of_afterError (Stage.phase_ne_failed_of_running running) hd
    exact ⟨reason, rfl⟩

/-- A loop of steps leaves a failed chain only with an error of the model. -/
theorem StepsOut.fails {n : Nat} {r : EStateM.Result (Error α) (Chain α σ) Unit}
    (h : s.StepsOut c n r) (running : c.stage.running? = some trace)
    (hd : (leaves r).phase = .failed) : ∃ reason, r = .error (.model reason) (leaves r) := by
  induction h generalizing trace with
  | last h =>
    obtain ⟨trace', running'⟩ := running_of_step h
    exact absurd hd (Stage.phase_ne_failed_of_running running')
  | stop h =>
    obtain ⟨reason, hstep⟩ := fails_of_step (s := s) running (by rw [h]; exact hd)
    cases h.symm.trans hstep
    exact ⟨reason, rfl⟩
  | more h _ ih =>
    obtain ⟨trace', running'⟩ := running_of_step h
    exact ih running' hd

/-- Of the calls that go on, only one that returns an error of the model makes a chain fail. -/
theorem fails_of_advances {k : Call} (hk : k.Advances) (fitting : s.IsFitting c.stage)
    (unfailed : c.phase ≠ .failed) (hd : (s.call c k).phase = .failed) :
    ∃ reason, s.Fails c k (.model reason) (s.call c k) := by
  cases hprepare : s.prepare c with
  | error cause d =>
    have h := fails_of_prepare hk hprepare
    rw [h.call_eq] at hd ⊢
    obtain ⟨reason, rfl⟩ := model_of_prepare unfailed hprepare hd
    exact ⟨reason, h⟩
  | ok u first =>
    obtain ⟨trace, running⟩ := running_of_prepare hprepare
    rcases hk with rfl | rfl | rfl
    · rw [call, hprepare] at hd
      exact absurd hd (Stage.phase_ne_failed_of_running running)
    · have hstep := step_eq_of_prepared hprepare
      rw [call, hstep] at hd ⊢
      obtain ⟨reason, h⟩ := fails_of_step running hd
      exact ⟨reason, hstep.trans h⟩
    · obtain ⟨n, hsteps⟩ := stepsOut_run hprepare fitting
      exact hsteps.fails running hd

omit [Scalar α] in
theorem phase_release (unfailed : c.phase ≠ .failed) :
    (leaves (s.release c)).phase ≠ .failed := by
  rcases release_cases s c with ⟨_, -, h⟩ | ⟨-, ⟨_, h⟩ | ⟨_, -, -, h⟩⟩ <;> rw [h]
  · exact unfailed
  · exact unfailed
  · exact nofun

theorem fails_of_failed {k : Call} (fitting : s.IsFitting c.stage)
    (unfailed : c.phase ≠ .failed) (hd : (s.call c k).phase = .failed) :
    k.Advances ∧ ∃ reason, s.Fails c k (.model reason) (s.call c k) := by
  have advances (hk : k.Advances) := And.intro hk (fails_of_advances hk fitting unfailed hd)
  cases k with
  | prepare => exact advances (.inl rfl)
  | step => exact advances (.inr (.inl rfl))
  | run => exact advances (.inr (.inr rfl))
  | release => exact absurd hd (phase_release unfailed)
  | score =>
    rw [Chain.phase, call, stage_pseudoMarginal] at hd
    exact absurd hd unfailed

/-- A start that is refused for another reason than the model leaves nothing behind. -/
theorem refused_of_prepare (h : s.prepare c = .error cause d)
    (hcause : ∀ reason, cause ≠ .model reason) :
    c.phase = .initializing ∧ d.phase = .initializing ∧ d.stage.trace? = none ∧
        d.initial? = none ∧ d.history = #[] ∨
      c.phase = .finalized ∧ cause = .alreadyReleased ∧ d = c := by
  rcases prepare_eq_error h with
    ⟨fresh, hstage⟩ | ⟨⟨trace, selection, hfinalized⟩, rfl, rfl⟩ | ⟨_, reason, -, rfl, -⟩
  · rw [Stage.afterError_of_ne_model _ hcause] at hstage
    left
    rw [Chain.phase, Chain.phase, Chain.initial?, Chain.history, fresh, hstage]
    exact ⟨rfl, rfl, rfl, rfl, rfl⟩
  · right
    rw [Chain.phase, hfinalized]
    exact ⟨rfl, rfl, rfl⟩
  · exact absurd rfl (hcause reason)

/-! ## A failed chain stays as it is -/

section Failed

variable {trace? : Option (Trace α)} (failed : c.stage = .failed trace? reason)

include failed

theorem prepare_failed : s.prepare c = .error (.model reason) c := by
  rcases c with ⟨w, stage⟩
  cases failed
  rfl

theorem call_failed (left : c.completed < s.settings.schedule.iterations) (k : Call) :
    s.call c k = c := by
  have advances (hk : k.Advances) := (fails_of_prepare hk (prepare_failed (s := s) failed)).call_eq
  have unreleased : c.stage.selection? = none := by rw [failed]; rfl
  cases k with
  | prepare => exact advances (.inl rfl)
  | step => exact advances (.inr (.inl rfl))
  | run => exact advances (.inr (.inr rfl))
  | release => rw [call, release_short unreleased left, leaves_error]
  | score => rw [call, pseudoMarginal, Chain.draws, unreleased, leaves_error]

theorem callAll_failed (left : c.completed < s.settings.schedule.iterations) (calls : List Call) :
    s.callAll c calls = c := by
  induction calls with
  | nil => rfl
  | cons k calls ih =>
    rw [callAll, List.foldl_cons, call_failed failed left k]
    exact ih

end Failed

/-- A chain that is stopped for good. Whatever model is put in the place of its own, no call
changes it, and those that would go on return the error that stopped it. -/
structure IsStopped (s : Sampler α σ) (d : Chain α σ) (reason : ModelError) : Prop where
  phase_eq : d.phase = .failed
  callAll_eq : ∀ (target : Target α σ) (later : List Call), { s with target }.callAll d later = d
  advance : ∀ (target : Target α σ) (k : Call), k.Advances →
    { s with target }.Fails d k (.model reason) d
  release : s.release d = .error (.incomplete d.completed s.settings.schedule.iterations) d

theorem isStopped_of_failed {trace? : Option (Trace α)} (valid : s.settings.schedule.Valid)
    (hd : s.Sound d.stage) (failed : d.stage = .failed trace? reason) : s.IsStopped d reason := by
  have hphase : d.phase = .failed := by rw [Chain.phase, failed]; rfl
  have left := (coherent_of_sound valid hd).failed hphase
  exact
    { phase_eq := hphase
      callAll_eq := fun target later => callAll_failed (s := { s with target }) failed left.1 later
      advance := fun target k hk => fails_of_prepare hk (prepare_failed failed)
      release := release_short left.2 left.1 }

theorem Stops.failed (h : s.Stops c reason d) : ∃ trace?, d.stage = .failed trace? reason := by
  cases h with
  | start _ _ stage => exact ⟨_, stage⟩
  | iteration _ _ _ stage _ => exact ⟨_, stage⟩

/-- An error of the model stops a chain after the iterations that were completed, and for good;
nothing else does. A start that is refused for another reason leaves the chain without one. -/
theorem failure_absorbing {m : Model α σ} {settings : Settings α}
    (accepted : ofModel m settings = .ok s) (memory : σ) (calls : List Call) :
    let c := s.after memory calls
    (∀ k reason d, k.Advances → c.phase ≠ .failed → s.Fails c k (.model reason) d →
      s.Stops c reason d ∧ s.IsStopped d reason) ∧
    (∀ k, c.phase ≠ .failed → (s.call c k).phase = .failed →
      k.Advances ∧ ∃ reason, s.Fails c k (.model reason) (s.call c k)) ∧
    (∀ cause d, s.prepare c = .error cause d → (∀ reason, cause ≠ .model reason) →
      c.phase = .initializing ∧ d.phase = .initializing ∧ d.stage.trace? = none ∧
          d.initial? = none ∧ d.history = #[] ∨
        c.phase = .finalized ∧ cause = .alreadyReleased ∧ d = c) := by
  intro c
  have valid := valid_of_ofModel accepted
  have fitting : s.IsFitting c.stage := isFitting_after s memory calls
  refine ⟨fun k reason d hk unfailed h => ?_, fun k => fails_of_failed fitting,
    fun cause d => refused_of_prepare⟩
  have hstops := stops_of_fails hk fitting unfailed h
  obtain ⟨trace?, failed⟩ := hstops.failed
  -- The chain that the call leaves is one that calls lead to, so that its stage is sound.
  have hd : d = s.after memory (calls ++ [k]) := by
    rw [after_append]
    exact h.call_eq.symm
  have hsound : s.Sound d.stage := by
    rw [hd]
    exact sound_after valid memory _
  exact ⟨hstops, isStopped_of_failed valid hsound failed⟩

/-- A level target that can be asked only once is asked for its start and fails the first
iteration. -/
theorem fails_level : ∃ d, (levelSampler (some 1) shortSchedule).Fails
    ((levelSampler (some 1) shortSchedule).after 0 [.prepare]) .run
    (.model (.evaluation "worn out")) d :=
  ⟨_, rfl⟩

theorem failure_absorbing_level :
    let s := levelSampler (some 1) shortSchedule
    let reason := ModelError.evaluation "worn out"
    ∃ d, s.Fails (s.after 0 [.prepare]) .run (.model reason) d ∧
      s.Stops (s.after 0 [.prepare]) reason d ∧ s.IsStopped d reason := by
  have h := failure_absorbing (ofModel_level (some 1) shortSchedule_valid) 0 [.prepare]
  obtain ⟨d, hd⟩ := fails_level
  exact ⟨d, hd, h.1 .run _ d (.inr (.inr rfl)) (by exact nofun) hd⟩

end Sampler

end Metropolis
