import Metropolis.Fit
import Metropolis.Proofs.Selection

/-!
# Independence of how a chain is driven

The stage of a chain and the place of its tape depend only on the number of iterations that it has
completed, not on the calls that made it complete them. Both are those of a chain that was prepared
once and then did nothing but iterate, which is what a fit does. The memory of the model is the one
thing that may differ, and a consistent model makes nothing of it.
-/

namespace Metropolis

variable {α σ : Type} [Scalar α]

namespace Sampler

variable {s : Sampler α σ} {c c₀ d e : Chain α σ} {memory memory₀ : σ} {trace : Trace α}
  {selection : Draws α} {log more : List (Iteration α)} {n : Nat}

/-! ## The chain that only iterates -/

/-- Whether a chain is at the stage, and its tape in the place, to which `n` iterations of `c₀`
lead. -/
def IsAt (s : Sampler α σ) (c₀ : Chain α σ) (n : Nat) (c : Chain α σ) : Prop :=
  ∃ e, s.advanceTimes n c₀ = .ok () e ∧ e.stage = c.stage ∧ e.world.tape = c.world.tape

theorem advanceTimes_of_ok {moved : Option Bool} (h : s.advanceTimes n c = .ok () d)
    (h' : s.advance d = .ok moved e) : s.advanceTimes (n + 1) c = .ok () e := by
  induction n generalizing c with
  | zero =>
    cases h
    rw [advanceTimes, bind_of_ok _ h']
    rfl
  | succ n ih =>
    obtain ⟨moved', c', hfirst, hrest⟩ := bind_eq_ok h
    rw [advanceTimes, bind_of_ok _ hfirst]
    exact ih hrest

theorem seesOnly_start (consistent : s.target.model.IsConsistent) :
    SeesOnly World.tape s.start := by
  refine SeesOnly.bind (SeesOnly.ofExcept _) fun distribution => ?_
  by_cases hdimension : distribution.dimension = s.target.dimension
  · rw [if_neg (not_not.2 hdimension)]
    refine SeesOnly.bind (Search.seesOnly_run consistent _ _) fun point => ?_
    split
    · exact SeesOnly.pure _
    · exact SeesOnly.pure _
  · rw [if_pos hdimension]
    exact SeesOnly.throw _

theorem start_of_prepare {w : World α σ} (h : s.prepare ⟨w, .initializing⟩ = .ok () d) :
    ∃ stage w', s.start w = .ok stage w' ∧ d = ⟨w', stage⟩ := by
  cases hstart : s.start w with
  | ok stage w' =>
    rw [prepare_of_start_ok hstart] at h
    cases h
    exact ⟨stage, w', rfl, rfl⟩
  | error cause w' =>
    rw [prepare_of_start_error hstart] at h
    cases h

/-- If a new chain can be prepared, then so can every chain that has no start yet and whose tape
has not been read, and it gets the same start. -/
theorem start_eq_ok_of_tape (consistent : s.target.model.IsConsistent)
    (starts : s.prepare (s.newChain memory₀) = .ok () c₀) {w : World α σ}
    (htape : w.tape = Tape.ofSeed s.settings.schedule.seed) :
    ∃ w', s.start w = .ok c₀.stage w' ∧ w'.tape = c₀.world.tape := by
  obtain ⟨stage, w₀, hstart, rfl⟩ := start_of_prepare starts
  have hview : (s.newChain memory₀).world.tape = w.tape := htape.symm
  rcases (seesOnly_start consistent).cases hview with
    ⟨stage', w₁, w', h₁, h', hview'⟩ | ⟨cause, w₁, w', h₁, -, -⟩
  · cases hstart.symm.trans h₁
    exact ⟨w', h', hview'.symm⟩
  · cases hstart.symm.trans h₁

theorem isAt_iterate (consistent : s.target.model.IsConsistent) {w w' : World α σ}
    {stage : Stage α} {walker : Walker α} {accepted : Bool} (hat : s.IsAt c₀ n ⟨w, stage⟩)
    (running : stage.running? = some trace)
    (left : trace.history.size < s.settings.schedule.iterations)
    (h : trace.walker.iterate s.target w = .ok (accepted, walker) w') :
    s.IsAt c₀ (n + 1) ⟨w', s.nextStage stage (extend trace walker)⟩ := by
  obtain ⟨e, htimes, hstage, htape⟩ := hat
  have running' : e.stage.running? = some trace := by
    rw [hstage]
    exact running
  rcases (Walker.seesOnly_iterate consistent trace.walker).cases htape with
    ⟨result, w₁, w₂, h₁, h₂, hview⟩ | ⟨cause, w₁, w₂, -, h₂, -⟩
  · cases h.symm.trans h₂
    refine ⟨_, advanceTimes_of_ok htimes (advance_of_ok running' left h₁), ?_, hview⟩
    show s.nextStage e.stage _ = s.nextStage stage _
    rw [hstage]
  · cases h.symm.trans h₂

/-! ## Sequences of calls -/

/-- Calls on a new chain that make it start, of which no release succeeds, and that complete `k`
iterations without an error of the model. -/
structure Driven (s : Sampler α σ) (memory : σ) (calls : List Call) (k : Nat) : Prop where
  started : ∃ first ∈ calls, first = .prepare ∨ first = .step ∨ first = .run
  unreleased : ¬ s.Released memory calls
  unfailed : (s.after memory calls).phase ≠ .failed
  completed : (s.after memory calls).completed = k

theorem call_of_prepared {k : Call} (h : s.prepare c = .ok () d)
    (hk : k = .prepare ∨ k = .step ∨ k = .run) : ∃ log, s.Path d log (s.call c k) := by
  obtain ⟨trace, running⟩ := running_of_prepare h
  rcases hk with rfl | rfl | rfl
  · rw [call, h]
    exact ⟨[], .refl⟩
  · rw [call, step_of_prepared h]
    exact advance_path running
  · rw [call, run_of_prepared h]
    exact advanceTimes_path _ running

theorem ne_initializing_of_path (h : s.Path c log d) (hc : c.stage ≠ .initializing) :
    d.stage ≠ .initializing := by
  refine h.preserves (P := fun _ d => d.stage ≠ .initializing) (fun hc h => ?_) hc
  cases h with
  | start => exact absurd rfl hc
  | refused => exact absurd rfl hc
  | @iterate w w' stage trace accepted walker running left h =>
    obtain ⟨trace', running', -⟩ := running?_nextStage s stage (extend trace walker)
    exact Stage.ne_initializing_of_running running'
  | @broken w w' stage trace cause running left h =>
    cases cause with
    | model reason => exact fun hstage => by cases hstage
    | _ => exact hc
  | release => exact fun hstage => by cases hstage
  | score => exact hc

/-! ## Every chain follows it -/

/-- What a path from a new chain preserves: the tape is not read before the start, and after it the
chain is where the iterations of `c₀` lead. -/
structure Follows (s : Sampler α σ) (c₀ : Chain α σ) (log : List (Iteration α))
    (c : Chain α σ) : Prop where
  fitting : s.IsFitting c.stage
  fresh : c.stage = .initializing →
    log = [] ∧ c.world.tape = Tape.ofSeed s.settings.schedule.seed
  running : ∀ trace, c.stage.running? = some trace → s.IsAt c₀ log.length c

section Followed

variable (covered : s.target.IsCovered) (consistent : s.target.model.IsConsistent)
  (starts : s.prepare (s.newChain memory₀) = .ok () c₀)

include covered consistent starts

theorem follows_transition (hc : s.Follows c₀ log c) (h : s.Transition c more d) :
    s.Follows c₀ (log ++ more) d := by
  have hfitting := isFitting_transition hc.fitting h
  cases h with
  | @start w w' stage h =>
    obtain ⟨hlog, htape⟩ := hc.fresh rfl
    obtain ⟨w₁, h₁, htape₁⟩ := start_eq_ok_of_tape consistent starts htape
    cases h.symm.trans h₁
    refine ⟨hfitting, fun hstage => ?_, fun trace _ => ?_⟩
    · obtain ⟨trace, running⟩ := running_of_prepare starts
      exact absurd hstage (Stage.ne_initializing_of_running running)
    · rw [hlog]
      exact ⟨c₀, rfl, rfl, htape₁.symm⟩
  | @refused w w' cause h =>
    -- The start that `c₀` has found cannot be refused here.
    obtain ⟨-, htape⟩ := hc.fresh rfl
    obtain ⟨w₁, h₁, -⟩ := start_eq_ok_of_tape consistent starts htape
    cases h.symm.trans h₁
  | @iterate w w' stage trace accepted walker running left h =>
    -- The chain that only iterates takes the same step, from the same stage and the same tape.
    obtain ⟨trace', running', -⟩ := running?_nextStage s stage (extend trace walker)
    refine ⟨hfitting, fun hstage => ?_, fun trace'' _ => ?_⟩
    · exact absurd hstage (Stage.ne_initializing_of_running running')
    · rw [List.length_append, List.length_singleton]
      exact isAt_iterate consistent (hc.running trace running) running left h
  | @broken w w' stage trace cause running left h =>
    -- Any error but one of the model would leave the chain going, with a part of the tape used up.
    have hfits := hc.fitting trace (Stage.trace?_of_running running)
    obtain ⟨reason, rfl⟩ := Walker.iterate_error covered hfits h
    refine ⟨hfitting, fun hstage => ?_, fun trace' running' => ?_⟩
    · cases hstage
    · cases running'
  | release =>
    refine ⟨hfitting, fun hstage => ?_, fun trace' running' => ?_⟩
    · cases hstage
    · cases running'
  | score memory =>
    rw [List.append_nil]
    exact ⟨hfitting, hc.fresh, hc.running⟩

theorem follows_of_path (h : s.Path (s.newChain memory) log c) : s.Follows c₀ log c := by
  refine h.preserves (P := s.Follows c₀)
    (fun hc h => follows_transition covered consistent starts hc h) ⟨?_, ?_, ?_⟩
  · intro trace started
    cases started
  · exact fun _ => ⟨rfl, rfl⟩
  · intro trace running
    cases running

theorem started_of_driven {calls : List Call} {k : Nat} (h : s.Driven memory calls k) :
    (s.after memory calls).stage ≠ .initializing := by
  obtain ⟨first, hmem, hfirst⟩ := h.started
  obtain ⟨earlier, later, rfl⟩ := List.append_of_mem hmem
  rw [after_append, callAll, List.foldl_cons]
  obtain ⟨log, hlater⟩ := callAll_path s (s.call (s.after memory earlier) first) later
  -- The first of the calls that start a chain finds it new, or started before.
  apply ne_initializing_of_path hlater
  by_cases hstage : (s.after memory earlier).stage = .initializing
  · obtain ⟨log₁, path⟩ := after_path s memory earlier
    obtain ⟨-, htape⟩ := (follows_of_path covered consistent starts path).fresh hstage
    obtain ⟨w', hstart, -⟩ := start_eq_ok_of_tape consistent starts htape
    have hprepare : s.prepare (s.after memory earlier) = .ok () ⟨w', c₀.stage⟩ := by
      have heq : s.after memory earlier = ⟨(s.after memory earlier).world, .initializing⟩ := by
        rw [← hstage]
      rw [heq]
      exact prepare_of_start_ok hstart
    obtain ⟨log₂, hcall⟩ := call_of_prepared hprepare hfirst
    obtain ⟨trace, running⟩ := running_of_prepare starts
    apply ne_initializing_of_path hcall
    exact Stage.ne_initializing_of_running running
  · obtain ⟨log₂, hcall⟩ := call_path s (s.after memory earlier) first
    exact ne_initializing_of_path hcall hstage

theorem running_of_driven (valid : s.settings.schedule.Valid) {calls : List Call} {k : Nat}
    (h : s.Driven memory calls k) :
    ∃ trace, (s.after memory calls).stage.running? = some trace := by
  have hstarted := started_of_driven covered consistent starts h
  have hunfailed := h.unfailed
  have hunreleased := h.unreleased
  rw [released_iff valid, not_not] at hunreleased
  rw [Chain.phase] at hunfailed
  generalize (s.after memory calls).stage = stage at *
  cases stage with
  | initializing => exact absurd rfl hstarted
  | warmingUp trace => exact ⟨trace, rfl⟩
  | sampling trace => exact ⟨trace, rfl⟩
  | finalized => cases hunreleased
  | failed => exact absurd rfl hunfailed

/-- However a chain was driven, it is where as many iterations lead. -/
theorem isAt_of_driven (valid : s.settings.schedule.Valid) {calls : List Call} {k : Nat}
    (h : s.Driven memory calls k) : s.IsAt c₀ k (s.after memory calls) := by
  obtain ⟨trace, running⟩ := running_of_driven covered consistent starts valid h
  obtain ⟨log, path⟩ := after_path s memory calls
  have hlength : log.length = k := by
    rw [(explains_of_path path).1, h.completed]
  rw [← hlength]
  exact (follows_of_path covered consistent starts path).running trace running

end Followed

/-! ## The run and the fit -/

/-- A run of a started chain ends with what stepping it to the end gives, after all the iterations
that are left unless the model fails first. -/
theorem run_after {m : Model α σ} {settings : Settings α} (accepted : ofModel m settings = .ok s)
    (memory : σ) (calls : List Call) :
    let c := s.after memory calls
    (c.phase = .warmingUp ∨ c.phase = .sampling) →
      ∃ n, (∀ k r, s.StepsOut c k r ↔ k = n ∧ r = s.run c) ∧
        (leaves (s.run c)).completed = c.completed + n ∧
        ((∃ d, s.run c = .ok () d ∧ n = s.settings.schedule.iterations - c.completed ∧
            d.completed = s.settings.schedule.iterations) ∨
          ∃ reason d, s.run c = .error (.model reason) d ∧ d.stage.failure? = some reason ∧
            n < s.settings.schedule.iterations - c.completed) := by
  intro c hphase
  have valid := valid_of_ofModel accepted
  have hsound : s.Sound c.stage := sound_after valid memory calls
  have hfitting : s.IsFitting c.stage := isFitting_after s memory calls
  obtain ⟨trace, running⟩ := Stage.running?_of_phase hphase
  have hwithin := size_le_of_sound valid hsound (Stage.trace?_of_running running)
  rw [← Chain.completed_of_running running] at hwithin
  rcases run_stepsOut running hfitting with
    ⟨d, hrun, hsteps, hd⟩ | ⟨n, cause, d, hn, hrun, hsteps, hd, hfail, hstage⟩
  · rw [hrun]
    exact ⟨_, hsteps.iff, hd, .inl ⟨d, rfl, rfl, by omega⟩⟩
  · -- The iteration that fails evaluates a point of the right length, so that its model failed.
    obtain ⟨walker, w, w', hfits, hiterate⟩ := hfail
    obtain ⟨reason, rfl⟩ := Walker.iterate_error (isCovered_of_ofModel accepted) hfits hiterate
    rw [hrun]
    exact ⟨n, hsteps.iff, hd, .inr ⟨reason, d, rfl, hstage reason rfl, hn⟩⟩

theorem prepare_newChain (consistent : s.target.model.IsConsistent)
    (starts : s.prepare (s.newChain memory₀) = .ok () c₀) (memory : σ) :
    ∃ d, s.prepare (s.newChain memory) = .ok () d ∧ d.completed = 0 := by
  obtain ⟨w, hstart, -⟩ :=
    start_eq_ok_of_tape (w := (s.newChain memory).world) consistent starts rfl
  have hprepare : s.prepare (s.newChain memory) = .ok () ⟨w, c₀.stage⟩ :=
    prepare_of_start_ok hstart
  have path := prepare_path s (s.newChain memory)
  rw [hprepare] at path
  exact ⟨_, hprepare, (explains_of_path path).1.symm⟩

theorem report_finalized (w : World α σ) (trace : Trace α) (selection : Draws α) :
    ∃ report, (Chain.mk w (.finalized trace selection)).report = .ok report := by
  unfold Chain.report
  exact ⟨_, rfl⟩

/-- A chain that runs to its end releases the draws of its history, and so does the fit. -/
theorem fit_of_run {m : Model α σ} {settings : Settings α}
    (accepted : ofModel m settings = .ok s) (hrun : s.run (s.newChain memory) = .ok () e)
    (hrelease : s.release e = .ok selection ⟨e.world, .finalized trace selection⟩) :
    ∃ fit memory', m.fit settings memory = .ok fit memory' ∧ fit.draws = selection := by
  obtain ⟨report, hreport⟩ := report_finalized e.world trace selection
  have hcomplete : s.complete (s.newChain memory) =
      .ok (selection, report) ⟨e.world, .finalized trace selection⟩ := by
    unfold complete
    rw [bind_of_ok _ hrun, bind_of_ok _ hrelease, bind_get, hreport]
    rfl
  have hfit : s.fit memory = .ok ⟨s.target.model.info, report, selection⟩ e.world.memory := by
    unfold fit
    rw [hcomplete]
  refine ⟨⟨s.target.model.info, report, selection⟩, e.world.memory, ?_, rfl⟩
  unfold Model.fit
  rw [accepted]
  exact hfit

/-- A complete chain, however it was driven, releases the draws of a fit. -/
theorem fit_of_driven {m : Model α σ} {settings : Settings α}
    (accepted : ofModel m settings = .ok s) (consistent : s.target.model.IsConsistent)
    (starts : s.prepare (s.newChain memory₀) = .ok () c₀) {calls : List Call} (memory' : σ)
    (h : s.Driven memory calls s.settings.schedule.iterations) :
    ∃ selection d fit memory'', s.release (s.after memory calls) = .ok selection d ∧
      m.fit settings memory' = .ok fit memory'' ∧ fit.draws = selection := by
  have valid := valid_of_ofModel accepted
  have hsound := sound_after valid memory calls
  obtain ⟨selection, d, hrelease⟩ := release_complete valid h.completed
  obtain ⟨trace, started, -, hsize, hselection, -⟩ := release_eq_ok valid hsound hrelease
  obtain ⟨c₁, starts', hzero⟩ := prepare_newChain consistent starts memory'
  obtain ⟨e, htimes, hstage, -⟩ :=
    isAt_of_driven (isCovered_of_ofModel accepted) consistent starts' valid h
  have hrun : s.run (s.newChain memory') = .ok () e := by
    rw [run_of_prepared starts', hzero, Nat.sub_zero]
    exact htimes
  -- The chain of the fit has the same stage, so that it holds the same history.
  have hrelease' : s.release e = .ok selection ⟨e.world, .finalized trace selection⟩ := by
    have started' : e.stage.trace? = some trace := by
      rw [hstage]
      exact started
    obtain ⟨selection', d', h'⟩ := release_complete (c := e) valid (by
      rw [Chain.completed_of_started started', hsize])
    obtain ⟨trace', started'', -, -, hselection', hd'⟩ :=
      release_eq_ok valid (by rw [hstage]; exact hsound) h'
    cases started'.symm.trans started''
    rw [h', hd', hselection', hselection]
  obtain ⟨fit, memory'', hfit, hdraws⟩ := fit_of_run accepted hrun hrelease'
  exact ⟨selection, d, fit, memory'', hrelease, hfit, hdraws⟩

/-- With a consistent model that can be started, two chains that have completed as many iterations
are at the same stage and have read as much of the tape, however they were driven. A run steps a
chain to its end, and a fit has the draws of every chain that was driven there. -/
theorem driving_independent {m : Model α σ} {settings : Settings α}
    (accepted : ofModel m settings = .ok s) (consistent : s.target.model.IsConsistent)
    (starts : s.prepare (s.newChain memory₀) = .ok () c₀) :
    (∀ memory memory' calls calls' k, s.Driven memory calls k → s.Driven memory' calls' k →
        (s.after memory calls).stage = (s.after memory' calls').stage ∧
          (s.after memory calls).world.tape = (s.after memory' calls').world.tape) ∧
      (∀ memory calls, let c := s.after memory calls
        (c.phase = .warmingUp ∨ c.phase = .sampling) →
          ∃ n, (∀ k r, s.StepsOut c k r ↔ k = n ∧ r = s.run c) ∧
            (leaves (s.run c)).completed = c.completed + n ∧
            ((∃ d, s.run c = .ok () d ∧ n = s.settings.schedule.iterations - c.completed ∧
                d.completed = s.settings.schedule.iterations) ∨
              ∃ reason d, s.run c = .error (.model reason) d ∧ d.stage.failure? = some reason ∧
                n < s.settings.schedule.iterations - c.completed)) ∧
      ∀ memory memory' calls, s.Driven memory calls s.settings.schedule.iterations →
        ∃ selection d fit memory'', s.release (s.after memory calls) = .ok selection d ∧
          m.fit settings memory' = .ok fit memory'' ∧ fit.draws = selection := by
  have valid := valid_of_ofModel accepted
  have covered := isCovered_of_ofModel accepted
  refine ⟨fun memory memory' calls calls' k h h' => ?_, run_after accepted,
    fun memory memory' calls h => fit_of_driven accepted consistent starts memory' h⟩
  obtain ⟨e, htimes, hstage, htape⟩ := isAt_of_driven covered consistent starts valid h
  obtain ⟨e', htimes', hstage', htape'⟩ := isAt_of_driven covered consistent starts valid h'
  cases htimes.symm.trans htimes'
  exact ⟨hstage.symm.trans hstage', htape.symm.trans htape'⟩

/-- A chain on the level target that is only run. -/
theorem driven_level : (levelSampler none shortSchedule).Driven 0 [.run] 4 := by
  obtain ⟨e, hrun, hcompleted⟩ := run_level
  have hafter : (levelSampler none shortSchedule).after 0 [.run] = e := by
    rw [after_singleton, call, hrun, leaves_ok]
  have hcoherent := coherent_of_sound (s := levelSampler none shortSchedule) shortSchedule_valid
    (sound_after shortSchedule_valid 0 [.run])
  refine ⟨⟨.run, List.mem_singleton_self _, .inr (.inr rfl)⟩, ?_, fun hfailed => ?_, ?_⟩
  · rintro ⟨earlier, later, selection, d, hcalls, -⟩
    have hmem : Call.release ∈ [Call.run] := by
      rw [hcalls]
      exact List.mem_append_right _ List.mem_cons_self
    cases List.mem_singleton.1 hmem
  · -- A failed chain has not completed its four iterations.
    have hleft := (hcoherent.failed hfailed).1
    rw [hafter, hcompleted] at hleft
    exact absurd hleft (Nat.lt_irrefl 4)
  · rw [hafter]
    exact hcompleted

/-- The level model is fitted, from another memory, with the draws of a chain that was run. -/
theorem driving_independent_level : ∃ trace world selection d fit memory'',
    ofModel (levelModel none) { Settings.standard with schedule := shortSchedule } =
        .ok (levelSampler none shortSchedule) ∧
      (levelModel none).IsConsistent ∧
      (levelSampler none shortSchedule).prepare ((levelSampler none shortSchedule).newChain 0) =
        .ok () ⟨world, .warmingUp trace⟩ ∧
      (levelSampler none shortSchedule).release
        ((levelSampler none shortSchedule).after 0 [.run]) = .ok selection d ∧
      (levelModel none).fit { Settings.standard with schedule := shortSchedule } 7 =
        .ok fit memory'' ∧
      fit.draws = selection := by
  obtain ⟨trace, world, -, starts⟩ := prepare_level
  have accepted := ofModel_level none shortSchedule_valid
  obtain ⟨-, -, hfit⟩ := driving_independent accepted isConsistent_level starts
  obtain ⟨selection, d, fit, memory'', hrelease, hdraws⟩ := hfit 0 7 [.run] driven_level
  exact ⟨trace, world, selection, d, fit, memory'', accepted, isConsistent_level, starts, hrelease,
    hdraws⟩

end Sampler

end Metropolis
