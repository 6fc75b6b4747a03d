import Metropolis.Proofs.Coherence
import Metropolis.Proofs.Coverage
import Metropolis.Proofs.Record

/-!
# Acceptance rates

The counts of a walker are those of the iterations on record. The counts that are kept at the end
of the warm-up are those of its iterations, so that from then on the sampling rate is the one of
the iterations after the warm-up. Before the end nothing is kept yet, and the sampling rate is the
one of all iterations.
-/

namespace Metropolis

variable {α σ : Type}

namespace Acceptance

variable {log : List (Iteration α)}

/-- The counts of recorded iterations. -/
def ofRecord (log : List (Iteration α)) : Acceptance := ⟨log.length, log.countP Iteration.accepted⟩

@[simp] theorem ofRecord_nil : ofRecord ([] : List (Iteration α)) = {} := rfl

theorem ofRecord_append_singleton (log : List (Iteration α)) (it : Iteration α) :
    ofRecord (log ++ [it]) = (ofRecord log).record it.accepted := by
  simp only [ofRecord, record, List.length_append, List.length_singleton, List.countP_append,
    List.countP_singleton, mk.injEq, true_and]
  split <;> rfl

/-- What was counted after the leading iterations are the counts of the others. -/
theorem since_ofRecord (log : List (Iteration α)) (n : Nat) :
    (ofRecord log).since (ofRecord (log.take n)) = ofRecord (log.drop n) := by
  have hcount : log.countP Iteration.accepted =
      (log.take n).countP Iteration.accepted + (log.drop n).countP Iteration.accepted := by
    rw [← List.countP_append, List.take_append_drop]
  simp only [since, ofRecord, mk.injEq, List.length_take, List.length_drop]
  omega

theorem since_nil (a : Acceptance) : a.since {} = a := rfl

end Acceptance

section Share

variable [Scalar α]

/-- The accepted ones of recorded iterations as a part of all, zero of none. -/
def acceptedShare (log : List (Iteration α)) : α :=
  if log.isEmpty then 0
  else Scalar.ofNat (log.countP Iteration.accepted) / Scalar.ofNat log.length

/-- Counts that are told apart give the share exactly. -/
theorem Acceptance.rate_ofRecord {log : List (Iteration α)}
    (h : log.length ≤ Scalar.countLimit) : (Acceptance.ofRecord log).rate = acceptedShare log := by
  have hle : log.countP Iteration.accepted ≤ Scalar.countLimit :=
    Nat.le_trans List.countP_le_length h
  cases log with
  | nil => rfl
  | cons it log =>
    simp only [rate, ofRecord, acceptedShare, Scalar.ofCount, Nat.min_eq_left hle,
      Nat.min_eq_left h]
    rfl

end Share

namespace Sampler

variable [Scalar α] {s : Sampler α σ} {c : Chain α σ} {trace : Trace α}
  {log : List (Iteration α)}

/-! ## Traces along a path -/

/-- The trace after one more iteration of the warm-up. -/
theorem trace?_afterWarmUp (s : Sampler α σ) (trace : Trace α) :
    (s.afterWarmUp trace).trace? = some
      (if s.settings.schedule.warmUp ≤ trace.history.size then
        { trace with
          walker := { trace.walker with walk := trace.walker.walk.retune.freeze }
          warmUp := trace.walker.counts }
      else { trace with walker := { trace.walker with walk := trace.walker.walk.retune } }) := by
  unfold afterWarmUp
  dsimp only
  split <;> rfl

/-- What holds of the first trace and an empty record, and is preserved by every iteration, holds of
the trace of a chain and the record of a path to it. -/
theorem Path.trace_preserves {P : List (Iteration α) → Trace α → Prop} {memory : σ}
    (valid : s.settings.schedule.Valid)
    (first : ∀ (distribution : Start α) (point : Point α) (trace : Trace α),
      distribution.dimension = s.target.dimension →
        (s.firstStage distribution point).trace? = some trace → P [] trace)
    (next : ∀ {log : List (Iteration α)} {stage : Stage α} {trace trace' : Trace α}
      {accepted : Bool} {walker : Walker α} {w w' : World α σ}, s.Sound stage →
        stage.running? = some trace → log.length = trace.history.size →
          trace.walker.iterate s.target w = .ok (accepted, walker) w' →
            (s.nextStage stage (extend trace walker)).trace? = some trace' → P log trace →
              P (log ++ [⟨w.tape, trace.walker, accepted, walker.current⟩]) trace')
    (h : s.Path (s.newChain memory) log c) (started : c.stage.trace? = some trace) :
    P log trace := by
  have hpath := h.preserves
    (P := fun log c => (s.Sound c.stage ∧ s.IsRecorded log c.stage) ∧
      ∀ trace, c.stage.trace? = some trace → P log trace)
    (fun {log more c d} hc h => ?_)
    ⟨⟨trivial, isRecorded_initializing s⟩, fun _ h => by cases h⟩
  · exact hpath.2 trace started
  · obtain ⟨⟨hsound, hrecorded⟩, htrace⟩ := hc
    refine ⟨⟨sound_transition valid hsound h, isRecorded_transition hrecorded h⟩, ?_⟩
    -- The start and the iterations are the two transitions that make a trace.
    cases h with
    | start h =>
      obtain ⟨distribution, point, -, hdimension, -, rfl⟩ := start_eq_ok h
      rw [hrecorded.unstarted rfl]
      exact fun trace => first distribution point trace hdimension
    | refused h =>
      rw [List.append_nil, Stage.trace?_afterError]
      exact htrace
    | @iterate w w' stage trace accepted walker running left h =>
      have started := Stage.trace?_of_running running
      have hlength := (hrecorded.started trace started).length_eq
      exact fun trace' started' =>
        next hsound running hlength h started' (htrace trace started)
    | broken running left h =>
      rw [List.append_nil, Stage.trace?_afterError]
      exact htrace
    | release started unreleased complete =>
      rw [List.append_nil]
      intro trace h
      cases h
      exact htrace _ started
    | score memory =>
      rw [List.append_nil]
      exact htrace

theorem length_eq_of_path {memory : σ} (h : s.Path (s.newChain memory) log c) :
    log.length = c.completed :=
  (explains_of_path h).1

/-! ## The counts of a trace -/

/-- Whether the counts of a trace are those of a record: all of them, and the ones of the warm-up
if it has ended. -/
structure CountsRecord (s : Sampler α σ) (log : List (Iteration α)) (trace : Trace α) : Prop where
  counts : trace.walker.counts = .ofRecord log
  warmUp : trace.warmUp =
    if log.length < s.settings.schedule.warmUp then {}
    else .ofRecord (log.take s.settings.schedule.warmUp)

theorem countsRecord_first {distribution : Start α} {point : Point α}
    (started : (s.firstStage distribution point).trace? = some trace) :
    s.CountsRecord [] trace := by
  have hwarmUp : ({} : Acceptance) = if ([] : List (Iteration α)).length <
      s.settings.schedule.warmUp then {} else .ofRecord (List.take s.settings.schedule.warmUp
        ([] : List (Iteration α))) := by
    rw [List.take_nil]
    split <;> rfl
  unfold firstStage at started
  dsimp only at started
  split at started <;> cases started <;> exact ⟨rfl, hwarmUp⟩

theorem countsRecord_next {stage : Stage α} {trace' : Trace α} {accepted : Bool}
    {walker : Walker α} {w w' : World α σ} (hsound : s.Sound stage)
    (running : stage.running? = some trace) (hlength : log.length = trace.history.size)
    (h : trace.walker.iterate s.target w = .ok (accepted, walker) w')
    (started : (s.nextStage stage (extend trace walker)).trace? = some trace')
    (hlog : s.CountsRecord log trace) :
    s.CountsRecord (log ++ [⟨w.tape, trace.walker, accepted, walker.current⟩]) trace' := by
  generalize hit : (⟨w.tape, trace.walker, accepted, walker.current⟩ : Iteration α) = it
  have haccepted : it.accepted = accepted := by rw [← hit]
  have hcounts : walker.counts = .ofRecord (log ++ [it]) := by
    rw [(iterate_counts h).1, hlog.counts, Acceptance.ofRecord_append_singleton, haccepted]
  have hsize : (extend trace walker).history.size = trace.history.size + 1 := Array.size_push _
  have hlast : (log ++ [it]).length = log.length + 1 := List.length_append
  rcases Stage.running?_cases running with rfl | rfl
  · have hearly := IsWarming.early hsound
    change (s.afterWarmUp (extend trace walker)).trace? = some trace' at started
    rw [trace?_afterWarmUp, Option.some.injEq] at started
    split at started
    next hlong =>
      -- The warm-up ends here, and all iterations so far are its iterations.
      have hall : (log ++ [it]).take s.settings.schedule.warmUp = log ++ [it] :=
        List.take_of_length_le (by omega)
      subst started
      exact ⟨hcounts, by rw [if_neg (by omega), hall]; exact hcounts⟩
    next hshort =>
      subst started
      have huncounted := hlog.warmUp
      rw [if_pos (by omega)] at huncounted
      exact ⟨hcounts, by rw [if_pos (by omega)]; exact huncounted⟩
  · -- The iterations of the warm-up lie behind.
    have hlate := IsSampling.late hsound
    cases started
    have hwarmUp := hlog.warmUp
    rw [if_neg (by omega)] at hwarmUp
    refine ⟨hcounts, ?_⟩
    rw [if_neg (by omega), List.take_append_of_le_length (by omega)]
    exact hwarmUp

theorem countsRecord_of_path (valid : s.settings.schedule.Valid) {memory : σ}
    (h : s.Path (s.newChain memory) log c) (started : c.stage.trace? = some trace) :
    s.CountsRecord log trace :=
  h.trace_preserves valid (P := s.CountsRecord)
    (fun _ _ _ _ started => countsRecord_first started)
    (fun hsound running hlength h started hlog =>
      countsRecord_next hsound running hlength h started hlog) started

/-! ## The rates of a chain -/

theorem rates_of_path (valid : s.settings.schedule.Valid)
    (bounded : s.settings.schedule.iterations ≤ Scalar.countLimit) {memory : σ}
    (h : s.Path (s.newChain memory) log c) (hsound : s.Sound c.stage)
    (started : c.stage.trace? = some trace) :
    c.diagnostics.acceptanceRate = acceptedShare log ∧
      c.diagnostics.samplingRate = acceptedShare
        (if c.completed < s.settings.schedule.warmUp then log
          else log.drop s.settings.schedule.warmUp) := by
  have hlog := countsRecord_of_path valid h started
  have hlength := length_eq_of_path h
  have hcompleted := Chain.completed_of_started started
  have hsize := size_le_of_sound valid hsound started
  unfold Chain.diagnostics
  rw [started]
  refine ⟨?_, ?_⟩
  · show trace.walker.counts.rate = _
    rw [hlog.counts, Acceptance.rate_ofRecord (by omega)]
  · show (trace.walker.counts.since trace.warmUp).rate = _
    rw [hlog.counts, hlog.warmUp, hlength]
    split
    · rw [Acceptance.since_nil, Acceptance.rate_ofRecord (by omega)]
    · have hdrop : (log.drop s.settings.schedule.warmUp).length ≤ Scalar.countLimit := by
        rw [List.length_drop]
        omega
      rw [Acceptance.since_ofRecord, Acceptance.rate_ofRecord hdrop]

/-- The acceptance rate of a chain that has started is the share of all its iterations. The
sampling rate is the share of those after the warm-up once the warm-up has ended, and the share of
all of them before. The iterations are those of any path to the chain, with the flags that the steps
returned. -/
theorem rates_after {m : Model α σ} {settings : Settings α}
    (accepted : ofModel m settings = .ok s)
    (bounded : s.settings.schedule.iterations ≤ Scalar.countLimit) (memory : σ)
    (calls : List Call) :
    let c := s.after memory calls
    (∃ log, s.Path (s.newChain memory) log c) ∧
      (∀ moved d, s.step c = .ok (some moved) d → ∃ it, it.accepted = moved ∧ s.Path c [it] d) ∧
      ∀ log trace, s.Path (s.newChain memory) log c → c.stage.trace? = some trace →
        log.length = c.completed ∧ c.diagnostics.acceptanceRate = acceptedShare log ∧
          c.diagnostics.samplingRate = acceptedShare
            (if c.completed < s.settings.schedule.warmUp then log
              else log.drop s.settings.schedule.warmUp) := by
  intro c
  have valid := valid_of_ofModel accepted
  have hsound : s.Sound c.stage := sound_after valid memory calls
  refine ⟨after_path s memory calls, fun moved d h => step_path h, fun log trace path started => ?_⟩
  exact ⟨length_eq_of_path path, rates_of_path valid bounded path hsound started⟩

/-- The chain after one step that returned, with the iteration that it completed. -/
theorem after_step_of_ok {memory : σ} {moved : Bool} {d : Chain α σ}
    (h : s.step (s.newChain memory) = .ok (some moved) d) :
    let c := s.after memory [.step]
    ∃ it trace, it.accepted = moved ∧ s.Path (s.newChain memory) [it] c ∧
      c.stage.trace? = some trace := by
  intro c
  have hafter : c = d := by
    show s.after memory [.step] = d
    rw [after_singleton, call, h, leaves_ok]
  obtain ⟨it, hmoved, path⟩ := step_path h
  rw [← hafter] at path
  -- A chain without a trace has no iteration on record.
  obtain ⟨trace, started⟩ : ∃ trace, c.stage.trace? = some trace := by
    rw [← Option.ne_none_iff_exists']
    intro unstarted
    cases (isRecorded_of_path path).unstarted unstarted
  exact ⟨it, trace, hmoved, path, started⟩

/-- The first step of a chain that warms up does what its iteration does. -/
theorem step_first {memory : σ} {trace : Trace α} {world world' : World α σ} {moved : Bool}
    {walker : Walker α} (valid : s.settings.schedule.Valid) (hhistory : trace.history = #[])
    (hprepare : s.prepare (s.newChain memory) = .ok () ⟨world, .warmingUp trace⟩)
    (hiterate : trace.walker.iterate s.target world = .ok (moved, walker) world') :
    ∃ d, s.step (s.newChain memory) = .ok (some moved) d := by
  have hleft : trace.history.size < s.settings.schedule.iterations := by
    rw [hhistory]
    exact valid.iterations_pos
  rw [step_of_prepared hprepare]
  exact ⟨_, advance_of_ok (c := ⟨world, .warmingUp trace⟩) rfl hleft hiterate⟩

/-- A prepared chain proposes points of the dimension of its target. -/
theorem length_proposal_of_prepare {memory : σ} {trace : Trace α} {world : World α σ}
    (hprepare : s.prepare (s.newChain memory) = .ok () ⟨world, .warmingUp trace⟩) :
    (trace.walker.proposal world.tape).length = s.target.dimension := by
  have path := prepare_path s (s.newChain memory)
  rw [hprepare, leaves_ok] at path
  exact Walker.length_proposal (isFitting_of_path path (fun _ h => by cases h) trace rfl) world.tape

/-- The level target accepts the first step of a chain that warms up. -/
theorem step_level {s : Sampler Exact Nat} {trace : Trace Exact} {world : World Exact Nat}
    (htarget : s.target = (levelSampler none s.settings.schedule).target)
    (valid : s.settings.schedule.Valid) (hhistory : trace.history = #[])
    (hprepare : s.prepare (s.newChain 0) = .ok () ⟨world, .warmingUp trace⟩) :
    ∃ d, s.step (s.newChain 0) = .ok (some true) d := by
  have path := prepare_path s (s.newChain 0)
  rw [hprepare, leaves_ok] at path
  have hcurrent := ((isRecorded_of_path path).started trace rfl).current_stored
  have hproposal := length_proposal_of_prepare hprepare
  rw [htarget] at hcurrent hproposal
  obtain ⟨walker, world', hiterate⟩ := iterate_level hcurrent hproposal
  rw [← htarget] at hiterate
  exact step_first valid hhistory hprepare hiterate

theorem after_step_level {schedule : Schedule} (valid : schedule.Valid)
    (hgrid : schedule.gridSize = 0) (hwarm : schedule.warmUp ≠ 0) :
    let s := levelSampler none schedule
    let c := s.after 0 [.step]
    ∃ it trace, it.accepted = true ∧ s.Path (s.newChain 0) [it] c ∧
      c.stage.trace? = some trace := by
  obtain ⟨trace, world, hhistory, hprepare⟩ := prepare_levelSampler hgrid hwarm
  obtain ⟨d, hstep⟩ := step_level rfl valid hhistory hprepare
  exact after_step_of_ok hstep

theorem acceptedShare_singleton {it : Iteration Exact} (h : it.accepted = true) :
    acceptedShare [it] = 1 := by
  have hcount : [it].countP Iteration.accepted = 1 := by
    rw [List.countP_singleton, if_pos h]
  unfold acceptedShare
  rw [hcount]
  show Exact.real (1 : ℕ) / Exact.real (1 : ℕ) = Exact.real (1 : ℕ)
  rw [Exact.real_div _ (by norm_num), Nat.cast_one, div_one]

/-- After a warm-up of one iteration the rate of the later iterations is zero, for there are
none. -/
theorem rates_after_level :
    let s := levelSampler none shortSchedule
    let c := s.after 0 [.step]
    ofModel (levelModel none) { Settings.standard with schedule := shortSchedule } = .ok s ∧
      shortSchedule.iterations ≤ Scalar.countLimit ∧ (∃ trace, c.stage.trace? = some trace) ∧
      c.diagnostics.acceptanceRate = 1 ∧ c.diagnostics.samplingRate = 0 := by
  intro s c
  have hmodel := ofModel_level none shortSchedule_valid
  have hbounded : shortSchedule.iterations ≤ Scalar.countLimit := by decide
  obtain ⟨it, trace, haccepted, path, started⟩ :=
    after_step_level shortSchedule_valid rfl (by decide)
  obtain ⟨hlength, hrate, hsampling⟩ := (rates_after hmodel hbounded 0 [.step]).2.2 _ _ path started
  refine ⟨hmodel, hbounded, ⟨trace, started⟩, ?_, ?_⟩
  · rw [hrate, acceptedShare_singleton haccepted]
  · rw [hsampling, ← hlength]
    rfl

/-- A schedule with a warm-up of two iterations. -/
def longWarmUp : Schedule where
  iterations := 4
  burnIn := 2
  warmUp := 2

theorem longWarmUp_valid : longWarmUp.Valid := by
  constructor <;> decide

/-- Halfway through the warm-up no iteration lies after it, but the sampling rate is one, which is
the rate of the first. -/
theorem samplingRate_warming :
    let s := levelSampler none longWarmUp
    let c := s.after 0 [.step]
    ofModel (levelModel none) { Settings.standard with schedule := longWarmUp } = .ok s ∧
      longWarmUp.iterations ≤ Scalar.countLimit ∧ (∃ trace, c.stage.trace? = some trace) ∧
      ∃ log, s.Path (s.newChain 0) log c ∧ log.drop longWarmUp.warmUp = [] ∧
        c.diagnostics.samplingRate = 1 ∧
        c.diagnostics.samplingRate ≠ acceptedShare (log.drop longWarmUp.warmUp) := by
  intro s c
  obtain ⟨it, trace, haccepted, path, started⟩ := after_step_level longWarmUp_valid rfl (by decide)
  have hsampling := (rates_of_path longWarmUp_valid (by decide) path
    (sound_after longWarmUp_valid 0 [.step]) started).2
  rw [← length_eq_of_path path] at hsampling
  have hone : c.diagnostics.samplingRate = 1 := hsampling.trans (acceptedShare_singleton haccepted)
  refine ⟨ofModel_level none longWarmUp_valid, by decide, ⟨trace, started⟩, [it], path, rfl,
    hone, ?_⟩
  rw [hone]
  intro heq
  have hreal : ((1 : ℕ) : ℝ) = ((0 : ℕ) : ℝ) := Exact.real.inj heq
  norm_num at hreal

end Sampler

end Metropolis
