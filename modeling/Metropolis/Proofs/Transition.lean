import Metropolis.Chain
import Metropolis.Proofs.Evaluation

/-!
# What a chain can do

A chain changes in six ways: it finds its start or fails to, it completes an iteration or fails
to, its draws are released, or its model is asked for a score. `Transition` says once what each of
them does, and `Path` strings them together with a record of the iterations completed on the way.
Every call on a chain is a path (`call_path`), so an invariant needs a case for each transition
and none for a call.
-/

namespace Metropolis

variable {α σ : Type}

namespace Stage

/-- The trace of a chain that can go on: one that has started and has not ended. -/
def running? : Stage α → Option (Trace α)
  | .warmingUp trace => some trace
  | .sampling trace => some trace
  | _ => none

/-- The stage after an error, which only an error of the model changes. -/
def afterError (stage : Stage α) : Error α → Stage α
  | .model cause => .failed stage.trace? cause
  | _ => stage

theorem running?_cases {stage : Stage α} {trace : Trace α} (h : stage.running? = some trace) :
    stage = .warmingUp trace ∨ stage = .sampling trace := by
  cases stage <;> cases h
  · exact .inl rfl
  · exact .inr rfl

theorem trace?_of_running {stage : Stage α} {trace : Trace α} (h : stage.running? = some trace) :
    stage.trace? = some trace := by
  rcases running?_cases h with rfl | rfl <;> rfl

theorem ne_initializing_of_running {stage : Stage α} {trace : Trace α}
    (h : stage.running? = some trace) : stage ≠ .initializing := by
  rintro rfl
  cases h

theorem running?_of_phase {stage : Stage α}
    (h : stage.phase = .warmingUp ∨ stage.phase = .sampling) :
    ∃ trace, stage.running? = some trace := by
  cases stage with
  | warmingUp trace => exact ⟨trace, rfl⟩
  | sampling trace => exact ⟨trace, rfl⟩
  | _ => rcases h with h | h <;> cases h

theorem trace?_afterError (stage : Stage α) (cause : Error α) :
    (stage.afterError cause).trace? = stage.trace? := by
  cases cause <;> rfl

end Stage

namespace Chain

variable {c : Chain α σ} {trace : Trace α}

theorem history_of_started (started : c.stage.trace? = some trace) : c.history = trace.history := by
  rw [history, started, Option.map_some, Option.getD_some]

theorem completed_of_started (started : c.stage.trace? = some trace) :
    c.completed = trace.history.size := by
  rw [completed, history_of_started started]

theorem completed_of_unstarted (unstarted : c.stage.trace? = none) : c.completed = 0 := by
  rw [completed, history, unstarted]
  rfl

theorem completed_of_running (running : c.stage.running? = some trace) :
    c.completed = trace.history.size :=
  completed_of_started (Stage.trace?_of_running running)

end Chain

/-- The record of an iteration: the random tape and the walker before it, whether the walker
moved, and where it stood afterwards. -/
structure Iteration (α : Type) where
  tape : Tape α
  before : Walker α
  accepted : Bool
  point : Point α

namespace Sampler

variable [Scalar α]

/-- The stage of a chain that has found its start. -/
def firstStage (s : Sampler α σ) (distribution : Start α) (point : Point α) : Stage α :=
  let walk := RandomWalk.ofFactor distribution.factor s.settings.tuning
  if s.settings.schedule.warmUp = 0 then .sampling ⟨point, .ofPoint point walk.freeze, #[], {}⟩
  else .warmingUp ⟨point, .ofPoint point walk, #[], {}⟩

/-- The stage that an iteration leads to, with the trace that it has extended. -/
def nextStage (s : Sampler α σ) (stage : Stage α) (trace : Trace α) : Stage α :=
  match stage with
  | .warmingUp _ => s.afterWarmUp trace
  | _ => .sampling trace

/-- One change of a chain, with the iteration that it completes, if any. -/
inductive Transition (s : Sampler α σ) : Chain α σ → List (Iteration α) → Chain α σ → Prop where
  | start {w w' : World α σ} {stage : Stage α} (h : s.start w = .ok stage w') :
      Transition s ⟨w, .initializing⟩ [] ⟨w', stage⟩
  | refused {w w' : World α σ} {cause : Error α} (h : s.start w = .error cause w') :
      Transition s ⟨w, .initializing⟩ [] ⟨w', Stage.initializing.afterError cause⟩
  | iterate {w w' : World α σ} {stage : Stage α} {trace : Trace α} {accepted : Bool}
      {walker : Walker α} (running : stage.running? = some trace)
      (left : trace.history.size < s.settings.schedule.iterations)
      (h : trace.walker.iterate s.target w = .ok (accepted, walker) w') :
      Transition s ⟨w, stage⟩ [⟨w.tape, trace.walker, accepted, walker.current⟩]
        ⟨w', s.nextStage stage (extend trace walker)⟩
  | broken {w w' : World α σ} {stage : Stage α} {trace : Trace α} {cause : Error α}
      (running : stage.running? = some trace)
      (left : trace.history.size < s.settings.schedule.iterations)
      (h : trace.walker.iterate s.target w = .error cause w') :
      Transition s ⟨w, stage⟩ [] ⟨w', stage.afterError cause⟩
  | release {w : World α σ} {stage : Stage α} {trace : Trace α}
      (started : stage.trace? = some trace) (unreleased : stage.selection? = none)
      (complete : s.settings.schedule.iterations ≤ trace.history.size) :
      Transition s ⟨w, stage⟩ [] ⟨w, .finalized trace (s.select trace.history)⟩
  | score {w : World α σ} {stage : Stage α} (memory : σ) :
      Transition s ⟨w, stage⟩ [] ⟨{ w with memory }, stage⟩

/-- A sequence of transitions, with a record of the iterations that it completes, in order. -/
inductive Path (s : Sampler α σ) (c : Chain α σ) : List (Iteration α) → Chain α σ → Prop where
  | refl : Path s c [] c
  | tail {log more : List (Iteration α)} {d e : Chain α σ} :
      Path s c log d → Transition s d more e → Path s c (log ++ more) e

/-- A call on a chain. The other queries of a chain are functions of it and change nothing. -/
inductive Call where
  | prepare
  | step
  | run
  | release
  | score
deriving Repr, DecidableEq

/-- The chain after a call, whatever the call returns. -/
def call (s : Sampler α σ) (c : Chain α σ) : Call → Chain α σ
  | .prepare => leaves (s.prepare c)
  | .step => leaves (s.step c)
  | .run => leaves (s.run c)
  | .release => leaves (s.release c)
  | .score => leaves (s.pseudoMarginal c)

/-- The chain after a sequence of calls. -/
def callAll (s : Sampler α σ) (c : Chain α σ) (calls : List Call) : Chain α σ :=
  calls.foldl s.call c

/-- The chain after a sequence of calls on a new chain. -/
def after (s : Sampler α σ) (memory : σ) (calls : List Call) : Chain α σ :=
  s.callAll (s.newChain memory) calls

theorem after_singleton (s : Sampler α σ) (memory : σ) (k : Call) :
    s.after memory [k] = s.call (s.newChain memory) k := rfl

theorem callAll_append (s : Sampler α σ) (c : Chain α σ) (calls calls' : List Call) :
    s.callAll c (calls ++ calls') = s.callAll (s.callAll c calls) calls' :=
  List.foldl_append

theorem after_append (s : Sampler α σ) (memory : σ) (calls calls' : List Call) :
    s.after memory (calls ++ calls') = s.callAll (s.after memory calls) calls' :=
  callAll_append s _ calls calls'

theorem ofModel_eq_ok {m : Model α σ} {settings : Settings α} {s : Sampler α σ}
    (h : ofModel m settings = .ok s) :
    s.settings = settings ∧ s.settings.schedule.Valid ∧ Target.ofModel m = .ok s.target := by
  unfold ofModel at h
  cases hcheck : settings.check with
  | error cause => rw [hcheck] at h; cases h
  | ok u =>
    rw [hcheck] at h
    cases htarget : Target.ofModel m with
    | error cause => rw [htarget] at h; cases h
    | ok target =>
      rw [htarget] at h
      cases h
      refine ⟨rfl, ?_, rfl⟩
      rw [← Schedule.check_eq_ok_iff]
      unfold Settings.check at hcheck
      cases hschedule : settings.schedule.check with
      | error cause => rw [hschedule] at hcheck; cases hcheck
      | ok u => rfl

theorem check_of_ofModel {m : Model α σ} {settings : Settings α} {s : Sampler α σ}
    (h : ofModel m settings = .ok s) : settings.check = .ok () := by
  unfold ofModel at h
  cases hcheck : settings.check with
  | error cause => rw [hcheck] at h; cases h
  | ok u => rfl

theorem valid_of_ofModel {m : Model α σ} {settings : Settings α} {s : Sampler α σ}
    (h : ofModel m settings = .ok s) : s.settings.schedule.Valid :=
  (ofModel_eq_ok h).2.1

/-! ## What the parts of a call return -/

section Parts

variable {s : Sampler α σ} {c : Chain α σ} {w w' : World α σ} {stage stage' : Stage α}
  {trace : Trace α} {walker : Walker α} {accepted : Bool} {cause : Error α}

theorem start_eq_ok (h : s.start w = .ok stage w') :
    ∃ distribution point, s.target.model.start s.settings.coefficient = .ok distribution ∧
      distribution.dimension = s.target.dimension ∧
      Search.run s.target distribution s.settings.schedule.gridSize w = .ok point w' ∧
      stage = s.firstStage distribution point := by
  -- The starting distribution, its dimension, the search, and then no more than the first stage.
  obtain ⟨distribution, w₁, hfirst, hrest⟩ := bind_eq_ok h
  obtain ⟨hdistribution, rfl⟩ := ofExcept_eq_ok hfirst
  by_cases hdimension : distribution.dimension = s.target.dimension
  · rw [if_neg (not_not.2 hdimension)] at hrest
    obtain ⟨point, w₂, hpoint, hlast⟩ := bind_eq_ok hrest
    refine ⟨distribution, point, hdistribution, hdimension, ?_⟩
    unfold firstStage
    split at hlast <;> rename_i hwarm <;> cases hlast
    · exact ⟨hpoint, by rw [if_pos hwarm]⟩
    · exact ⟨hpoint, by rw [if_neg hwarm]⟩
  · rw [if_pos hdimension] at hrest
    cases hrest

theorem running?_firstStage (s : Sampler α σ) (distribution : Start α) (point : Point α) :
    ∃ trace, (s.firstStage distribution point).running? = some trace := by
  unfold firstStage
  split <;> exact ⟨_, rfl⟩

/-- The end of an iteration may tune or freeze the proposal. Everything else of the trace stays. -/
theorem running?_nextStage (s : Sampler α σ) (stage : Stage α) (trace : Trace α) :
    ∃ trace', (s.nextStage stage trace).running? = some trace' ∧
      trace'.initial = trace.initial ∧ trace'.history = trace.history ∧
      trace'.walker.current = trace.walker.current ∧
      trace'.walker.counts = trace.walker.counts ∧
      trace'.walker.walk.factor = trace.walker.walk.factor := by
  cases stage with
  | warmingUp _ =>
    -- Retuned in any case, and frozen as well if the warm-up ends here.
    simp only [nextStage, afterWarmUp]
    split
    · exact ⟨_, rfl, rfl, rfl, rfl, rfl, by rw [RandomWalk.factor_freeze, RandomWalk.factor_retune]⟩
    · exact ⟨_, rfl, rfl, rfl, rfl, rfl, RandomWalk.factor_retune _⟩
  | _ => exact ⟨trace, rfl, rfl, rfl, rfl, rfl, rfl⟩

theorem iterate_of_ok (running : stage.running? = some trace)
    (h : trace.walker.iterate s.target w = .ok (accepted, walker) w') :
    s.iterate stage trace w = .ok (accepted, s.nextStage stage (extend trace walker)) w' := by
  unfold iterate
  rw [bind_of_ok _ h]
  rcases Stage.running?_cases running with rfl | rfl <;> rfl

theorem iterate_of_error (h : trace.walker.iterate s.target w = .error cause w') :
    s.iterate stage trace w = .error cause w' :=
  bind_of_error _ h

omit [Scalar α] in
theorem enter_of_ok {β : Type} {x : Engine α σ (β × Stage α)} {value : β}
    (h : x c.world = .ok (value, stage) w') : enter x c = .ok value ⟨w', stage⟩ := by
  simp only [enter, h]

omit [Scalar α] in
theorem enter_of_error {β : Type} {x : Engine α σ (β × Stage α)}
    (h : x c.world = .error cause w') :
    enter x c = .error cause ⟨w', c.stage.afterError cause⟩ := by
  simp only [enter, h]
  -- `enter` tells an error of the model from the others, and so does `afterError`.
  cases cause <;> rfl

theorem prepare_of_start_ok (h : s.start w = .ok stage w') :
    s.prepare ⟨w, .initializing⟩ = .ok () ⟨w', stage⟩ :=
  enter_of_ok (x := do return ((), ← s.start)) (by rw [bind_of_ok _ h]; rfl)

theorem prepare_of_start_error (h : s.start w = .error cause w') :
    s.prepare ⟨w, .initializing⟩ = .error cause ⟨w', Stage.initializing.afterError cause⟩ :=
  enter_of_error (x := do return ((), ← s.start)) (bind_of_error _ h)

theorem prepare_running (running : c.stage.running? = some trace) : s.prepare c = .ok () c := by
  rcases c with ⟨w, stage⟩
  rcases Stage.running?_cases running with h | h <;> cases h <;> rfl

/-- A chain that could be prepared goes on. -/
theorem running_of_prepare {d : Chain α σ} (h : s.prepare c = .ok () d) :
    ∃ trace, d.stage.running? = some trace := by
  rcases c with ⟨w, _ | trace | trace | _ | _⟩
  case initializing =>
    cases hstart : s.start w with
    | ok stage w' =>
      rw [prepare_of_start_ok hstart] at h
      cases h
      obtain ⟨distribution, point, -, -, -, rfl⟩ := start_eq_ok hstart
      exact running?_firstStage s distribution point
    | error cause w' =>
      rw [prepare_of_start_error hstart] at h
      cases h
  case warmingUp => cases h; exact ⟨trace, rfl⟩
  case sampling => cases h; exact ⟨trace, rfl⟩
  -- A chain that has ended is refused.
  case finalized => cases h
  case failed => cases h

theorem advance_done (h : s.settings.schedule.iterations ≤ c.completed) :
    s.advance c = .ok none c := by
  unfold advance
  rw [bind_get, if_pos h]
  rfl

theorem advance_unstarted (unstarted : c.stage.trace? = none)
    (left : 0 < s.settings.schedule.iterations) :
    s.advance c = .error (.incomplete 0 s.settings.schedule.iterations) c := by
  unfold advance
  rw [bind_get, if_neg (by rw [Chain.completed_of_unstarted unstarted]; omega), unstarted]
  rfl

theorem advance_started (started : c.stage.trace? = some trace)
    (left : trace.history.size < s.settings.schedule.iterations) :
    s.advance c = (some <$> enter (s.iterate c.stage trace)) c := by
  unfold advance
  rw [bind_get, if_neg (by rw [Chain.completed_of_started started]; omega), started]

theorem advance_running (running : c.stage.running? = some trace)
    (left : trace.history.size < s.settings.schedule.iterations) :
    s.advance c = (some <$> enter (s.iterate c.stage trace)) c :=
  advance_started (Stage.trace?_of_running running) left

theorem advance_of_ok (running : c.stage.running? = some trace)
    (left : trace.history.size < s.settings.schedule.iterations)
    (h : trace.walker.iterate s.target c.world = .ok (accepted, walker) w') :
    s.advance c = .ok (some accepted) ⟨w', s.nextStage c.stage (extend trace walker)⟩ := by
  rw [advance_running running left, map_eq_pure_bind,
    bind_of_ok _ (enter_of_ok (iterate_of_ok running h))]
  rfl

theorem advance_of_error (running : c.stage.running? = some trace)
    (left : trace.history.size < s.settings.schedule.iterations)
    (h : trace.walker.iterate s.target c.world = .error cause w') :
    s.advance c = .error cause ⟨w', c.stage.afterError cause⟩ := by
  rw [advance_running running left, map_eq_pure_bind,
    bind_of_error _ (enter_of_error (iterate_of_error h))]

/-- All that an iteration of a chain that goes on can do. -/
theorem advance_cases (running : c.stage.running? = some trace) :
    (s.settings.schedule.iterations ≤ trace.history.size ∧ s.advance c = .ok none c) ∨
      trace.history.size < s.settings.schedule.iterations ∧
        ((∃ accepted walker w', trace.walker.iterate s.target c.world = .ok (accepted, walker) w' ∧
            s.advance c = .ok (some accepted) ⟨w', s.nextStage c.stage (extend trace walker)⟩) ∨
          ∃ cause w', trace.walker.iterate s.target c.world = .error cause w' ∧
            s.advance c = .error cause ⟨w', c.stage.afterError cause⟩) := by
  by_cases hdone : s.settings.schedule.iterations ≤ trace.history.size
  · exact .inl ⟨hdone, advance_done (by rw [Chain.completed_of_running running]; exact hdone)⟩
  · have left : trace.history.size < s.settings.schedule.iterations := by omega
    refine .inr ⟨left, ?_⟩
    cases h : trace.walker.iterate s.target c.world with
    | ok result w' => exact .inl ⟨result.1, result.2, w', rfl, advance_of_ok running left h⟩
    | error cause w' => exact .inr ⟨cause, w', rfl, advance_of_error running left h⟩

theorem step_eq (s : Sampler α σ) : s.step = s.prepare >>= fun _ => s.advance := by
  simp only [step, prepare, bind_assoc]

theorem step_of_prepared {d : Chain α σ} (h : s.prepare c = .ok () d) : s.step c = s.advance d := by
  rw [step_eq, bind_of_ok _ h]

theorem step_of_error {d : Chain α σ} (h : s.prepare c = .error cause d) :
    s.step c = .error cause d := by
  rw [step_eq, bind_of_error _ h]

theorem run_eq (s : Sampler α σ) :
    s.run = s.prepare >>= fun _ => get >>= fun c =>
      s.advanceTimes (s.settings.schedule.iterations - c.completed) := by
  simp only [run, prepare, bind_assoc]

theorem run_of_prepared {d : Chain α σ} (h : s.prepare c = .ok () d) :
    s.run c = s.advanceTimes (s.settings.schedule.iterations - d.completed) d := by
  rw [run_eq, bind_of_ok _ h, bind_get]

theorem run_of_error {d : Chain α σ} (h : s.prepare c = .error cause d) :
    s.run c = .error cause d := by
  rw [run_eq, bind_of_error _ h]

omit [Scalar α] in
theorem release_finalized {selection : Draws α} (h : c.stage.selection? = some selection) :
    s.release c = .ok selection c := by
  rcases c with ⟨w, stage⟩
  cases stage <;> cases h
  rfl

omit [Scalar α] in
theorem release_unstarted (unreleased : c.stage.selection? = none)
    (unstarted : c.stage.trace? = none) :
    s.release c = .error (.incomplete 0 s.settings.schedule.iterations) c := by
  rcases c with ⟨w, stage⟩
  cases stage <;> cases unreleased <;> cases unstarted <;> rfl

omit [Scalar α] in
theorem release_started (unreleased : c.stage.selection? = none)
    (started : c.stage.trace? = some trace) :
    s.release c =
      if trace.history.size < s.settings.schedule.iterations then
        .error (.incomplete trace.history.size s.settings.schedule.iterations) c
      else .ok (s.select trace.history) ⟨c.world, .finalized trace (s.select trace.history)⟩ := by
  rcases c with ⟨w, stage⟩
  -- Warming up, sampling, or failed after the start: the same question in all three.
  cases stage <;> cases unreleased <;> cases started <;> unfold release <;> rw [bind_get] <;>
    dsimp only [Stage.trace?] <;> split <;> rfl

omit [Scalar α] in
/-- All that a release can do. -/
theorem release_cases (s : Sampler α σ) (c : Chain α σ) :
    (∃ selection, c.stage.selection? = some selection ∧ s.release c = .ok selection c) ∨
      c.stage.selection? = none ∧
        ((∃ completed, s.release c =
            .error (.incomplete completed s.settings.schedule.iterations) c) ∨
          ∃ trace, c.stage.trace? = some trace ∧
            s.settings.schedule.iterations ≤ trace.history.size ∧
            s.release c = .ok (s.select trace.history)
              ⟨c.world, .finalized trace (s.select trace.history)⟩) := by
  cases unreleased : c.stage.selection? with
  | some selection => exact .inl ⟨selection, rfl, release_finalized unreleased⟩
  | none =>
    refine .inr ⟨rfl, ?_⟩
    cases started : c.stage.trace? with
    | none => exact .inl ⟨0, release_unstarted unreleased started⟩
    | some trace =>
      have h := release_started (s := s) unreleased started
      split at h
      · exact .inl ⟨trace.history.size, h⟩
      next hlong => exact .inr ⟨trace, rfl, Nat.le_of_not_lt hlong, h⟩

end Parts

/-! ## What parts preserve, calls preserve

A step and a run are a start, if there is none yet, and iterations. -/

section Preserved

variable {s : Sampler α σ} {c d : Chain α σ} {trace : Trace α}

/-- What every single iteration preserves is preserved by any number of them. -/
theorem advanceTimes_preserves {P : Chain α σ → Prop}
    (hadvance : ∀ {d : Chain α σ} {trace}, d.stage.running? = some trace → P d →
      P (leaves (s.advance d)))
    (n : Nat) (running : c.stage.running? = some trace) (hc : P c) :
    P (leaves (s.advanceTimes n c)) := by
  induction n generalizing c trace with
  | zero => exact hc
  | succ n ih =>
    have hnext := hadvance running hc
    rcases advance_cases (s := s) running with
      ⟨-, h⟩ | ⟨-, ⟨moved, walker, w', -, h⟩ | ⟨cause, w', -, h⟩⟩
    · -- Nothing is left, and the chain stays as it is.
      rw [advanceTimes, bind_of_ok _ h]
      exact ih running hc
    · obtain ⟨trace', running', -⟩ := running?_nextStage s c.stage (extend trace walker)
      rw [h] at hnext
      rw [advanceTimes, bind_of_ok _ h]
      exact ih (c := ⟨w', s.nextStage c.stage (extend trace walker)⟩) running' hnext
    · rw [h] at hnext
      rw [advanceTimes, bind_of_error _ h]
      exact hnext

theorem bind_prepare_preserves {P : Chain α σ → Prop} {β : Type} {f : ChainM α σ β}
    (hprepare : P (leaves (s.prepare c)))
    (hf : ∀ {d : Chain α σ} {trace}, d.stage.running? = some trace → P d → P (leaves (f d))) :
    P (leaves ((s.prepare >>= fun _ => f) c)) := by
  cases h : s.prepare c with
  | ok u d =>
    obtain ⟨trace, running⟩ := running_of_prepare h
    rw [h] at hprepare
    rw [bind_of_ok _ h]
    exact hf running hprepare
  | error cause d =>
    rw [h] at hprepare
    rw [bind_of_error _ h]
    exact hprepare

theorem step_preserves {P : Chain α σ → Prop} (hprepare : P (leaves (s.prepare c)))
    (hadvance : ∀ {d : Chain α σ} {trace}, d.stage.running? = some trace → P d →
      P (leaves (s.advance d))) :
    P (leaves (s.step c)) := by
  rw [step_eq]
  exact bind_prepare_preserves hprepare hadvance

theorem run_preserves {P : Chain α σ → Prop} (hprepare : P (leaves (s.prepare c)))
    (hadvance : ∀ {d : Chain α σ} {trace}, d.stage.running? = some trace → P d →
      P (leaves (s.advance d))) :
    P (leaves (s.run c)) := by
  rw [run_eq]
  apply bind_prepare_preserves hprepare
  intro d trace running hd
  rw [bind_get]
  exact advanceTimes_preserves hadvance _ running hd

end Preserved

/-! ## Calls are paths -/

section Paths

variable {s : Sampler α σ} {c d e : Chain α σ} {log log' : List (Iteration α)} {trace : Trace α}

theorem Path.single (h : s.Transition c log d) : s.Path c log d :=
  Path.refl.tail h

theorem Path.trans (h : s.Path c log d) (h' : s.Path d log' e) : s.Path c (log ++ log') e := by
  induction h' with
  | refl => rw [List.append_nil]; exact h
  | tail _ last ih => rw [← List.append_assoc]; exact ih.tail last

/-- What every transition preserves holds at the end of every path. -/
theorem Path.preserves {P : List (Iteration α) → Chain α σ → Prop}
    (hstep : ∀ {log more c d}, P log c → s.Transition c more d → P (log ++ more) d)
    (h : s.Path c log d) (hc : P [] c) : P log d := by
  induction h with
  | refl => exact hc
  | tail _ last ih => exact hstep ih last

theorem prepare_path (s : Sampler α σ) (c : Chain α σ) : s.Path c [] (leaves (s.prepare c)) := by
  rcases c with ⟨w, _ | trace | trace | _ | _⟩
  case initializing =>
    cases h : s.start w with
    | ok stage w' =>
      rw [prepare_of_start_ok h]
      exact .single (.start h)
    | error cause w' =>
      rw [prepare_of_start_error h]
      exact .single (.refused h)
  all_goals exact .refl

theorem advance_path (running : c.stage.running? = some trace) :
    ∃ log, s.Path c log (leaves (s.advance c)) := by
  obtain ⟨-, h⟩ | ⟨left, ⟨accepted, walker, w', hiterate, h⟩ | ⟨cause, w', hiterate, h⟩⟩ :=
    advance_cases (s := s) running
  · rw [h]
    exact ⟨[], .refl⟩
  · rw [h]
    exact ⟨_, .single (.iterate running left hiterate)⟩
  · rw [h]
    exact ⟨_, .single (.broken running left hiterate)⟩

/-- A step that returns whether the chain moved completes one iteration, in which it moved or
not. -/
theorem step_path {accepted : Bool} (h : s.step c = .ok (some accepted) d) :
    ∃ it, it.accepted = accepted ∧ s.Path c [it] d := by
  -- Of all that a step can do, only an iteration that succeeds returns a flag.
  cases hprepare : s.prepare c with
  | error cause d' =>
    rw [step_of_error hprepare] at h
    cases h
  | ok u d' =>
    rw [step_of_prepared hprepare] at h
    have first := prepare_path s c
    rw [hprepare] at first
    obtain ⟨trace, running⟩ := running_of_prepare hprepare
    obtain ⟨-, hd⟩ | ⟨left, ⟨moved, walker, w', hiterate, hd⟩ | ⟨cause, w', -, hd⟩⟩ :=
      advance_cases (s := s) running
    · rw [hd] at h
      cases h
    · rw [hd] at h
      cases h
      exact ⟨_, rfl, first.trans (.single (.iterate running left hiterate))⟩
    · rw [hd] at h
      cases h

theorem path_advance (first : ∃ log, s.Path c log d) (running : d.stage.running? = some trace) :
    ∃ log, s.Path c log (leaves (s.advance d)) := by
  obtain ⟨log, first⟩ := first
  obtain ⟨log', last⟩ := advance_path (s := s) running
  exact ⟨log ++ log', first.trans last⟩

theorem advanceTimes_path (n : Nat) (running : c.stage.running? = some trace) :
    ∃ log, s.Path c log (leaves (s.advanceTimes n c)) :=
  advanceTimes_preserves (P := fun d => ∃ log, s.Path c log d)
    (fun running first => path_advance first running) n running ⟨[], .refl⟩

theorem call_path (s : Sampler α σ) (c : Chain α σ) (k : Call) :
    ∃ log, s.Path c log (s.call c k) := by
  cases k with
  | prepare => exact ⟨[], prepare_path s c⟩
  | step =>
    exact step_preserves (P := fun d => ∃ log, s.Path c log d) ⟨[], prepare_path s c⟩
      fun running first => path_advance first running
  | run =>
    exact run_preserves (P := fun d => ∃ log, s.Path c log d) ⟨[], prepare_path s c⟩
      fun running first => path_advance first running
  | release =>
    rcases release_cases s c with
      ⟨selection, -, h⟩ | ⟨unreleased, ⟨completed, h⟩ | ⟨trace, started, complete, h⟩⟩
    · rw [call, h]
      exact ⟨[], .refl⟩
    · rw [call, h]
      exact ⟨[], .refl⟩
    · rw [call, h]
      exact ⟨_, .single (.release started unreleased complete)⟩
  | score =>
    -- A score costs model calls, whether it succeeds or not, and nothing if there are no draws.
    rw [call]
    unfold pseudoMarginal
    split
    · exact ⟨[], .refl⟩
    · split <;> exact ⟨_, .single (.score _)⟩

theorem callAll_path (s : Sampler α σ) (c : Chain α σ) (calls : List Call) :
    ∃ log, s.Path c log (s.callAll c calls) := by
  induction calls generalizing c with
  | nil => exact ⟨[], .refl⟩
  | cons k calls ih =>
    obtain ⟨log, first⟩ := call_path s c k
    obtain ⟨log', last⟩ := ih (s.call c k)
    exact ⟨log ++ log', first.trans last⟩

/-- Every chain that calls can lead to lies on a path from the new chain. -/
theorem after_path (s : Sampler α σ) (memory : σ) (calls : List Call) :
    ∃ log, s.Path (s.newChain memory) log (s.after memory calls) :=
  callAll_path s _ calls

end Paths

end Sampler

end Metropolis
