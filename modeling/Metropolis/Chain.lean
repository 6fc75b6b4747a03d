import Metropolis.Search
import Metropolis.Walker
import Metropolis.Draws.Report
import Metropolis.Draws.Summary
import Metropolis.PseudoMarginal

/-!
Chains.

A chain is initializing until its start is found, warms up while its proposal is tuned, then
samples with a frozen proposal, and is finalized when its retained draws are released. A model that
cannot be evaluated stops it for good. Every iteration's point is kept in the history; a rejected
proposal repeats the point before it.
-/

namespace Metropolis

/-- What a chain's run consists of: a target and the settings, checked. -/
structure Sampler (α σ : Type) where
  target : Target α σ
  settings : Settings α

structure Trace (α : Type) where
  initial : Point α
  walker : Walker α
  history : Array (Point α)
  /-- The proposals of the warm-up, none before its end. -/
  warmUp : Acceptance

/-- How far a chain has come. -/
inductive Stage (α : Type) where
  | initializing
  | warmingUp (trace : Trace α)
  | sampling (trace : Trace α)
  | finalized (trace : Trace α) (selection : Draws α)
  /-- Stopped by the model, before or after it had started. -/
  | failed (trace : Option (Trace α)) (cause : ModelError)

inductive Phase where
  | initializing
  | warmingUp
  | sampling
  | finalized
  | failed
deriving Repr, DecidableEq

namespace Stage

variable {α : Type}

def phase : Stage α → Phase
  | .initializing => .initializing
  | .warmingUp _ => .warmingUp
  | .sampling _ => .sampling
  | .finalized _ _ => .finalized
  | .failed _ _ => .failed

def trace? : Stage α → Option (Trace α)
  | .initializing => none
  | .warmingUp trace => some trace
  | .sampling trace => some trace
  | .finalized trace _ => some trace
  | .failed trace _ => trace

def selection? : Stage α → Option (Draws α)
  | .finalized _ selection => some selection
  | _ => none

def failure? : Stage α → Option ModelError
  | .failed _ cause => some cause
  | _ => none

end Stage

structure Chain (α σ : Type) where
  world : World α σ
  stage : Stage α

namespace Chain

variable {α σ : Type}

def phase (c : Chain α σ) : Phase := c.stage.phase

def initial? (c : Chain α σ) : Option (Point α) := c.stage.trace?.map Trace.initial

def current? (c : Chain α σ) : Option (Point α) := c.stage.trace?.map fun t => t.walker.current

/-- The point of every iteration, in order. -/
def history (c : Chain α σ) : Array (Point α) := (c.stage.trace?.map Trace.history).getD #[]

def completed (c : Chain α σ) : Nat := c.history.size

end Chain

/-- A computation on a chain. What it changed stays changed also when it fails. -/
abbrev ChainM (α σ : Type) := EStateM (Error α) (Chain α σ)

namespace Sampler

variable {α σ β : Type}

/-- One in `n` of the elements of a list, from the first on. -/
def everyNth (n : Nat) (xs : List β) : List β :=
  (List.range ((xs.length + n - 1) / n)).filterMap fun k => xs[k * n]?

/-- The draws that are kept of a complete history. -/
def select (s : Sampler α σ) (history : Array (Point α)) : Draws α where
  names := s.target.model.parameterNames
  points := everyNth s.settings.schedule.thin (history.toList.drop s.settings.schedule.burnIn)

variable [Scalar α]

/-- The sampler of a model, with the model's own priors. -/
def ofModel (m : Model α σ) (settings : Settings α) : Except (Error α) (Sampler α σ) := do
  settings.check
  let target ← (Target.ofModel m).mapError .prior
  return ⟨target, settings⟩

def newChain (s : Sampler α σ) (memory : σ) : Chain α σ where
  world := ⟨memory, Tape.ofSeed s.settings.schedule.seed⟩
  stage := .initializing

/-- Finds the start. A schedule without a warm-up freezes the proposal at once. -/
def start (s : Sampler α σ) : Engine α σ (Stage α) := do
  let distribution ← MonadExcept.ofExcept (s.target.model.start s.settings.coefficient)
  if distribution.dimension ≠ s.target.dimension then
    throw (.dimension s.target.dimension distribution.dimension)
  let point ← Search.run s.target distribution s.settings.schedule.gridSize
  let walk := RandomWalk.ofFactor distribution.factor s.settings.tuning
  if s.settings.schedule.warmUp = 0 then
    return .sampling ⟨point, .ofPoint point walk.freeze, #[], {}⟩
  else return .warmingUp ⟨point, .ofPoint point walk, #[], {}⟩

omit [Scalar α] in
def extend (trace : Trace α) (walker : Walker α) : Trace α :=
  { trace with walker, history := trace.history.push walker.current }

/-- The stage after one more iteration of the warm-up, which ends when it is long enough. -/
def afterWarmUp (s : Sampler α σ) (trace : Trace α) : Stage α :=
  let walker := { trace.walker with walk := trace.walker.walk.retune }
  if s.settings.schedule.warmUp ≤ trace.history.size then
    .sampling { trace with
      walker := { walker with walk := walker.walk.freeze }
      warmUp := walker.counts }
  else .warmingUp { trace with walker }

/-- One iteration: whether the chain moved, and the stage that it is in afterwards. -/
def iterate (s : Sampler α σ) (stage : Stage α) (trace : Trace α) :
    Engine α σ (Bool × Stage α) := do
  let (accepted, walker) ← trace.walker.iterate s.target
  let trace := extend trace walker
  match stage with
  | .warmingUp _ => return (accepted, s.afterWarmUp trace)
  | _ => return (accepted, .sampling trace)

omit [Scalar α] in
/-- Runs a computation that leads to a new stage. An error of the model stops the chain; after
any other the chain is where it was, less the random numbers and model calls used up. -/
def enter (x : Engine α σ (β × Stage α)) : ChainM α σ β := fun c =>
  match x c.world with
  | .ok (value, stage) world => .ok value ⟨world, stage⟩
  | .error (.model cause) world =>
    .error (.model cause) ⟨world, .failed c.stage.trace? cause⟩
  | .error cause world => .error cause ⟨world, c.stage⟩

omit [Scalar α] in
/-- Refuses to go on with a chain that was stopped or whose draws were released. -/
def checkRunnable : ChainM α σ Unit := do
  match (← get).stage with
  | .failed _ cause => throw (.model cause)
  | .finalized _ _ => throw .alreadyReleased
  | _ => return ()

def ensureStarted (s : Sampler α σ) : ChainM α σ Unit := do
  match (← get).stage with
  | .initializing => enter do return ((), ← s.start)
  | _ => return ()

/-- Finds the start of the chain. Nothing is done once it has started. -/
def prepare (s : Sampler α σ) : ChainM α σ Unit := do
  checkRunnable
  s.ensureStarted

/-- One iteration of a started chain: whether it moved, or nothing if all are done. -/
def advance (s : Sampler α σ) : ChainM α σ (Option Bool) := do
  let c ← get
  if s.settings.schedule.iterations ≤ c.completed then return none
  else
    match c.stage.trace? with
    | none => throw (.incomplete 0 s.settings.schedule.iterations)
    | some trace => some <$> enter (s.iterate c.stage trace)

/-- One iteration, after finding the start if need be. -/
def step (s : Sampler α σ) : ChainM α σ (Option Bool) := do
  checkRunnable
  s.ensureStarted
  s.advance

/-- Up to `n` iterations of a started chain. -/
def advanceTimes (s : Sampler α σ) : Nat → ChainM α σ Unit
  | 0 => return ()
  | n + 1 => do
    let _ ← s.advance
    advanceTimes s n

/-- All the iterations that remain. -/
def run (s : Sampler α σ) : ChainM α σ Unit := do
  checkRunnable
  s.ensureStarted
  let c ← get
  s.advanceTimes (s.settings.schedule.iterations - c.completed)

omit [Scalar α] in
/-- Releases the retained draws of a chain that has done all its iterations. Released draws stay
as they are. -/
def release (s : Sampler α σ) : ChainM α σ (Draws α) := do
  let c ← get
  match c.stage with
  | .finalized _ selection => return selection
  | stage =>
    let required := s.settings.schedule.iterations
    match stage.trace? with
    | none => throw (.incomplete 0 required)
    | some trace =>
      if trace.history.size < required then throw (.incomplete trace.history.size required)
      else
        let selection := s.select trace.history
        set { c with stage := .finalized trace selection }
        return selection

end Sampler

structure Diagnostics (α : Type) where
  completed : Nat
  retained : Nat
  acceptanceRate : α
  /-- Acceptance after the warm-up. -/
  samplingRate : α
  scale : α
  initialLogPosterior : α

structure ChainReport (α : Type) where
  diagnostics : Diagnostics α
  summary : Option (Summary α)

namespace Chain

variable {α σ : Type} [Scalar α]

omit [Scalar α] in
def draws (c : Chain α σ) : Except (Error α) (Draws α) :=
  match c.stage.selection? with
  | some selection => .ok selection
  | none => .error .notReleased

/-- All zeros for a chain that has not started. -/
def diagnostics (c : Chain α σ) : Diagnostics α :=
  match c.stage.trace? with
  | none => ⟨0, 0, 0, 0, 0, 0⟩
  | some trace =>
    { completed := trace.history.size
      retained := (c.stage.selection?.map Draws.size).getD 0
      acceptanceRate := trace.walker.counts.rate
      samplingRate := (trace.walker.counts.since trace.warmUp).rate
      scale := trace.walker.walk.scale
      initialLogPosterior := trace.initial.logPosterior }

omit [Scalar α] in
/-- The report of the released draws, with a text for numbers. -/
def text (number : α → String) (c : Chain α σ) : Except (Error α) String :=
  c.draws.map (Draws.report number)

def summary (c : Chain α σ) : Except (Error α) (Summary α) := c.draws.map Draws.summary

def report (c : Chain α σ) : Except (Error α) (ChainReport α) := do
  let summary ← c.summary
  return ⟨c.diagnostics, if summary.draws = 0 then none else some summary⟩

end Chain

/-- The pseudo-marginal likelihood of the model from the released draws. -/
def Sampler.pseudoMarginal {α σ : Type} [Scalar α] (s : Sampler α σ) :
    ChainM α σ (PseudoMarginal α) := fun c =>
  match c.draws with
  | .error cause => .error cause c
  | .ok draws =>
    match PseudoMarginal.ofDraws s.target.model draws c.world.memory with
    | .ok value memory => .ok value { c with world := { c.world with memory } }
    | .error cause memory => .error cause { c with world := { c.world with memory } }

end Metropolis
