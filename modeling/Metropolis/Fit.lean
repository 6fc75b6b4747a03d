import Metropolis.Chain
import Metropolis.Convergence

/-!
Fits: a model estimated by one chain, or by an ensemble of independent ones.
-/

namespace Metropolis

/-- The outcome of one chain. -/
structure Fit (α : Type) where
  info : ModelInfo
  report : ChainReport α
  draws : Draws α

/-- The outcome of an ensemble, chain by chain and pooled. -/
structure EnsembleFit (α : Type) where
  info : ModelInfo
  reports : List (ChainReport α)
  draws : List (Draws α)
  pooled : Option (Summary α)
  convergence : Convergence α

variable {α σ : Type} [Scalar α]

namespace Sampler

/-- Runs a chain to its end and releases its draws. -/
def complete (s : Sampler α σ) : ChainM α σ (Draws α × ChainReport α) := do
  s.run
  let draws ← s.release
  let report ← MonadExcept.ofExcept (← get).report
  return (draws, report)

/-- The fit by one new chain. -/
def fit (s : Sampler α σ) : EStateM (Error α) σ (Fit α) := fun memory =>
  match s.complete (s.newChain memory) with
  | .ok (draws, report) c => .ok ⟨s.target.model.info, report, draws⟩ c.world.memory
  | .error cause c => .error cause c.world.memory

end Sampler

/-- Fits a model by one chain. -/
def Model.fit (m : Model α σ) (settings : Settings α) : EStateM (Error α) σ (Fit α) := do
  let sampler ← MonadExcept.ofExcept (Sampler.ofModel m settings)
  sampler.fit

namespace Ensemble

/-- The settings of one of the chains. -/
def settingsOf (e : Ensemble) (settings : Settings α) (chain : Nat) : Settings α :=
  { settings with
    schedule := { settings.schedule with seed := e.seed settings.schedule.seed chain } }

/-- Runs every chain, also after one has failed. -/
def runChains (e : Ensemble) (m : Model α σ) (settings : Settings α) :
    List Nat → StateM σ (List (Except (Error α) (Fit α)))
  | [] => return []
  | chain :: rest => do
    let outcome ← fun memory =>
      match m.fit (e.settingsOf settings chain) memory with
      | .ok fit memory => (.ok fit, memory)
      | .error cause memory => (.error cause, memory)
    let outcomes ← e.runChains m settings rest
    return outcome :: outcomes

/-- Compares and pools the fits of the chains. -/
def combine (info : ModelInfo) (fits : List (Fit α)) : Except (Error α) (EnsembleFit α) := do
  let draws := fits.map Fit.draws
  let pooled := Draws.pool draws
  let convergence ← (Convergence.ofChains draws).mapError .ensemble
  return {
    info := info
    reports := fits.map Fit.report
    draws := draws
    pooled := if pooled.isEmpty then none else some pooled.summary
    convergence := convergence }

/-- Fits a model by all the chains. If some fail, the error is that of the first of them. -/
def fit (e : Ensemble) (m : Model α σ) (settings : Settings α) :
    EStateM (Error α) σ (EnsembleFit α) := do
  MonadExcept.ofExcept settings.check
  MonadExcept.ofExcept (e.check.mapError .ensemble)
  let sampler ← MonadExcept.ofExcept (Sampler.ofModel m settings)
  let outcomes ← fun memory =>
    match e.runChains m settings (List.range e.chains) memory with
    | (outcomes, memory) => .ok outcomes memory
  let fits ← MonadExcept.ofExcept (outcomes.mapM id)
  MonadExcept.ofExcept (combine sampler.target.model.info fits)

end Ensemble

end Metropolis
