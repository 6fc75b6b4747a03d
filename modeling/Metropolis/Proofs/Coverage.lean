import Metropolis.Proofs.Registration
import Metropolis.Proofs.Transition

/-!
# Priors that cover a parameter vector

The realizations of a registry depend on standard deviations that the registry has entries for.
With the coverage that is checked for a target, the prior of a vector of the right length can
therefore always be evaluated, and nothing but the model can refuse to evaluate it. A chain
proposes only vectors of that length, so that only its model stops it.
-/

namespace Metropolis

variable {α : Type}

/-- A number of a parameter vector, undefined outside of it. -/
def coordinate [Scalar α] (θ : List α) (i : Nat) : α := θ.getD i Scalar.undefined

/-- The logarithm of the density that an entry gives parameter `i` of a vector. -/
def Entry.logDensity [Scalar α] (θ : List α) (i : Nat) : Entry α → α
  | .fixed prior => prior.logDensity (coordinate θ i)
  | .realization effect spread => effect.logDensity (coordinate θ i) (coordinate θ spread)
  | .hyper prior _ => prior.logDensity (coordinate θ i)

namespace Registry

variable {r : Registry α} {index : Nat}

/-- Whether the standard deviation of every realization has an entry. -/
def IsClosed (r : Registry α) : Prop :=
  ∀ index effect spread, (index, Entry.realization effect spread) ∈ r.entries → spread ∈ r.indices

variable [Scalar α]

theorem Holds.isClosed {log : List (Registration α)} (h : r.Holds log) : r.IsClosed := by
  intro i effect spread hmem
  obtain ⟨prior, hreg⟩ := h.realization ((get?_eq_some_iff h.ordered).2 hmem)
  -- The registration that gave it its role gave the standard deviation one too.
  obtain ⟨stored, hs, -⟩ := h.spread _ _ _ _ hreg
  exact List.mem_map_of_mem (f := Prod.fst) ((get?_eq_some_iff h.ordered).1 hs)

omit [Scalar α] in
theorem lt_of_checkCoverage {dimension : Nat} (h : r.checkCoverage dimension = .ok ()) :
    ∀ i ∈ r.indices, i < dimension := by
  intro i hi
  unfold checkCoverage at h
  split at h
  · cases h
  next hnone =>
    obtain ⟨p, hp, rfl⟩ := List.mem_map.1 hi
    have := List.find?_eq_none.1 hnone p hp
    rw [decide_eq_true_eq] at this
    omega

omit [Scalar α] in
theorem valueAt_eq_ok {θ : List α} (h : index < θ.length) : valueAt θ index = .ok θ[index] := by
  unfold valueAt
  rw [List.getElem?_eq_getElem h]

theorem coordinate_of_lt {θ : List α} (h : index < θ.length) :
    coordinate θ index = θ[index] := by
  rw [coordinate, List.getD_eq_getElem?_getD, List.getElem?_eq_getElem h, Option.getD_some]

/-- The term of an entry whose coordinates a vector has. -/
theorem logTerm_eq_logDensity {θ : List α} {entry : Entry α} (hindex : index < θ.length)
    (hspread : ∀ effect spread, entry = .realization effect spread → spread < θ.length) :
    logTerm θ index entry = .ok (entry.logDensity θ index) := by
  unfold logTerm
  rw [valueAt_eq_ok hindex, ← coordinate_of_lt hindex]
  cases entry with
  | fixed prior => rfl
  | hyper prior governed => rfl
  | realization effect spread =>
    have hlt := hspread effect spread rfl
    show (do return effect.logDensity (coordinate θ index) (← valueAt θ spread)) = Except.ok _
    rw [valueAt_eq_ok hlt, ← coordinate_of_lt hlt]
    rfl

/-- Every term of a closed registry that a vector covers. -/
theorem logTerms_eq_ok {θ : List α} (closed : r.IsClosed)
    (covered : ∀ i ∈ r.indices, i < θ.length) :
    ∀ p ∈ r.entries, logTerm θ p.1 p.2 = .ok (p.2.logDensity θ p.1) := by
  rintro ⟨i, entry⟩ hmem
  apply logTerm_eq_logDensity (covered i (List.mem_map_of_mem (f := Prod.fst) hmem))
  rintro effect spread rfl
  exact covered spread (closed i effect spread hmem)

theorem addTerms_eq_ok {θ : List α} {entries : List (Nat × Entry α)} (total : α)
    (h : ∀ p ∈ entries, ∃ term, logTerm θ p.1 p.2 = .ok term) :
    ∃ x, addTerms θ entries total = .ok x := by
  -- The sum may end early, which is no failure either.
  induction entries generalizing total with
  | nil => exact ⟨total, rfl⟩
  | cons head rest ih =>
    obtain ⟨term, hterm⟩ := h head List.mem_cons_self
    unfold addTerms
    rw [hterm]
    show ∃ x, (if Scalar.isFinite term then addTerms θ rest (total + term)
      else pure (-Scalar.infinity)) = .ok x
    split
    · exact ih _ fun p hp => h p (List.mem_cons_of_mem _ hp)
    · exact ⟨_, rfl⟩

/-- The density of a vector that a closed registry does not reach beyond can be evaluated. -/
theorem logPrior_eq_ok {θ : List α} (closed : r.IsClosed)
    (covered : ∀ i ∈ r.indices, i < θ.length) : ∃ x, r.logPrior θ = .ok x :=
  addTerms_eq_ok 0 fun p hp => ⟨_, logTerms_eq_ok closed covered p hp⟩

end Registry

variable {σ : Type} [Scalar α]

namespace Target

variable {t : Target α σ} {θ : List α}

/-- Whether the prior of every vector of the target's dimension can be evaluated. -/
def IsCovered (t : Target α σ) : Prop :=
  ∀ θ : List α, θ.length = t.dimension → ∃ x, t.logPrior θ = .ok x

theorem logPrior_of_length {θ : List α} (h : θ.length = t.dimension) :
    t.logPrior θ = (t.registry.logPrior θ).mapError .prior := by
  unfold logPrior checkDimension
  rw [if_pos h]
  rfl

theorem isCovered_of_ofRegistry {m : Model α σ} {r : Registry α} (closed : r.IsClosed)
    (h : ofRegistry m r = .ok t) : t.IsCovered := by
  intro θ hlength
  unfold ofRegistry at h
  cases hcoverage : r.checkCoverage m.dimension with
  | error cause => rw [hcoverage] at h; cases h
  | ok u =>
    rw [hcoverage] at h
    cases h
    have hdimension : θ.length = m.dimension := hlength
    obtain ⟨x, hx⟩ := Registry.logPrior_eq_ok closed (θ := θ)
      (by rw [hdimension]; exact Registry.lt_of_checkCoverage hcoverage)
    refine ⟨x, ?_⟩
    rw [logPrior_of_length hlength]
    change (r.logPrior θ).mapError Error.prior = _
    rw [hx]
    rfl

theorem ofModel_eq_ok {m : Model α σ} (h : ofModel m = .ok t) :
    ∃ r, Registry.ofRegistrations m.priors = .ok r ∧ ofRegistry m r = .ok t := by
  unfold ofModel at h
  cases hregistry : Registry.ofRegistrations m.priors with
  | error cause => rw [hregistry] at h; cases h
  | ok r =>
    rw [hregistry] at h
    exact ⟨r, rfl, h⟩

omit [Scalar α] in
theorem ofRegistry_eq_ok {m : Model α σ} {r : Registry α} (h : ofRegistry m r = .ok t) :
    t = ⟨m, r⟩ ∧ r.checkCoverage m.dimension = .ok () := by
  unfold ofRegistry at h
  cases hcoverage : r.checkCoverage m.dimension with
  | error cause => rw [hcoverage] at h; cases h
  | ok u =>
    rw [hcoverage] at h
    exact ⟨(Except.ok.inj h).symm, rfl⟩

/-- The target of a model has the registry of the model's priors, and that covers its parameters. -/
theorem holds_of_ofModel {m : Model α σ} (h : ofModel m = .ok t) :
    t.model = m ∧ t.registry.Holds m.priors ∧ t.registry.checkCoverage m.dimension = .ok () := by
  obtain ⟨r, hregistry, htarget⟩ := ofModel_eq_ok h
  obtain ⟨rfl, hcoverage⟩ := ofRegistry_eq_ok htarget
  exact ⟨rfl, Registry.holds_ofRegistrations hregistry, hcoverage⟩

theorem isCovered_of_ofModel {m : Model α σ} (h : ofModel m = .ok t) : t.IsCovered := by
  obtain ⟨r, hregistry, htarget⟩ := ofModel_eq_ok h
  exact isCovered_of_ofRegistry (Registry.holds_ofRegistrations hregistry).isClosed htarget

theorem addSubjects_error {subjects : List Nat} {total : α} {memory memory' : σ}
    {cause : Error α}
    (h : EStateM.adaptExcept Error.model (addSubjects t.model θ subjects total) memory =
      .error cause memory') : ∃ reason, cause = .model reason := by
  unfold EStateM.adaptExcept at h
  split at h <;> cases h
  exact ⟨_, rfl⟩

/-- A covered vector of the right length is refused only by the model. -/
theorem evaluate_error (covered : t.IsCovered) (hlength : θ.length = t.dimension)
    {memory memory' : σ} {cause : Error α} (h : t.evaluate θ memory = .error cause memory') :
    ∃ reason, cause = .model reason := by
  obtain ⟨x, hprior⟩ := covered θ hlength
  -- Neither the prior nor the second check of the length can fail, which leaves the subjects.
  rcases bind_eq_error h with h | ⟨logPrior, middle, -, h⟩
  · obtain ⟨h, -⟩ := ofExcept_eq_error h
    rw [hprior] at h
    cases h
  · split at h
    · cases h
    · rcases bind_eq_error h with h | ⟨_, _, -, h⟩
      · rcases bind_eq_error h with h | ⟨_, _, -, h⟩
        · obtain ⟨h, -⟩ := ofExcept_eq_error h
          unfold checkDimension at h
          rw [if_pos hlength] at h
          cases h
        · exact addSubjects_error h
      · cases h

end Target

namespace Walker

/-- A walker stands at a point of a dimension and proposes such points. -/
structure Fits (w : Walker α) (dimension : Nat) : Prop where
  length_current : w.current.parameters.length = dimension
  rows_factor : w.walk.factor.rows = dimension

variable {t : Target α σ} {w w' : Walker α} {world world' : World α σ}

theorem length_proposal {dimension : Nat} (h : w.Fits dimension) (tape : Tape α) :
    (w.proposal tape).length = dimension := by
  -- The noise does not matter: the factor has as many rows as the point has components.
  show (List.zipWith _ (w.walk.factor.lowerTimes _) w.current.parameters).length = dimension
  rw [List.length_zipWith, DenseMatrix.lowerTimes, List.length_map, List.length_range,
    h.rows_factor, h.length_current, Nat.min_self]

theorem fits_of_iterate {accepted : Bool} (hw : w.Fits t.dimension)
    (h : w.iterate t world = .ok (accepted, w') world') : w'.Fits t.dimension := by
  obtain ⟨candidate, heval, -, rfl⟩ := iterate_eq_ok h
  refine ⟨?_, ?_⟩
  · cases accepted with
    | false => exact hw.length_current
    | true =>
      obtain ⟨hparameters, hlength⟩ := Target.evaluate_eq_ok heval
      show candidate.parameters.length = _
      rw [hparameters, hlength]
  · show (w.walk.record accepted).factor.rows = _
    rw [RandomWalk.factor_record, hw.rows_factor]

theorem iterate_error (covered : t.IsCovered) (hw : w.Fits t.dimension) {cause : Error α}
    (h : w.iterate t world = .error cause world') : ∃ reason, cause = .model reason :=
  Target.evaluate_error covered (length_proposal hw _) (iterate_eq_error h)

end Walker

namespace Sampler

variable {s : Sampler α σ} {c d : Chain α σ} {log : List (Iteration α)}

/-- Whether the walker of a chain, if the chain has started, fits the target. -/
def IsFitting (s : Sampler α σ) (stage : Stage α) : Prop :=
  ∀ trace, stage.trace? = some trace → trace.walker.Fits s.target.dimension

omit [Scalar α] in
theorem isFitting_afterError {stage : Stage α} (cause : Error α) (h : s.IsFitting stage) :
    s.IsFitting (stage.afterError cause) := by
  intro trace started
  rw [Stage.trace?_afterError] at started
  exact h trace started

theorem isFitting_firstStage {distribution : Start α} {point : Point α}
    (hdimension : distribution.dimension = s.target.dimension) (hpoint : s.target.Stored point) :
    s.IsFitting (s.firstStage distribution point) := by
  have hrows : distribution.factor.rows = s.target.dimension := by
    rw [distribution.rows_factor, ← hdimension]
    rfl
  unfold firstStage
  dsimp only
  split
  · intro trace h
    cases h
    exact ⟨hpoint.length_parameters, hrows⟩
  · intro trace h
    cases h
    exact ⟨hpoint.length_parameters, hrows⟩

theorem isFitting_transition (hc : s.IsFitting c.stage) (h : s.Transition c log d) :
    s.IsFitting d.stage := by
  cases h with
  | start h =>
    obtain ⟨distribution, point, -, hdimension, hpoint, rfl⟩ := start_eq_ok h
    exact isFitting_firstStage hdimension (Search.run_stored hpoint)
  | refused h => exact isFitting_afterError _ hc
  | @iterate w w' stage trace accepted walker running left h =>
    obtain ⟨trace', running', -, -, hcurrent, -, hfactor⟩ :=
      running?_nextStage s stage (extend trace walker)
    have hwalker := Walker.fits_of_iterate (hc trace (Stage.trace?_of_running running)) h
    intro trace'' started
    cases (Stage.trace?_of_running running').symm.trans started
    exact ⟨by rw [hcurrent]; exact hwalker.length_current,
      by rw [hfactor]; exact hwalker.rows_factor⟩
  | broken running left h => exact isFitting_afterError _ hc
  | release started unreleased complete =>
    intro trace h
    cases h
    exact hc _ started
  | score memory => exact hc

theorem isFitting_of_path (h : s.Path c log d) (hc : s.IsFitting c.stage) :
    s.IsFitting d.stage :=
  h.preserves (P := fun _ d => s.IsFitting d.stage) (fun hc h => isFitting_transition hc h) hc

theorem isFitting_after (s : Sampler α σ) (memory : σ) (calls : List Call) :
    s.IsFitting (s.after memory calls).stage := by
  obtain ⟨log, path⟩ := after_path s memory calls
  exact isFitting_of_path path fun _ h => by cases h

theorem isCovered_of_ofModel {m : Model α σ} {settings : Settings α}
    (h : ofModel m settings = .ok s) : s.target.IsCovered :=
  Target.isCovered_of_ofModel (ofModel_eq_ok h).2.2

end Sampler

end Metropolis
