import Metropolis.Proofs.Adaptation
import Metropolis.Proofs.Ensemble
import Metropolis.Proofs.Feasibility
import Metropolis.Proofs.Invariance
import Metropolis.Proofs.Spread

/-!
# Points of real numbers

Over the exact numbers a chain reads real numbers from its tape, starts from a distribution that was
accepted, and proposes by a scale between its bounds. So the coordinates of all points that it
stores are real numbers, whatever the model answers.
-/

namespace Metropolis

variable {σ β γ : Type}

/-! ## The tape of a seed -/

namespace Tape

/-- The number of a word is its highest 53 bits, in units of the last one. -/
theorem unitOfWord_real (word : UInt64) : (word >>> 11).toNat < 2 ^ 53 ∧
    (unitOfWord word : Exact) = .real ((word >>> 11).toNat / (2 ^ 53 : ℕ)) := by
  have hlimit : ((2 ^ 53 : ℕ) : ℝ) ≠ 0 := Nat.cast_ne_zero.2 (by decide)
  refine ⟨?_, Exact.real_div _ hlimit⟩
  rw [UInt64.toNat_shiftRight, Nat.shiftRight_eq_div_pow]
  exact Nat.div_lt_of_lt_mul word.toNat_lt

theorem isUnit_ofSeed (seed : UInt64) : (ofSeed seed : Tape Exact).IsUnit := by
  intro i
  obtain ⟨hlt, hunit⟩ := unitOfWord_real (ChaCha.word (ChaCha.keyOfSeed seed) i)
  have hlimit : (0 : ℝ) < (2 ^ 53 : ℕ) := by positivity
  refine ⟨_, by positivity, ?_, hunit⟩
  rw [div_lt_one hlimit]
  exact Nat.cast_lt.2 hlt

theorem isUnit_standardNormals {tape : Tape Exact} (h : tape.IsUnit) (n : ℕ) :
    (standardNormals n tape).2.IsUnit := by
  induction n generalizing tape with
  | zero => exact h
  | succ n ih => exact ih (standardNormal_real h).2

end Tape

/-! ## Computations on a tape of real numbers -/

namespace Engine

/-- Whether a computation that reads real numbers leaves real numbers to read, and any value that it
gives is as it should be. -/
def Ensures (x : Engine Exact σ β) (P : β → Prop) : Prop :=
  ∀ w : World Exact σ, w.tape.IsUnit →
    (leaves (x w)).tape.IsUnit ∧ ∀ value w', x w = .ok value w' → P value

namespace Ensures

variable {x : Engine Exact σ β} {P : β → Prop} {Q : γ → Prop} {w w' : World Exact σ}

theorem of_ok {value : β} (hx : Ensures x P) (hw : w.tape.IsUnit) (h : x w = .ok value w') :
    w'.tape.IsUnit ∧ P value := by
  obtain ⟨htape, hvalue⟩ := hx w hw
  rw [h] at htape
  exact ⟨htape, hvalue value w' h⟩

theorem of_error {cause : Error Exact} (hx : Ensures x P) (hw : w.tape.IsUnit)
    (h : x w = .error cause w') : w'.tape.IsUnit := by
  have htape := (hx w hw).1
  rwa [h] at htape

theorem pure {value : β} (h : P value) : Ensures (pure value : Engine Exact σ β) P := by
  intro w hw
  refine ⟨hw, fun value' w' heq => ?_⟩
  cases heq
  exact h

theorem throw (cause : Error Exact) : Ensures (throw cause : Engine Exact σ β) P :=
  fun _ hw => ⟨hw, fun _ _ heq => by cases heq⟩

theorem bind {f : β → Engine Exact σ γ} (hx : Ensures x P)
    (hf : ∀ value, P value → Ensures (f value) Q) : Ensures (x >>= f) Q := by
  intro w hw
  cases hfirst : x w with
  | ok value middle =>
    obtain ⟨hmiddle, hvalue⟩ := hx.of_ok hw hfirst
    rw [bind_of_ok f hfirst]
    exact hf value hvalue middle hmiddle
  | error cause middle =>
    rw [bind_of_error f hfirst]
    exact ⟨hx.of_error hw hfirst, fun _ _ heq => by cases heq⟩

theorem ofExcept {y : Except (Error Exact) β} (h : ∀ value, y = .ok value → P value) :
    Ensures (MonadExcept.ofExcept y : Engine Exact σ β) P := by
  cases y with
  | ok value => exact pure (h value rfl)
  | error cause => exact throw cause

theorem ofModel {y : EStateM (Error Exact) σ β}
    (h : ∀ memory value memory', y memory = .ok value memory' → P value) :
    Ensures (ofModel y) P := by
  intro w hw
  unfold Engine.ofModel
  cases hy : y w.memory with
  | ok value memory =>
    refine ⟨hw, fun value' w' heq => ?_⟩
    cases heq
    exact h _ _ _ hy
  | error cause memory => exact ⟨hw, fun _ _ heq => by cases heq⟩

theorem ofSampling {y : Sampling Exact β}
    (h : ∀ tape : Tape Exact, tape.IsUnit → (y tape).2.IsUnit ∧ P (y tape).1) :
    Ensures (ofSampling y : Engine Exact σ β) P := by
  intro w hw
  obtain ⟨htape, hvalue⟩ := h w.tape hw
  refine ⟨htape, fun value w' heq => ?_⟩
  cases heq
  exact hvalue

end Ensures

end Engine

open Engine (Ensures)

/-! ## Where a chain starts -/

/-- Whether a point has `n` coordinates, all of them real numbers. -/
def Point.IsReal (n : ℕ) (p : Point Exact) : Prop :=
  ∃ xs : List ℝ, xs.length = n ∧ p.parameters = xs.map Exact.real

/-- Whether the starting distributions of a model are made by `Start.ofCovariance`, which accepts a
finite mean and covariance only. -/
def Model.StartsAccepted (m : Model Exact σ) : Prop :=
  ∀ coefficient distribution, m.start coefficient = .ok distribution →
    ∃ mean covariance, Start.ofCovariance mean covariance = .ok distribution

theorem Gaussian.startsAccepted_model (g : Gaussian Exact) :
    (g.model : Model Exact σ).StartsAccepted :=
  fun _ _ h => ⟨_, Start.ofCovariance_of_ofCoefficient h⟩

theorem Counts.startsAccepted_model (c : Counts Exact) :
    (c.model : Model Exact σ).StartsAccepted :=
  fun _ _ h => ⟨_, Start.ofCovariance_of_ofCoefficient h⟩

/-- Evaluation keeps the coordinates. -/
theorem Target.ensures_evaluate (t : Target Exact σ) {xs : List ℝ} :
    Ensures (Engine.ofModel (t.evaluate (xs.map Exact.real))) (Point.IsReal t.dimension) := by
  refine .ofModel fun memory p memory' h => ?_
  obtain ⟨hparameters, hlength⟩ := evaluate_eq_ok h
  exact ⟨xs, by rw [← hlength, List.length_map], hparameters⟩

namespace Start

variable {s : Start Exact}

theorem mean_real {mean : List Exact} {covariance : DenseMatrix Exact}
    (h : ofCovariance mean covariance = .ok s) : ∃ xs : List ℝ, s.mean = xs.map Exact.real := by
  obtain ⟨hadmissible, rfl, -⟩ := ofCovariance_eq_ok h
  exact ⟨_, (Exact.map_real_toReal hadmissible.finite_mean).symm⟩

theorem isFinite_factor {mean : List Exact} {covariance : DenseMatrix Exact}
    (h : ofCovariance mean covariance = .ok s) : s.factor.isFinite = true := by
  obtain ⟨a, -, hsamples⟩ := samples_of_ofCovariance h
  exact hsamples.factor.finite

theorem ensures_sample {mean : List Exact} {covariance : DenseMatrix Exact}
    (h : ofCovariance mean covariance = .ok s) :
    Ensures (Engine.ofSampling s.sample : Engine Exact σ (List Exact))
      fun θ => ∃ xs : List ℝ, θ = xs.map Exact.real := by
  obtain ⟨a, -, hsamples⟩ := samples_of_ofCovariance h
  refine .ofSampling fun tape htape => ⟨Tape.isUnit_standardNormals htape _, ?_⟩
  obtain ⟨z, -, hdrawn⟩ := hsamples.drawn tape htape
  exact ⟨_, hdrawn⟩

end Start

namespace Search

variable {t : Target Exact σ} {s : Start Exact} {mean : List Exact}
  {covariance : DenseMatrix Exact} {n : ℕ}

theorem isReal_better {best candidate : Point Exact} (hbest : best.IsReal n)
    (hcandidate : candidate.IsReal n) : (better best candidate).IsReal n := by
  unfold better
  split
  · exact hcandidate
  · exact hbest

theorem ensures_improve (h : Start.ofCovariance mean covariance = .ok s) (gridSize : ℕ)
    {best : Point Exact} (hbest : best.IsReal t.dimension) :
    Ensures (improve t s gridSize best) (Point.IsReal t.dimension) := by
  induction gridSize generalizing best with
  | zero => exact .pure hbest
  | succ gridSize ih =>
    refine .bind (Start.ensures_sample h) fun θ hθ => ?_
    obtain ⟨xs, rfl⟩ := hθ
    exact .bind t.ensures_evaluate fun candidate hcandidate =>
      ih (isReal_better hbest hcandidate)

theorem ensures_run (h : Start.ofCovariance mean covariance = .ok s) (gridSize : ℕ) :
    Ensures (run t s gridSize) (Point.IsReal t.dimension) := by
  obtain ⟨xs, hmean⟩ := Start.mean_real h
  unfold run
  rw [hmean]
  refine .bind t.ensures_evaluate fun centre hcentre => ?_
  refine .bind (ensures_improve h gridSize hcentre) fun best hbest => ?_
  split
  · exact .pure hbest
  · exact .throw _

end Search

/-! ## How it goes on -/

/-- A positive number that is at most a finite one is finite. -/
theorem Exact.isFinite_of_le {low x high : Exact} (hlow : 0 < low) (hx : low ≤ x ∧ x ≤ high)
    (hhigh : Scalar.isFinite high = true) : Scalar.isFinite x = true := by
  cases x with
  | real x => rfl
  | posInf =>
    cases high with
    | real high => exact absurd hx.2 id
    | _ => cases hhigh
  | negInf =>
    cases low with
    | negInf => exact absurd hlow id
    | _ => exact absurd hx.1 id
  | undefined => exact absurd hx.2 id

namespace RandomWalk

variable {w : RandomWalk Exact} {t : Tuning Exact} {n : ℕ}

/-- A walk of `n` components with a finite factor and a scale between the bounds. -/
structure IsBounded (w : RandomWalk Exact) (t : Tuning Exact) (n : ℕ) : Prop where
  tuning : w.tuning = t
  within : t.minScale ≤ w.scale ∧ w.scale ≤ t.maxScale
  rows_factor : w.factor.rows = n
  finite_factor : w.factor.isFinite = true

theorem isBounded_ofFactor (valid : t.isValid = true) {factor : DenseMatrix Exact}
    (hrows : factor.rows = n) (hfinite : factor.isFinite = true) :
    (ofFactor factor t).IsBounded t n :=
  ⟨rfl, firstScale_within valid factor.rows, hrows, hfinite⟩

theorem isBounded_change (valid : t.isValid = true) (h : w.IsBounded t n) (k : Change) :
    (w.change k).IsBounded t n := by
  obtain ⟨rfl, hwithin, hrows, hfinite⟩ := h
  have hfactor : (w.change k).factor = w.factor := by
    cases k with
    | record accepted => exact factor_record w accepted
    | retune => exact factor_retune w
    | freeze => rfl
  exact ⟨tuning_change w k, within_change valid hwithin k, by rw [hfactor, hrows],
    by rw [hfactor, hfinite]⟩

theorem IsBounded.isReal (valid : t.isValid = true) (h : w.IsBounded t n) : w.IsReal n where
  rows_factor := h.rows_factor
  scale := by
    have hmin := (Tuning.bounds_of_isValid valid).2.2.2.1
    have hmax : Scalar.isFinite t.maxScale = true := by
      unfold Tuning.isValid at valid
      exact (Bool.and_eq_true_iff.1 valid).2
    exact Exact.isFinite_of_le hmin h.within hmax
  factor := fun i _ j _ => DenseMatrix.isFinite_entry h.finite_factor i j

/-- From real numbers a bounded walk proposes real numbers. -/
theorem ensures_propose (h : w.IsReal n) {xs : List ℝ} (hxs : xs.length = n) :
    Ensures (Engine.ofSampling (w.propose (xs.map Exact.real)) : Engine Exact σ (List Exact))
      fun θ => ∃ ys : List ℝ, θ = ys.map Exact.real := by
  refine .ofSampling fun tape htape => ⟨Tape.isUnit_standardNormals htape _, ?_⟩
  obtain ⟨noise, -, hnoise⟩ := standardNormals_real htape (xs.map Exact.real).length
  have hstep : (w.propose (xs.map Exact.real) tape).1 =
      w.stepBy (xs.map Exact.real) (noise.map Exact.real) := congrArg (w.stepBy _) hnoise
  exact ⟨_, hstep.trans (stepBy_real h hxs)⟩

end RandomWalk

namespace Walker

variable {w : Walker Exact} {t : Target Exact σ} {tuning : Tuning Exact}

/-- A walker at a point of real numbers with a bounded walk. -/
structure IsReal (w : Walker Exact) (tuning : Tuning Exact) (n : ℕ) : Prop where
  current : w.current.IsReal n
  walk : w.walk.IsBounded tuning n

theorem ensures_decideMove (w : Walker Exact) (candidate : Point Exact) :
    Ensures (Engine.ofSampling (w.decideMove candidate) : Engine Exact σ Bool) fun _ => True := by
  refine .ofSampling fun tape htape => ⟨?_, trivial⟩
  unfold decideMove accepts
  -- At most one uniform is read.
  split
  · split
    · exact htape
    · exact htape
  · exact htape

theorem ensures_iterate (valid : tuning.isValid = true) (h : w.IsReal tuning t.dimension) :
    Ensures (w.iterate t) fun result => result.2.IsReal tuning t.dimension := by
  obtain ⟨xs, hlength, hcurrent⟩ := h.current
  unfold iterate
  rw [hcurrent]
  refine .bind (RandomWalk.ensures_propose (h.walk.isReal valid) hlength) fun θ hθ => ?_
  obtain ⟨ys, rfl⟩ := hθ
  refine .bind t.ensures_evaluate fun candidate hcandidate => ?_
  refine .bind (w.ensures_decideMove candidate) fun accepted _ => .pure ⟨?_, ?_⟩
  · cases accepted
    · exact h.current
    · exact hcandidate
  · exact RandomWalk.isBounded_change valid h.walk (.record accepted)

end Walker

/-- A trace of points of real numbers. -/
structure Trace.IsReal (trace : Trace Exact) (tuning : Tuning Exact) (n : ℕ) : Prop where
  walker : trace.walker.IsReal tuning n
  history : ∀ p ∈ trace.history, p.IsReal n

/-- Whether the points of a stage have real numbers, if it has any. -/
def Stage.IsReal (stage : Stage Exact) (tuning : Tuning Exact) (n : ℕ) : Prop :=
  ∀ trace, stage.trace? = some trace → trace.IsReal tuning n

namespace Sampler

variable {s : Sampler Exact σ} {trace : Trace Exact} {stage : Stage Exact} {c d : Chain Exact σ}

theorem isReal_firstStage (valid : s.settings.tuning.isValid = true) {distribution : Start Exact}
    (hdimension : distribution.dimension = s.target.dimension)
    (hfinite : distribution.factor.isFinite = true) {point : Point Exact}
    (hpoint : point.IsReal s.target.dimension) :
    (s.firstStage distribution point).IsReal s.settings.tuning s.target.dimension := by
  have hwalk := RandomWalk.isBounded_ofFactor valid
    (distribution.rows_factor.trans hdimension) hfinite
  have hnew (walk : RandomWalk Exact)
      (h : walk.IsBounded s.settings.tuning s.target.dimension) :
      Trace.IsReal ⟨point, .ofPoint point walk, #[], {}⟩ s.settings.tuning s.target.dimension :=
    ⟨⟨hpoint, h⟩, fun _ hp => absurd hp (Array.not_mem_empty _)⟩
  intro trace started
  unfold firstStage at started
  dsimp only at started
  split at started <;> cases started
  · exact hnew _ (RandomWalk.isBounded_change valid hwalk .freeze)
  · exact hnew _ hwalk

theorem ensures_start (valid : s.settings.tuning.isValid = true)
    (accepted : s.target.model.StartsAccepted) :
    Ensures s.start fun stage => stage.IsReal s.settings.tuning s.target.dimension := by
  refine .bind (.ofExcept (accepted s.settings.coefficient)) fun distribution hdistribution => ?_
  obtain ⟨mean, covariance, hdistribution⟩ := hdistribution
  by_cases hdimension : distribution.dimension = s.target.dimension
  · rw [if_neg (not_not.2 hdimension)]
    refine .bind (Search.ensures_run hdistribution _) fun point hpoint => ?_
    have hfirst := isReal_firstStage valid hdimension (Start.isFinite_factor hdistribution) hpoint
    unfold firstStage at hfirst
    dsimp only at hfirst ⊢
    split at hfirst
    next hnone => rw [if_pos hnone]; exact .pure hfirst
    next hsome => rw [if_neg hsome]; exact .pure hfirst
  · rw [if_pos hdimension]
    exact .throw _

/-- One more point, and the proposal tuned or frozen. -/
theorem isReal_nextStage (valid : s.settings.tuning.isValid = true) {n : ℕ}
    (h : trace.IsReal s.settings.tuning n) {walker : Walker Exact}
    (hwalker : walker.IsReal s.settings.tuning n) (stage : Stage Exact) :
    (s.nextStage stage (extend trace walker)).IsReal s.settings.tuning n := by
  have hhistory : ∀ p ∈ (extend trace walker).history, p.IsReal n := by
    intro p hp
    rcases Array.mem_push.1 hp with hp | rfl
    · exact h.history p hp
    · exact hwalker.current
  have hretuned := RandomWalk.isBounded_change valid hwalker.walk .retune
  intro trace' started
  cases stage with
  | warmingUp _ =>
    change (s.afterWarmUp _).trace? = _ at started
    rw [trace?_afterWarmUp] at started
    split at started <;> cases started
    · exact ⟨⟨hwalker.current, RandomWalk.isBounded_change valid hretuned .freeze⟩, hhistory⟩
    · exact ⟨⟨hwalker.current, hretuned⟩, hhistory⟩
  | _ =>
    cases started
    exact ⟨hwalker, hhistory⟩

/-- Whether a chain reads real numbers and has stored real numbers. -/
structure IsReal (s : Sampler Exact σ) (c : Chain Exact σ) : Prop where
  tape : c.world.tape.IsUnit
  stage : c.stage.IsReal s.settings.tuning s.target.dimension

theorem isReal_transition (valid : s.settings.tuning.isValid = true)
    (accepted : s.target.model.StartsAccepted) (hc : s.IsReal c) {more : List (Iteration Exact)}
    (h : s.Transition c more d) : s.IsReal d := by
  cases h with
  | start h =>
    obtain ⟨htape, hstage⟩ := (ensures_start valid accepted).of_ok hc.tape h
    exact ⟨htape, hstage⟩
  | refused h =>
    refine ⟨(ensures_start valid accepted).of_error hc.tape h, fun trace started => ?_⟩
    rw [Stage.trace?_afterError] at started
    cases started
  | @iterate w w' stage trace accepted walker running left h =>
    have htrace := hc.stage trace (Stage.trace?_of_running running)
    obtain ⟨htape, hwalker⟩ := (Walker.ensures_iterate valid htrace.walker).of_ok hc.tape h
    exact ⟨htape, isReal_nextStage valid htrace hwalker stage⟩
  | @broken w w' stage trace cause running left h =>
    have htrace := hc.stage trace (Stage.trace?_of_running running)
    refine ⟨(Walker.ensures_iterate valid htrace.walker).of_error hc.tape h, ?_⟩
    intro trace' started
    rw [Stage.trace?_afterError] at started
    exact hc.stage trace' started
  | release started unreleased complete =>
    refine ⟨hc.tape, fun trace' started' => ?_⟩
    cases started'
    exact hc.stage _ started
  | score memory => exact ⟨hc.tape, hc.stage⟩

theorem isReal_of_path (valid : s.settings.tuning.isValid = true)
    (accepted : s.target.model.StartsAccepted) {memory : σ} {log : List (Iteration Exact)}
    (h : s.Path (s.newChain memory) log c) : s.IsReal c := by
  refine h.preserves (P := fun _ c => s.IsReal c)
    (fun hc h => isReal_transition valid accepted hc h) ⟨Tape.isUnit_ofSeed _, ?_⟩
  intro trace started
  cases started

end Sampler

/-- The draws of every fit are real numbers. -/
theorem Model.isReal_of_fit {m : Model Exact σ} (accepted : m.StartsAccepted)
    {settings : Settings Exact} {fit : Fit Exact} {memory memory' : σ}
    (h : m.fit settings memory = .ok fit memory') : fit.draws.IsReal := by
  have hagrees := Convergence.agrees_iff.1 (isOf_of_fit h).agrees
  obtain ⟨s, hsampler, hfit⟩ := fit_eq_ok h
  obtain ⟨-, valid, htarget⟩ := Sampler.ofModel_eq_ok hsampler
  rw [← Target.model_of_ofModel htarget] at accepted
  obtain ⟨log, c, trace, path, started, -, -, hdraws, -⟩ := Sampler.fit_eq_ok valid hfit
  have hreal := Sampler.isReal_of_path (Sampler.isValid_of_ofModel hsampler) accepted path
  intro p hp i hi
  rw [hagrees.1, ← hagrees.2 p hp] at hi
  rw [hdraws] at hp
  obtain ⟨xs, -, hparameters⟩ :=
    (hreal.stage trace started).history p (Sampler.mem_of_mem_select hp)
  rw [hparameters, List.length_map] at hi
  rw [hparameters, List.getElem?_map, List.getElem?_eq_getElem hi]
  exact ⟨xs[i], rfl⟩

end Metropolis
