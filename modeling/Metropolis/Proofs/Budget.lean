import Metropolis.Proofs.Coverage
import Metropolis.Proofs.Level
import Metropolis.Scalar.Comparison

/-!
# What an iteration uses up and changes

An iteration reads two uniforms for each component of the proposal. It reads one more exactly for a
feasible candidate strictly below the current point, where the decision is left to chance. Every
later draw of a chain depends on this count, so it is exact also for a proposal that cannot be
evaluated. Of the walker only the counters change, and the point that it stands at if it moves.
-/

namespace Metropolis

variable {α σ : Type}

/-! ## The tape -/

namespace Tape

/-- The tape after `n` more numbers were read. -/
def skip (t : Tape α) (n : Nat) : Tape α := { t with position := t.position + n }

@[simp] theorem skip_zero (t : Tape α) : t.skip 0 = t := rfl

@[simp] theorem skip_skip (t : Tape α) (m n : Nat) : (t.skip m).skip n = t.skip (m + n) := by
  rw [skip, skip, skip, Nat.add_assoc]

end Tape

variable [Scalar α]

theorem standardNormals_snd (n : Nat) (tape : Tape α) :
    (standardNormals n tape).2 = tape.skip (2 * n) := by
  induction n generalizing tape with
  | zero => rfl
  | succ n ih =>
    show (standardNormals n (tape.skip 2)).2 = _
    rw [ih, Tape.skip_skip, Nat.mul_succ, Nat.add_comm]

theorem RandomWalk.propose_snd (w : RandomWalk α) (current : List α) (tape : Tape α) :
    (w.propose current tape).2 = tape.skip (2 * current.length) :=
  standardNormals_snd current.length tape

theorem accepts_of_nonneg {ratio : α} (h : 0 ≤ ratio) (tape : Tape α) :
    accepts ratio tape = (true, tape) := by
  rw [accepts, if_pos h]
  rfl

theorem accepts_of_neg {ratio : α} (h : ¬ 0 ≤ ratio) (tape : Tape α) :
    accepts ratio tape = (decide (Scalar.log tape.next.1 < ratio), tape.next.2) := by
  rw [accepts, if_neg h]
  rfl

namespace Walker

variable {t : Target α σ} {w : Walker α} {world : World α σ} {candidate : Point α} {memory : σ}

/-! ## The decision -/

/-- Whether a candidate is feasible and strictly below the current point. -/
def IsBelow (w : Walker α) (candidate : Point α) : Prop :=
  candidate.isFeasible = true ∧ candidate.logPosterior < w.current.logPosterior

instance (w : Walker α) (candidate : Point α) : Decidable (w.IsBelow candidate) :=
  inferInstanceAs (Decidable (_ ∧ _))

/-- A decision is left to chance only below the current point. Elsewhere every feasible candidate
is accepted, and no other. -/
theorem decideMove_eq [Scalar.LawfulSub α] (feasible : w.current.isFeasible = true)
    (candidate : Point α) (tape : Tape α) :
    w.decideMove candidate tape =
      if w.IsBelow candidate then
        (decide (Scalar.log tape.next.1 < candidate.logPosterior - w.current.logPosterior),
          tape.next.2)
      else (candidate.isFeasible, tape) := by
  unfold decideMove
  by_cases hcandidate : candidate.isFeasible = true
  · have hratio := Scalar.LawfulSub.sub_nonneg_iff hcandidate feasible
    rw [if_pos hcandidate]
    by_cases hbelow : candidate.logPosterior < w.current.logPosterior
    · rw [if_pos ⟨hcandidate, hbelow⟩, accepts_of_neg fun h => hratio.1 h hbelow]
    · rw [if_neg fun h => hbelow h.2, accepts_of_nonneg (hratio.2 hbelow), hcandidate]
  · rw [if_neg hcandidate, if_neg fun h => hcandidate h.1, Bool.eq_false_of_not_eq_true hcandidate]
    rfl

/-! ## The iteration -/

theorem iterate_of_evaluate_ok
    (h : t.evaluate (w.proposal world.tape) world.memory = .ok candidate memory) :
    w.iterate t world =
      let decision := w.decideMove candidate (world.tape.skip (2 * w.current.parameters.length))
      .ok (decision.1, w.move candidate decision.1) ⟨memory, decision.2⟩ := by
  unfold iterate
  rw [bind_of_ok _ (Engine.ofSampling_apply _ world), RandomWalk.propose_snd]
  exact bind_of_ok _ (Engine.ofModel_of_ok h _)

theorem iterate_of_evaluate_error {cause : Error α}
    (h : t.evaluate (w.proposal world.tape) world.memory = .error cause memory) :
    w.iterate t world =
      .error cause ⟨memory, world.tape.skip (2 * w.current.parameters.length)⟩ := by
  unfold iterate
  rw [bind_of_ok _ (Engine.ofSampling_apply _ world), RandomWalk.propose_snd]
  exact bind_of_error _ (Engine.ofModel_of_error h _)

/-- What an iteration leaves of a walker once it is decided whether to accept the candidate. -/
structure Outcome (w : Walker α) (candidate : Point α) (accepted : Bool) (w' : Walker α) :
    Prop where
  rejected : accepted = false →
    w'.current = w.current ∧ w'.counts = ⟨w.counts.proposed + 1, w.counts.accepted⟩
  moved : accepted = true →
    w'.current = candidate ∧ w'.counts = ⟨w.counts.proposed + 1, w.counts.accepted + 1⟩
  counts : w'.counts = w.counts.record accepted
  /-- The batch counts as the walker does, until the walk is frozen. -/
  batch_adapting : w.walk.frozen = false → w'.walk.batch = w.walk.batch.record accepted
  batch_frozen : w.walk.frozen = true → w'.walk.batch = w.walk.batch
  scale : w'.walk.scale = w.walk.scale
  factor : w'.walk.factor = w.walk.factor
  tuning : w'.walk.tuning = w.walk.tuning
  frozen : w'.walk.frozen = w.walk.frozen

omit [Scalar α] in
theorem outcome_move (w : Walker α) (candidate : Point α) (accepted : Bool) :
    w.Outcome candidate accepted (w.move candidate accepted) where
  rejected h := by
    subst h
    exact ⟨rfl, rfl⟩
  moved h := by
    subst h
    exact ⟨rfl, rfl⟩
  counts := rfl
  batch_adapting h := by
    show (w.walk.record accepted).batch = _
    rw [RandomWalk.record, h]
    rfl
  batch_frozen h := congrArg RandomWalk.batch (RandomWalk.record_of_frozen _ _ h)
  scale := RandomWalk.scale_record _ _
  factor := RandomWalk.factor_record _ _
  tuning := RandomWalk.tuning_record _ _
  frozen := RandomWalk.frozen_record _ _

/-- An iteration from a feasible point uses two uniforms for each component, whether or not the
proposal can be evaluated, and one more exactly for a candidate below the current point. If the
proposal cannot be evaluated, a chain keeps its walker; otherwise a candidate that is not feasible
is rejected, one that is not below is accepted, and one below is accepted if the logarithm of the
further uniform is below the difference. -/
theorem iterate_effects [Scalar.LawfulSub α] {dimension : Nat} (fits : w.Fits dimension)
    (feasible : w.current.isFeasible = true) (t : Target α σ) (world : World α σ) :
    let θ := w.proposal world.tape
    let proposed := world.tape.skip (2 * dimension)
    θ.length = dimension ∧
      (∀ cause memory, t.evaluate θ world.memory = .error cause memory →
        w.iterate t world = .error cause ⟨memory, proposed⟩ ∧
          ∀ (settings : Settings α) (stage : Stage α) (trace : Trace α),
            stage.running? = some trace → trace.walker = w →
            trace.history.size < settings.schedule.iterations →
              Sampler.advance ⟨t, settings⟩ ⟨world, stage⟩ =
                  .error cause ⟨⟨memory, proposed⟩, stage.afterError cause⟩ ∧
                (stage.afterError cause).trace? = some trace) ∧
      ∀ candidate memory, t.evaluate θ world.memory = .ok candidate memory →
        ∃ accepted w',
          w.iterate t world = .ok (accepted, w')
              ⟨memory, proposed.skip (if w.IsBelow candidate then 1 else 0)⟩ ∧
            w.Outcome candidate accepted w' ∧ (accepted = true → candidate.isFeasible = true) ∧
            (¬ w.IsBelow candidate → accepted = candidate.isFeasible) ∧
            (w.IsBelow candidate →
              (accepted = true ↔ Scalar.log (proposed.cell proposed.position) <
                candidate.logPosterior - w.current.logPosterior)) := by
  intro θ proposed
  have hlength := fits.length_current
  refine ⟨length_proposal fits world.tape, fun cause memory heval => ?_,
    fun candidate memory heval => ?_⟩
  · have hiterate := iterate_of_evaluate_error heval
    rw [hlength] at hiterate
    refine ⟨hiterate, fun settings stage trace running hwalker left => ?_⟩
    subst hwalker
    -- The error ends the chain, which keeps its trace and in it the walker.
    rw [Stage.trace?_afterError]
    exact ⟨Sampler.advance_of_error (s := ⟨t, settings⟩) (c := ⟨world, stage⟩) running left
      hiterate, Stage.trace?_of_running running⟩
  · have hiterate := iterate_of_evaluate_ok heval
    rw [hlength, decideMove_eq feasible] at hiterate
    -- The decision reads the tape only below the current point.
    by_cases hbelow : w.IsBelow candidate
    · rw [if_pos hbelow] at hiterate ⊢
      exact ⟨_, _, hiterate, outcome_move w candidate _, fun _ => hbelow.1, absurd hbelow,
        fun _ => decide_eq_true_iff⟩
    · rw [if_neg hbelow] at hiterate ⊢
      exact ⟨_, _, hiterate, outcome_move w candidate _, id, fun _ => rfl,
        fun h => absurd h hbelow⟩

/-- A walker that stands above the level target, which reads a third uniform to move down, and only
two where the target cannot be evaluated. -/
theorem iterate_effects_level :
    let w : Walker Exact :=
      .ofPoint ⟨[.real 0], .real 1, .real 1⟩ (.ofFactor (.identity 1) .standard)
    let world : World Exact Nat := ⟨0, ⟨fun _ => .real 0, 0⟩⟩
    w.Fits 1 ∧ w.current.isFeasible = true ∧
      (∃ w', w.iterate (levelSampler none shortSchedule).target world =
        .ok (true, w') ⟨1, world.tape.skip 3⟩ ∧ w'.counts = ⟨1, 1⟩) ∧
      ∃ cause, w.iterate (levelSampler (some 0) shortSchedule).target world =
        .error cause ⟨1, world.tape.skip 2⟩ := by
  intro w world
  have fits : w.Fits 1 := ⟨rfl, rfl⟩
  obtain ⟨x, hx⟩ := List.length_eq_one_iff.1 (length_proposal fits world.tape)
  refine ⟨fits, rfl, ?_, ?_⟩
  · obtain ⟨accepted, w', hiterate, outcome, -, -, hbelow⟩ :=
      (iterate_effects fits rfl (levelSampler none shortSchedule).target world).2.2 (levelPoint x) 1
        (by rw [hx]; exact evaluate_level_eq x 0)
    have below : w.IsBelow (levelPoint x) := ⟨rfl, (Exact.real_lt 0 1).2 one_pos⟩
    -- The logarithm of the uniform is `-infinity`, which is below every difference.
    have haccepted : accepted = true := by
      refine (hbelow below).2 ?_
      show Scalar.log (Exact.real 0) < Exact.real 0 - Exact.real 1
      rw [Exact.log_zero, Exact.real_sub]
      trivial
    subst haccepted
    rw [if_pos below, Tape.skip_skip] at hiterate
    exact ⟨w', hiterate, (outcome.moved rfl).2⟩
  · have herror := (iterate_effects fits rfl (levelSampler (some 0) shortSchedule).target world).2.1
      (.model (.evaluation "worn out")) 1 (by rw [hx]; rfl)
    exact ⟨_, herror.1⟩

end Walker

end Metropolis
