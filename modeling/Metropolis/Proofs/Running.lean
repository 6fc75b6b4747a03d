import Metropolis.Proofs.Coverage
import Metropolis.Proofs.Level

/-!
# Running is stepping to the end

`run` counts the iterations that remain and does as many. Stepping asks before every iteration
whether one remains. Both end, with the same result, after as many iterations as were left unless
an iteration fails.
-/

namespace Metropolis

variable {α σ : Type} [Scalar α]

namespace Sampler

variable {s : Sampler α σ} {c d : Chain α σ} {trace : Trace α}

/-- The loop that steps a chain until nothing is left or a step fails, with the number of
iterations that it completes and its result. -/
inductive StepsOut (s : Sampler α σ) :
    Chain α σ → Nat → EStateM.Result (Error α) (Chain α σ) Unit → Prop where
  | last {c d : Chain α σ} (h : s.step c = .ok none d) : StepsOut s c 0 (.ok () d)
  | stop {c d : Chain α σ} {cause : Error α} (h : s.step c = .error cause d) :
      StepsOut s c 0 (.error cause d)
  | more {c d : Chain α σ} {moved : Bool} {n : Nat}
      {r : EStateM.Result (Error α) (Chain α σ) Unit} (h : s.step c = .ok (some moved) d)
      (rest : StepsOut s d n r) : StepsOut s c (n + 1) r

theorem StepsOut.unique {n n' : Nat} {r r' : EStateM.Result (Error α) (Chain α σ) Unit}
    (h : s.StepsOut c n r) (h' : s.StepsOut c n' r') : n' = n ∧ r' = r := by
  -- A step has one result, so that at most one of the rules applies to a chain.
  induction h generalizing n' r' with
  | last h =>
    cases h' with
    | last h' => cases h.symm.trans h'; exact ⟨rfl, rfl⟩
    | stop h' => cases h.symm.trans h'
    | more h' _ => cases h.symm.trans h'
  | stop h =>
    cases h' with
    | last h' => cases h.symm.trans h'
    | stop h' => cases h.symm.trans h'; exact ⟨rfl, rfl⟩
    | more h' _ => cases h.symm.trans h'
  | more h _ ih =>
    cases h' with
    | last h' => cases h.symm.trans h'
    | stop h' => cases h.symm.trans h'
    | more h' rest' =>
      cases h.symm.trans h'
      have hrest := ih rest'
      exact ⟨congrArg (· + 1) hrest.1, hrest.2⟩

theorem StepsOut.iff {n : Nat} {r : EStateM.Result (Error α) (Chain α σ) Unit}
    (h : s.StepsOut c n r) (k : Nat) (r' : EStateM.Result (Error α) (Chain α σ) Unit) :
    s.StepsOut c k r' ↔ k = n ∧ r' = r := by
  constructor
  · exact h.unique
  · rintro ⟨rfl, rfl⟩
    exact h

/-- Whether an iteration of a walker that fits the target can fail in some way. -/
def CanFail (s : Sampler α σ) (cause : Error α) : Prop :=
  ∃ (walker : Walker α) (w w' : World α σ),
    walker.Fits s.target.dimension ∧ walker.iterate s.target w = .error cause w'

/-- All the iterations that remain of a chain that goes on: they are what the loop does, and if
not all of them succeed then one of them fails, as the first. -/
theorem advanceTimes_stepsOut {n : Nat} (running : c.stage.running? = some trace)
    (fitting : s.IsFitting c.stage)
    (hn : n = s.settings.schedule.iterations - trace.history.size) :
    (∃ d, s.advanceTimes n c = .ok () d ∧ s.StepsOut c n (.ok () d) ∧
        d.completed = c.completed + n) ∨
      ∃ k cause d, k < n ∧ s.advanceTimes n c = .error cause d ∧
        s.StepsOut c k (.error cause d) ∧ d.completed = c.completed + k ∧ s.CanFail cause ∧
        ∀ reason, cause = .model reason → d.stage.failure? = some reason := by
  have hstep : s.step c = s.advance c := step_of_prepared (prepare_running running)
  have hcompleted : c.completed = trace.history.size := Chain.completed_of_running running
  induction n generalizing c trace with
  | zero =>
    -- Nothing is left, and the loop finds that out by one more step.
    have hdone : s.advance c = .ok none c := advance_done (by omega)
    exact .inl ⟨c, rfl, .last (hstep.trans hdone), rfl⟩
  | succ n ih =>
    rcases advance_cases (s := s) running with
      ⟨hdone, -⟩ | ⟨left, ⟨moved, walker, w', hiterate, hadvance⟩ | ⟨cause, w', hiterate, hadvance⟩⟩
    · omega
    · -- One iteration more than the rest of the loop, from a chain with one fewer left.
      obtain ⟨trace', running', -, hhistory, -⟩ :=
        running?_nextStage s c.stage (extend trace walker)
      have hsize : trace'.history.size = trace.history.size + 1 := by
        rw [hhistory]
        exact Array.size_push _
      have fitting' := isFitting_transition fitting (.iterate running left hiterate)
      have running'' : (Chain.mk w' (s.nextStage c.stage (extend trace walker))).stage.running? =
          some trace' := running'
      have hnext := Chain.completed_of_running running''
      have hmore := hstep.trans hadvance
      rcases ih running'' fitting' (by omega) (step_of_prepared (prepare_running running''))
        hnext with ⟨d, htimes, hrest, hd⟩ | ⟨k, cause, d, hk, htimes, hrest, hd, hfail⟩
      · refine .inl ⟨d, ?_, .more hmore hrest, by omega⟩
        rw [advanceTimes, bind_of_ok _ hadvance, htimes]
      · refine .inr ⟨k + 1, cause, d, by omega, ?_, .more hmore hrest, by omega, hfail⟩
        rw [advanceTimes, bind_of_ok _ hadvance, htimes]
    · -- The first iteration fails already.
      have hfits := fitting trace (Stage.trace?_of_running running)
      refine .inr ⟨0, cause, _, Nat.succ_pos n, ?_, .stop (hstep.trans hadvance), ?_,
        ⟨trace.walker, c.world, w', hfits, hiterate⟩, ?_⟩
      · rw [advanceTimes, bind_of_error _ hadvance]
      · have started : (c.stage.afterError cause).trace? = some trace := by
          rw [Stage.trace?_afterError, Stage.trace?_of_running running]
        rw [Chain.completed_of_started started, hcompleted, Nat.add_zero]
      · rintro reason rfl
        rfl

theorem run_stepsOut (running : c.stage.running? = some trace) (fitting : s.IsFitting c.stage) :
    (∃ d, s.run c = .ok () d ∧
        s.StepsOut c (s.settings.schedule.iterations - c.completed) (.ok () d) ∧
        d.completed = c.completed + (s.settings.schedule.iterations - c.completed)) ∨
      ∃ k cause d, k < s.settings.schedule.iterations - c.completed ∧ s.run c = .error cause d ∧
        s.StepsOut c k (.error cause d) ∧ d.completed = c.completed + k ∧ s.CanFail cause ∧
        ∀ reason, cause = .model reason → d.stage.failure? = some reason := by
  rw [run_of_prepared (prepare_running running)]
  exact advanceTimes_stepsOut running fitting (by rw [Chain.completed_of_running running])

/-- The level target without a limit never fails, so that a chain on it runs to its end. -/
theorem run_levelSampler {schedule : Schedule} (hgrid : schedule.gridSize = 0)
    (hwarm : schedule.warmUp ≠ 0) : ∃ d, (levelSampler none schedule).run
      ((levelSampler none schedule).newChain 0) = .ok () d ∧
        d.completed = schedule.iterations := by
  obtain ⟨trace, world, hhistory, hprepare⟩ := prepare_levelSampler hgrid hwarm
  have hpath := prepare_path (levelSampler none schedule) ((levelSampler none schedule).newChain 0)
  rw [hprepare] at hpath
  have hfitting := isFitting_of_path hpath fun _ h => by cases h
  have running : (Chain.mk world (.warmingUp trace) : Chain Exact Nat).stage.running? =
      some trace := rfl
  have hcompleted : (Chain.mk world (.warmingUp trace) : Chain Exact Nat).completed = 0 := by
    rw [Chain.completed_of_running running, hhistory]
    rfl
  rcases run_stepsOut running hfitting with ⟨d, hrun, -, hd⟩ | ⟨k, cause, d, -, -, -, -, hfail, -⟩
  · rw [run_of_prepared (prepare_running running)] at hrun
    refine ⟨d, ?_, ?_⟩
    · rw [run_of_prepared hprepare]
      exact hrun
    · rw [hd, hcompleted, Nat.zero_add, Nat.sub_zero]
      rfl
  · -- A walker that fits proposes a point with one parameter, and that can be evaluated.
    obtain ⟨walker, w, w', hfits, hiterate⟩ := hfail
    have hlength := Walker.length_proposal hfits w.tape
    obtain ⟨x, hx⟩ := List.length_eq_one_iff.1 hlength
    have heval := Walker.iterate_eq_error hiterate
    obtain ⟨p, memory', hp⟩ := evaluate_level x w.memory
    rw [hx, hp] at heval
    cases heval

theorem run_level : ∃ d, (levelSampler none shortSchedule).run
      ((levelSampler none shortSchedule).newChain 0) = .ok () d ∧ d.completed = 4 :=
  run_levelSampler rfl (by decide)

end Sampler

end Metropolis
