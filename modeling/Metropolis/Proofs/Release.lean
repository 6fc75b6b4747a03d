import Metropolis.Proofs.Coherence

/-!
# Releasing draws

When a chain releases its draws, that nothing else finalizes it, and that nothing changes it any
more once it is finalized.
-/

namespace Metropolis

variable {α σ : Type}

theorem Stage.selection?_of_running {stage : Stage α} {trace : Trace α}
    (h : stage.running? = some trace) : stage.selection? = none := by
  rcases running?_cases h with rfl | rfl <;> rfl

theorem Stage.selection?_afterError {stage : Stage α} (cause : Error α)
    (h : stage.selection? = none) : (stage.afterError cause).selection? = none := by
  cases cause <;> first | exact h | rfl

namespace Sampler

/-- Whether a release has succeeded among the calls on a new chain. -/
def Released (s : Sampler α σ) [Scalar α] (memory : σ) (calls : List Call) : Prop :=
  ∃ earlier later selection d, calls = earlier ++ .release :: later ∧
    s.release (s.after memory earlier) = .ok selection d

variable [Scalar α] {s : Sampler α σ} {c d : Chain α σ} {trace : Trace α} {selection : Draws α}

/-! ## When a release succeeds -/

omit [Scalar α] in
theorem release_eq_ok (valid : s.settings.schedule.Valid) (hc : s.Sound c.stage)
    (h : s.release c = .ok selection d) :
    ∃ trace, c.stage.trace? = some trace ∧ s.IsSampling trace ∧
      trace.history.size = s.settings.schedule.iterations ∧ selection = s.select trace.history ∧
      d = ⟨c.world, .finalized trace selection⟩ := by
  rcases release_cases s c with ⟨selection', hselection, hrelease⟩ |
    ⟨-, ⟨completed, hrelease⟩ | ⟨trace, started, hlong, hrelease⟩⟩
  · -- Released before: what a sound stage holds is the selection of its history.
    cases hrelease.symm.trans h
    rcases c with ⟨w, stage⟩
    cases stage <;> cases hselection
    exact ⟨_, rfl, hc.1, hc.2.1, hc.2.2, rfl⟩
  · cases hrelease.symm.trans h
  · cases hrelease.symm.trans h
    have ht := isSampling_of_complete valid hc started hlong
    exact ⟨trace, started, ht, Nat.le_antisymm ht.within hlong, rfl, rfl⟩

omit [Scalar α] in
theorem release_short (unreleased : c.stage.selection? = none)
    (h : c.completed < s.settings.schedule.iterations) :
    s.release c = .error (.incomplete c.completed s.settings.schedule.iterations) c := by
  cases started : c.stage.trace? with
  | none =>
    rw [release_unstarted unreleased started, Chain.completed_of_unstarted started]
  | some trace =>
    rw [Chain.completed_of_started started] at h ⊢
    rw [release_started unreleased started, if_pos h]

omit [Scalar α] in
/-- A chain that has not done all its iterations refuses to release draws. -/
theorem release_incomplete (valid : s.settings.schedule.Valid) (hc : s.Sound c.stage)
    (h : c.completed ≠ s.settings.schedule.iterations) :
    s.release c = .error (.incomplete c.completed s.settings.schedule.iterations) c := by
  have unreleased : c.stage.selection? = none := by
    rcases c with ⟨w, stage⟩
    cases stage with
    | finalized => exact absurd hc.2.1 h
    | _ => rfl
  have hwithin : c.completed ≤ s.settings.schedule.iterations := by
    cases started : c.stage.trace? with
    | none =>
      rw [Chain.completed_of_unstarted started]
      exact Nat.zero_le _
    | some trace =>
      rw [Chain.completed_of_started started]
      exact size_le_of_sound valid hc started
  exact release_short unreleased (by omega)

omit [Scalar α] in
theorem release_complete (valid : s.settings.schedule.Valid)
    (h : c.completed = s.settings.schedule.iterations) :
    ∃ selection d, s.release c = .ok selection d := by
  cases unreleased : c.stage.selection? with
  | some selection => exact ⟨selection, c, release_finalized unreleased⟩
  | none =>
    cases started : c.stage.trace? with
    | none =>
      have hzero := Chain.completed_of_unstarted started
      have hpos := valid.iterations_pos
      omega
    | some trace =>
      rw [Chain.completed_of_started started] at h
      rw [release_started unreleased started, if_neg (by omega)]
      exact ⟨_, _, rfl⟩

/-! ## Nothing but a release finalizes a chain -/

theorem selection?_prepare (h : c.stage.selection? = none) :
    (leaves (s.prepare c)).stage.selection? = none := by
  rcases c with ⟨w, _ | trace | trace | _ | _⟩
  case initializing =>
    cases hstart : s.start w with
    | ok stage w' =>
      obtain ⟨distribution, point, -, -, -, rfl⟩ := start_eq_ok hstart
      obtain ⟨trace, running⟩ := running?_firstStage s distribution point
      rw [prepare_of_start_ok hstart]
      exact Stage.selection?_of_running running
    | error cause w' =>
      rw [prepare_of_start_error hstart]
      exact Stage.selection?_afterError cause rfl
  all_goals exact h

theorem selection?_advance (running : c.stage.running? = some trace) :
    (leaves (s.advance c)).stage.selection? = none := by
  have unreleased := Stage.selection?_of_running running
  rcases advance_cases (s := s) running with
    ⟨-, h⟩ | ⟨-, ⟨moved, walker, w', -, h⟩ | ⟨cause, w', -, h⟩⟩
  · rw [h]
    exact unreleased
  · obtain ⟨trace', running', -⟩ := running?_nextStage s c.stage (extend trace walker)
    rw [h]
    exact Stage.selection?_of_running running'
  · rw [h]
    exact Stage.selection?_afterError cause unreleased

theorem stage_pseudoMarginal (s : Sampler α σ) (c : Chain α σ) :
    (leaves (s.pseudoMarginal c)).stage = c.stage := by
  unfold pseudoMarginal
  split
  · rfl
  · split <;> rfl

/-- A call after which there are draws, where there were none before, is a release. -/
theorem release_of_selection? {k : Call} (h : c.stage.selection? = none)
    (h' : (s.call c k).stage.selection? ≠ none) :
    k = .release ∧ ∃ selection d, s.release c = .ok selection d := by
  cases k with
  | prepare => exact absurd (selection?_prepare h) h'
  | step =>
    refine absurd ?_ h'
    exact step_preserves (P := fun d => d.stage.selection? = none) (selection?_prepare h)
      fun running _ => selection?_advance running
  | run =>
    refine absurd ?_ h'
    exact run_preserves (P := fun d => d.stage.selection? = none) (selection?_prepare h)
      fun running _ => selection?_advance running
  | release =>
    rcases release_cases s c with
      ⟨selection, -, hrelease⟩ | ⟨-, ⟨completed, hrelease⟩ | ⟨trace, -, -, hrelease⟩⟩
    · exact ⟨rfl, selection, c, hrelease⟩
    · rw [call, hrelease] at h'
      exact absurd h h'
    · exact ⟨rfl, _, _, hrelease⟩
  | score =>
    rw [call, stage_pseudoMarginal] at h'
    exact absurd h h'

/-! ## Nothing changes a finalized chain -/

section Finalized

variable (finalized : c.stage.selection? = some selection)

include finalized

theorem prepare_finalized : s.prepare c = .error .alreadyReleased c := by
  rcases c with ⟨w, stage⟩
  cases stage <;> cases finalized
  rfl

theorem step_finalized : s.step c = .error .alreadyReleased c :=
  step_of_error (prepare_finalized finalized)

theorem run_finalized : s.run c = .error .alreadyReleased c :=
  run_of_error (prepare_finalized finalized)

theorem stage_call_finalized (k : Call) : (s.call c k).stage = c.stage := by
  cases k with
  | prepare => rw [call, prepare_finalized finalized, leaves_error]
  | step => rw [call, step_finalized finalized, leaves_error]
  | run => rw [call, run_finalized finalized, leaves_error]
  | release => rw [call, release_finalized finalized, leaves_ok]
  | score => rw [call, stage_pseudoMarginal]

theorem stage_callAll_finalized (calls : List Call) : (s.callAll c calls).stage = c.stage := by
  induction calls generalizing c with
  | nil => rfl
  | cons k calls ih =>
    have hcall : (s.call c k).stage = c.stage := stage_call_finalized finalized k
    have hrest := ih (c := s.call c k) (by rw [hcall]; exact finalized)
    rw [← hcall]
    exact hrest

end Finalized

/-- A chain holds draws exactly if a release has succeeded. -/
theorem released_iff (valid : s.settings.schedule.Valid) (memory : σ) (calls : List Call) :
    s.Released memory calls ↔ (s.after memory calls).stage.selection? ≠ none := by
  constructor
  · -- The release leaves a finalized chain, and no later call changes its stage.
    rintro ⟨earlier, later, selection, d, rfl, hrelease⟩
    have hd : s.after memory (earlier ++ .release :: later) = s.callAll d later := by
      rw [after_append, callAll, List.foldl_cons, call, hrelease, leaves_ok, callAll]
    obtain ⟨trace, -, -, -, -, rfl⟩ :=
      release_eq_ok valid (sound_after valid memory earlier) hrelease
    rw [hd, stage_callAll_finalized rfl]
    exact Option.some_ne_none _
  · intro h
    -- Either the calls before the last one released the draws, or the last one did.
    induction calls using List.reverseRecOn with
    | nil => exact absurd rfl h
    | append_singleton calls k ih =>
      cases hbefore : (s.after memory calls).stage.selection? with
      | some selection =>
        obtain ⟨earlier, later, selection', d, rfl, hrelease⟩ :=
          ih (by rw [hbefore]; exact Option.some_ne_none _)
        exact ⟨earlier, later ++ [k], selection', d, List.append_assoc _ _ _, hrelease⟩
      | none =>
        rw [after_append] at h
        obtain ⟨rfl, selection, d, hrelease⟩ := release_of_selection? hbefore h
        exact ⟨calls, [], selection, d, rfl, hrelease⟩

/-! ## Questions for the draws -/

end Sampler

namespace Chain

variable [Scalar α] (c : Chain α σ)

omit [Scalar α] in
theorem draws_eq_error_iff : c.draws = .error .notReleased ↔ c.stage.selection? = none := by
  unfold draws
  cases c.stage.selection? with
  | some selection => simp
  | none => simp

omit [Scalar α] in
theorem text_eq_error_iff (number : α → String) :
    c.text number = .error .notReleased ↔ c.stage.selection? = none := by
  rw [← draws_eq_error_iff]
  unfold text
  cases c.draws with
  | ok selection => simp [Except.map]
  | error cause => simp [Except.map]

theorem summary_eq_error_iff : c.summary = .error .notReleased ↔ c.stage.selection? = none := by
  rw [← draws_eq_error_iff]
  unfold summary
  cases c.draws with
  | ok selection => simp [Except.map]
  | error cause => simp [Except.map]

theorem report_eq_error_iff : c.report = .error .notReleased ↔ c.stage.selection? = none := by
  rw [← summary_eq_error_iff]
  unfold report
  cases c.summary with
  | ok summary => simp [bind, Except.bind, pure, Except.pure]
  | error cause => simp [bind, Except.bind]

end Chain

end Metropolis
