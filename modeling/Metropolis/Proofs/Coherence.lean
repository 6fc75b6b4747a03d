import Metropolis.Proofs.Level
import Metropolis.Proofs.Transition

/-!
# The stage of a chain and its counts

`Coherent` says how the stage of a chain, its history, its proposal and its counts belong together
between any two calls. It follows from `Sound`, an invariant of the stage alone that every
transition preserves. That a schedule ends its warm-up before its burn-in, and its burn-in before
its last iteration, is what keeps a chain from being released while it warms up.
-/

namespace Metropolis

variable {α σ : Type}

/-- Whether the counts of a trace are those of its history. -/
structure Trace.IsCounted (t : Trace α) : Prop where
  proposed_eq : t.walker.counts.proposed = t.history.size
  accepted_le : t.walker.counts.accepted ≤ t.walker.counts.proposed
  warmUp_proposed_le : t.warmUp.proposed ≤ t.walker.counts.proposed
  warmUp_accepted_le : t.warmUp.accepted ≤ t.walker.counts.accepted
  since_accepted_le : (t.walker.counts.since t.warmUp).accepted ≤
    (t.walker.counts.since t.warmUp).proposed
  current_eq : t.walker.current = t.history.back?.getD t.initial

namespace Sampler

/-- A trace of the warm-up. -/
structure IsWarming (s : Sampler α σ) (t : Trace α) : Prop where
  counted : t.IsCounted
  early : t.history.size < s.settings.schedule.warmUp
  adapting : t.walker.walk.frozen = false
  uncounted : t.warmUp = {}

/-- A trace after the warm-up. -/
structure IsSampling (s : Sampler α σ) (t : Trace α) : Prop where
  counted : t.IsCounted
  late : s.settings.schedule.warmUp ≤ t.history.size
  within : t.history.size ≤ s.settings.schedule.iterations
  frozen : t.walker.walk.frozen = true
  warmUp_proposed : t.warmUp.proposed = s.settings.schedule.warmUp

/-- The invariant of the stage of a chain. -/
def Sound (s : Sampler α σ) : Stage α → Prop
  | .initializing => True
  | .warmingUp t => s.IsWarming t
  | .sampling t => s.IsSampling t
  | .finalized t selection =>
    s.IsSampling t ∧ t.history.size = s.settings.schedule.iterations ∧
      selection = s.select t.history
  | .failed none _ => True
  | .failed (some t) _ =>
    (s.IsWarming t ∨ s.IsSampling t) ∧ t.history.size < s.settings.schedule.iterations

/-- How the parts of a chain belong together between any two calls. -/
structure Coherent (s : Sampler α σ) (c : Chain α σ) : Prop where
  initializing : c.phase = .initializing →
    c.stage.trace? = none ∧ c.initial? = none ∧ c.history = #[] ∧ c.stage.failure? = none ∧
      c.stage.selection? = none
  warmingUp : c.phase = .warmingUp →
    ∃ t, c.stage.trace? = some t ∧ c.completed < s.settings.schedule.warmUp ∧
      t.walker.walk.frozen = false ∧ t.warmUp = {}
  sampling : c.phase = .sampling →
    ∃ t, c.stage.trace? = some t ∧ s.settings.schedule.warmUp ≤ c.completed ∧
      c.completed ≤ s.settings.schedule.iterations ∧ t.walker.walk.frozen = true ∧
      t.warmUp.proposed = s.settings.schedule.warmUp
  finalized_iff : c.phase = .finalized ↔ c.stage.selection?.isSome = true
  finalized : c.phase = .finalized →
    c.completed = s.settings.schedule.iterations ∧ c.stage.failure? = none
  failed_iff : c.phase = .failed ↔ c.stage.failure?.isSome = true
  failed : c.phase = .failed →
    c.completed < s.settings.schedule.iterations ∧ c.stage.selection? = none
  counts : ∀ t, c.stage.trace? = some t →
    t.walker.counts.proposed = c.completed ∧
      t.walker.counts.accepted ≤ t.walker.counts.proposed ∧
      t.warmUp.proposed ≤ t.walker.counts.proposed ∧
      t.warmUp.accepted ≤ t.walker.counts.accepted ∧
      (t.walker.counts.since t.warmUp).accepted ≤ (t.walker.counts.since t.warmUp).proposed ∧
      c.initial? = some t.initial ∧ c.current? = some (c.history.back?.getD t.initial)

variable [Scalar α]

variable {s : Sampler α σ} {t : Trace α} {walker : Walker α} {accepted : Bool}

/-! ## What an iteration does to the counts -/

omit [Scalar α] in
theorem isCounted_new (point : Point α) (walk : RandomWalk α) :
    Trace.IsCounted ⟨point, .ofPoint point walk, #[], {}⟩ where
  proposed_eq := rfl
  accepted_le := Nat.le_refl _
  warmUp_proposed_le := Nat.le_refl _
  warmUp_accepted_le := Nat.le_refl _
  since_accepted_le := Nat.le_refl _
  current_eq := rfl

omit [Scalar α] in
theorem isCounted_extend (ht : t.IsCounted)
    (hcounts : walker.counts = t.walker.counts.record accepted) :
    (extend t walker).IsCounted := by
  have hproposed : walker.counts.proposed = t.walker.counts.proposed + 1 := by rw [hcounts]; rfl
  have haccepted : walker.counts.accepted = t.walker.counts.accepted ∨
      walker.counts.accepted = t.walker.counts.accepted + 1 := by
    rw [hcounts]
    cases accepted
    · exact .inl rfl
    · exact .inr rfl
  -- Both counts grow by at most one, the accepted ones only along with the proposed ones.
  have h₁ := ht.proposed_eq
  have h₂ := ht.accepted_le
  have h₃ := ht.warmUp_proposed_le
  have h₄ := ht.warmUp_accepted_le
  have h₅ := ht.since_accepted_le
  simp only [Acceptance.since] at h₅
  refine ⟨?_, ?_, ?_, ?_, ?_, ?_⟩
  · simp only [extend, Array.size_push]
    omega
  · simp only [extend]
    omega
  · simp only [extend]
    omega
  · simp only [extend]
    omega
  · simp only [extend, Acceptance.since]
    omega
  · simp only [extend, Array.back?_push, Option.getD_some]

theorem iterate_counts {w w' : World α σ}
    (h : t.walker.iterate s.target w = .ok (accepted, walker) w') :
    walker.counts = t.walker.counts.record accepted ∧
      walker.walk = t.walker.walk.record accepted := by
  obtain ⟨candidate, -, -, rfl⟩ := Walker.iterate_eq_ok h
  exact ⟨rfl, rfl⟩

/-! ## The invariant is preserved -/

theorem sound_firstStage (distribution : Start α) (point : Point α) :
    s.Sound (s.firstStage distribution point) := by
  unfold firstStage
  dsimp only
  split
  next hwarm =>
    exact ⟨isCounted_new _ _, by rw [hwarm]; exact Nat.zero_le _, Nat.zero_le _, rfl, hwarm.symm⟩
  next hwarm => exact ⟨isCounted_new _ _, Nat.pos_of_ne_zero hwarm, rfl, rfl⟩

/-- The warm-up ends at the iteration that makes it long enough. The counts become the counts of
the warm-up there, so that none lie after it. -/
theorem sound_afterWarmUp (valid : s.settings.schedule.Valid) (ht : s.IsWarming t)
    (hcounted : (extend t walker).IsCounted) (hwalk : walker.walk = t.walker.walk.record accepted) :
    s.Sound (s.afterWarmUp (extend t walker)) := by
  have hsize : (extend t walker).history.size = t.history.size + 1 := Array.size_push _
  have hearly := ht.early
  have hwarm := valid.warmUp_le
  have hburn := valid.burnIn_lt
  have hproposed : walker.counts.proposed = t.history.size + 1 := by
    rw [← hsize]
    exact hcounted.proposed_eq
  unfold afterWarmUp
  dsimp only
  split
  next hlong =>
    -- The warm-up is exactly as long as it should be, since it was too short before.
    refine ⟨⟨hcounted.proposed_eq, hcounted.accepted_le, Nat.le_refl _, Nat.le_refl _, ?_,
      hcounted.current_eq⟩, hlong, ?_, rfl, ?_⟩
    · simp only [Acceptance.since, Nat.sub_self, Nat.le_refl]
    · show (extend t walker).history.size ≤ _
      omega
    · show walker.counts.proposed = _
      omega
  next hshort =>
    refine ⟨⟨hcounted.proposed_eq, hcounted.accepted_le, hcounted.warmUp_proposed_le,
      hcounted.warmUp_accepted_le, hcounted.since_accepted_le, hcounted.current_eq⟩,
      Nat.lt_of_not_le hshort, ?_, ht.uncounted⟩
    show walker.walk.retune.frozen = false
    rw [RandomWalk.frozen_retune, hwalk, RandomWalk.frozen_record, ht.adapting]

omit [Scalar α] in
/-- A complete history is too long for a warm-up and for a chain that has failed. -/
theorem isSampling_of_complete {stage : Stage α} (valid : s.settings.schedule.Valid)
    (h : s.Sound stage) (started : stage.trace? = some t)
    (complete : s.settings.schedule.iterations ≤ t.history.size) : s.IsSampling t := by
  have hwarm := valid.warmUp_le
  have hburn := valid.burnIn_lt
  cases stage with
  | initializing => cases started
  | warmingUp =>
    cases started
    have hearly := IsWarming.early h
    omega
  | sampling =>
    cases started
    exact h
  | finalized =>
    cases started
    exact h.1
  | failed =>
    cases started
    have hleft := h.2
    omega

omit [Scalar α] in
theorem size_le_of_sound {stage : Stage α} (valid : s.settings.schedule.Valid)
    (h : s.Sound stage) (started : stage.trace? = some t) :
    t.history.size ≤ s.settings.schedule.iterations := by
  by_contra hlong
  have ht := isSampling_of_complete valid h started (by omega)
  have hwithin := ht.within
  omega

theorem sound_transition (valid : s.settings.schedule.Valid) {c d : Chain α σ}
    {log : List (Iteration α)} (hc : s.Sound c.stage) (h : s.Transition c log d) :
    s.Sound d.stage := by
  cases h with
  | start h =>
    obtain ⟨distribution, point, -, -, -, rfl⟩ := start_eq_ok h
    exact sound_firstStage distribution point
  | @refused w w' cause h =>
    -- Still new, or failed without a trace.
    cases cause <;> trivial
  | @iterate w w' stage trace accepted walker running left h =>
    obtain ⟨hcounts, hwalk⟩ := iterate_counts h
    rcases Stage.running?_cases running with rfl | rfl
    · have ht : s.IsWarming _ := hc
      exact sound_afterWarmUp valid ht (isCounted_extend ht.counted hcounts) hwalk
    · have ht : s.IsSampling _ := hc
      have hlate := ht.late
      refine ⟨isCounted_extend ht.counted hcounts, ?_, ?_, ?_, ht.warmUp_proposed⟩
      · simp only [extend, Array.size_push]
        omega
      · simp only [extend, Array.size_push]
        omega
      · show walker.walk.frozen = true
        rw [hwalk, RandomWalk.frozen_record, ht.frozen]
  | @broken w w' stage trace cause running left h =>
    -- Only an error of the model changes the stage, and it leaves an iteration undone.
    rcases Stage.running?_cases running with rfl | rfl <;> cases cause <;> try exact hc
    · exact ⟨.inl hc, left⟩
    · exact ⟨.inr hc, left⟩
  | @release w stage trace started unreleased complete =>
    have ht := isSampling_of_complete valid hc started complete
    exact ⟨ht, Nat.le_antisymm ht.within complete, rfl⟩
  | score memory => exact hc

theorem sound_after (valid : s.settings.schedule.Valid) (memory : σ) (calls : List Call) :
    s.Sound (s.after memory calls).stage := by
  obtain ⟨log, path⟩ := after_path s memory calls
  exact path.preserves (P := fun _ c => s.Sound c.stage)
    (fun hc h => sound_transition valid hc h) trivial

/-! ## The invariant as seen from outside -/

omit [Scalar α] in
theorem isCounted_of_sound {stage : Stage α} (h : s.Sound stage) (started : stage.trace? = some t) :
    t.IsCounted := by
  cases stage with
  | initializing => cases started
  | warmingUp =>
    cases started
    exact IsWarming.counted h
  | sampling =>
    cases started
    exact IsSampling.counted h
  | finalized =>
    cases started
    exact h.1.counted
  | failed =>
    cases started
    exact h.1.elim IsWarming.counted IsSampling.counted

omit [Scalar α] in
theorem coherent_of_sound {c : Chain α σ} (valid : s.settings.schedule.Valid)
    (hc : s.Sound c.stage) : s.Coherent c := by
  have hcounts : ∀ t, c.stage.trace? = some t → t.IsCounted := fun t => isCounted_of_sound hc
  -- Each field speaks of one stage, and its phase excludes the others.
  rcases c with ⟨w, stage⟩
  refine ⟨?_, ?_, ?_, ?_, ?_, ?_, ?_, fun t started => ?_⟩
  · cases stage <;> intro h <;> cases h
    exact ⟨rfl, rfl, rfl, rfl, rfl⟩
  · cases stage <;> intro h <;> cases h
    exact ⟨_, rfl, IsWarming.early hc, IsWarming.adapting hc, IsWarming.uncounted hc⟩
  · cases stage <;> intro h <;> cases h
    exact ⟨_, rfl, IsSampling.late hc, IsSampling.within hc, IsSampling.frozen hc,
      IsSampling.warmUp_proposed hc⟩
  · cases stage <;> simp [Chain.phase, Stage.phase, Stage.selection?]
  · cases stage <;> intro h <;> cases h
    exact ⟨hc.2.1, rfl⟩
  · cases stage <;> simp [Chain.phase, Stage.phase, Stage.failure?]
  · rcases stage with _ | _ | _ | _ | ⟨_ | t, _⟩ <;> intro h <;> cases h
    · exact ⟨valid.iterations_pos, rfl⟩
    · exact ⟨hc.2, rfl⟩
  · have ht := hcounts t started
    refine ⟨?_, ht.accepted_le, ht.warmUp_proposed_le, ht.warmUp_accepted_le,
      ht.since_accepted_le, ?_, ?_⟩
    · rw [Chain.completed_of_started started, ht.proposed_eq]
    · rw [Chain.initial?, started, Option.map_some]
    · rw [Chain.current?, Chain.history, started, Option.map_some, Option.map_some,
        Option.getD_some, ht.current_eq]

/-- Whatever a chain was asked to do, in whatever order and with whatever answers of its model, its
stage, history, proposal and counts belong together. -/
theorem coherent_after {m : Model α σ} {settings : Settings α}
    (accepted : ofModel m settings = .ok s) (memory : σ) (calls : List Call) :
    s.Coherent (s.after memory calls) := by
  have valid := valid_of_ofModel accepted
  exact coherent_of_sound valid (sound_after valid memory calls)

/-- A chain on the level target whose model gives out in the third iteration. -/
theorem coherent_after_level :
    ofModel (levelModel (some 3)) { Settings.standard with schedule := shortSchedule } =
        .ok (levelSampler (some 3) shortSchedule) ∧
      (levelSampler (some 3) shortSchedule).Coherent
        ((levelSampler (some 3) shortSchedule).after 0 [.step, .prepare, .run, .release, .step]) :=
  ⟨ofModel_level _ shortSchedule_valid, coherent_after (ofModel_level _ shortSchedule_valid) _ _⟩

end Sampler

end Metropolis
