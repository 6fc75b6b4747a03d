import Mathlib.Algebra.Order.Floor.Div
import Metropolis.Proofs.Record
import Metropolis.Proofs.Release
import Metropolis.Proofs.Running

/-!
# The draws that are released

A complete chain releases every `thin`-th point of its history after the burn-in. All of them come
from iterations after the warm-up, which share one frozen proposal, because the warm-up ends before
the burn-in does.
-/

namespace Metropolis

variable {α σ β : Type}

namespace Sampler

/-! ## One in so many elements of a list -/

theorem filterMap_range {f : Nat → Option β} {n : Nat} (h : ∀ k < n, (f k).isSome = true) :
    ((List.range n).filterMap f).length = n ∧
      ∀ k < n, ((List.range n).filterMap f)[k]? = f k := by
  induction n with
  | zero => exact ⟨rfl, fun k hk => absurd hk (Nat.not_lt_zero k)⟩
  | succ n ih =>
    obtain ⟨hlength, hget⟩ := ih fun k hk => h k (by omega)
    obtain ⟨x, hx⟩ := Option.isSome_iff_exists.1 (h n (Nat.lt_succ_self n))
    -- One more index adds its element at the end.
    have hlast : (List.range (n + 1)).filterMap f = (List.range n).filterMap f ++ [x] := by
      rw [List.range_succ, List.filterMap_append, List.filterMap_cons_some hx, List.filterMap_nil]
    rw [hlast]
    refine ⟨by rw [List.length_append, hlength, List.length_singleton], fun k hk => ?_⟩
    by_cases hkn : k < n
    · rw [List.getElem?_append_left (by omega)]
      exact hget k hkn
    · have heq : k = n := by omega
      rw [List.getElem?_append_right (by omega), hlength, heq, Nat.sub_self, hx]
      rfl

/-- No stride that is begun ends outside the list. -/
theorem mul_lt_of_lt_strides {n length k : Nat} (h : k < (length + n - 1) / n) :
    k * n < length := by
  have hn : 0 < n := by
    by_contra hzero
    rw [Nat.eq_zero_of_not_pos hzero, Nat.div_zero] at h
    omega
  have hle : (k + 1) * n ≤ length + n - 1 := (Nat.le_div_iff_mul_le hn).1 h
  rw [Nat.succ_mul] at hle
  omega

theorem everyNth_spec (n : Nat) (xs : List β) :
    (everyNth n xs).length = (xs.length + n - 1) / n ∧
      ∀ k < (everyNth n xs).length, k * n < xs.length ∧ (everyNth n xs)[k]? = xs[k * n]? := by
  have hsome : ∀ k < (xs.length + n - 1) / n, (xs[k * n]?).isSome = true := by
    intro k hk
    rw [List.getElem?_eq_getElem (mul_lt_of_lt_strides hk)]
    rfl
  obtain ⟨hlength, hget⟩ := filterMap_range hsome
  refine ⟨hlength, fun k hk => ?_⟩
  have hk' : k < (xs.length + n - 1) / n := by
    rw [← hlength]
    exact hk
  exact ⟨mul_lt_of_lt_strides hk', hget k hk'⟩

/-! ## What is selected of a complete history -/

/-- What a selection is of the history of a chain. -/
structure IsSelection (s : Sampler α σ) (history : Array (Point α)) (selection : Draws α) :
    Prop where
  size_eq : selection.size = s.settings.schedule.retained
  size_ceil : selection.size =
    (s.settings.schedule.iterations - s.settings.schedule.burnIn) ⌈/⌉ s.settings.schedule.thin
  size_pos : 1 ≤ selection.size
  point : ∀ k < selection.size,
    s.settings.schedule.burnIn + k * s.settings.schedule.thin < history.size ∧
      selection.points[k]? =
        history[s.settings.schedule.burnIn + k * s.settings.schedule.thin]?

variable {s : Sampler α σ}

theorem isSelection_select {history : Array (Point α)} (valid : s.settings.schedule.Valid)
    (h : history.size = s.settings.schedule.iterations) :
    s.IsSelection history (s.select history) := by
  have hburn := valid.burnIn_lt
  have hthin := valid.thin_pos
  have hdrop : (history.toList.drop s.settings.schedule.burnIn).length =
      s.settings.schedule.iterations - s.settings.schedule.burnIn := by
    rw [List.length_drop, Array.length_toList, h]
  obtain ⟨hlength, hget⟩ := everyNth_spec s.settings.schedule.thin
    (history.toList.drop s.settings.schedule.burnIn)
  have hsize : (s.select history).size = s.settings.schedule.retained := by
    unfold Draws.size select Schedule.retained
    rw [hlength, hdrop]
  refine ⟨hsize, hsize, ?_, fun k hk => ?_⟩
  · rw [hsize]
    exact Nat.div_pos (by omega) hthin
  · obtain ⟨hlt, hk⟩ := hget k hk
    refine ⟨by omega, ?_⟩
    unfold select
    dsimp only
    rw [hk, List.getElem?_drop, Array.getElem?_toList]

variable [Scalar α]

/-! ## The proposal after the warm-up -/

/-- Whether every iteration after the warm-up was made with the proposal that a chain has now. -/
def IsSettled (s : Sampler α σ) (log : List (Iteration α)) (stage : Stage α) : Prop :=
  ∀ trace, stage.trace? = some trace → ∀ i it, s.settings.schedule.warmUp ≤ i →
    log[i]? = some it → it.before.walk = trace.walker.walk

theorem isSettled_iterate {trace : Trace α} {stage : Stage α} {walker : Walker α}
    {accepted : Bool} {log : List (Iteration α)} {w w' : World α σ}
    (hsound : s.Sound stage) (hlength : log.length = trace.history.size)
    (hlog : s.IsSettled log stage) (running : stage.running? = some trace)
    (h : trace.walker.iterate s.target w = .ok (accepted, walker) w') :
    s.IsSettled (log ++ [⟨w.tape, trace.walker, accepted, walker.current⟩])
      (s.nextStage stage (extend trace walker)) := by
  intro trace' started i it hi hit
  have hsize := (List.getElem?_eq_some_iff.1 hit).1
  rw [List.length_append, List.length_singleton] at hsize
  rcases Stage.running?_cases running with rfl | rfl
  · -- The last iteration of the warm-up still is one of the warm-up.
    have hearly := IsWarming.early hsound
    omega
  · -- A frozen proposal stays as it is when it is recorded whether it was accepted.
    cases started
    have hfrozen := IsSampling.frozen hsound
    have hwalk : walker.walk = trace.walker.walk := by
      rw [(iterate_counts h).2, RandomWalk.record_of_frozen _ _ hfrozen]
    show it.before.walk = walker.walk
    rw [hwalk]
    by_cases hlast : i < log.length
    · rw [List.getElem?_append_left hlast] at hit
      exact hlog trace rfl i it hi hit
    · rw [List.getElem?_append_right (by omega)] at hit
      have hzero : i - log.length = 0 := by omega
      rw [hzero] at hit
      cases hit
      rfl

/-- What a path preserves: the soundness of the stage, the record of the history, and the proposal
after the warm-up. -/
structure IsSelectable (s : Sampler α σ) (log : List (Iteration α)) (stage : Stage α) : Prop where
  sound : s.Sound stage
  recorded : s.IsRecorded log stage
  settled : s.IsSettled log stage

theorem isSelectable_transition (valid : s.settings.schedule.Valid) {c d : Chain α σ}
    {log more : List (Iteration α)} (hc : s.IsSelectable log c.stage)
    (h : s.Transition c more d) : s.IsSelectable (log ++ more) d.stage := by
  refine ⟨sound_transition valid hc.sound h, isRecorded_transition hc.recorded h, ?_⟩
  cases h with
  | start h =>
    rw [hc.recorded.unstarted rfl]
    intro trace _ i it _ hit
    rw [List.append_nil, List.getElem?_nil] at hit
    cases hit
  | refused h =>
    rw [List.append_nil]
    intro trace started
    rw [Stage.trace?_afterError] at started
    exact hc.settled trace started
  | @iterate w w' stage trace accepted walker running left h =>
    have hlength := (hc.recorded.started trace (Stage.trace?_of_running running)).length_eq
    exact isSettled_iterate hc.sound hlength hc.settled running h
  | broken running left h =>
    rw [List.append_nil]
    intro trace started
    rw [Stage.trace?_afterError] at started
    exact hc.settled trace started
  | release started unreleased complete =>
    rw [List.append_nil]
    intro trace h
    cases h
    exact hc.settled _ started
  | score memory =>
    rw [List.append_nil]
    exact hc.settled

theorem isSelectable_of_path (valid : s.settings.schedule.Valid) {memory : σ} {c : Chain α σ}
    {log : List (Iteration α)} (h : s.Path (s.newChain memory) log c) :
    s.IsSelectable log c.stage :=
  h.preserves (P := fun log c => s.IsSelectable log c.stage)
    (fun hc h => isSelectable_transition valid hc h)
    ⟨trivial, isRecorded_initializing s, fun _ h => by cases h⟩

/-- The iterations that draws come from, by a record of the path to a chain that released them. -/
theorem selected_of_path (valid : s.settings.schedule.Valid) {memory : σ} {c : Chain α σ}
    {log : List (Iteration α)} {trace : Trace α} {selection : Draws α}
    (h : s.Path (s.newChain memory) log c) (started : c.stage.trace? = some trace)
    (ht : s.IsSampling trace) (hselection : s.IsSelection trace.history selection) :
    ∀ k < selection.size, ∃ it,
      log[s.settings.schedule.burnIn + k * s.settings.schedule.thin]? = some it ∧
        selection.points[k]? = some it.point ∧ it.before.walk.frozen = true ∧
        it.before.walk.scale = trace.walker.walk.scale := by
  intro k hk
  -- The iteration comes after the burn-in and hence after the warm-up.
  obtain ⟨hlt, hpoint⟩ := hselection.point k hk
  have hc := isSelectable_of_path valid h
  have hlog := hc.recorded.started trace started
  have hwarm := valid.warmUp_le
  rw [← hlog.length_eq] at hlt
  have hit := List.getElem?_eq_getElem hlt
  have hwalk := hc.settled trace started _ _ (by omega) hit
  refine ⟨_, hit, ?_, ?_, ?_⟩
  · rw [hpoint, hlog.history_getElem?, hit, Option.map_some]
  · rw [hwalk]
    exact ht.frozen
  · rw [hwalk]

/-! ## Released draws -/

/-- How a finalized chain answers. -/
structure IsFinal (s : Sampler α σ) (c : Chain α σ) (selection : Draws α) : Prop where
  phase : c.phase = .finalized
  draws : c.draws = .ok selection
  prepare : s.prepare c = .error .alreadyReleased c
  step : s.step c = .error .alreadyReleased c
  run : s.run c = .error .alreadyReleased c
  release : s.release c = .ok selection c

theorem isFinal_of_selection? {c : Chain α σ} {selection : Draws α}
    (h : c.stage.selection? = some selection) : s.IsFinal c selection where
  phase := by
    rcases c with ⟨w, stage⟩
    cases stage <;> cases h
    rfl
  draws := by rw [Chain.draws, h]
  prepare := prepare_finalized h
  step := step_finalized h
  run := run_finalized h
  release := release_finalized h

/-- A chain releases its draws exactly if all its iterations are done, and refuses to with the
counts otherwise. The draws are the points that the schedule names, all from iterations with one
frozen proposal, and they stay as they are whatever is called afterwards. They can be asked for
exactly if they were released. -/
theorem release_after {m : Model α σ} {settings : Settings α}
    (accepted : ofModel m settings = .ok s) (memory : σ) (calls : List Call) :
    let c := s.after memory calls
    ((∃ selection d, s.release c = .ok selection d) ↔
        c.completed = s.settings.schedule.iterations) ∧
      (c.completed ≠ s.settings.schedule.iterations →
        s.release c = .error (.incomplete c.completed s.settings.schedule.iterations) c) ∧
      (∀ selection d, s.release c = .ok selection d →
        s.IsSelection c.history selection ∧
          (∃ log, s.Path (s.newChain memory) log c) ∧
          (∃ scale, ∀ log, s.Path (s.newChain memory) log c → ∀ k < selection.size, ∃ it,
            log[s.settings.schedule.burnIn + k * s.settings.schedule.thin]? = some it ∧
              selection.points[k]? = some it.point ∧ it.before.walk.frozen = true ∧
              it.before.walk.scale = scale) ∧
          d.history = c.history ∧
          ∀ later, (s.callAll d later).stage = d.stage ∧
            s.IsFinal (s.callAll d later) selection) ∧
      (c.draws = .error .notReleased ↔ ¬ s.Released memory calls) ∧
      (∀ number, c.text number = .error .notReleased ↔ ¬ s.Released memory calls) ∧
      (c.summary = .error .notReleased ↔ ¬ s.Released memory calls) ∧
      (c.report = .error .notReleased ↔ ¬ s.Released memory calls) := by
  intro c
  have valid := valid_of_ofModel accepted
  have hsound : s.Sound c.stage := sound_after valid memory calls
  have hreleased : ¬ s.Released memory calls ↔ c.stage.selection? = none := by
    rw [released_iff valid, not_not]
  refine ⟨⟨fun ⟨selection, d, h⟩ => ?_, release_complete valid⟩, release_incomplete valid hsound,
    fun selection d h => ?_, ?_, fun number => ?_, ?_, ?_⟩
  · obtain ⟨trace, started, -, hsize, -, -⟩ := release_eq_ok valid hsound h
    rw [Chain.completed_of_started started, hsize]
  · obtain ⟨trace, started, ht, hsize, rfl, rfl⟩ := release_eq_ok valid hsound h
    have hhistory := Chain.history_of_started started
    have hselection := isSelection_select (s := s) valid hsize
    refine ⟨?_, after_path s memory calls, ⟨trace.walker.walk.scale, fun log path => ?_⟩, ?_,
      fun later => ?_⟩
    · rw [hhistory]
      exact hselection
    · exact selected_of_path valid path started ht hselection
    · rw [hhistory]
      rfl
    · have hlater := stage_callAll_finalized (s := s)
        (c := ⟨c.world, .finalized trace (s.select trace.history)⟩) rfl later
      exact ⟨hlater, isFinal_of_selection? (by rw [hlater]; rfl)⟩
  · rw [Chain.draws_eq_error_iff, hreleased]
  · rw [Chain.text_eq_error_iff, hreleased]
  · rw [Chain.summary_eq_error_iff, hreleased]
  · rw [Chain.report_eq_error_iff, hreleased]

/-- A chain on the level target that ran to its end keeps two of four points. -/
theorem release_after_level : ∃ selection d,
    ofModel (levelModel none) { Settings.standard with schedule := shortSchedule } =
        .ok (levelSampler none shortSchedule) ∧
      (levelSampler none shortSchedule).release
        ((levelSampler none shortSchedule).after 0 [.run]) = .ok selection d ∧
      selection.size = 2 := by
  obtain ⟨e, hrun, hcompleted⟩ := run_level
  have hafter : (levelSampler none shortSchedule).after 0 [.run] = e := by
    rw [after_singleton, call, hrun, leaves_ok]
  have accepted := ofModel_level none shortSchedule_valid
  obtain ⟨hiff, -, hselection, -⟩ := release_after accepted 0 [.run]
  obtain ⟨selection, d, h⟩ := hiff.2 (by rw [hafter, hcompleted]; rfl)
  exact ⟨selection, d, accepted, h, (hselection selection d h).1.size_eq⟩

end Sampler

end Metropolis
