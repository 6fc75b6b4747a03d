import Metropolis.Proofs.Level
import Metropolis.Proofs.Transition

/-!
# What a chain stores

The record of a path explains the history of the chain at its end: the points that the iterations
reached are the history, each iteration began where the one before it ended, a chain that did not
move repeats its point, and one that moved stands at the feasible evaluation of its proposal. With
a consistent model such a point is what evaluation gives for its parameters at any time.
-/

namespace Metropolis

variable {α σ : Type} [Scalar α]

/-- Whether the point after an iteration is explained by what the walker did. -/
structure Iteration.IsExplained (t : Target α σ) (it : Iteration α) : Prop where
  stayed : it.accepted = false → it.point = it.before.current
  moved : it.accepted = true → it.point.isFeasible = true ∧
    ∃ memory memory', t.evaluate (it.before.proposal it.tape) memory = .ok it.point memory'

/-- Whether a record explains the history of a trace. -/
structure Trace.IsRecorded (t : Target α σ) (trace : Trace α) (log : List (Iteration α)) :
    Prop where
  points : trace.history.toList = log.map Iteration.point
  befores : trace.initial :: trace.history.toList =
    log.map (fun it => it.before.current) ++ [trace.walker.current]
  explained : ∀ it ∈ log, it.IsExplained t
  initial_stored : t.Stored trace.initial
  current_stored : t.Stored trace.walker.current
  history_stored : ∀ p ∈ trace.history, t.Stored p

namespace Sampler

variable {s : Sampler α σ}

/-- Whether a record explains what a stage holds. -/
structure IsRecorded (s : Sampler α σ) (log : List (Iteration α)) (stage : Stage α) : Prop where
  unstarted : stage.trace? = none → log = []
  started : ∀ trace, stage.trace? = some trace → trace.IsRecorded s.target log
  selected : ∀ selection, stage.selection? = some selection →
    ∃ trace, stage.trace? = some trace ∧ selection = s.select trace.history

/-! ## The record is kept -/

theorem isRecorded_initializing (s : Sampler α σ) : s.IsRecorded [] .initializing where
  unstarted _ := rfl
  started _ h := by cases h
  selected _ h := by cases h

theorem isRecorded_of_running {stage : Stage α} {trace : Trace α} {log : List (Iteration α)}
    (running : stage.running? = some trace) (h : trace.IsRecorded s.target log) :
    s.IsRecorded log stage := by
  rcases Stage.running?_cases running with rfl | rfl
  all_goals
    refine ⟨fun h => ?_, fun _ started => ?_, fun _ h => ?_⟩
    · cases h
    · cases started
      exact h
    · cases h

/-- An error of the model keeps the trace, and any other error the stage. -/
theorem isRecorded_afterError {stage : Stage α} {log : List (Iteration α)} (cause : Error α)
    (h : s.IsRecorded log stage) : s.IsRecorded log (stage.afterError cause) := by
  cases cause <;> try exact h
  refine ⟨h.unstarted, h.started, fun _ h => ?_⟩
  cases h

theorem isRecorded_firstStage {distribution : Start α} {point : Point α}
    (h : s.target.Stored point) : s.IsRecorded [] (s.firstStage distribution point) := by
  -- With a warm-up or without, the trace is new and differs only in its proposal.
  have hnew : ∀ walk : RandomWalk α,
      Trace.IsRecorded s.target ⟨point, .ofPoint point walk, #[], {}⟩ [] := by
    intro walk
    refine ⟨rfl, rfl, fun _ hit => ?_, h, h, fun _ hp => ?_⟩
    · cases hit
    · exact absurd hp (Array.not_mem_empty _)
  unfold firstStage
  dsimp only
  split
  · exact isRecorded_of_running rfl (hnew _)
  · exact isRecorded_of_running rfl (hnew _)

theorem explained_of_iterate {trace : Trace α} {walker : Walker α} {accepted : Bool}
    {w w' : World α σ} (h : trace.walker.iterate s.target w = .ok (accepted, walker) w') :
    Iteration.IsExplained s.target ⟨w.tape, trace.walker, accepted, walker.current⟩ := by
  obtain ⟨candidate, heval, hfeasible, rfl⟩ := Walker.iterate_eq_ok h
  refine ⟨fun hstayed => ?_, fun hmoved => ?_⟩
  · dsimp only at hstayed ⊢
    rw [hstayed]
    rfl
  · dsimp only at hmoved ⊢
    rw [hmoved]
    exact ⟨hfeasible hmoved, w.memory, w'.memory, heval⟩

theorem stored_of_iterate {trace : Trace α} {walker : Walker α} {accepted : Bool}
    {w w' : World α σ} (h : trace.walker.iterate s.target w = .ok (accepted, walker) w')
    (hcurrent : s.target.Stored trace.walker.current) : s.target.Stored walker.current := by
  obtain ⟨candidate, heval, hfeasible, rfl⟩ := Walker.iterate_eq_ok h
  cases accepted with
  | false => exact hcurrent
  | true => exact Target.stored_of_evaluate heval (hfeasible rfl)

/-- One more iteration, whatever the end of it does to the proposal. -/
theorem isRecorded_extend {trace trace' : Trace α} {walker : Walker α} {accepted : Bool}
    {log : List (Iteration α)} {w w' : World α σ} (hlog : trace.IsRecorded s.target log)
    (h : trace.walker.iterate s.target w = .ok (accepted, walker) w')
    (hinitial : trace'.initial = trace.initial)
    (hhistory : trace'.history = trace.history.push walker.current)
    (hcurrent : trace'.walker.current = walker.current) :
    trace'.IsRecorded s.target
      (log ++ [⟨w.tape, trace.walker, accepted, walker.current⟩]) := by
  have hstored := stored_of_iterate h hlog.current_stored
  refine ⟨?_, ?_, fun it hit => ?_, ?_, ?_, fun p hp => ?_⟩
  · rw [hhistory, Array.toList_push, hlog.points, List.map_append, List.map_singleton]
  · rw [hinitial, hhistory, hcurrent, Array.toList_push, ← List.cons_append, hlog.befores,
      List.map_append, List.map_singleton]
  · rcases List.mem_append.1 hit with hit | hit
    · exact hlog.explained it hit
    · rw [List.mem_singleton.1 hit]
      exact explained_of_iterate h
  · rw [hinitial]
    exact hlog.initial_stored
  · rw [hcurrent]
    exact hstored
  · rw [hhistory] at hp
    rcases Array.mem_push.1 hp with hp | rfl
    · exact hlog.history_stored p hp
    · exact hstored

theorem isRecorded_transition {c d : Chain α σ} {log more : List (Iteration α)}
    (hc : s.IsRecorded log c.stage) (h : s.Transition c more d) :
    s.IsRecorded (log ++ more) d.stage := by
  cases h with
  | start h =>
    -- The start is no iteration, and none was recorded before it.
    obtain ⟨distribution, point, -, -, hpoint, rfl⟩ := start_eq_ok h
    rw [hc.unstarted rfl]
    exact isRecorded_firstStage (Search.run_stored hpoint)
  | @refused w w' cause h =>
    rw [List.append_nil]
    exact isRecorded_afterError cause hc
  | @iterate w w' stage trace accepted walker running left h =>
    -- The end of the iteration changes nothing that the record speaks of.
    obtain ⟨trace', running', hinitial, hhistory, hcurrent, -, -⟩ :=
      running?_nextStage s stage (extend trace walker)
    have hlog := hc.started trace (Stage.trace?_of_running running)
    exact isRecorded_of_running running' (isRecorded_extend hlog h hinitial hhistory hcurrent)
  | @broken w w' stage trace cause running left h =>
    rw [List.append_nil]
    exact isRecorded_afterError cause hc
  | @release w stage trace started unreleased complete =>
    rw [List.append_nil]
    refine ⟨fun h => ?_, fun _ h => ?_, fun _ h => ?_⟩
    · cases h
    · cases h
      exact hc.started trace started
    · cases h
      exact ⟨trace, rfl, rfl⟩
  | score memory =>
    rw [List.append_nil]
    exact hc

theorem isRecorded_of_path {memory : σ} {c : Chain α σ} {log : List (Iteration α)}
    (h : s.Path (s.newChain memory) log c) : s.IsRecorded log c.stage :=
  h.preserves (P := fun log c => s.IsRecorded log c.stage)
    (fun hc h => isRecorded_transition hc h) (isRecorded_initializing s)

end Sampler

/-! ## Reading the record by the number of an iteration -/

namespace Trace.IsRecorded

variable {t : Target α σ} {trace : Trace α} {log : List (Iteration α)}

theorem length_eq (h : trace.IsRecorded t log) : log.length = trace.history.size := by
  rw [← Array.length_toList, h.points, List.length_map]

theorem history_getElem? (h : trace.IsRecorded t log) (i : Nat) :
    trace.history[i]? = log[i]?.map Iteration.point := by
  rw [← Array.getElem?_toList, h.points, List.getElem?_map]

/-- An iteration begins where the one before it ended. -/
theorem before_getElem? (h : trace.IsRecorded t log) {i : Nat} {it : Iteration α}
    (hit : log[i]? = some it) :
    (trace.initial :: trace.history.toList)[i]? = some it.before.current := by
  have hi : i < log.length := (List.getElem?_eq_some_iff.1 hit).1
  rw [h.befores, List.getElem?_append_left (by rw [List.length_map]; exact hi), List.getElem?_map,
    hit, Option.map_some]

end Trace.IsRecorded

namespace Chain

/-- The point that iteration `i` starts from: the start of the chain, or the point of the iteration
before. -/
def before? (c : Chain α σ) : Nat → Option (Point α)
  | 0 => c.initial?
  | i + 1 => c.history[i]?

/-- Whether a point is the start of a chain, in its history or among its released draws. -/
def Stores (c : Chain α σ) (p : Point α) : Prop :=
  c.initial? = some p ∨ p ∈ c.history ∨
    ∃ selection, c.stage.selection? = some selection ∧ p ∈ selection.points

end Chain

namespace Sampler

variable {s : Sampler α σ}

omit [Scalar α] in
theorem mem_of_mem_everyNth {β : Type} {n : Nat} {xs : List β} {x : β} (h : x ∈ everyNth n xs) :
    x ∈ xs := by
  obtain ⟨k, -, hk⟩ := List.mem_filterMap.1 h
  exact List.mem_of_getElem? hk

omit [Scalar α] in
theorem mem_of_mem_select {history : Array (Point α)} {p : Point α}
    (h : p ∈ (s.select history).points) : p ∈ history :=
  Array.mem_toList_iff.1 (List.mem_of_mem_drop (mem_of_mem_everyNth h))

theorem stored_of_stores {c : Chain α σ} {log : List (Iteration α)} {p : Point α}
    (h : s.IsRecorded log c.stage) (hp : c.Stores p) : s.target.Stored p := by
  rcases hp with hp | hp | ⟨selection, hselection, hp⟩
  · obtain ⟨trace, started, rfl⟩ := Option.map_eq_some_iff.1 hp
    exact (h.started trace started).initial_stored
  · cases started : c.stage.trace? with
    | none =>
      rw [Chain.history, started] at hp
      exact absurd hp (Array.not_mem_empty _)
    | some trace =>
      rw [Chain.history_of_started started] at hp
      exact (h.started trace started).history_stored p hp
  · obtain ⟨trace, started, rfl⟩ := h.selected selection hselection
    exact (h.started trace started).history_stored p (mem_of_mem_select hp)

/-- What a record says of iteration `i` of a chain. -/
theorem explains_of_path {memory : σ} {c : Chain α σ} {log : List (Iteration α)}
    (h : s.Path (s.newChain memory) log c) :
    log.length = c.completed ∧ ∀ i it, log[i]? = some it →
      it.IsExplained s.target ∧ c.before? i = some it.before.current ∧
        c.history[i]? = some it.point := by
  have hlog := isRecorded_of_path h
  cases started : c.stage.trace? with
  | none =>
    rw [hlog.unstarted started]
    refine ⟨?_, fun i it hit => ?_⟩
    · rw [Chain.completed_of_unstarted started]
      rfl
    · rw [List.getElem?_nil] at hit
      cases hit
  | some trace =>
    have htrace := hlog.started trace started
    have hhistory := Chain.history_of_started started
    refine ⟨by rw [Chain.completed_of_started started, htrace.length_eq], fun i it hit => ?_⟩
    refine ⟨htrace.explained it (List.mem_of_getElem? hit), ?_, ?_⟩
    · -- The list of the points before the iterations is the history, shifted by the start.
      have hbefore := htrace.before_getElem? hit
      cases i with
      | zero =>
        rw [Chain.before?, Chain.initial?, started]
        exact hbefore
      | succ i =>
        rw [Chain.before?, hhistory, ← Array.getElem?_toList]
        exact hbefore
    · rw [hhistory, htrace.history_getElem?, hit, Option.map_some]

end Sampler

end Metropolis
