import Metropolis.Proofs.Budget

/-!
# The first of the best candidates

The candidates of a search depend on the random tape alone: each draw reads two uniforms for each
component, whatever became of the candidates before it. If all of them can be evaluated, the search
ends at the earliest of those that no feasible candidate is above, and it fails exactly if no
candidate is feasible. Otherwise it ends at the first that cannot be evaluated.
-/

namespace Metropolis

variable {α σ : Type} [Scalar α]

/-! ## The candidates -/

namespace Start

theorem sample_snd (s : Start α) (tape : Tape α) :
    (s.sample tape).2 = tape.skip (2 * s.dimension) :=
  standardNormals_snd s.dimension tape

/-- The first `n` draws from a tape. -/
def draws (s : Start α) (tape : Tape α) (n : Nat) : List (List α) :=
  (List.range n).map fun k => (s.sample (tape.skip (2 * s.dimension * k))).1

/-- The centre and the draws. -/
def candidates (s : Start α) (tape : Tape α) (gridSize : Nat) : List (List α) :=
  s.mean :: s.draws tape gridSize

theorem draws_succ (s : Start α) (tape : Tape α) (n : Nat) :
    s.draws tape (n + 1) =
      (s.sample tape).1 :: s.draws (tape.skip (2 * s.dimension)) n := by
  rw [draws, List.range_succ_eq_map, List.map_cons, List.map_map, Nat.mul_zero, Tape.skip_zero]
  congr 1
  apply List.map_congr_left
  intro k _
  show (s.sample (tape.skip (2 * s.dimension * (k + 1)))).1 = _
  rw [Tape.skip_skip, Nat.mul_succ, Nat.add_comm]

theorem length_candidates (s : Start α) (tape : Tape α) (gridSize : Nat) :
    (s.candidates tape gridSize).length = gridSize + 1 := by
  rw [candidates, List.length_cons, draws, List.length_map, List.length_range]

theorem length_of_mem_candidates {s : Start α} {tape : Tape α} {gridSize : Nat} {θ : List α}
    (h : θ ∈ s.candidates tape gridSize) : θ.length = s.dimension := by
  rcases List.mem_cons.1 h with rfl | h
  · rfl
  · obtain ⟨k, -, rfl⟩ := List.mem_map.1 h
    exact s.length_sample _

end Start

/-! ## The first best point of a list -/

namespace Search

/-- Whether `p` is feasible, above every feasible point before it, and not below one after it. -/
def IsFirstBest (points : List (Point α)) (p : Point α) : Prop :=
  p.isFeasible = true ∧ ∃ before after, points = before ++ p :: after ∧
    (∀ q ∈ before, q.isFeasible = true → q.logPosterior < p.logPosterior) ∧
    ∀ q ∈ after, q.isFeasible = true → ¬ p.logPosterior < q.logPosterior

/-- What the best point so far is to the points that were seen. It need not be feasible itself, but
then none of them is. -/
structure IsIncumbent (seen : List (Point α)) (best : Point α) : Prop where
  firstBest : best.isFeasible = true → IsFirstBest seen best
  none_feasible : best.isFeasible = false → ∀ p ∈ seen, p.isFeasible = false

variable {seen points : List (Point α)} {best candidate : Point α}

theorem isIncumbent_singleton (p : Point α) : IsIncumbent [p] p where
  firstBest hp := ⟨hp, [], [], rfl, List.forall_mem_nil _, List.forall_mem_nil _⟩
  none_feasible hp q hq := by
    rw [List.mem_singleton.1 hq]
    exact hp

theorem IsFirstBest.mem (h : IsFirstBest points best) : best ∈ points := by
  obtain ⟨-, before, after, rfl, -⟩ := h
  exact List.mem_append_right before List.mem_cons_self

variable [Scalar.LawfulOrder α]

/-- No feasible point is above the first best one. -/
theorem IsFirstBest.not_lt (h : IsFirstBest points best) {p : Point α} (hp : p ∈ points)
    (hfeasible : p.isFeasible = true) : ¬ best.logPosterior < p.logPosterior := by
  obtain ⟨-, before, after, rfl, hbefore, hafter⟩ := h
  rcases List.mem_append.1 hp with hp | hp
  · intro hlt
    exact Scalar.LawfulOrder.lt_irrefl _
      (Scalar.LawfulOrder.lt_trans hlt (hbefore p hp hfeasible))
  · rcases List.mem_cons.1 hp with rfl | hp
    · exact Scalar.LawfulOrder.lt_irrefl _
    · exact hafter p hp hfeasible

/-- Everything feasible that was seen is below a feasible candidate above the best point so far. -/
theorem IsFirstBest.lt_of_lt (h : IsFirstBest seen best) (hcandidate : candidate.isFeasible = true)
    (habove : best.logPosterior < candidate.logPosterior) {p : Point α} (hp : p ∈ seen)
    (hfeasible : p.isFeasible = true) : p.logPosterior < candidate.logPosterior :=
  (Scalar.LawfulOrder.lt_or_lt h.1 hfeasible hcandidate habove).resolve_left
    (h.not_lt hp hfeasible)

theorem isIncumbent_better (h : IsIncumbent seen best) (candidate : Point α) :
    IsIncumbent (seen ++ [candidate]) (better best candidate) := by
  unfold better
  split
  next htaken =>
    -- The candidate is above all that was seen, or nothing that was seen is feasible.
    obtain ⟨hcandidate, habove⟩ := htaken
    refine ⟨fun _ => ⟨hcandidate, seen, [], rfl, fun p hp hfeasible => ?_,
      List.forall_mem_nil _⟩,
      fun hinfeasible => absurd hcandidate (Bool.eq_false_iff.1 hinfeasible)⟩
    cases hbest : best.isFeasible with
    | false => exact absurd hfeasible (Bool.eq_false_iff.1 (h.none_feasible hbest p hp))
    | true =>
      have habove := habove.resolve_left (Bool.eq_false_iff.not.2 (not_not.2 hbest))
      exact (h.firstBest hbest).lt_of_lt hcandidate habove hp hfeasible
  next hkept =>
    -- The candidate joins the points after the best one, or is infeasible as all before it.
    refine ⟨fun hbest => ?_, fun hbest p hp => ?_⟩
    · obtain ⟨-, before, after, rfl, hbefore, hafter⟩ := h.firstBest hbest
      refine ⟨hbest, before, after ++ [candidate], List.append_assoc _ _ _, hbefore,
        fun p hp hfeasible hlt => ?_⟩
      rcases List.mem_append.1 hp with hp | hp
      · exact hafter p hp hfeasible hlt
      · rw [List.mem_singleton.1 hp] at hfeasible hlt
        exact hkept ⟨hfeasible, .inr hlt⟩
    · rcases List.mem_append.1 hp with hp | hp
      · exact h.none_feasible hbest p hp
      · rw [List.mem_singleton.1 hp]
        exact Bool.eq_false_iff.2 fun hfeasible => hkept ⟨hfeasible, .inl hbest⟩

theorem isIncumbent_foldl (h : IsIncumbent seen best) (points : List (Point α)) :
    IsIncumbent (seen ++ points) (points.foldl better best) := by
  induction points generalizing seen best with
  | nil => rwa [List.append_nil]
  | cons p points ih =>
    rw [List.append_cons]
    exact ih (isIncumbent_better h p)

/-! ## The search as a fold over its candidates -/

omit [Scalar.LawfulOrder α]

variable {t : Target α σ} {start : Start α} {points : List (Point α)} {memory memory' : σ}
  {tape : Tape α}

/-- If the draws can be evaluated one after another, the search folds over what they gave. -/
theorem improve_of_ok {n : Nat} {best : Point α}
    (h : (start.draws tape n).mapM t.evaluate memory = .ok points memory') :
    improve t start n best ⟨memory, tape⟩ =
      .ok (points.foldl better best) ⟨memory', tape.skip (2 * start.dimension * n)⟩ := by
  induction n generalizing best memory tape points with
  | zero =>
    cases h
    rfl
  | succ n ih =>
    -- The draws after the first are those from where the first left the tape.
    rw [Start.draws_succ, List.mapM_cons] at h
    obtain ⟨candidate, middle, hcandidate, h⟩ := bind_eq_ok h
    obtain ⟨rest, last, hrest, h⟩ := bind_eq_ok h
    cases h
    unfold improve
    rw [bind_of_ok _ (Engine.ofSampling_apply _ _), Start.sample_snd]
    refine (bind_of_ok _ (Engine.ofModel_of_ok hcandidate _)).trans ?_
    rw [ih hrest, Tape.skip_skip, Nat.mul_succ, Nat.add_comm, List.foldl_cons]

/-- The search ends at the first draw that cannot be evaluated, and draws no more. -/
theorem improve_of_error {n k : Nat} {best : Point α} {θ : List α} {cause : Error α} {last : σ}
    (hk : (start.draws tape n)[k]? = some θ)
    (h : ((start.draws tape n).take k).mapM t.evaluate memory = .ok points memory')
    (herror : t.evaluate θ memory' = .error cause last) :
    improve t start n best ⟨memory, tape⟩ =
      .error cause ⟨last, tape.skip (2 * start.dimension * (k + 1))⟩ := by
  induction n generalizing best memory tape points k with
  | zero => cases hk
  | succ n ih =>
    rw [Start.draws_succ] at h hk
    unfold improve
    rw [bind_of_ok _ (Engine.ofSampling_apply _ _), Start.sample_snd]
    cases k with
    | zero =>
      cases hk
      cases h
      rw [Nat.zero_add, Nat.mul_one]
      exact bind_of_error _ (Engine.ofModel_of_error herror _)
    | succ k =>
      rw [List.take_succ_cons, List.mapM_cons] at h
      obtain ⟨candidate, middle, hcandidate, h⟩ := bind_eq_ok h
      obtain ⟨rest, last', hrest, h⟩ := bind_eq_ok h
      cases h
      refine (bind_of_ok _ (Engine.ofModel_of_ok hcandidate _)).trans ?_
      rw [ih hk hrest, Tape.skip_skip, Nat.mul_succ _ (k + 1), Nat.add_comm]

/-- If all candidates can be evaluated, the search ends at the best so far after the last. -/
theorem run_of_ok [Scalar.LawfulOrder α] {gridSize : Nat}
    (h : (start.candidates tape gridSize).mapM t.evaluate memory = .ok points memory') :
    ∃ best, IsIncumbent points best ∧ run t start gridSize ⟨memory, tape⟩ =
      if best.isFeasible = true then .ok best ⟨memory', tape.skip (2 * start.dimension * gridSize)⟩
      else .error (.noFeasibleStart (gridSize + 1))
        ⟨memory', tape.skip (2 * start.dimension * gridSize)⟩ := by
  rw [Start.candidates, List.mapM_cons] at h
  obtain ⟨centre, middle, hcentre, h⟩ := bind_eq_ok h
  obtain ⟨rest, last, hrest, h⟩ := bind_eq_ok h
  cases h
  refine ⟨rest.foldl better centre, isIncumbent_foldl (isIncumbent_singleton centre) rest, ?_⟩
  unfold run
  rw [bind_of_ok _ (Engine.ofModel_of_ok hcentre _), bind_of_ok _ (improve_of_ok hrest)]
  split <;> rfl

/-- The search ends at the first candidate that cannot be evaluated. -/
theorem run_of_error {gridSize k : Nat} {θ : List α} {cause : Error α} {last : σ}
    (hk : (start.candidates tape gridSize)[k]? = some θ)
    (h : ((start.candidates tape gridSize).take k).mapM t.evaluate memory = .ok points memory')
    (herror : t.evaluate θ memory' = .error cause last) :
    run t start gridSize ⟨memory, tape⟩ =
      .error cause ⟨last, tape.skip (2 * start.dimension * k)⟩ := by
  unfold run
  cases k with
  | zero =>
    cases hk
    cases h
    exact bind_of_error _ (Engine.ofModel_of_error herror _)
  | succ k =>
    rw [Start.candidates, List.take_succ_cons, List.mapM_cons] at h
    obtain ⟨centre, middle, hcentre, h⟩ := bind_eq_ok h
    obtain ⟨rest, last', hrest, h⟩ := bind_eq_ok h
    cases h
    rw [bind_of_ok _ (Engine.ofModel_of_ok hcentre _)]
    exact bind_of_error _ (improve_of_error hk hrest herror)

/-- The candidates of a search are the centre and the draws, each of which reads two uniforms for
each component. If all can be evaluated and one is feasible, the search gives the first best of
them, which no feasible candidate is above; it fails with their number exactly if none is feasible.
If one cannot be evaluated, the error of the first such is given, and no later one is drawn. -/
theorem run_firstBest [Scalar.LawfulOrder α] (hstart : start.dimension = t.dimension)
    (gridSize : Nat) (memory : σ) (tape : Tape α) :
    let candidates := start.candidates tape gridSize
    let drawn := fun k => tape.skip (2 * t.dimension * k)
    candidates.length = gridSize + 1 ∧ (∀ θ ∈ candidates, θ.length = t.dimension) ∧
      (∀ points memory', candidates.mapM t.evaluate memory = .ok points memory' →
        ((∃ p ∈ points, p.isFeasible = true) →
          ∃ p, run t start gridSize ⟨memory, tape⟩ = .ok p ⟨memory', drawn gridSize⟩ ∧
            IsFirstBest points p ∧
            ∀ q ∈ points, q.isFeasible = true → ¬ p.logPosterior < q.logPosterior) ∧
        (run t start gridSize ⟨memory, tape⟩ =
            .error (.noFeasibleStart (gridSize + 1)) ⟨memory', drawn gridSize⟩ ↔
          ∀ p ∈ points, p.isFeasible = false)) ∧
      ∀ k θ points middle cause memory', candidates[k]? = some θ →
        (candidates.take k).mapM t.evaluate memory = .ok points middle →
        t.evaluate θ middle = .error cause memory' →
          run t start gridSize ⟨memory, tape⟩ = .error cause ⟨memory', drawn k⟩ := by
  intro candidates drawn
  refine ⟨start.length_candidates tape gridSize,
    fun θ hθ => (Start.length_of_mem_candidates hθ).trans hstart,
    fun points memory' h => ?_, fun k θ points middle cause memory' hk h herror => ?_⟩
  · -- The best point at the end is feasible, or none of the candidates is.
    obtain ⟨best, incumbent, hrun⟩ := run_of_ok h
    rw [hstart] at hrun
    rw [hrun]
    cases hbest : best.isFeasible with
    | false =>
      have hnone := incumbent.none_feasible hbest
      refine ⟨fun ⟨p, hp, hfeasible⟩ => ?_, fun _ => hnone, fun _ => rfl⟩
      cases (hnone p hp).symm.trans hfeasible
    | true =>
      have first := incumbent.firstBest hbest
      refine ⟨fun _ => ⟨best, rfl, first, fun q hq => first.not_lt hq⟩,
        ⟨fun h => ?_, fun hnone => ?_⟩⟩
      · cases h
      · cases (hnone best first.mem).symm.trans hbest
  · rw [run_of_error hk h herror, hstart]

theorem mapM_level {schedule : Schedule} (xs : List Exact) (memory : Nat) :
    (xs.map fun x => [x]).mapM (levelSampler none schedule).target.evaluate memory =
      .ok (xs.map levelPoint) (memory + xs.length) := by
  induction xs generalizing memory with
  | nil => rfl
  | cons x xs ih =>
    rw [List.map_cons, List.mapM_cons, bind_of_ok _ (evaluate_level_eq x memory),
      bind_of_ok _ (ih (memory + 1)), List.length_cons, Nat.add_right_comm]
    rfl

/-- On the level target every candidate is as good as the centre, which is the first. A target that
is worn out after the centre ends the search at the first draw. -/
theorem run_firstBest_level :
    let tape : Tape Exact := ⟨fun _ => .real 0, 0⟩
    let cause : Error Exact := .model (.evaluation "worn out")
    levelStart.dimension = (levelSampler none shortSchedule).target.dimension ∧
      run (levelSampler none shortSchedule).target levelStart 2 ⟨0, tape⟩ =
        .ok (levelPoint 0) ⟨3, tape.skip 4⟩ ∧
      run (levelSampler (some 1) shortSchedule).target levelStart 2 ⟨0, tape⟩ =
        .error cause ⟨2, tape.skip 2⟩ := by
  intro tape cause
  have hstart : levelStart.dimension = 1 := rfl
  obtain ⟨x, hx⟩ := List.length_eq_one_iff.1 (levelStart.length_sample (tape.skip 0))
  obtain ⟨y, hy⟩ := List.length_eq_one_iff.1 (levelStart.length_sample (tape.skip 2))
  have hcandidates : levelStart.candidates tape 2 = [[0], [x], [y]] := by
    rw [← hx, ← hy]
    rfl
  refine ⟨rfl, ?_, ?_⟩
  · obtain ⟨-, -, evaluated, -⟩ :=
      run_firstBest (t := (levelSampler none shortSchedule).target) hstart 2 0 tape
    have hpoints : (levelStart.candidates tape 2).mapM
        (levelSampler none shortSchedule).target.evaluate 0 =
          .ok ([0, x, y].map levelPoint) 3 := by
      rw [hcandidates]
      exact mapM_level [0, x, y] 0
    obtain ⟨p, hrun, ⟨-, before, after, hsplit, hbefore, -⟩, -⟩ :=
      (evaluated _ _ hpoints).1 ⟨levelPoint 0, List.mem_cons_self, rfl⟩
    -- Were there a point before it, that would be below it.
    cases before with
    | nil =>
      rw [← (List.cons.inj hsplit).1] at hrun
      exact hrun
    | cons q before =>
      obtain ⟨z, -, hz⟩ : ∃ z ∈ [0, x, y], levelPoint z = p :=
        List.mem_map.1 (hsplit ▸ List.mem_append_right _ List.mem_cons_self)
      rw [← (List.cons.inj hsplit).1, ← hz] at hbefore
      exact absurd (hbefore _ List.mem_cons_self rfl) (lt_irrefl (0 : ℝ))
  · obtain ⟨-, -, -, failed⟩ :=
      run_firstBest (t := (levelSampler (some 1) shortSchedule).target) hstart 2 0 tape
    exact failed 1 [x] [⟨[0], 0 + 0, 0 + 0 + (0 + 0)⟩] 1 cause 2 (by rw [hcandidates]; rfl)
      (by rw [hcandidates]; rfl) rfl

end Search

end Metropolis
