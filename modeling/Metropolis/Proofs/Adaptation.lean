import Metropolis.Proofs.Budget
import Metropolis.Proofs.Rates
import Metropolis.Scalar.Lawful

/-!
# The tuning of the proposal

Whatever a proposal is asked to do, its scale stays between the bounds. Along a chain the warm-up
is cut into batches. The scale changes at the end of each full batch, by the acceptance rate of the
batch, and nowhere else: `walkAfter` is the proposal after any recorded iterations.
-/

namespace Metropolis

variable {α σ : Type} [Scalar α]

/-! ## The scale of a proposal -/

theorem Tuning.bounds_of_isValid {t : Tuning α} (h : t.isValid = true) :
    0 < t.interval ∧ (1 : α) ≤ t.increase ∧ (0 : α) < t.decrease ∧ (0 : α) < t.minScale ∧
      t.minScale ≤ t.maxScale := by
  simp only [isValid, Bool.and_eq_true, decide_eq_true_eq] at h
  obtain ⟨⟨⟨⟨⟨⟨⟨-, -⟩, hinterval⟩, hincrease⟩, hdecrease⟩, -⟩, hmin⟩, hbounds⟩ := h.1
  exact ⟨hinterval, hincrease, hdecrease, hmin, hbounds⟩

namespace RandomWalk

/-- What a proposal can be asked that may change it. -/
inductive Change where
  | record (accepted : Bool)
  | retune
  | freeze
deriving Repr, DecidableEq

def change (w : RandomWalk α) : Change → RandomWalk α
  | .record accepted => w.record accepted
  | .retune => w.retune
  | .freeze => w.freeze

def changeAll (w : RandomWalk α) (changes : List Change) : RandomWalk α := changes.foldl change w

/-- The scale before any tuning: `2.38` by the root of the dimension, if that is between the
bounds. -/
def firstScale (t : Tuning α) (dimension : Nat) : α :=
  Scalar.clamp (2.38 / Scalar.sqrt (Scalar.ofCount (max dimension 1))) t.minScale t.maxScale

/-- The scale after a batch of proposals: larger if their rate is above the target, smaller if it is
below, and the same if it is the target, as far as the bounds let it. -/
def rescale (t : Tuning α) (scale : α) (batch : Acceptance) : α :=
  let factor :=
    if t.target < batch.rate then t.increase else if batch.rate < t.target then t.decrease else 1
  Scalar.clamp (scale * factor) t.minScale t.maxScale

theorem retune_of_due {w : RandomWalk α} (h : w.isDue = true) :
    w.retune = { w with scale := rescale w.tuning w.scale w.batch, batch := {} } := if_pos h

theorem retune_of_not_due {w : RandomWalk α} (h : w.isDue = false) : w.retune = w := by
  unfold retune
  rw [h]
  rfl

theorem scale_retune (w : RandomWalk α) :
    w.retune.scale = if w.isDue then rescale w.tuning w.scale w.batch else w.scale := by
  unfold retune
  split <;> rfl

theorem tuning_change (w : RandomWalk α) (k : Change) : (w.change k).tuning = w.tuning := by
  cases k with
  | record accepted => exact tuning_record w accepted
  | retune => exact tuning_retune w
  | freeze => rfl

variable [Scalar.Lawful α] {t : Tuning α}

theorem bestScale_defined (dimension : Nat) :
    Scalar.isUndefined (bestScale dimension : α) = false := by
  have hcount : 0 < min (max dimension 1) Scalar.countLimit := by
    have hlimit : 0 < Scalar.countLimit := by decide
    omega
  exact Scalar.Lawful.defined_div (Scalar.Lawful.isFinite_decimal _ _ (by decide))
    (Scalar.Lawful.sqrt_pos (Scalar.Lawful.ofNat_pos hcount))

theorem factorFor_pos (h : t.isValid = true) (rate : α) : 0 < factorFor t rate := by
  obtain ⟨-, hincrease, hdecrease, -⟩ := Tuning.bounds_of_isValid h
  unfold factorFor
  split
  · exact Scalar.Lawful.lt_of_lt_of_le Scalar.Lawful.zero_lt_one hincrease
  · split
    · exact hdecrease
    · exact Scalar.Lawful.zero_lt_one

theorem firstScale_within (h : t.isValid = true) (dimension : Nat) :
    t.minScale ≤ firstScale t dimension ∧ firstScale t dimension ≤ t.maxScale :=
  Scalar.clamp_within (bestScale_defined dimension) (Tuning.bounds_of_isValid h).2.2.2.2

/-- A positive scale times a factor has a place between the bounds, also if the factor is
infinite. -/
theorem rescale_within (h : t.isValid = true) {scale : α} (hscale : 0 < scale)
    (batch : Acceptance) :
    t.minScale ≤ rescale t scale batch ∧ rescale t scale batch ≤ t.maxScale :=
  Scalar.clamp_within (Scalar.Lawful.defined_mul hscale (factorFor_pos h _))
    (Tuning.bounds_of_isValid h).2.2.2.2

theorem within_change {w : RandomWalk α} (h : w.tuning.isValid = true)
    (hw : w.tuning.minScale ≤ w.scale ∧ w.scale ≤ w.tuning.maxScale) (k : Change) :
    w.tuning.minScale ≤ (w.change k).scale ∧ (w.change k).scale ≤ w.tuning.maxScale := by
  cases k with
  | record accepted =>
    show w.tuning.minScale ≤ (w.record accepted).scale ∧ (w.record accepted).scale ≤ _
    rw [scale_record]
    exact hw
  | retune =>
    show w.tuning.minScale ≤ w.retune.scale ∧ w.retune.scale ≤ _
    cases hdue : w.isDue with
    | true =>
      have hmin := (Tuning.bounds_of_isValid h).2.2.2.1
      rw [retune_of_due hdue]
      exact rescale_within h (Scalar.Lawful.lt_of_lt_of_le hmin hw.1) w.batch
    | false =>
      rw [retune_of_not_due hdue]
      exact hw
  | freeze => exact hw

theorem within_changeAll {w : RandomWalk α} (h : w.tuning.isValid = true)
    (hw : w.tuning.minScale ≤ w.scale ∧ w.scale ≤ w.tuning.maxScale) (changes : List Change) :
    w.tuning.minScale ≤ (w.changeAll changes).scale ∧
      (w.changeAll changes).scale ≤ w.tuning.maxScale := by
  induction changes generalizing w with
  | nil => exact hw
  | cons k changes ih =>
    have hnext := ih (w := w.change k)
    rw [tuning_change] at hnext
    exact hnext h (within_change h hw k)

/-! ### The standard tuning in one dimension -/

theorem clamp_standard {x : ℝ} (hlow : 1 ≤ x) (hhigh : x ≤ 100) :
    Scalar.clamp (.real x) (Tuning.standard : Tuning Exact).minScale Tuning.standard.maxScale =
      .real x := by
  have hmin : (Tuning.standard : Tuning Exact).minScale = .real (1 / 10000) := by
    show (OfScientific.ofScientific 10 true 5 : Exact) = _
    rw [Exact.ofScientific_eq]
    norm_num
  have hmax : (Tuning.standard : Tuning Exact).maxScale = .real 100 := by
    show (OfNat.ofNat 100 : Exact) = _
    rw [Exact.ofNat_eq, Nat.cast_ofNat]
  rw [hmin, hmax, Exact.clamp_real (by linarith) hhigh]

theorem firstScale_standard : firstScale (Tuning.standard : Tuning Exact) 1 = .real 2.38 := by
  have hcount : (Scalar.ofCount (max 1 1) : Exact) = .real (1 : ℕ) := rfl
  have hbest : (2.38 / Scalar.sqrt (Scalar.ofCount (max 1 1)) : Exact) = .real 2.38 := by
    rw [hcount, Nat.cast_one, Exact.sqrt_real zero_le_one, Real.sqrt_one, Exact.ofScientific_eq,
      Exact.real_div _ one_ne_zero]
    norm_num
  rw [firstScale, hbest, clamp_standard (by norm_num) (by norm_num)]

/-- A rejected proposal narrows the steps by a fifth. -/
theorem rescale_rejected :
    rescale (Tuning.standard : Tuning Exact) (.real 2.38) ⟨1, 0⟩ = .real 1.904 := by
  have hrate : (Acceptance.rate ⟨1, 0⟩ : Exact) = .real 0 := by
    show Exact.real (0 : ℕ) / Exact.real (1 : ℕ) = _
    rw [Exact.real_div _ (by norm_num), Nat.cast_zero, zero_div]
  have htarget : (Tuning.standard : Tuning Exact).target = .real 0.234 := by
    show (OfScientific.ofScientific 234 true 3 : Exact) = _
    rw [Exact.ofScientific_eq]
  have hdecrease : (Tuning.standard : Tuning Exact).decrease = .real 0.8 := by
    show (OfScientific.ofScientific 8 true 1 : Exact) = _
    rw [Exact.ofScientific_eq]
  have hbelow : (.real 0 : Exact) < .real 0.234 := by
    rw [Exact.real_lt]
    norm_num
  have hnot : ¬ (.real 0.234 : Exact) < .real 0 := by
    rw [Exact.real_lt]
    norm_num
  have hproduct : (2.38 : ℝ) * 0.8 = 1.904 := by norm_num
  dsimp only [rescale]
  rw [hrate, htarget, if_neg hnot, if_pos hbelow, hdecrease, Exact.real_mul, hproduct,
    clamp_standard (by norm_num) (by norm_num)]

end RandomWalk

/-! ## Batches of iterations -/

section Batches

variable {log : List (Iteration α)} {interval : Nat}

/-- The counts of one of the batches into which recorded iterations are cut. -/
def batchAt (interval : Nat) (log : List (Iteration α)) (m : Nat) : Acceptance :=
  .ofRecord ((log.drop (m * interval)).take interval)

/-- The counts of the full batches, in order. -/
def batches (interval : Nat) (log : List (Iteration α)) : List Acceptance :=
  (List.range (log.length / interval)).map (batchAt interval log)

/-- The counts of the iterations after the last full batch. -/
def unfinished (interval : Nat) (log : List (Iteration α)) : Acceptance :=
  .ofRecord (log.drop (log.length / interval * interval))

omit [Scalar α] in
theorem proposed_unfinished (interval : Nat) (log : List (Iteration α)) :
    (unfinished interval log).proposed = log.length % interval := by
  have hlength := Nat.div_add_mod' log.length interval
  show (log.drop _).length = _
  rw [List.length_drop]
  omega

omit [Scalar α] in
theorem batchAt_append {m : Nat} (h : (m + 1) * interval ≤ log.length)
    (more : List (Iteration α)) : batchAt interval (log ++ more) m = batchAt interval log m := by
  have hnext : (m + 1) * interval = m * interval + interval := Nat.succ_mul m interval
  have hdrop : interval ≤ (log.drop (m * interval)).length := by
    rw [List.length_drop]
    omega
  unfold batchAt
  rw [List.drop_append_of_le_length (by omega), List.take_append_of_le_length hdrop]

omit [Scalar α] in
theorem drop_append_singleton (log : List (Iteration α)) (it : Iteration α) :
    Acceptance.ofRecord ((log ++ [it]).drop (log.length / interval * interval)) =
      (unfinished interval log).record it.accepted := by
  rw [List.drop_append_of_le_length (Nat.div_mul_le_self _ _),
    Acceptance.ofRecord_append_singleton, unfinished]

omit [Scalar α] in
/-- The iteration that fills a batch leaves none unfinished. -/
theorem unfinished_append (log : List (Iteration α)) (it : Iteration α) :
    unfinished interval (log ++ [it]) =
      if interval ∣ log.length + 1 then {} else (unfinished interval log).record it.accepted := by
  have hlength : (log ++ [it]).length = log.length + 1 := List.length_append
  unfold unfinished
  split
  next hfull =>
    rw [List.drop_of_length_le (by rw [hlength, Nat.div_mul_cancel hfull]), Acceptance.ofRecord_nil]
  next hpart => rw [hlength, Nat.succ_div_of_not_dvd hpart, drop_append_singleton, unfinished]

omit [Scalar α] in
theorem batches_append (hinterval : 0 < interval) (log : List (Iteration α)) (it : Iteration α) :
    batches interval (log ++ [it]) =
      if interval ∣ log.length + 1 then
        batches interval log ++ [(unfinished interval log).record it.accepted]
      else batches interval log := by
  have hlength : (log ++ [it]).length = log.length + 1 := List.length_append
  have hkept : (List.range (log.length / interval)).map (batchAt interval (log ++ [it])) =
      batches interval log := by
    refine List.map_congr_left fun m hm => batchAt_append ?_ [it]
    exact Nat.le_trans (Nat.mul_le_mul_right interval (List.mem_range.1 hm))
      (Nat.div_mul_le_self _ _)
  unfold batches
  split
  next hfull =>
    -- The batch that is full now takes up all that is left.
    have hlast : ((log ++ [it]).drop (log.length / interval * interval)).length ≤ interval := by
      have hmod := Nat.mod_lt log.length hinterval
      have hdiv := Nat.div_add_mod' log.length interval
      rw [List.length_drop, hlength]
      omega
    rw [hlength, Nat.succ_div_of_dvd hfull, List.range_succ, List.map_append, hkept,
      List.map_singleton, batchAt, List.take_of_length_le hlast, drop_append_singleton]
    rfl
  next hpart => rw [hlength, Nat.succ_div_of_not_dvd hpart, hkept, batches]

/-- The scale after recorded iterations of the warm-up: changed once for each full batch. -/
def tunedScale (t : Tuning α) (dimension : Nat) (log : List (Iteration α)) : α :=
  (batches t.interval log).foldl (RandomWalk.rescale t) (RandomWalk.firstScale t dimension)

theorem tunedScale_append {t : Tuning α} (hinterval : 0 < t.interval) (dimension : Nat)
    (log : List (Iteration α)) (it : Iteration α) :
    tunedScale t dimension (log ++ [it]) =
      if t.interval ∣ log.length + 1 then
        RandomWalk.rescale t (tunedScale t dimension log)
          ((unfinished t.interval log).record it.accepted)
      else tunedScale t dimension log := by
  unfold tunedScale
  rw [batches_append hinterval]
  split
  · rw [List.foldl_append, List.foldl_cons, List.foldl_nil]
  · rfl

theorem tunedScale_within [Scalar.Lawful α] {t : Tuning α} (h : t.isValid = true)
    (dimension : Nat) (log : List (Iteration α)) :
    t.minScale ≤ tunedScale t dimension log ∧ tunedScale t dimension log ≤ t.maxScale := by
  have hmin := (Tuning.bounds_of_isValid h).2.2.2.1
  unfold tunedScale
  generalize batches t.interval log = counts
  induction counts using List.reverseRecOn with
  | nil => exact RandomWalk.firstScale_within h dimension
  | append_singleton counts batch ih =>
    rw [List.foldl_append]
    exact RandomWalk.rescale_within h (Scalar.Lawful.lt_of_lt_of_le hmin ih.1) batch

/-- The proposal after recorded iterations of the warm-up. -/
def tunedWalk (t : Tuning α) (factor : DenseMatrix α) (log : List (Iteration α)) :
    RandomWalk α where
  factor := factor
  scale := tunedScale t factor.rows log
  tuning := t
  batch := unfinished t.interval log
  frozen := false

theorem tunedWalk_nil (t : Tuning α) (factor : DenseMatrix α) :
    tunedWalk t factor [] = RandomWalk.ofFactor factor t := by
  have hscale : tunedScale t factor.rows [] = RandomWalk.firstScale t factor.rows := by
    rw [tunedScale, batches, List.length_nil, Nat.zero_div]
    rfl
  have hbatch : unfinished t.interval ([] : List (Iteration α)) = {} := by
    rw [unfinished, List.drop_nil, Acceptance.ofRecord_nil]
  rw [tunedWalk, hscale, hbatch]
  rfl

theorem record_tunedWalk (t : Tuning α) (factor : DenseMatrix α) (log : List (Iteration α))
    (accepted : Bool) : (tunedWalk t factor log).record accepted =
      { tunedWalk t factor log with batch := (unfinished t.interval log).record accepted } := rfl

theorem le_mod_succ_iff {n : Nat} (hinterval : 0 < interval) :
    interval ≤ n % interval + 1 ↔ interval ∣ n + 1 := by
  cases interval with
  | zero => omega
  | succ k =>
    have hmod := Nat.mod_lt n hinterval
    rw [Nat.dvd_iff_mod_eq_zero, Nat.succ_mod_succ_eq_zero_iff]
    omega

/-- A change of the scale is due where the iteration fills a batch. -/
theorem isDue_tunedWalk {t : Tuning α} (hinterval : 0 < t.interval) (factor : DenseMatrix α)
    (log : List (Iteration α)) (accepted : Bool) :
    ((tunedWalk t factor log).record accepted).isDue = true ↔ t.interval ∣ log.length + 1 := by
  have hdue : ((tunedWalk t factor log).record accepted).isDue =
      decide (t.interval ≤ (unfinished t.interval log).proposed + 1) := rfl
  rw [hdue, decide_eq_true_eq, proposed_unfinished, le_mod_succ_iff hinterval]

theorem tunedWalk_append {t : Tuning α} (hinterval : 0 < t.interval) (factor : DenseMatrix α)
    (log : List (Iteration α)) (it : Iteration α) :
    tunedWalk t factor (log ++ [it]) = ((tunedWalk t factor log).record it.accepted).retune := by
  have hdue := isDue_tunedWalk hinterval factor log it.accepted
  by_cases hfull : t.interval ∣ log.length + 1
  · rw [RandomWalk.retune_of_due (hdue.2 hfull), tunedWalk, tunedScale_append hinterval,
      unfinished_append, if_pos hfull, if_pos hfull]
    rfl
  · rw [RandomWalk.retune_of_not_due (Bool.eq_false_iff.2 (mt hdue.1 hfull)), tunedWalk,
      tunedScale_append hinterval, unfinished_append, if_neg hfull, if_neg hfull]
    rfl

end Batches

/-! ## The proposal along a chain -/

/-- The counts of an unfinished batch, with the iteration itself. -/
def Iteration.batch (it : Iteration α) : Acceptance := (it.before.walk.record it.accepted).batch

/-- Whether the scale is changed at the end of an iteration. -/
def Iteration.tunes (it : Iteration α) : Bool := (it.before.walk.record it.accepted).isDue

namespace Sampler

variable {s : Sampler α σ} {c : Chain α σ} {factor : DenseMatrix α} {trace : Trace α}
  {log : List (Iteration α)}

/-- The proposal after recorded iterations. The end of the warm-up drops a batch that is not
full. -/
def walkAfter (s : Sampler α σ) (factor : DenseMatrix α) (log : List (Iteration α)) :
    RandomWalk α :=
  let walk := tunedWalk s.settings.tuning factor (log.take s.settings.schedule.warmUp)
  if log.length < s.settings.schedule.warmUp then walk else walk.freeze

theorem walkAfter_of_warming (h : log.length < s.settings.schedule.warmUp) :
    s.walkAfter factor log = tunedWalk s.settings.tuning factor log := by
  unfold walkAfter
  rw [if_pos h, List.take_of_length_le h.le]

theorem walkAfter_of_late (h : s.settings.schedule.warmUp ≤ log.length) :
    s.walkAfter factor log =
      (tunedWalk s.settings.tuning factor (log.take s.settings.schedule.warmUp)).freeze :=
  if_neg (by omega)

theorem scale_walkAfter (s : Sampler α σ) (factor : DenseMatrix α) (log : List (Iteration α)) :
    (s.walkAfter factor log).scale =
      tunedScale s.settings.tuning factor.rows (log.take s.settings.schedule.warmUp) := by
  unfold walkAfter
  dsimp only
  split <;> rfl

theorem walkAfter_append_of_warming (hinterval : 0 < s.settings.tuning.interval)
    (h : log.length < s.settings.schedule.warmUp) (it : Iteration α) :
    s.walkAfter factor (log ++ [it]) =
      if s.settings.schedule.warmUp ≤ log.length + 1
      then ((s.walkAfter factor log).record it.accepted).retune.freeze
      else ((s.walkAfter factor log).record it.accepted).retune := by
  have hlength : (log ++ [it]).length = log.length + 1 := List.length_append
  rw [walkAfter_of_warming h, ← tunedWalk_append hinterval]
  split
  next hlast => rw [walkAfter_of_late (by omega), List.take_of_length_le (by omega)]
  next hmore => rw [walkAfter_of_warming (by omega)]

theorem walkAfter_append_of_late (h : s.settings.schedule.warmUp ≤ log.length)
    (it : Iteration α) : s.walkAfter factor (log ++ [it]) = s.walkAfter factor log := by
  have hlength : (log ++ [it]).length = log.length + 1 := List.length_append
  rw [walkAfter_of_late h, walkAfter_of_late (by omega), List.take_append_of_le_length h]

theorem tuning_walkAfter (s : Sampler α σ) (factor : DenseMatrix α) (log : List (Iteration α)) :
    (s.walkAfter factor log).tuning = s.settings.tuning := by
  unfold walkAfter
  dsimp only
  split <;> rfl

/-- Whether the proposals of a trace and of a record are those that tuning leads to. -/
structure IsTuned (s : Sampler α σ) (factor : DenseMatrix α) (log : List (Iteration α))
    (trace : Trace α) : Prop where
  rows_factor : factor.rows = s.target.dimension
  walk : trace.walker.walk = s.walkAfter factor log
  before : ∀ i it, log[i]? = some it → it.before.walk = s.walkAfter factor (log.take i)

theorem isTuned_first {distribution : Start α} {point : Point α}
    (hdimension : distribution.dimension = s.target.dimension)
    (started : (s.firstStage distribution point).trace? = some trace) :
    s.IsTuned distribution.factor [] trace := by
  refine ⟨distribution.rows_factor.trans hdimension, ?_, fun i it h => by cases h⟩
  have hfirst := tunedWalk_nil s.settings.tuning distribution.factor
  unfold firstStage at started
  dsimp only at started
  split at started <;> cases started
  next hnone =>
    rw [walkAfter_of_late (by omega), List.take_nil, hfirst]
    rfl
  next hsome =>
    have hwarming : ([] : List (Iteration α)).length < s.settings.schedule.warmUp :=
      Nat.pos_of_ne_zero hsome
    rw [walkAfter_of_warming hwarming, hfirst]
    rfl

theorem isTuned_next (hinterval : 0 < s.settings.tuning.interval) {stage : Stage α}
    {trace' : Trace α} {accepted : Bool} {walker : Walker α} {w w' : World α σ}
    (hsound : s.Sound stage) (running : stage.running? = some trace)
    (hlength : log.length = trace.history.size)
    (h : trace.walker.iterate s.target w = .ok (accepted, walker) w')
    (started : (s.nextStage stage (extend trace walker)).trace? = some trace')
    (hlog : s.IsTuned factor log trace) :
    s.IsTuned factor (log ++ [⟨w.tape, trace.walker, accepted, walker.current⟩]) trace' := by
  generalize hit : (⟨w.tape, trace.walker, accepted, walker.current⟩ : Iteration α) = it
  have hbefore : it.before.walk = s.walkAfter factor log := by rw [← hit, ← hlog.walk]
  have hsize : (extend trace walker).history.size = log.length + 1 := by
    rw [hlength]
    exact Array.size_push _
  have hwalk : walker.walk = (s.walkAfter factor log).record it.accepted := by
    rw [(iterate_counts h).2, hlog.walk, ← hit]
  refine ⟨hlog.rows_factor, ?_, fun i it' hi => ?_⟩
  · rcases Stage.running?_cases running with rfl | rfl
    · have hearly := IsWarming.early hsound
      change (s.afterWarmUp _).trace? = _ at started
      rw [trace?_afterWarmUp, hsize] at started
      rw [walkAfter_append_of_warming hinterval (by omega), ← hwalk]
      split at started <;> cases started
      next hlast => rw [if_pos hlast]; rfl
      next hmore => rw [if_neg hmore]; rfl
    · have hlate := IsSampling.late hsound
      cases started
      have hfrozen : (s.walkAfter factor log).frozen = true := by
        rw [walkAfter_of_late (by omega), RandomWalk.frozen_freeze]
      rw [walkAfter_append_of_late (by omega)]
      exact hwalk.trans (RandomWalk.record_of_frozen _ _ hfrozen)
  · rcases Nat.lt_or_ge i log.length with hlt | hge
    · rw [List.getElem?_append_left hlt] at hi
      rw [List.take_append_of_le_length hlt.le]
      exact hlog.before i it' hi
    · -- The new iteration began with the proposal that the trace had before it.
      rw [List.getElem?_append_right hge] at hi
      have hlast : i - log.length = 0 := by
        have hbound := (List.getElem?_eq_some_iff.1 hi).1
        rw [List.length_singleton] at hbound
        omega
      rw [hlast] at hi
      cases hi
      rw [List.take_left' (by omega), hbefore]

theorem isTuned_of_path (valid : s.settings.schedule.Valid)
    (hinterval : 0 < s.settings.tuning.interval) {memory : σ}
    (h : s.Path (s.newChain memory) log c) (started : c.stage.trace? = some trace) :
    ∃ factor, s.IsTuned factor log trace :=
  h.trace_preserves valid (P := fun log trace => ∃ factor, s.IsTuned factor log trace)
    (fun _ _ _ hdimension started => ⟨_, isTuned_first hdimension started⟩)
    (fun hsound running hlength h started ⟨factor, hlog⟩ =>
      ⟨factor, isTuned_next hinterval hsound running hlength h started hlog⟩) started

/-! ## What a chain shows of its tuning -/

omit [Scalar α] in
theorem take_succ_of_getElem? {i : Nat} {it : Iteration α} (h : log[i]? = some it) :
    log.take (i + 1) = log.take i ++ [it] ∧ (log.take i).length = i := by
  obtain ⟨hi, hit⟩ := List.getElem?_eq_some_iff.1 h
  rw [List.take_succ_eq_append_getElem hi, hit, List.length_take]
  exact ⟨rfl, by omega⟩

namespace IsTuned

variable {i : Nat} {it : Iteration α}

theorem before_of_warming (h : s.IsTuned factor log trace) (hit : log[i]? = some it)
    (hwarm : i < s.settings.schedule.warmUp) :
    it.before.walk = tunedWalk s.settings.tuning factor (log.take i) := by
  have hlength := (take_succ_of_getElem? hit).2
  rw [h.before i it hit, walkAfter_of_warming (by omega)]

theorem frozen_of_late (h : s.IsTuned factor log trace) (hit : log[i]? = some it)
    (hlate : s.settings.schedule.warmUp ≤ i) : it.before.walk.frozen = true := by
  have hlength := (take_succ_of_getElem? hit).2
  rw [h.before i it hit, walkAfter_of_late (by omega), RandomWalk.frozen_freeze]

theorem tunes_iff (h : s.IsTuned factor log trace) (hinterval : 0 < s.settings.tuning.interval)
    (hit : log[i]? = some it) :
    it.tunes = true ↔ i < s.settings.schedule.warmUp ∧ s.settings.tuning.interval ∣ i + 1 := by
  have hlength := (take_succ_of_getElem? hit).2
  rcases Nat.lt_or_ge i s.settings.schedule.warmUp with hwarm | hlate
  · rw [Iteration.tunes, h.before_of_warming hit hwarm, isDue_tunedWalk hinterval, hlength]
    exact ⟨fun hfull => ⟨hwarm, hfull⟩, And.right⟩
  · have hfrozen := h.frozen_of_late hit hlate
    have hdue : it.tunes = false := by
      rw [Iteration.tunes, RandomWalk.record_of_frozen _ _ hfrozen, RandomWalk.isDue, hfrozen]
      rfl
    rw [hdue]
    exact ⟨fun h => (Bool.false_ne_true h).elim, fun h => by omega⟩

/-- The batch by which the scale is changed is that of the last `interval` iterations. -/
theorem batch_eq (h : s.IsTuned factor log trace) (hinterval : 0 < s.settings.tuning.interval)
    {m : Nat} (hit : log[(m + 1) * s.settings.tuning.interval - 1]? = some it)
    (htunes : it.tunes = true) : it.batch = batchAt s.settings.tuning.interval log m := by
  have hwarm := ((h.tunes_iff hinterval hit).1 htunes).1
  obtain ⟨htake, hlength⟩ := take_succ_of_getElem? hit
  generalize hI : s.settings.tuning.interval = interval at *
  have hnext : (m + 1) * interval = m * interval + interval := Nat.succ_mul m interval
  have hdiv : ((m + 1) * interval - 1) / interval = m := by
    rw [hnext, Nat.add_sub_assoc hinterval, Nat.mul_comm, Nat.mul_add_div hinterval,
      Nat.div_eq_of_lt (by omega), Nat.add_zero]
  have hbatch : it.batch = (unfinished interval
      (log.take ((m + 1) * interval - 1))).record it.accepted := by
    rw [Iteration.batch, h.before_of_warming hit hwarm, record_tunedWalk, hI]
  rw [hbatch, ← drop_append_singleton, ← htake, hlength, hdiv, Nat.sub_add_cancel (by omega),
    batchAt, List.drop_take, hnext, Nat.add_sub_cancel_left]

theorem scale_after (h : s.IsTuned factor log trace)
    (hinterval : 0 < s.settings.tuning.interval) (hit : log[i]? = some it) :
    (s.walkAfter factor (log.take (i + 1))).scale =
      if it.tunes then RandomWalk.rescale s.settings.tuning it.before.walk.scale it.batch
      else it.before.walk.scale := by
  obtain ⟨htake, hlength⟩ := take_succ_of_getElem? hit
  rw [htake]
  rcases Nat.lt_or_ge i s.settings.schedule.warmUp with hwarm | hlate
  · have hretune := RandomWalk.scale_retune
      ((s.walkAfter factor (log.take i)).record it.accepted)
    rw [RandomWalk.tuning_record, RandomWalk.scale_record, tuning_walkAfter,
      ← h.before i it hit] at hretune
    rw [walkAfter_append_of_warming hinterval (by omega), ← h.before i it hit]
    -- Freezing the proposal keeps its scale.
    split <;> exact hretune
  · have hnot : ¬ it.tunes = true := fun htunes => by
      have hwarm := ((h.tunes_iff hinterval hit).1 htunes).1
      omega
    rw [walkAfter_append_of_late (by omega), if_neg hnot, h.before i it hit]

theorem scale_of_late (h : s.IsTuned factor log trace) (hit : log[i]? = some it)
    (hlate : s.settings.schedule.warmUp ≤ i) :
    it.before.walk.scale = trace.walker.walk.scale := by
  rw [h.before i it hit, h.walk, scale_walkAfter, scale_walkAfter, List.take_take,
    Nat.min_eq_left hlate]

end IsTuned

omit [Scalar α] in
/-- The scale is changed once for each full batch of the warm-up. -/
theorem countP_tunes {interval warmUp : Nat} {log : List (Iteration α)}
    (h : ∀ i it, log[i]? = some it → (it.tunes = true ↔ i < warmUp ∧ interval ∣ i + 1)) :
    log.countP Iteration.tunes = min log.length warmUp / interval := by
  induction log using List.reverseRecOn with
  | nil => rw [List.length_nil, Nat.zero_min, Nat.zero_div, List.countP_nil]
  | append_singleton log it ih =>
    have hcount := ih fun i it' hi => h i it' <| by
      rw [List.getElem?_append_left (List.getElem?_eq_some_iff.1 hi).1]
      exact hi
    have hlast := h log.length it (by rw [List.getElem?_append_right (Nat.le_refl _),
      Nat.sub_self, List.getElem?_cons_zero])
    rw [List.countP_append, hcount, List.countP_singleton, List.length_append,
      List.length_singleton]
    by_cases hwarm : log.length < warmUp
    · rw [Nat.min_eq_left hwarm.le, Nat.min_eq_left hwarm, Nat.succ_div]
      simp only [hlast, hwarm, true_and]
    · have hnot : ¬ it.tunes = true := fun htunes => hwarm (hlast.1 htunes).1
      rw [if_neg hnot, Nat.min_eq_right (by omega), Nat.min_eq_right (by omega), Nat.add_zero]

/-- How tuning went in the iterations on record, as seen from the chain after them. -/
structure IsScheduled (s : Sampler α σ) (log : List (Iteration α)) (c : Chain α σ) : Prop where
  within : s.settings.tuning.minScale ≤ c.diagnostics.scale ∧
    c.diagnostics.scale ≤ s.settings.tuning.maxScale
  tunes_iff : ∀ i it, log[i]? = some it →
    (it.tunes = true ↔ i < s.settings.schedule.warmUp ∧ s.settings.tuning.interval ∣ i + 1)
  count : log.countP Iteration.tunes =
    min log.length s.settings.schedule.warmUp / s.settings.tuning.interval
  batch_eq : ∀ m it, log[(m + 1) * s.settings.tuning.interval - 1]? = some it → it.tunes = true →
    it.batch = batchAt s.settings.tuning.interval log m
  /-- The scale after an iteration is the one before the next, or that of the chain. -/
  next_eq : ∀ i it, log[i]? = some it →
    ((log[i + 1]?.map fun next => next.before.walk.scale).getD c.diagnostics.scale) =
      if it.tunes then RandomWalk.rescale s.settings.tuning it.before.walk.scale it.batch
      else it.before.walk.scale
  scale_eq : c.diagnostics.scale =
    tunedScale s.settings.tuning s.target.dimension (log.take s.settings.schedule.warmUp)
  settled : ∀ i it, log[i]? = some it → s.settings.schedule.warmUp ≤ i →
    it.before.walk.scale = c.diagnostics.scale

theorem scale_diagnostics (started : c.stage.trace? = some trace) :
    c.diagnostics.scale = trace.walker.walk.scale := by
  unfold Chain.diagnostics
  rw [started]

theorem isScheduled_of_path [Scalar.Lawful α] (valid : s.settings.schedule.Valid)
    (htuning : s.settings.tuning.isValid = true) {memory : σ}
    (h : s.Path (s.newChain memory) log c) (started : c.stage.trace? = some trace) :
    s.IsScheduled log c := by
  have hinterval := (Tuning.bounds_of_isValid htuning).1
  obtain ⟨factor, hlog⟩ := isTuned_of_path valid hinterval h started
  have hscale : c.diagnostics.scale = (s.walkAfter factor log).scale := by
    rw [scale_diagnostics started, hlog.walk]
  have htuned : c.diagnostics.scale =
      tunedScale s.settings.tuning s.target.dimension (log.take s.settings.schedule.warmUp) := by
    rw [hscale, scale_walkAfter, hlog.rows_factor]
  have htunes : ∀ i it, log[i]? = some it → _ := fun i it hit => hlog.tunes_iff hinterval hit
  refine ⟨?_, htunes, countP_tunes htunes, fun m it => hlog.batch_eq hinterval, fun i it hit => ?_,
    htuned, fun i it hit hlate => ?_⟩
  · rw [htuned]
    exact tunedScale_within htuning _ _
  · rw [← hlog.scale_after hinterval hit]
    cases hnext : log[i + 1]? with
    | some next =>
      rw [Option.map_some, Option.getD_some, hlog.before _ _ hnext]
    | none =>
      rw [Option.map_none, Option.getD_none, hscale,
        List.take_of_length_le (List.getElem?_eq_none_iff.1 hnext)]
  · rw [scale_diagnostics started]
    exact hlog.scale_of_late hit hlate

theorem started_transition {more : List (Iteration α)} {d : Chain α σ}
    (started : c.stage.trace? ≠ none) (h : s.Transition c more d) : d.stage.trace? ≠ none := by
  cases h with
  | start h => exact absurd rfl started
  | refused h => exact absurd rfl started
  | iterate running left h =>
    obtain ⟨trace', hrunning, -⟩ := running?_nextStage s _ (extend _ _)
    rw [Stage.trace?_of_running hrunning]
    exact Option.some_ne_none _
  | broken running left h =>
    rw [Stage.trace?_afterError]
    exact started
  | release started' unreleased complete => exact Option.some_ne_none _
  | score memory => exact started

theorem isValid_of_ofModel {m : Model α σ} {settings : Settings α}
    (h : ofModel m settings = .ok s) : s.settings.tuning.isValid = true := by
  rw [(ofModel_eq_ok h).1]
  exact ((Settings.check_eq_ok_iff settings).1 (check_of_ofModel h)).2.1

/-- A warm-up of one iteration, which is a batch of its own. -/
theorem IsScheduled.scale_of_singleton {it : Iteration α} (h : s.IsScheduled [it] c)
    (hinterval : s.settings.tuning.interval = 1) (hwarm : s.settings.schedule.warmUp ≠ 0) :
    c.diagnostics.scale = RandomWalk.rescale s.settings.tuning
      (RandomWalk.firstScale s.settings.tuning s.target.dimension)
      (Acceptance.record {} it.accepted) := by
  have htake : [it].take s.settings.schedule.warmUp = [it] :=
    List.take_of_length_le (Nat.one_le_iff_ne_zero.2 hwarm)
  have hbatch : batches 1 [it] = [Acceptance.record {} it.accepted] := by
    rw [batches, List.length_singleton, Nat.div_one, List.range_one, List.map_singleton]
    exact congrArg (fun x => [x]) (Acceptance.ofRecord_append_singleton [] it)
  rw [h.scale_eq, htake, tunedScale, hinterval, hbatch, List.foldl_cons, List.foldl_nil]

/-! ### An infinite factor, and a rejection -/

/-- Tuning after every iteration that takes any acceptance to the largest scale. -/
noncomputable def eagerTuning : Tuning Exact :=
  { Tuning.standard with interval := 1, increase := Scalar.infinity }

noncomputable def eagerSampler (schedule : Schedule) : Sampler Exact Nat where
  target := (levelSampler none schedule).target
  settings := { Settings.standard with schedule, tuning := eagerTuning }

theorem eagerTuning_isValid : eagerTuning.isValid = true := by
  have hincrease : (1 : Exact) ≤ Scalar.infinity := trivial
  have h := standard_isValid
  simp only [Tuning.isValid, Tuning.standard, Bool.and_eq_true] at h
  obtain ⟨⟨⟨⟨⟨⟨⟨⟨htarget, hone⟩, -⟩, -⟩, hdecrease⟩, hle⟩, hmin⟩, hbounds⟩, hfinite⟩ := h
  simp only [Tuning.isValid, eagerTuning, Tuning.standard, Bool.and_eq_true]
  exact ⟨⟨⟨⟨⟨⟨⟨⟨htarget, hone⟩, rfl⟩, decide_eq_true hincrease⟩, hdecrease⟩, hle⟩, hmin⟩,
    hbounds⟩, hfinite⟩

theorem ofModel_eager {schedule : Schedule} (valid : schedule.Valid) :
    ofModel (levelModel none) (eagerSampler schedule).settings = .ok (eagerSampler schedule) := by
  have hcheck : (eagerSampler schedule).settings.check = .ok () :=
    (Settings.check_eq_ok_iff _).2 ⟨valid, eagerTuning_isValid, standard_isCoefficient⟩
  have htarget : Target.ofModel (levelModel none) = .ok (eagerSampler schedule).target := rfl
  unfold ofModel
  rw [hcheck, htarget]
  rfl

/-- An accepted proposal takes the scale to the upper bound at once. -/
theorem rescale_eager {scale : Exact} (hscale : 0 < scale) :
    RandomWalk.rescale eagerTuning scale ⟨1, 1⟩ = eagerTuning.maxScale := by
  have hrate : (Acceptance.rate ⟨1, 1⟩ : Exact) = .real 1 := by
    show Exact.real (1 : ℕ) / Exact.real (1 : ℕ) = _
    rw [Exact.real_div _ (by norm_num), Nat.cast_one, div_one]
  have htarget : eagerTuning.target < .real 1 := by
    show (OfScientific.ofScientific 234 true 3 : Exact) < _
    rw [Exact.ofScientific_eq, Exact.real_lt]
    norm_num
  have hproduct : scale * eagerTuning.increase = .posInf := by
    obtain rfl | ⟨r, rfl, hr⟩ := Exact.cases_of_pos hscale
    · rfl
    · exact Exact.infinityOf_of_pos hr
  have hclamp : Scalar.clamp .posInf eagerTuning.minScale eagerTuning.maxScale =
      eagerTuning.maxScale := by
    have hlow : ¬ .posInf < eagerTuning.minScale := id
    have hhigh : eagerTuning.maxScale < .posInf := trivial
    rw [Scalar.clamp, if_neg hlow, if_pos hhigh]
  dsimp only [RandomWalk.rescale]
  rw [hrate, if_pos htarget, hproduct, hclamp]

/-- The level model, but of likelihood zero everywhere once it was asked. -/
noncomputable def fadingModel : Model Exact Nat :=
  { levelModel none with
    logLikelihood := fun _ _ calls => .ok (if calls = 0 then 0 else -Scalar.infinity) (calls + 1) }

/-- The scale is tuned after every iteration, by the standard factors. -/
noncomputable def fadingSampler (schedule : Schedule) : Sampler Exact Nat where
  target := ⟨fadingModel, ⟨[(0, .fixed .flat)]⟩⟩
  settings := { Settings.standard with
    schedule
    tuning := { Tuning.standard with interval := 1 } }

theorem ofModel_fading {schedule : Schedule} (valid : schedule.Valid) :
    ofModel fadingModel (fadingSampler schedule).settings = .ok (fadingSampler schedule) := by
  have hcheck : (fadingSampler schedule).settings.check = .ok () :=
    (Settings.check_eq_ok_iff _).2 ⟨valid, standard_isValid, standard_isCoefficient⟩
  have htarget : Target.ofModel fadingModel = .ok (fadingSampler schedule).target := rfl
  unfold ofModel
  rw [hcheck, htarget]
  rfl

theorem evaluate_fading {schedule : Schedule} (x : Exact) (memory : Nat) :
    (fadingSampler schedule).target.evaluate [x] (memory + 1) =
      .ok (.impossible [x]) (memory + 2) := rfl

/-- Whatever is proposed once the likelihood has faded is rejected. -/
theorem iterate_fading {schedule : Schedule} {w : Walker Exact} {world : World Exact Nat}
    (hmemory : world.memory = 1) (hproposal : (w.proposal world.tape).length = 1) :
    ∃ w' world',
      w.iterate (fadingSampler schedule).target world = .ok (false, w') world' := by
  obtain ⟨y, hy⟩ := List.length_eq_one_iff.1 hproposal
  have hevaluate : (fadingSampler schedule).target.evaluate (w.proposal world.tape) world.memory =
      .ok (.impossible [y]) 2 := by
    rw [hy, hmemory, evaluate_fading]
  have hdecision (tape : Tape Exact) : w.decideMove (.impossible [y]) tape = (false, tape) := rfl
  have hiterate := Walker.iterate_of_evaluate_ok hevaluate
  rw [hdecision] at hiterate
  exact ⟨_, _, hiterate⟩

/-- The first step is a rejection. -/
theorem step_fading : ∃ d, (fadingSampler shortSchedule).step
    ((fadingSampler shortSchedule).newChain 0) = .ok (some false) d := by
  obtain ⟨trace, world, hhistory, hmemory, hprepare⟩ : ∃ trace world, trace.history = #[] ∧
      world.memory = 1 ∧ (fadingSampler shortSchedule).prepare
        ((fadingSampler shortSchedule).newChain 0) = .ok () ⟨world, .warmingUp trace⟩ :=
    ⟨_, _, rfl, rfl, rfl⟩
  obtain ⟨walker, world', hiterate⟩ :=
    iterate_fading hmemory (length_proposal_of_prepare hprepare)
  exact step_first shortSchedule_valid hhistory hprepare hiterate

/-! ### Every reachable chain -/

/-- Asked anything in any order, a valid proposal keeps its scale between the bounds. In every
reachable chain the scale was changed at the iterations of the warm-up whose number is a multiple
of the interval, each time by the batch that ends there, and it stays what it is from the end of
the warm-up on. The iterations are those of any path to the chain, with the flags that the steps
returned. -/
theorem adaptation_after [Scalar.Lawful α] {m : Model α σ} {settings : Settings α}
    (accepted : ofModel m settings = .ok s) (memory : σ) (calls : List Call) :
    let c := s.after memory calls
    (∀ (factor : DenseMatrix α) (t : Tuning α) (changes : List RandomWalk.Change),
      t.isValid = true →
        t.minScale ≤ ((RandomWalk.ofFactor factor t).changeAll changes).scale ∧
          ((RandomWalk.ofFactor factor t).changeAll changes).scale ≤ t.maxScale) ∧
      (∃ log, s.Path (s.newChain memory) log c) ∧
      (∀ moved d, s.step c = .ok (some moved) d → ∃ it, it.accepted = moved ∧ s.Path c [it] d) ∧
      ∀ log trace, s.Path (s.newChain memory) log c → c.stage.trace? = some trace →
        log.length = c.completed ∧ s.IsScheduled log c ∧
          (s.settings.schedule.warmUp ≤ c.completed → ∀ later : List Call,
            (s.callAll c later).diagnostics.scale = c.diagnostics.scale) := by
  intro c
  have valid := valid_of_ofModel accepted
  have htuning := isValid_of_ofModel accepted
  refine ⟨fun factor t changes ht => ?_, after_path s memory calls, fun moved d h => step_path h,
    fun log trace path started => ?_⟩
  · exact RandomWalk.within_changeAll (w := RandomWalk.ofFactor factor t) ht
      (RandomWalk.firstScale_within ht factor.rows) changes
  · have hlength := length_eq_of_path path
    have hc := isScheduled_of_path valid htuning path started
    refine ⟨hlength, hc, fun hlate later => ?_⟩
    -- A later chain has the same warm-up on record.
    obtain ⟨log', path'⟩ := callAll_path s c later
    have started' : (s.callAll c later).stage.trace? ≠ none :=
      path'.preserves (P := fun _ d => d.stage.trace? ≠ none)
        (fun started h => started_transition started h)
        (by rw [started]; exact Option.some_ne_none _)
    obtain ⟨trace', started'⟩ := Option.ne_none_iff_exists'.1 started'
    rw [(isScheduled_of_path valid htuning (path.trans path') started').scale_eq, hc.scale_eq,
      List.take_append_of_le_length (by omega)]

/-- A warm-up of one accepted iteration, tuned by an infinite factor, ends at the largest scale. One
of a rejected iteration ends at the first scale times the standard factor for rates below the
target. -/
theorem adaptation_after_eager :
    (let s := eagerSampler shortSchedule
      let c := s.after 0 [.step]
      ofModel (levelModel none) s.settings = .ok s ∧ (∃ trace, c.stage.trace? = some trace) ∧
        c.diagnostics.scale = eagerTuning.maxScale) ∧
      let s := fadingSampler shortSchedule
      let c := s.after 0 [.step]
      ofModel fadingModel s.settings = .ok s ∧ (∃ trace, c.stage.trace? = some trace) ∧
        c.diagnostics.scale = .real 1.904 := by
  constructor
  · intro s c
    have hmodel := ofModel_eager shortSchedule_valid
    obtain ⟨trace, world, hhistory, hprepare⟩ : ∃ trace world, trace.history = #[] ∧
        s.prepare (s.newChain 0) = .ok () ⟨world, .warmingUp trace⟩ := ⟨_, _, rfl, rfl⟩
    obtain ⟨d, hstep⟩ := step_level (s := s) rfl shortSchedule_valid hhistory hprepare
    obtain ⟨it, trace, haccepted, path, started⟩ := after_step_of_ok hstep
    obtain ⟨-, htuned, -⟩ := (adaptation_after hmodel 0 [.step]).2.2.2 _ _ path started
    have hfirst := Scalar.Lawful.lt_of_lt_of_le
      (Tuning.bounds_of_isValid eagerTuning_isValid).2.2.2.1
      (RandomWalk.firstScale_within eagerTuning_isValid s.target.dimension).1
    refine ⟨hmodel, ⟨trace, started⟩, ?_⟩
    rw [htuned.scale_of_singleton rfl (by decide), haccepted]
    exact rescale_eager hfirst
  · intro s c
    have hmodel := ofModel_fading shortSchedule_valid
    obtain ⟨d, hstep⟩ := step_fading
    obtain ⟨it, trace, hrejected, path, started⟩ := after_step_of_ok hstep
    obtain ⟨-, htuned, -⟩ := (adaptation_after hmodel 0 [.step]).2.2.2 _ _ path started
    refine ⟨hmodel, ⟨trace, started⟩, ?_⟩
    rw [htuned.scale_of_singleton rfl (by decide), hrejected]
    show RandomWalk.rescale Tuning.standard (RandomWalk.firstScale Tuning.standard 1) ⟨1, 0⟩ = _
    rw [RandomWalk.firstScale_standard, RandomWalk.rescale_rejected]

end Sampler

end Metropolis
