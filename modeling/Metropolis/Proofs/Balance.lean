import Mathlib.Data.List.GetD
import Mathlib.MeasureTheory.Measure.Lebesgue.Basic
import Metropolis.Proofs.Estimates
import Metropolis.Proofs.Evaluation

/-!
# Detailed balance

Over the exact numbers a walk that is frozen leads from one point to another as often as back,
weighted by the posterior densities. The steps are linear in the noise, so opposite noise leads
back; and the length of the uniforms that accept a candidate, times the density at the point it was
proposed from, is the smaller of the two densities.
-/

namespace Metropolis

open MeasureTheory (volume)

/-! ## Opposite steps -/

theorem getD_map_real (noise : List ℝ) (j : Nat) :
    (noise.map Exact.real).getD j 0 = Exact.real (noise.getD j 0) := by
  rw [Exact.zero_eq, List.getD_map]

/-- A component of the product of a lower factor and real noise. -/
theorem DenseMatrix.sum_products {m : DenseMatrix Exact} {i : Nat}
    (h : ∀ j ≤ i, Scalar.isFinite (m.entry i j) = true) (noise : List ℝ) :
    Series.sum ((List.range (i + 1)).map fun j =>
        m.entry i j * (noise.map Exact.real).getD j 0) =
      Exact.real
        ((List.range (i + 1)).map fun j => (m.entry i j).toReal * noise.getD j 0).sum := by
  rw [← Series.sum_real, List.map_map]
  congr 1
  apply List.map_congr_left
  intro j hj
  have hentry := h j (Nat.lt_succ_iff.1 (List.mem_range.1 hj))
  rw [getD_map_real, Exact.eq_real_of_isFinite hentry]
  rfl

namespace RandomWalk

variable {w : RandomWalk Exact} {dimension : Nat} {x y noise : List ℝ}

/-- A walk of a dimension whose scale and lower factor are real numbers. -/
structure IsReal (w : RandomWalk Exact) (dimension : Nat) : Prop where
  rows_factor : w.factor.rows = dimension
  scale : Scalar.isFinite w.scale = true
  factor : ∀ i < dimension, ∀ j ≤ i, Scalar.isFinite (w.factor.entry i j) = true

/-- How far noise leads in a component. -/
noncomputable def shift (w : RandomWalk Exact) (noise : List ℝ) (i : Nat) : ℝ :=
  w.scale.toReal *
    ((List.range (i + 1)).map fun j => (w.factor.entry i j).toReal * noise.getD j 0).sum

theorem shift_neg (w : RandomWalk Exact) (noise : List ℝ) (i : Nat) :
    w.shift (noise.map (- ·)) i = -w.shift noise i := by
  have hnoise : ∀ j, (noise.map (- ·)).getD j 0 = -noise.getD j 0 := by
    intro j
    rw [← List.getD_map _ _ (- ·), neg_zero]
  unfold shift
  simp only [hnoise, mul_neg]
  rw [← mul_neg, List.sum_neg, List.map_map]
  rfl

theorem step_real (h : w.IsReal dimension) {i : Nat} (hi : i < dimension) :
    w.scale * Series.sum ((List.range (i + 1)).map fun j =>
      w.factor.entry i j * (noise.map Exact.real).getD j 0) = Exact.real (w.shift noise i) := by
  rw [DenseMatrix.sum_products (h.factor i hi), Exact.eq_real_of_isFinite h.scale, Exact.real_mul]
  rfl

/-- A step adds its shift to every component. -/
theorem stepBy_real (h : w.IsReal dimension) (hx : x.length = dimension) :
    w.stepBy (x.map Exact.real) (noise.map Exact.real) =
      (x.mapIdx fun i a => w.shift noise i + a).map Exact.real := by
  apply List.ext_getElem
  · simp [stepBy, DenseMatrix.lowerTimes, h.rows_factor, hx]
  · intro i hi hi'
    have hlt : i < dimension := by
      rw [List.length_map, List.length_mapIdx, hx] at hi'
      exact hi'
    simp only [stepBy, DenseMatrix.lowerTimes, List.getElem_zipWith, List.getElem_map,
      List.getElem_range, List.getElem_mapIdx]
    rw [step_real h hlt, Exact.real_add]

/-- Opposite noise leads back. -/
theorem stepBy_reversed (h : w.IsReal dimension) (hx : x.length = dimension)
    (hy : w.stepBy (x.map Exact.real) (noise.map Exact.real) = y.map Exact.real) :
    w.stepBy (y.map Exact.real) ((noise.map (- ·)).map Exact.real) = x.map Exact.real := by
  have hinjective : Function.Injective Exact.real := fun _ _ heq => Exact.real.inj heq
  have hshifted : (x.mapIdx fun i a => w.shift noise i + a) = y :=
    (List.map_injective_iff.2 hinjective) ((stepBy_real h hx).symm.trans hy)
  rw [← hshifted, stepBy_real h (by rw [List.length_mapIdx, hx]), List.mapIdx_mapIdx]
  congr 1
  apply List.ext_getElem
  · rw [List.length_mapIdx]
  · intro i hi hi'
    rw [List.getElem_mapIdx, Function.comp_apply, shift_neg, neg_add_cancel_left]

end RandomWalk

/-! ## Noise -/

/-- A tape of real numbers on `[0, 1)`. -/
def Tape.IsUnit (tape : Tape Exact) : Prop :=
  ∀ i, ∃ u : ℝ, 0 ≤ u ∧ u < 1 ∧ tape.cell i = Exact.real u

theorem ofScientific_mem_Ioc {mantissa exponent : Nat} (digits places : Nat) (hpos : 0 < mantissa)
    (hdigits : mantissa ≤ 10 ^ digits) (hle : digits + places ≤ exponent) :
    (OfScientific.ofScientific mantissa true exponent : ℝ) ∈
      Set.Ioc (0 : ℝ) (1 / (10 ^ places : ℕ)) := by
  have hpower : mantissa * 10 ^ places ≤ 10 ^ exponent :=
    calc mantissa * 10 ^ places ≤ 10 ^ digits * 10 ^ places := Nat.mul_le_mul_right _ hdigits
      _ = 10 ^ (digits + places) := (pow_add 10 digits places).symm
      _ ≤ 10 ^ exponent := Nat.pow_le_pow_right (by decide) hle
  have hplaces : (0 : ℝ) < (10 ^ places : ℕ) := Nat.cast_pos.2 (Nat.pow_pos (by decide))
  have hexponent : (0 : ℝ) < (10 ^ exponent : ℕ) := Nat.cast_pos.2 (Nat.pow_pos (by decide))
  rw [NNRatCast.ofScientific_eq_ite, if_pos rfl, NNRat.cast_divNat]
  constructor
  · exact div_pos (Nat.cast_pos.2 hpos) hexponent
  · rw [div_le_div_iff₀ hexponent hplaces, one_mul, ← Nat.cast_mul]
    exact Nat.cast_le.2 hpower

/-- The least normal number is positive, and far below one. -/
theorem tiny_real :
    ∃ t ∈ Set.Ioc (0 : ℝ) (1 / (10 ^ 17 : ℕ)), (Scalar.tiny : Exact) = Exact.real t :=
  ⟨_, ofScientific_mem_Ioc 17 17 (by decide) (by decide) (by decide), rfl⟩

/-- The radius is that of a positive number that is at most one. -/
theorem normalRadius_real {u : ℝ} (hnonneg : 0 ≤ u) (hlt : u < 1) :
    ∃ radius, normalRadius (Exact.real u) = Exact.real radius := by
  have hlarger : ∃ v : ℝ, 0 < v ∧ v ≤ 1 ∧
      Scalar.larger (1 - Exact.real u) Scalar.tiny = Exact.real v := by
    obtain ⟨t, ⟨hpos, hle⟩, htiny⟩ := tiny_real
    rw [Exact.ofNat_eq, Nat.cast_one, Exact.real_sub, htiny]
    by_cases hsmall : Exact.real (1 - u) < Exact.real t
    · exact ⟨t, hpos, hle.trans (by norm_num), if_pos hsmall⟩
    · exact ⟨1 - u, by linarith, by linarith, if_neg hsmall⟩
  obtain ⟨v, hpos, hle, hlarger⟩ := hlarger
  have hlog : 0 ≤ -((2 : ℕ) : ℝ) * Real.log v :=
    mul_nonneg_of_nonpos_of_nonpos (by norm_num) (Real.log_nonpos hpos.le hle)
  refine ⟨√(-((2 : ℕ) : ℝ) * Real.log v), ?_⟩
  rw [normalRadius, hlarger, Exact.log_real hpos, Exact.ofNat_eq, Exact.real_neg, Exact.real_mul,
    Exact.sqrt_real hlog]

theorem standardNormal_real {tape : Tape Exact} (h : tape.IsUnit) :
    (∃ z, (standardNormal tape).1 = Exact.real z) ∧ (standardNormal tape).2.IsUnit := by
  obtain ⟨u, hnonneg, hlt, hu⟩ := h tape.position
  obtain ⟨v, -, -, hv⟩ := h (tape.position + 1)
  obtain ⟨radius, hradius⟩ := normalRadius_real hnonneg hlt
  refine ⟨⟨radius * Real.cos ((2 : ℕ) * Real.pi * v), ?_⟩, h⟩
  show normalOfUniforms (tape.cell tape.position) (tape.cell (tape.position + 1)) = _
  rw [hu, hv, normalOfUniforms, hradius]
  rfl

/-- Uniforms on `[0, 1)` make real noise. -/
theorem standardNormals_real {tape : Tape Exact} (h : tape.IsUnit) (n : Nat) :
    ∃ noise : List ℝ, noise.length = n ∧
      (standardNormals n tape).1 = noise.map Exact.real := by
  induction n generalizing tape with
  | zero => exact ⟨[], rfl, rfl⟩
  | succ n ih =>
    obtain ⟨⟨z, hz⟩, hrest⟩ := standardNormal_real h
    obtain ⟨noise, hlength, hnoise⟩ := ih hrest
    refine ⟨z :: noise, by rw [List.length_cons, hlength], ?_⟩
    show (standardNormal tape).1 :: (standardNormals n (standardNormal tape).2).1 = _
    rw [hz, hnoise, List.map_cons]

/-! ## Uniforms that accept -/

namespace Point

/-- The posterior density at a point, zero if the point is not feasible. -/
noncomputable def density (p : Point Exact) : ℝ :=
  if p.isFeasible then Real.exp p.logPosterior.toReal else 0

theorem density_of_feasible {p : Point Exact} (h : p.isFeasible = true) :
    p.density = Real.exp p.logPosterior.toReal := if_pos h

theorem density_of_infeasible {p : Point Exact} (h : ¬ p.isFeasible = true) : p.density = 0 :=
  if_neg h

end Point

/-- The test is a comparison of the next uniform with the ratio of the densities. -/
theorem accepts_real_iff {r u : ℝ} {tape : Tape Exact} (hu : u ∈ Set.Ioo 0 1)
    (hnext : tape.next.1 = Exact.real u) :
    (accepts (Exact.real r) tape).1 = true ↔ u < min 1 (Real.exp r) := by
  obtain ⟨hpos, hlt⟩ := hu
  have hzero : (0 : Exact) ≤ Exact.real r ↔ 0 ≤ r := by
    rw [Exact.ofNat_eq, Nat.cast_zero, Exact.real_le]
  rw [lt_min_iff, and_iff_right hlt]
  unfold accepts
  by_cases hr : 0 ≤ r
  · rw [if_pos (hzero.2 hr)]
    -- A ratio of at least one leaves no uniform below one out.
    exact iff_of_true rfl (hlt.trans_le (Real.one_le_exp hr))
  · rw [if_neg (fun h => hr (hzero.1 h))]
    show decide (Scalar.log tape.next.1 < Exact.real r) = true ↔ _
    rw [decide_eq_true_iff, hnext, Exact.log_real hpos, Exact.real_lt, Real.log_lt_iff_lt_exp hpos]

/-- The test reads nothing of a tape but the next uniform. -/
theorem accepts_congr {logRatio : Exact} {tape tape' : Tape Exact}
    (h : tape.next.1 = tape'.next.1) :
    (accepts logRatio tape).1 = (accepts logRatio tape').1 := by
  unfold accepts
  by_cases hr : 0 ≤ logRatio
  · rw [if_pos hr]
    rfl
  · rw [if_neg hr]
    show decide (Scalar.log tape.next.1 < logRatio) = decide (Scalar.log tape'.next.1 < logRatio)
    rw [h]

namespace RandomWalk

variable {w : RandomWalk Exact} {x y : Point Exact}

/-- The uniforms on `(0, 1)` for which a walk that stands at `x` moves to the candidate `y`. -/
def moves (w : RandomWalk Exact) (x y : Point Exact) : Set ℝ :=
  {u | u ∈ Set.Ioo 0 1 ∧ ∀ tape : Tape Exact, tape.next.1 = Exact.real u →
    ((Walker.ofPoint x w).decideMove y tape).1 = true}

/-- The length of these uniforms. -/
noncomputable def chance (w : RandomWalk Exact) (x y : Point Exact) : ℝ :=
  (volume (w.moves x y)).toReal

theorem mem_moves_iff {u : ℝ} {tape : Tape Exact} (hu : u ∈ Set.Ioo 0 1)
    (hnext : tape.next.1 = Exact.real u) :
    u ∈ w.moves x y ↔ ((Walker.ofPoint x w).decideMove y tape).1 = true := by
  refine ⟨fun h => h.2 tape hnext, fun h => ⟨hu, fun tape' hnext' => ?_⟩⟩
  rw [← h]
  unfold Walker.decideMove
  by_cases hy : y.isFeasible = true
  · rw [if_pos hy]
    exact accepts_congr (hnext'.trans hnext.symm)
  · rw [if_neg hy]
    rfl

/-- A candidate that is not feasible is never moved to. -/
theorem moves_of_infeasible (hy : ¬ y.isFeasible = true) : w.moves x y = ∅ := by
  apply Set.eq_empty_of_forall_notMem
  rintro u ⟨-, hmoves⟩
  have hrefused := hmoves ⟨fun _ => Exact.real u, 0⟩ rfl
  rw [Walker.decideMove, if_neg hy] at hrefused
  cases hrefused

/-- Between feasible points the uniforms that accept are those below the ratio of the densities. -/
theorem moves_of_feasible (hx : x.isFeasible = true) (hy : y.isFeasible = true) :
    w.moves x y =
      Set.Ioo 0 (min 1 (Real.exp (y.logPosterior.toReal - x.logPosterior.toReal))) := by
  have hratio : y.logPosterior - x.logPosterior =
      Exact.real (y.logPosterior.toReal - x.logPosterior.toReal) := by
    rw [← Exact.real_sub, ← Exact.eq_real_of_isFinite hx, ← Exact.eq_real_of_isFinite hy]
  have hdecides : ∀ u ∈ Set.Ioo (0 : ℝ) 1,
      u ∈ w.moves x y ↔ u < min 1 (Real.exp (y.logPosterior.toReal - x.logPosterior.toReal)) := by
    intro u hu
    let tape : Tape Exact := ⟨fun _ => Exact.real u, 0⟩
    have hnext : tape.next.1 = Exact.real u := rfl
    rw [mem_moves_iff hu hnext, Walker.decideMove, if_pos hy]
    show (accepts (y.logPosterior - x.logPosterior) tape).1 = true ↔ _
    rw [hratio]
    exact accepts_real_iff hu hnext
  ext u
  constructor
  · intro h
    exact ⟨h.1.1, (hdecides u h.1).1 h⟩
  · rintro ⟨hpos, hlt⟩
    exact (hdecides u ⟨hpos, hlt.trans_le (min_le_left _ _)⟩).2 hlt

theorem volume_moves (hx : x.isFeasible = true) (hy : y.isFeasible = true) :
    volume (w.moves x y) =
      ENNReal.ofReal (min 1 (Real.exp (y.logPosterior.toReal - x.logPosterior.toReal))) := by
  rw [moves_of_feasible hx hy, Real.volume_Ioo, sub_zero]

theorem chance_of_feasible (hx : x.isFeasible = true) (hy : y.isFeasible = true) :
    w.chance x y = min 1 (Real.exp (y.logPosterior.toReal - x.logPosterior.toReal)) := by
  rw [chance, volume_moves hx hy, ENNReal.toReal_ofReal (le_min zero_le_one (Real.exp_nonneg _))]

theorem chance_of_infeasible (hy : ¬ y.isFeasible = true) : w.chance x y = 0 := by
  rw [chance, moves_of_infeasible hy, MeasureTheory.measure_empty, ENNReal.toReal_zero]

/-- The flow between feasible points is the smaller density. -/
theorem density_mul_chance (hx : x.isFeasible = true) (hy : y.isFeasible = true) :
    x.density * w.chance x y = min x.density y.density := by
  rw [chance_of_feasible hx hy, Point.density_of_feasible hx, Point.density_of_feasible hy,
    mul_min_of_nonneg _ _ (Real.exp_nonneg _), mul_one, ← Real.exp_add, add_sub_cancel]

/-- As much flows from one point to another as back. -/
theorem balanced (w : RandomWalk Exact) (x y : Point Exact) :
    x.density * w.chance x y = y.density * w.chance y x := by
  by_cases hx : x.isFeasible = true
  · by_cases hy : y.isFeasible = true
    · rw [density_mul_chance hx hy, density_mul_chance hy hx, min_comm]
    · rw [chance_of_infeasible hy, Point.density_of_infeasible hy, mul_zero, zero_mul]
  · rw [chance_of_infeasible hx, Point.density_of_infeasible hx, mul_zero, zero_mul]

end RandomWalk

/-! ## The kernel -/

namespace Walker

variable {σ : Type} {t : Target Exact σ} {w w' : Walker Exact} {world world' : World Exact σ}
  {accepted : Bool}

theorem decideMove_of_infeasible {candidate : Point Exact} (h : ¬ candidate.isFeasible = true)
    (tape : Tape Exact) : w.decideMove candidate tape = (false, tape) := by
  rw [decideMove, if_neg h]
  rfl

/-- An iteration of a frozen walk moves if the uniform after the noise accepts the candidate. -/
theorem iterate_frozen (frozen : w.walk.frozen = true)
    (h : w.iterate t world = .ok (accepted, w') world') :
    w'.walk = w.walk ∧ ∃ candidate,
      t.evaluate (w.proposal world.tape) world.memory = .ok candidate world'.memory ∧
      w'.current = (if accepted then candidate else w.current) ∧
      (¬ candidate.isFeasible = true → accepted = false) ∧
      ∀ u ∈ Set.Ioo 0 1,
        (w.walk.propose w.current.parameters world.tape).2.next.1 = Exact.real u →
          (accepted = true ↔ u ∈ w.walk.moves w.current candidate) := by
  obtain ⟨θ, w₁, hθ, h⟩ := bind_eq_ok h
  obtain ⟨candidate, w₂, heval, h⟩ := bind_eq_ok h
  obtain ⟨decision, w₃, hdecision, h⟩ := bind_eq_ok h
  simp only [Engine.ofSampling_apply, EStateM.Result.ok.injEq] at hθ hdecision
  obtain ⟨rfl, rfl⟩ := hθ
  obtain ⟨rfl, rfl⟩ := hdecision
  obtain ⟨heval, htape⟩ := Target.evaluate_of_ofModel heval
  cases h
  refine ⟨RandomWalk.record_of_frozen _ _ frozen, candidate, heval, rfl, ?_, ?_⟩
  · intro hinfeasible
    rw [decideMove_of_infeasible hinfeasible]
  · intro u hu hnext
    rw [RandomWalk.mem_moves_iff hu hnext, htape]
    rfl

end Walker

namespace RandomWalk

variable {dimension : Nat}

/-- What detailed balance consists of. -/
structure DetailedBalance (w : RandomWalk Exact) (dimension : Nat) : Prop where
  /-- From a real point a step with the noise that is next on a tape. -/
  proposes : ∀ (x : List ℝ) (tape : Tape Exact), x.length = dimension → tape.IsUnit →
    ∃ noise : List ℝ, noise.length = dimension ∧
      (standardNormals dimension tape).1 = noise.map Exact.real ∧
      (w.propose (x.map Exact.real) tape).1 = w.stepBy (x.map Exact.real) (noise.map Exact.real)
  reverses : ∀ x y noise : List ℝ, x.length = dimension →
    w.stepBy (x.map Exact.real) (noise.map Exact.real) = y.map Exact.real →
      w.stepBy (y.map Exact.real) ((noise.map (- ·)).map Exact.real) = x.map Exact.real
  /-- The uniforms that accept are an initial interval. -/
  accepts : ∀ x y : Point Exact, x.isFeasible = true → y.isFeasible = true →
    let ratio := min 1 (Real.exp (y.logPosterior.toReal - x.logPosterior.toReal))
    w.moves x y = Set.Ioo 0 ratio ∧ volume (w.moves x y) = ENNReal.ofReal ratio ∧
      ∀ u ∈ Set.Ioo 0 1, ∀ tape : Tape Exact, tape.next.1 = Exact.real u →
        ((Metropolis.accepts (y.logPosterior - x.logPosterior) tape).1 = true ↔ u ∈ w.moves x y)
  /-- As much flows from a point to another as back, whether they are feasible or not. -/
  balances : ∀ x y : Point Exact, x.density * w.chance x y = y.density * w.chance y x
  refuses : ∀ x y : Point Exact, ¬ y.isFeasible = true → ∀ tape : Tape Exact,
    (Walker.ofPoint x w).decideMove y tape = (false, tape)
  /-- An iteration is a move by this kernel, and leaves the kernel as it is. -/
  iterates : ∀ {σ : Type} (t : Target Exact σ) (walker walker' : Walker Exact)
    (world world' : World Exact σ) (accepted : Bool), walker.walk = w →
    walker.iterate t world = .ok (accepted, walker') world' →
      walker'.walk = w ∧ ∃ candidate,
        t.evaluate (w.propose walker.current.parameters world.tape).1 world.memory =
          .ok candidate world'.memory ∧
        walker'.current = (if accepted then candidate else walker.current) ∧
        (¬ candidate.isFeasible = true → accepted = false) ∧
        ∀ u ∈ Set.Ioo 0 1,
          (w.propose walker.current.parameters world.tape).2.next.1 = Exact.real u →
            (accepted = true ↔ u ∈ w.moves walker.current candidate)

/-- A frozen walk of real numbers is in detailed balance with every posterior density. -/
theorem detailedBalance_of_frozen (w : RandomWalk Exact) (real : w.IsReal dimension)
    (frozen : w.frozen = true) : w.DetailedBalance dimension where
  proposes := by
    intro x tape hx htape
    obtain ⟨noise, hlength, hnoise⟩ := standardNormals_real htape dimension
    refine ⟨noise, hlength, hnoise, ?_⟩
    show w.stepBy _ (standardNormals (x.map Exact.real).length tape).1 = _
    rw [List.length_map, hx, hnoise]
  reverses _ _ _ := stepBy_reversed real
  accepts := by
    intro x y hx hy
    refine ⟨moves_of_feasible hx hy, volume_moves hx hy, fun u hu tape hnext => ?_⟩
    rw [mem_moves_iff hu hnext, Walker.decideMove, if_pos hy]
    rfl
  balances := w.balanced
  refuses _ _ hy := Walker.decideMove_of_infeasible hy
  iterates := by
    rintro σ t walker walker' world world' accepted rfl h
    exact Walker.iterate_frozen frozen h

/-- A frozen walk in the plane whose components are correlated. -/
noncomputable def correlatedWalk : RandomWalk Exact where
  factor := .ofFn 2 2 fun i j => if j ≤ i then 1 else 0
  scale := .real 2
  tuning := .standard
  batch := {}
  frozen := true

theorem correlatedWalk_isReal : correlatedWalk.IsReal 2 where
  rows_factor := rfl
  scale := rfl
  factor := by
    intro i hi j hj
    rw [correlatedWalk, DenseMatrix.entry_ofFn _ hi (by omega), if_pos hj]
    rfl

theorem stepBy_correlatedWalk :
    correlatedWalk.stepBy ([0, 0].map Exact.real) ([1, 2].map Exact.real) =
      [2, 6].map Exact.real := by
  rw [stepBy_real correlatedWalk_isReal rfl]
  have hfirst : correlatedWalk.shift [1, 2] 0 = 2 := by
    simp [shift, correlatedWalk, DenseMatrix.entry_ofFn, Exact.ofNat_eq]
  have hsecond : correlatedWalk.shift [1, 2] 1 = 6 := by
    simp [shift, correlatedWalk, DenseMatrix.entry_ofFn, Exact.ofNat_eq, List.range_succ]
    norm_num
  rw [List.mapIdx_cons, List.mapIdx_cons, List.mapIdx_nil, hfirst, hsecond, add_zero, add_zero]

/-- A step of the correlated walk and the step back, and the uniforms on the way down and up
between points whose densities differ by the factor `e`. -/
theorem detailedBalance_correlatedWalk :
    let x : Point Exact := ⟨[0, 0].map Exact.real, .real 0, .real 0⟩
    let y : Point Exact := ⟨[2, 6].map Exact.real, .real (-1), .real (-1)⟩
    correlatedWalk.IsReal 2 ∧ correlatedWalk.frozen = true ∧
      correlatedWalk.stepBy x.parameters ([1, 2].map Exact.real) = y.parameters ∧
      correlatedWalk.stepBy y.parameters ([-1, -2].map Exact.real) = x.parameters ∧
      correlatedWalk.moves x y = Set.Ioo 0 (Real.exp (-1)) ∧
      correlatedWalk.moves y x = Set.Ioo 0 1 ∧
      x.density * correlatedWalk.chance x y = y.density * correlatedWalk.chance y x := by
  intro x y
  have h := detailedBalance_of_frozen correlatedWalk correlatedWalk_isReal rfl
  have hdown : min 1 (Real.exp (-1 - 0)) = Real.exp (-1) := by
    rw [sub_zero, min_eq_right (Real.exp_le_one_iff.2 (by norm_num))]
  have hup : min 1 (Real.exp (0 - -1)) = 1 := min_eq_left (Real.one_le_exp (by norm_num))
  refine ⟨correlatedWalk_isReal, rfl, stepBy_correlatedWalk, ?_, ?_, ?_, h.balances x y⟩
  · exact h.reverses [0, 0] [2, 6] [1, 2] rfl stepBy_correlatedWalk
  · rw [(h.accepts x y rfl rfl).1]
    exact congrArg (Set.Ioo 0) hdown
  · rw [(h.accepts y x rfl rfl).1]
    exact congrArg (Set.Ioo 0) hup

end RandomWalk

end Metropolis
