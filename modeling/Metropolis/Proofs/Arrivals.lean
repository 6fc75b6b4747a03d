import Metropolis.Model.Counts.Simulation
import Metropolis.Proofs.Balance
import Metropolis.Proofs.Budget

/-!
# Arrivals up to a rate

The search for a count ends just if some arrival is past the rate. It gives the number of arrivals
before that one, and has used one more uniform. Over the exact numbers the arrivals are the sums of
unit exponential times, which never decrease, so that the count is the number of all those that are
in the rate.
-/

namespace Metropolis.Counts

/-! ## The search -/

section Search

variable {α : Type} [Scalar α] {tape : Tape α} {rate : α} {k k' : ℕ}

/-- The time of an arrival, the first of which has number zero, from the uniforms of a tape. -/
def arrivalTime (tape : Tape α) : ℕ → α
  | 0 => -Scalar.log (1 - tape.cell tape.position)
  | j + 1 => arrivalTime tape j - Scalar.log (1 - tape.cell (tape.position + (j + 1)))

/-- A number of arrivals, counted one by one. -/
def counted : ℕ → α
  | 0 => 0
  | k + 1 => counted k + 1

/-- Whether the first `k` arrivals are in the rate, and the next one is not. -/
structure IsCount (tape : Tape α) (rate : α) (k : ℕ) : Prop where
  arrived : ∀ j < k, arrivalTime tape j ≤ rate
  past : ¬ arrivalTime tape k ≤ rate

theorem IsCount.unique (h : IsCount tape rate k) (h' : IsCount tape rate k') : k = k' := by
  rcases lt_trichotomy k k' with hlt | heq | hgt
  · exact absurd (h'.arrived k hlt) h.past
  · exact heq
  · exact absurd (h.arrived k' hgt) h'.past

theorem exists_isCount_iff :
    (∃ k, IsCount tape rate k) ↔ ∃ j, ¬ arrivalTime tape j ≤ rate := by
  constructor
  · rintro ⟨k, h⟩
    exact ⟨k, h.past⟩
  · intro h
    classical
    exact ⟨Nat.find h, fun j hj => not_not.1 (Nat.find_min h hj), Nat.find_spec h⟩

/-- The search after `j` arrivals. -/
theorem arrivals_counted (tape : Tape α) (rate : α) (j : ℕ) :
    (tape.skip (j + 1)).arrivals rate (counted j) (arrivalTime tape j) =
      if arrivalTime tape j ≤ rate then
        (tape.skip (j + 2)).arrivals rate (counted (j + 1)) (arrivalTime tape (j + 1))
      else some (counted j, tape.skip (j + 1)) := by
  rw [Tape.arrivals]
  rfl

theorem poisson_of_isCount (h : IsCount tape rate k) :
    poisson rate tape = some (counted k, tape.skip (k + 1)) := by
  -- The induction is on the arrivals that are left.
  have hsearch (n j : ℕ) (hj : j + n = k) :
      (tape.skip (j + 1)).arrivals rate (counted j) (arrivalTime tape j) =
        some (counted k, tape.skip (k + 1)) := by
    induction n generalizing j with
    | zero =>
      obtain rfl : j = k := hj
      rw [arrivals_counted, if_neg h.past]
    | succ n ih =>
      rw [arrivals_counted, if_pos (h.arrived j (by omega))]
      exact ih (j + 1) (by omega)
  exact hsearch k 0 (Nat.zero_add k)

/-- A search that ends has found a count. -/
theorem isCount_of_poisson {result : α × Tape α} (h : poisson rate tape = some result) :
    ∃ k, IsCount tape rate k ∧ result = (counted k, tape.skip (k + 1)) := by
  refine Tape.arrivals.partial_correctness rate
    (fun rest count elapsed result => ∀ j, rest = tape.skip (j + 1) → count = counted j →
      elapsed = arrivalTime tape j → (∀ i < j, arrivalTime tape i ≤ rate) →
        ∃ k, IsCount tape rate k ∧ result = (counted k, tape.skip (k + 1)))
    ?_ _ _ _ _ h 0 rfl rfl rfl fun i hi => absurd hi (Nat.not_lt_zero i)
  rintro search ih - - - result hstep j rfl rfl rfl before
  split at hstep
  next harrived =>
    refine ih _ _ _ _ hstep (j + 1) rfl rfl rfl fun i hi => ?_
    rcases Nat.lt_succ_iff_lt_or_eq.1 hi with hlt | rfl
    · exact before i hlt
    · exact harrived
  next hpast => exact ⟨j, ⟨before, hpast⟩, (Option.some.inj hstep).symm⟩

theorem poisson_eq_some_iff {result : α × Tape α} :
    poisson rate tape = some result ↔
      ∃ k, IsCount tape rate k ∧ result = (counted k, tape.skip (k + 1)) := by
  constructor
  · exact isCount_of_poisson
  · rintro ⟨k, hk, rfl⟩
    exact poisson_of_isCount hk

end Search

/-! ## Exact arrivals -/

section Exact

variable {tape : Tape Exact} {rate : Exact} {k : ℕ}

/-- The sum of the first `j` unit exponential times, from the uniforms of a tape. -/
noncomputable def arrivalSum (tape : Tape Exact) (j : ℕ) : ℝ :=
  -∑ i ∈ Finset.range j, Real.log (1 - (tape.cell (tape.position + i)).toReal)

theorem arrivalSum_zero (tape : Tape Exact) : arrivalSum tape 0 = 0 := by
  rw [arrivalSum, Finset.range_zero, Finset.sum_empty, neg_zero]

theorem arrivalSum_succ (tape : Tape Exact) (j : ℕ) : arrivalSum tape (j + 1) =
    arrivalSum tape j - Real.log (1 - (tape.cell (tape.position + j)).toReal) := by
  rw [arrivalSum, Finset.sum_range_succ, neg_add, ← sub_eq_add_neg]
  rfl

theorem counted_real (k : ℕ) : (counted k : Exact) = .real k := by
  induction k with
  | zero => rfl
  | succ k ih => rw [counted, ih, Exact.one_eq, Exact.real_add, Nat.cast_succ]

/-- The logarithm that an exponential time is made of. -/
theorem log_cell (unit : tape.IsUnit) (i : ℕ) :
    Scalar.log (1 - tape.cell i) = .real (Real.log (1 - (tape.cell i).toReal)) ∧
      Real.log (1 - (tape.cell i).toReal) ≤ 0 := by
  obtain ⟨u, hnonneg, hlt, hu⟩ := unit i
  rw [hu, Exact.one_eq, Exact.real_sub, Exact.log_real (sub_pos.2 hlt), Exact.toReal_real]
  exact ⟨rfl, Real.log_nonpos (sub_pos.2 hlt).le (sub_le_self 1 hnonneg)⟩

theorem arrivalTime_real (unit : tape.IsUnit) (j : ℕ) :
    arrivalTime tape j = .real (arrivalSum tape (j + 1)) := by
  induction j with
  | zero =>
    rw [arrivalTime, (log_cell unit _).1, Exact.real_neg, arrivalSum_succ, arrivalSum_zero,
      zero_sub]
    rfl
  | succ j ih =>
    rw [arrivalTime, ih, (log_cell unit _).1, Exact.real_sub, ← arrivalSum_succ]

theorem arrivalSum_mono (unit : tape.IsUnit) : Monotone (arrivalSum tape) := by
  refine monotone_nat_of_le_succ fun j => ?_
  rw [arrivalSum_succ]
  linarith [(log_cell unit (tape.position + j)).2]

/-- The count is the number of arrivals in the rate. -/
theorem isCount_iff (unit : tape.IsUnit) : IsCount tape rate k ↔
    ∀ j, 0 < j → (.real (arrivalSum tape j) ≤ rate ↔ j ≤ k) := by
  have htime (j : ℕ) (hj : 0 < j) :
      .real (arrivalSum tape j) = arrivalTime tape (j - 1) := by
    rw [arrivalTime_real unit, Nat.sub_add_cancel hj]
  constructor
  · intro h j hj
    constructor
    · intro hle
      by_contra hgt
      -- A later arrival is in the rate only if the one that is past it is.
      have hmono := arrivalSum_mono unit (Nat.succ_le_of_lt (not_le.1 hgt))
      apply h.past
      rw [arrivalTime_real unit]
      cases rate with
      | real x => exact hmono.trans hle
      | posInf => trivial
      | negInf => exact hle
      | undefined => exact hle
    · intro hle
      rw [htime j hj]
      exact h.arrived _ (by omega)
  · intro h
    refine ⟨fun j hj => ?_, ?_⟩
    · rw [arrivalTime_real unit]
      exact (h (j + 1) j.succ_pos).2 hj
    · rw [arrivalTime_real unit]
      exact fun hle => Nat.not_succ_le_self k ((h (k + 1) k.succ_pos).1 hle)

/-- The rate is between the last arrival that is counted and the next one. -/
theorem isCount_iff_between (unit : tape.IsUnit) (hrate : 0 ≤ rate) : IsCount tape rate k ↔
    .real (arrivalSum tape k) ≤ rate ∧ rate < .real (arrivalSum tape (k + 1)) := by
  constructor
  · intro h
    constructor
    · cases k with
      | zero =>
        rw [arrivalSum_zero, ← Exact.zero_eq]
        exact hrate
      | succ k => exact ((isCount_iff unit).1 h (k + 1) k.succ_pos).2 le_rfl
    · have hpast := h.past
      rw [arrivalTime_real unit] at hpast
      cases rate with
      | real x => exact (Exact.real_lt _ _).2 (not_le.1 (mt (Exact.real_le _ _).2 hpast))
      | posInf => exact absurd trivial hpast
      | negInf => trivial
      | undefined => exact hrate
  · rintro ⟨hle, hlt⟩
    cases rate with
    | real x =>
      refine ⟨fun j hj => ?_, ?_⟩
      · rw [arrivalTime_real unit]
        exact (arrivalSum_mono unit hj).trans hle
      · rw [arrivalTime_real unit]
        exact mt (Exact.real_le _ _).1 (not_le.2 ((Exact.real_lt _ _).1 hlt))
    | posInf => exact hlt.elim
    | negInf => exact hle.elim
    | undefined => exact hle.elim

end Exact

end Metropolis.Counts
