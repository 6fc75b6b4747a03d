import Metropolis.Proofs.Adaptation
import Metropolis.Proofs.Estimates

/-!
# Acceptance rates of long runs

Counts stay at a limit when they become numbers, so that a rate is the quotient of two counts that
are cut there. It is the share of the accepted proposals as long as all proposals are fewer than
`2 ^ 32`. Of more proposals it is too large unless all of them went the same way, and it is one from
the limit of accepted proposals on, however many were rejected. So a scale that falls after a batch
falls rightly, and one that rises after a batch of that size may do so wrongly.
-/

namespace Metropolis

open Scalar (countLimit)

namespace Acceptance

/-! ## Decisions and their counts -/

/-- The counts after decisions on proposals. -/
def ofDecisions (decisions : List Bool) : Acceptance := decisions.foldl record {}

theorem ofDecisions_append_singleton (decisions : List Bool) (accepted : Bool) :
    ofDecisions (decisions ++ [accepted]) = (ofDecisions decisions).record accepted := by
  rw [ofDecisions, List.foldl_append, ofDecisions]
  rfl

theorem ofDecisions_eq (decisions : List Bool) :
    ofDecisions decisions = ⟨decisions.length, decisions.count true⟩ := by
  induction decisions using List.reverseRecOn with
  | nil => rfl
  | append_singleton decisions accepted ih =>
    rw [ofDecisions_append_singleton, ih, record, List.length_append, List.count_append]
    cases accepted <;> rfl

/-- The accepted ones among decisions as a part of all, zero of none. -/
noncomputable def share (decisions : List Bool) : ℝ :=
  (decisions.count true : ℕ) / (decisions.length : ℕ)

/-- The quotient of the two counts, each cut at the limit. -/
noncomputable def cutShare (decisions : List Bool) : ℝ :=
  (min (decisions.count true) countLimit : ℕ) / (min decisions.length countLimit : ℕ)

theorem rate_ofDecisions (decisions : List Bool) :
    ((ofDecisions decisions).rate : Exact) = .real (cutShare decisions) := by
  rw [ofDecisions_eq, rate, cutShare]
  rcases Nat.eq_zero_or_pos decisions.length with hnone | hsome
  · rw [if_pos hnone, hnone, Nat.zero_min, Nat.cast_zero, div_zero, Exact.zero_eq]
  · rw [if_neg hsome.ne', Exact.ofCount_eq, Exact.ofCount_eq,
      Exact.real_div _ (Exact.min_countLimit_pos hsome).ne']

variable {decisions : List Bool}

theorem countLimit_pos : 0 < countLimit := by decide

theorem accepted_lt_length (h : false ∈ decisions) : decisions.count true < decisions.length := by
  refine List.count_le_length.lt_of_ne fun hall => ?_
  cases List.count_eq_length.1 hall false h

theorem count_eq_length (h : false ∉ decisions) : decisions.count true = decisions.length := by
  refine List.count_eq_length.2 fun accepted hmem => ?_
  cases accepted with
  | true => rfl
  | false => exact absurd hmem h

/-! ## The share and the quotient of cut counts -/

theorem cutShare_of_short (h : decisions.length ≤ countLimit) :
    cutShare decisions = share decisions := by
  rw [cutShare, share, Nat.min_eq_left h, Nat.min_eq_left (List.count_le_length.trans h)]

theorem cutShare_of_long (h : countLimit ≤ decisions.length) :
    cutShare decisions = (min (decisions.count true) countLimit : ℕ) / (countLimit : ℕ) := by
  rw [cutShare, Nat.min_eq_right h]

theorem cutShare_of_many (h : countLimit ≤ decisions.count true) : cutShare decisions = 1 := by
  have hlimit : ((countLimit : ℕ) : ℝ) ≠ 0 := Nat.cast_ne_zero.2 countLimit_pos.ne'
  rw [cutShare_of_long (h.trans List.count_le_length), Nat.min_eq_right h, div_self hlimit]

theorem cutShare_nonneg (decisions : List Bool) : 0 ≤ cutShare decisions :=
  div_nonneg (Nat.cast_nonneg _) (Nat.cast_nonneg _)

theorem cutShare_le_one (decisions : List Bool) : cutShare decisions ≤ 1 :=
  div_le_one_of_le₀ (Nat.cast_le.2 (min_le_min_right _ List.count_le_length)) (Nat.cast_nonneg _)

theorem share_of_none (h : true ∉ decisions) : share decisions = 0 := by
  rw [share, List.count_eq_zero.2 h, Nat.cast_zero, zero_div]

theorem cutShare_of_none (h : true ∉ decisions) : cutShare decisions = 0 := by
  rw [cutShare, List.count_eq_zero.2 h, Nat.zero_min, Nat.cast_zero, zero_div]

theorem share_of_all (hne : decisions ≠ []) (h : false ∉ decisions) : share decisions = 1 := by
  rw [share, count_eq_length h, div_self]
  exact Nat.cast_ne_zero.2 (List.length_pos_iff.2 hne).ne'

theorem cutShare_of_all (hne : decisions ≠ []) (h : false ∉ decisions) :
    cutShare decisions = 1 := by
  rw [cutShare, count_eq_length h, div_self]
  exact (Exact.min_countLimit_pos (List.length_pos_iff.2 hne)).ne'

theorem share_lt_one (h : false ∈ decisions) : share decisions < 1 := by
  have hlt := accepted_lt_length h
  exact (div_lt_one (Nat.cast_pos.2 (by omega))).2 (Nat.cast_lt.2 hlt)

/-- Past the limit a share that is neither zero nor one is missed from above. -/
theorem share_lt_cutShare (hlong : countLimit < decisions.length) (haccepted : true ∈ decisions)
    (hrejected : false ∈ decisions) : share decisions < cutShare decisions := by
  rcases Nat.le_total (decisions.count true) countLimit with hfew | hmany
  · -- Only the number of decisions is cut, which makes the quotient larger.
    have hcount : (0 : ℝ) < (decisions.count true : ℕ) :=
      Nat.cast_pos.2 (List.count_pos_iff.2 haccepted)
    rw [cutShare_of_long hlong.le, Nat.min_eq_left hfew, share]
    exact div_lt_div_of_pos_left hcount (Nat.cast_pos.2 countLimit_pos) (Nat.cast_lt.2 hlong)
  · -- Both numbers are cut to the same.
    rw [cutShare_of_many hmany]
    exact share_lt_one hrejected

theorem cutShare_eq_share_iff :
    cutShare decisions = share decisions ↔
      decisions.length < 2 ^ 32 ∨ true ∉ decisions ∨ false ∉ decisions := by
  have hlimit : decisions.length < 2 ^ 32 ↔ decisions.length ≤ countLimit :=
    Nat.lt_succ_iff (n := countLimit)
  rw [hlimit]
  constructor
  · intro heq
    by_contra hnone
    push Not at hnone
    obtain ⟨hlong, haccepted, hrejected⟩ := hnone
    exact (share_lt_cutShare hlong haccepted hrejected).ne' heq
  · rintro (hshort | hnone | hall)
    · exact cutShare_of_short hshort
    · rw [cutShare_of_none hnone, share_of_none hnone]
    · rcases eq_or_ne decisions [] with rfl | hne
      · exact cutShare_of_short (Nat.zero_le _)
      · rw [cutShare_of_all hne hall, share_of_all hne hall]

theorem share_le_cutShare (decisions : List Bool) : share decisions ≤ cutShare decisions := by
  by_cases hexact : cutShare decisions = share decisions
  · exact hexact.ge
  · rw [cutShare_eq_share_iff] at hexact
    push Not at hexact
    obtain ⟨hlong, haccepted, hrejected⟩ := hexact
    exact (share_lt_cutShare hlong haccepted hrejected).le

theorem cutShare_eq_one_iff :
    cutShare decisions = 1 ↔
      decisions ≠ [] ∧ (false ∉ decisions ∨ 2 ^ 32 - 1 ≤ decisions.count true) := by
  constructor
  · intro hone
    have hne : decisions ≠ [] := by
      rintro rfl
      rw [cutShare_of_none List.not_mem_nil] at hone
      exact zero_ne_one hone
    refine ⟨hne, or_iff_not_imp_left.2 fun hrejected => ?_⟩
    by_contra hfew
    have hfew : decisions.count true < countLimit := not_le.1 hfew
    have hlt : decisions.count true < min decisions.length countLimit :=
      lt_min (accepted_lt_length (not_not.1 hrejected)) hfew
    have hquotient : cutShare decisions < 1 := by
      rw [cutShare, Nat.min_eq_left hfew.le, div_lt_one (Nat.cast_pos.2 (by omega))]
      exact Nat.cast_lt.2 hlt
    exact hquotient.ne hone
  · rintro ⟨hne, hall | hmany⟩
    · exact cutShare_of_all hne hall
    · exact cutShare_of_many hmany

/-! ## One more decision -/

theorem cutShare_le_accepted (decisions : List Bool) :
    cutShare decisions ≤ cutShare (decisions ++ [true]) := by
  have hlength : (decisions ++ [true]).length = decisions.length + 1 := List.length_append
  have hcount : (decisions ++ [true]).count true = decisions.count true + 1 := List.count_append
  have hle : decisions.count true ≤ decisions.length := List.count_le_length
  rcases Nat.lt_or_ge decisions.length countLimit with hshort | hlong
  · rw [cutShare_of_short hshort.le, cutShare_of_short (by omega), share, share, hlength, hcount]
    rcases Nat.eq_zero_or_pos decisions.length with hnone | hsome
    · rw [hnone, Nat.cast_zero, div_zero]
      positivity
    · -- One more of both does not make a fraction of at most one smaller.
      rw [div_le_div_iff₀ (by positivity) (by positivity)]
      norm_cast
      rw [Nat.mul_succ, Nat.succ_mul]
      omega
  · -- Past the limit the denominator stays.
    rw [cutShare_of_long hlong, cutShare_of_long (by omega), hcount]
    refine div_le_div_of_nonneg_right (Nat.cast_le.2 ?_) (Nat.cast_nonneg _)
    exact min_le_min_right _ (Nat.le_succ _)

theorem cutShare_rejected_le (decisions : List Bool) :
    cutShare (decisions ++ [false]) ≤ cutShare decisions := by
  have hlength : (decisions ++ [false]).length = decisions.length + 1 := List.length_append
  have hcount : (decisions ++ [false]).count true = decisions.count true := List.count_append
  rcases eq_or_ne decisions [] with rfl | hne
  · exact (cutShare_of_none (by decide)).trans_le (cutShare_nonneg _)
  · rw [cutShare, cutShare, hlength, hcount]
    refine div_le_div_of_nonneg_left (Nat.cast_nonneg _)
      (Exact.min_countLimit_pos (List.length_pos_iff.2 hne)) (Nat.cast_le.2 ?_)
    exact min_le_min_right _ (Nat.le_succ _)

end Acceptance

namespace RandomWalk

open Acceptance (ofDecisions share cutShare)

/-! ## The change of the scale -/

variable {α : Type} {w : RandomWalk α}

/-- A proposal that is not frozen counts all decisions. -/
theorem foldl_record (h : w.frozen = false) (decisions : List Bool) :
    decisions.foldl record w = { w with batch := decisions.foldl Acceptance.record w.batch } := by
  induction decisions using List.reverseRecOn with
  | nil => rfl
  | append_singleton decisions accepted ih =>
    have hfree : ¬ w.frozen = true := by rw [h]; decide
    rw [List.foldl_append, List.foldl_append, ih, List.foldl_cons, List.foldl_nil]
    exact if_neg hfree

theorem foldl_record_fresh (hfrozen : w.frozen = false) (hbatch : w.batch = {})
    (decisions : List Bool) :
    decisions.foldl record w = { w with batch := ofDecisions decisions } := by
  rw [foldl_record hfrozen, hbatch, ofDecisions]

/-- As many decisions as the interval make a change of the scale due. -/
theorem retune_fresh [Scalar α] (hfrozen : w.frozen = false) (hbatch : w.batch = {})
    {decisions : List Bool} (hfull : w.tuning.interval ≤ decisions.length) :
    (decisions.foldl record w).isDue = true ∧ (decisions.foldl record w).retune =
      { w with scale := rescale w.tuning w.scale (ofDecisions decisions) } := by
  have hproposed : (ofDecisions decisions).proposed = decisions.length := by
    rw [Acceptance.ofDecisions_eq]
  have hdue : ({ w with batch := ofDecisions decisions } : RandomWalk α).isDue = true := by
    show (!w.frozen && decide (w.tuning.interval ≤ (ofDecisions decisions).proposed)) = true
    rw [hfrozen, hproposed, decide_eq_true hfull]
    rfl
  rw [foldl_record_fresh hfrozen hbatch]
  exact ⟨hdue, (retune_of_due hdue).trans (by rw [hbatch])⟩

/-- The first scale in one dimension, increased once. -/
theorem clamp_increase :
    Scalar.clamp (.real 2.38 * (Tuning.standard : Tuning Exact).increase)
      Tuning.standard.minScale Tuning.standard.maxScale = .real 2.975 := by
  have hincrease : (Tuning.standard : Tuning Exact).increase = .real 1.25 := by
    show (OfScientific.ofScientific 125 true 2 : Exact) = _
    rw [Exact.ofScientific_eq]
  have hproduct : (2.38 : ℝ) * 1.25 = 2.975 := by norm_num
  rw [hincrease, Exact.real_mul, hproduct, clamp_standard (by norm_num) (by norm_num)]

/-- Of any decisions no more are accepted than made, and the rate is a number between the share of
the accepted ones and one. It is the share just if the decisions are fewer than `2 ^ 32` or all the
same, and one just if there are some and none is a rejection or at least `2 ^ 32 - 1` are not. It
does not fall with an acceptance or rise with a rejection. A proposal that has counted a full batch
increases its scale if the rate is above the target, decreases it if the rate is below, and else
leaves it. In a batch smaller than `2 ^ 32` the share is on the same side of the target as the rate,
and in any batch a rate below the target means a share below it. -/
theorem rate_saturates (decisions : List Bool) :
    (ofDecisions decisions).accepted ≤ (ofDecisions decisions).proposed ∧
      (∃ r : ℝ, ((ofDecisions decisions).rate : Exact) = .real r ∧
        share decisions ≤ r ∧ 0 ≤ r ∧ r ≤ 1 ∧
        (r = share decisions ↔
          decisions.length < 2 ^ 32 ∨ true ∉ decisions ∨ false ∉ decisions) ∧
        (r = 1 ↔ decisions ≠ [] ∧ (false ∉ decisions ∨ 2 ^ 32 - 1 ≤ decisions.count true))) ∧
      ((ofDecisions decisions).rate : Exact) ≤ ((ofDecisions decisions).record true).rate ∧
      (((ofDecisions decisions).record false).rate : Exact) ≤ (ofDecisions decisions).rate ∧
      ∀ w : RandomWalk Exact, w.frozen = false → w.batch = {} →
        w.tuning.interval ≤ decisions.length →
          (decisions.foldl record w).isDue = true ∧
            (decisions.foldl record w).retune.scale =
              Scalar.clamp
                (w.scale *
                  if w.tuning.target < (ofDecisions decisions).rate then w.tuning.increase
                  else if (ofDecisions decisions).rate < w.tuning.target then w.tuning.decrease
                  else 1)
                w.tuning.minScale w.tuning.maxScale ∧
            (decisions.length < 2 ^ 32 →
              (w.tuning.target < (ofDecisions decisions).rate ↔
                w.tuning.target < .real (share decisions)) ∧
              ((ofDecisions decisions).rate < w.tuning.target ↔
                .real (share decisions) < w.tuning.target)) ∧
            ((ofDecisions decisions).rate < w.tuning.target →
              .real (share decisions) < w.tuning.target) := by
  refine ⟨?_, ⟨cutShare decisions, Acceptance.rate_ofDecisions decisions,
    Acceptance.share_le_cutShare decisions, Acceptance.cutShare_nonneg decisions,
    Acceptance.cutShare_le_one decisions, Acceptance.cutShare_eq_share_iff,
    Acceptance.cutShare_eq_one_iff⟩, ?_, ?_, fun w hfrozen hbatch hfull => ?_⟩
  · rw [Acceptance.ofDecisions_eq]
    exact List.count_le_length
  · rw [← Acceptance.ofDecisions_append_singleton, Acceptance.rate_ofDecisions,
      Acceptance.rate_ofDecisions, Exact.real_le]
    exact Acceptance.cutShare_le_accepted decisions
  · rw [← Acceptance.ofDecisions_append_singleton, Acceptance.rate_ofDecisions,
      Acceptance.rate_ofDecisions, Exact.real_le]
    exact Acceptance.cutShare_rejected_le decisions
  · obtain ⟨hdue, hretune⟩ := retune_fresh hfrozen hbatch hfull
    -- The rate is never below the share, so that a rate below the target is no error.
    refine ⟨hdue, by rw [hretune]; rfl, fun hshort => ?_, fun hbelow => ?_⟩
    · rw [Acceptance.rate_ofDecisions, Acceptance.cutShare_eq_share_iff.2 (.inl hshort)]
      exact ⟨Iff.rfl, Iff.rfl⟩
    · rw [Acceptance.rate_ofDecisions] at hbelow
      exact Exact.real_lt_of_le (Acceptance.share_le_cutShare decisions) hbelow

/-- A batch of three decisions, two of them acceptances, widens the steps. -/
noncomputable def briefWalk : RandomWalk Exact :=
  ofFactor (.identity 1) { Tuning.standard with interval := 3 }

theorem rate_saturates_briefWalk :
    ((ofDecisions [true, false, true]).rate : Exact) = .real (2 / 3) ∧
      ([true, false, true].foldl record briefWalk).isDue = true ∧
      ([true, false, true].foldl record briefWalk).retune.scale = .real 2.975 := by
  obtain ⟨-, ⟨r, hrate, -, -, -, hexact, -⟩, -, -, hwalk⟩ := rate_saturates [true, false, true]
  have hshare : share [true, false, true] = 2 / 3 := by
    rw [share]
    norm_num
  have hr : r = 2 / 3 := (hexact.2 (.inl (by decide))).trans hshare
  obtain ⟨hdue, hscale, -, -⟩ := hwalk briefWalk rfl rfl (by decide)
  have htarget : briefWalk.tuning.target < .real (2 / 3) := by
    show (OfScientific.ofScientific 234 true 3 : Exact) < _
    rw [Exact.ofScientific_eq, Exact.real_lt]
    norm_num
  have hfirst : briefWalk.scale = .real 2.38 := firstScale_standard
  rw [hrate, hr] at hscale ⊢
  rw [hfirst, if_pos htarget] at hscale
  exact ⟨rfl, hdue, hscale.trans clamp_increase⟩

/-! ## A batch past the limit -/

/-- Acceptances and a rejection after them. -/
def almostAll (n : ℕ) : List Bool := List.replicate n true ++ [false]

theorem length_almostAll (n : ℕ) : (almostAll n).length = n + 1 := by
  rw [almostAll, List.length_append, List.length_replicate, List.length_singleton]

theorem count_almostAll (n : ℕ) : (almostAll n).count true = n := by
  rw [almostAll, List.count_append, List.count_replicate_self]
  rfl

theorem rejected_mem_almostAll (n : ℕ) : false ∈ almostAll n :=
  List.mem_append_right _ (List.mem_singleton_self false)

/-- Tuning after so many proposals that their number is past the limit, and towards a rate that is
almost one. -/
noncomputable def patientTuning : Tuning Exact :=
  { Tuning.standard with interval := countLimit + 1, target := 0.9999999999 }

theorem patientTuning_isValid : patientTuning.isValid = true := by
  simp only [Tuning.isValid, patientTuning, Tuning.standard, Exact.ofNat_eq, Exact.ofScientific_eq,
    Exact.real_lt, Exact.real_le, Exact.isFinite_real, Nat.succ_pos, decide_true, Bool.and_true,
    Bool.and_eq_true, decide_eq_true_eq]
  norm_num

theorem share_almostAll_lt : share (almostAll countLimit) < 0.9999999999 := by
  rw [share, length_almostAll, count_almostAll, countLimit]
  norm_num

/-- After `2 ^ 32 - 1` acceptances and a rejection the rate is one, and the scale rises although the
share is below the target. -/
theorem retune_almostAll :
    patientTuning.isValid = true ∧ (almostAll countLimit).length < 2 ^ 64 ∧
      patientTuning.interval = (almostAll countLimit).length ∧ false ∈ almostAll countLimit ∧
      ((ofDecisions (almostAll countLimit)).rate : Exact) = .real 1 ∧
      share (almostAll countLimit) < 1 ∧
      .real (share (almostAll countLimit)) < patientTuning.target ∧
      (ofFactor (.identity 1) patientTuning).scale = .real 2.38 ∧
      ((almostAll countLimit).foldl record (ofFactor (.identity 1) patientTuning)).retune.scale =
        .real 2.975 := by
  have hrate : ((ofDecisions (almostAll countLimit)).rate : Exact) = .real 1 := by
    rw [Acceptance.rate_ofDecisions, Acceptance.cutShare_of_many (count_almostAll _).ge]
  have htarget : patientTuning.target = .real 0.9999999999 := by
    show (OfScientific.ofScientific 9999999999 true 10 : Exact) = _
    rw [Exact.ofScientific_eq]
  have hfirst : (ofFactor (.identity 1) patientTuning).scale = .real 2.38 := firstScale_standard
  have habove : (ofFactor (.identity 1) patientTuning).tuning.target < .real 1 := by
    show patientTuning.target < _
    rw [htarget, Exact.real_lt]
    norm_num
  have hfull : patientTuning.interval = (almostAll countLimit).length :=
    (length_almostAll countLimit).symm
  refine ⟨patientTuning_isValid, ?_, hfull, rejected_mem_almostAll _, hrate,
    Acceptance.share_lt_one (rejected_mem_almostAll _), ?_, hfirst, ?_⟩
  · rw [length_almostAll]
    decide
  · rw [htarget, Exact.real_lt]
    exact share_almostAll_lt
  · rw [(retune_fresh rfl rfl hfull.le).2]
    dsimp only [rescale]
    rw [hrate, hfirst, if_pos habove]
    exact clamp_increase

end RandomWalk

end Metropolis
