import Mathlib.Data.List.Sort
import Mathlib.Tactic.Common
import Metropolis.Outcomes

/-!
# The subjects of labelled outcomes

The labels of the subjects are those that occur, in ascending order and each once. Every subject has
a row, and all its rows are rows of the outcomes.
-/

namespace Metropolis

/-! ## A list without repetitions -/

section EraseReps

variable {β : Type}

theorem eraseRepsBy_loop (r : β → β → Bool) (x : β) (xs done : List β) :
    List.eraseRepsBy.loop r x xs done = done.reverse ++ List.eraseRepsBy.loop r x xs [] := by
  induction xs generalizing x done with
  | nil => rw [List.eraseRepsBy.loop, List.eraseRepsBy.loop, List.reverse_cons]; rfl
  | cons y xs ih =>
    unfold List.eraseRepsBy.loop
    split
    · exact ih x done
    · rw [ih y (x :: done), ih y [x], List.reverse_cons, List.append_assoc]
      rfl

variable [BEq β]

theorem eraseReps_cons_cons (x y : β) (xs : List β) :
    (x :: y :: xs).eraseReps =
      if x == y then (x :: xs).eraseReps else x :: (y :: xs).eraseReps := by
  show List.eraseRepsBy.loop _ x (y :: xs) [] = _
  unfold List.eraseRepsBy.loop
  cases x == y with
  | true => rfl
  | false => exact eraseRepsBy_loop _ y xs [x]

theorem mem_eraseReps [LawfulBEq β] {x : β} {xs : List β} : x ∈ xs.eraseReps ↔ x ∈ xs := by
  cases xs with
  | nil => rfl
  | cons y xs =>
    induction xs generalizing y with
    | nil => rfl
    | cons z xs ih =>
      rw [eraseReps_cons_cons]
      split
      next heq =>
        rw [ih, beq_iff_eq.1 heq]
        simp only [List.mem_cons]
        tauto
      next => rw [List.mem_cons, ih, List.mem_cons (b := y)]

/-- What is ascending is strictly so without its repetitions. -/
theorem pairwise_eraseReps {xs : List Nat} (h : xs.Pairwise (· ≤ ·)) :
    xs.eraseReps.Pairwise (· < ·) := by
  cases xs with
  | nil => exact List.Pairwise.nil
  | cons x xs =>
    induction xs generalizing x with
    | nil => exact List.pairwise_singleton _ _
    | cons y xs ih =>
      obtain ⟨hx, hrest⟩ := List.pairwise_cons.1 h
      rw [eraseReps_cons_cons]
      split
      next heq =>
        rw [beq_iff_eq.1 heq]
        exact ih y hrest
      next hne =>
        have hlt : x < y := by
          have hle := hx y List.mem_cons_self
          rw [beq_iff_eq] at hne
          omega
        refine List.pairwise_cons.2 ⟨fun z hz => ?_, ih y hrest⟩
        rcases List.mem_cons.1 (mem_eraseReps.1 hz) with rfl | hz
        · exact hlt
        · exact Nat.lt_of_lt_of_le hlt ((List.pairwise_cons.1 hrest).1 z hz)

end EraseReps

namespace Outcomes

variable {α : Type} {o : Outcomes α} {labels : List Nat} {label row : Nat}

theorem mem_distinct : label ∈ distinct labels ↔ label ∈ labels := by
  rw [distinct, mem_eraseReps, List.mem_mergeSort]

theorem pairwise_distinct (labels : List Nat) : (distinct labels).Pairwise (· < ·) := by
  apply pairwise_eraseReps
  have htrans (a b c : Nat) (h : decide (a ≤ b) = true) (h' : decide (b ≤ c) = true) :
      decide (a ≤ c) = true :=
    decide_eq_true (Nat.le_trans (of_decide_eq_true h) (of_decide_eq_true h'))
  have htotal (a b : Nat) : (decide (a ≤ b) || decide (b ≤ a)) = true := by
    rw [Bool.or_eq_true, decide_eq_true_eq, decide_eq_true_eq]
    exact Nat.le_total a b
  exact (List.pairwise_mergeSort htrans htotal labels).imp of_decide_eq_true

theorem distinct_of_perm {labels' : List Nat} (h : labels'.Perm labels) :
    distinct labels' = distinct labels := by
  refine (pairwise_distinct _).eq_of_mem_iff (pairwise_distinct _) fun label => ?_
  rw [mem_distinct, mem_distinct, h.mem_iff]

theorem mem_rowsOf : row ∈ rowsOf labels label ↔ labels[row]? = some label := by
  rw [rowsOf, List.mem_filter, List.mem_range, beq_iff_eq]
  exact ⟨And.right, fun h => ⟨(List.getElem?_eq_some_iff.1 h).1, h⟩⟩

/-- Every label is that of one subject, and the subjects are ordered by them. -/
theorem labels_subjects (o : Outcomes α) : o.subjects.map Subject.label = distinct o.labels := by
  rw [subjects, List.map_map]
  exact List.map_id _

/-- The rows of a subject are those with its label, and there is one. -/
theorem rows_of_mem_subjects {subject : Subject} (h : subject ∈ o.subjects) :
    subject.rows = rowsOf o.labels subject.label ∧ subject.rows ≠ [] := by
  obtain ⟨label, hlabel, rfl⟩ := List.mem_map.1 h
  obtain ⟨row, hrow⟩ := List.mem_iff_getElem?.1 (mem_distinct.1 hlabel)
  exact ⟨rfl, List.ne_nil_of_mem (mem_rowsOf.2 hrow)⟩

variable [Scalar α]

theorem check_eq_ok (h : o.check = .ok ()) :
    o.values ≠ [] ∧ o.labels.length = o.values.length ∧
      ∀ y ∈ o.values, Scalar.isFinite y = true := by
  unfold check at h
  split at h
  · cases h
  next hempty =>
    split at h
    · cases h
    next hlength =>
      split at h
      · cases h
      next hfinite =>
        refine ⟨fun hnil => hempty (List.isEmpty_iff.2 hnil), not_not.1 hlength, fun y hy => ?_⟩
        rw [List.any_eq_true, not_exists] at hfinite
        simpa only [hy, true_and, Bool.not_eq_true', Bool.not_eq_false] using hfinite y

theorem checkCounts_eq_ok_iff :
    o.checkCounts = .ok () ↔ o.check = .ok () ∧ (∀ y ∈ o.values, ¬ y < 0) ∧
      ∀ y ∈ o.values, Scalar.isWhole y = true := by
  have hnonneg : (o.values.any fun y => decide (y < 0)) = false ↔ ∀ y ∈ o.values, ¬ y < 0 := by
    simp only [List.any_eq_false, decide_eq_true_eq]
  have hwhole : (o.values.any fun y => !Scalar.isWhole y) = false ↔
      ∀ y ∈ o.values, Scalar.isWhole y = true := by
    simp only [List.any_eq_false, Bool.not_eq_true', Bool.not_eq_false]
  rw [← hnonneg, ← hwhole]
  unfold checkCounts
  cases o.check with
  | error cause => exact ⟨nofun, nofun⟩
  | ok u =>
    cases o.values.any fun y => decide (y < 0) with
    | true => exact ⟨nofun, nofun⟩
    | false =>
      cases o.values.any fun y => !Scalar.isWhole y with
      | true => exact ⟨nofun, nofun⟩
      | false => exact iff_of_true rfl ⟨rfl, rfl, rfl⟩

theorem check_of_checkCounts (h : o.checkCounts = .ok ()) : o.check = .ok () :=
  (checkCounts_eq_ok_iff.1 h).1

theorem not_negative_of_checkCounts (h : o.checkCounts = .ok ()) : ∀ y ∈ o.values, ¬ y < 0 :=
  (checkCounts_eq_ok_iff.1 h).2.1

/-- The rows of the subjects are rows of the outcomes. -/
theorem lt_of_mem_rows (h : o.check = .ok ()) {subject : Subject} (hsubject : subject ∈ o.subjects)
    (hrow : row ∈ subject.rows) : row < o.values.length := by
  rw [(rows_of_mem_subjects hsubject).1, mem_rowsOf] at hrow
  rw [← (check_eq_ok h).2.1]
  exact (List.getElem?_eq_some_iff.1 hrow).1

/-- Outcomes that pass have a subject. -/
theorem subjects_ne_nil (h : o.check = .ok ()) : o.subjects ≠ [] := by
  obtain ⟨hvalues, hlength, -⟩ := check_eq_ok h
  have hlabels : o.labels ≠ [] := by
    rw [← List.length_pos_iff, hlength, List.length_pos_iff]
    exact hvalues
  obtain ⟨label, hlabel⟩ := List.exists_mem_of_ne_nil _ hlabels
  rw [Ne, subjects, List.map_eq_nil_iff]
  exact List.ne_nil_of_mem (mem_distinct.2 hlabel)

end Outcomes

end Metropolis
