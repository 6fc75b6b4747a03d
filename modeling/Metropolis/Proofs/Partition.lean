import Mathlib.Data.List.FinRange
import Mathlib.Data.List.Induction
import Metropolis.Proofs.Grouping

/-!
# The partition of the rows among the subjects

A row that is added at the end goes to the end of the rows of its label and changes no other label's
rows, so that reading the labels one after another gives the subjects. The rows of a label are its
positions in ascending order, as many as the label occurs, and the rows of all subjects together are
all rows, each of them once. When rows change places, the subjects keep their order and their sizes,
and each of them finds its rows at the new places.
-/

namespace Metropolis.Outcomes

variable {α : Type}

/-! ## The rows of a label -/

theorem rowsOf_append_singleton (labels : List ℕ) (last label : ℕ) :
    rowsOf (labels ++ [last]) label =
      rowsOf labels label ++ if last = label then [labels.length] else [] := by
  have hearlier : (List.range labels.length).filter
      (fun row => (labels ++ [last])[row]? == some label) = rowsOf labels label := by
    refine List.filter_congr fun row hrow => ?_
    rw [List.getElem?_append_left (List.mem_range.1 hrow)]
  have hlength : (labels ++ [last]).length = labels.length + 1 := List.length_append
  rw [rowsOf, hlength, List.range_succ, List.filter_append, hearlier, List.filter_singleton]
  simp

theorem length_rowsOf (labels : List ℕ) (label : ℕ) :
    (rowsOf labels label).length = labels.count label := by
  induction labels using List.reverseRecOn with
  | nil => rfl
  | append_singleton labels last ih =>
    rw [rowsOf_append_singleton, List.length_append, ih, List.count_append, List.count_singleton]
    by_cases h : last = label <;> simp [h]

theorem pairwise_rowsOf (labels : List ℕ) (label : ℕ) : (rowsOf labels label).Pairwise (· < ·) :=
  List.pairwise_lt_range.filter _

/-- No row has two labels. -/
theorem nodup_flatMap_rowsOf (labels : List ℕ) :
    ((distinct labels).flatMap (rowsOf labels)).Nodup := by
  refine List.nodup_flatMap.2 ⟨fun label _ => (pairwise_rowsOf labels label).imp Nat.ne_of_lt, ?_⟩
  refine (pairwise_distinct labels).imp fun {label label'} hlt row hrow hrow' => ?_
  rw [mem_rowsOf] at hrow hrow'
  have heq : label = label' := Option.some.inj (hrow.symm.trans hrow')
  omega

/-- Every row has a label, and the rows of all labels are all rows. -/
theorem flatMap_rowsOf_perm (labels : List ℕ) :
    ((distinct labels).flatMap (rowsOf labels)).Perm (List.range labels.length) := by
  refine (List.perm_ext_iff_of_nodup (nodup_flatMap_rowsOf labels) List.nodup_range).2 fun row => ?_
  rw [List.mem_flatMap, List.mem_range]
  constructor
  · rintro ⟨label, -, hrow⟩
    exact (List.getElem?_eq_some_iff.1 (mem_rowsOf.1 hrow)).1
  · intro hrow
    refine ⟨labels[row], mem_distinct.2 (List.getElem_mem hrow), mem_rowsOf.2 ?_⟩
    exact List.getElem?_eq_getElem hrow

/-! ## One row at a time -/

/-- A row goes to the end of the rows of its label, or begins a new subject. -/
def addRow (label row : ℕ) : List Subject → List Subject
  | [] => [⟨label, [row]⟩]
  | s :: rest =>
    if label < s.label then ⟨label, [row]⟩ :: s :: rest
    else if label = s.label then ⟨label, s.rows ++ [row]⟩ :: rest
    else s :: addRow label row rest

/-- The subjects of labels that are read one after another. -/
def gather (labels : List ℕ) : List Subject :=
  labels.zipIdx.foldl (fun subjects entry => addRow entry.1 entry.2 subjects) []

section AddRow

variable {f : ℕ → List ℕ} {labels : List ℕ} {label : ℕ} (row : ℕ)

theorem addRow_of_mem (ascending : labels.Pairwise (· < ·)) (h : label ∈ labels) :
    addRow label row (labels.map fun x => ⟨x, f x⟩) =
      labels.map fun x => ⟨x, f x ++ if label = x then [row] else []⟩ := by
  induction labels with
  | nil => cases h
  | cons x labels ih =>
    obtain ⟨hx, hlabels⟩ := List.pairwise_cons.1 ascending
    rw [List.map_cons, List.map_cons, addRow]
    dsimp only
    rcases List.mem_cons.1 h with rfl | hmem
    · -- The labels after it are larger, and keep their rows.
      have hlater : ∀ y ∈ labels, label ≠ y := fun y hy => Nat.ne_of_lt (hx y hy)
      rw [if_neg (Nat.lt_irrefl _), if_pos rfl, if_pos rfl, List.cons_inj_right]
      refine List.map_congr_left fun y hy => ?_
      rw [if_neg (hlater y hy), List.append_nil]
    · have hlt : x < label := hx label hmem
      rw [if_neg (by omega), if_neg (by omega), if_neg (by omega), List.append_nil, ih hlabels hmem]

theorem addRow_of_not_mem (ascending : labels.Pairwise (· < ·)) (h : label ∉ labels)
    (absent : f label = []) :
    addRow label row (labels.map fun x => ⟨x, f x⟩) =
      (labels.orderedInsert (· ≤ ·) label).map
        fun x => ⟨x, f x ++ if label = x then [row] else []⟩ := by
  induction labels with
  | nil => simp [addRow, absent]
  | cons x labels ih =>
    obtain ⟨hx, hlabels⟩ := List.pairwise_cons.1 ascending
    obtain ⟨hne, hmem⟩ := not_or.1 (mt List.mem_cons.2 h)
    have hsame : ∀ y ∈ x :: labels, label ≠ y := by
      rintro y hy rfl
      exact h hy
    rw [List.map_cons, addRow, List.orderedInsert_cons]
    dsimp only
    rcases Nat.lt_or_gt_of_ne hne with hlt | hgt
    · -- The new subject stands before the others, which keep their rows.
      rw [if_pos hlt, if_pos hlt.le, List.map_cons, if_pos rfl, absent, List.nil_append,
        List.cons_inj_right, ← List.map_cons (f := fun x => (⟨x, f x⟩ : Subject))]
      refine List.map_congr_left fun y hy => ?_
      rw [if_neg (hsame y hy), List.append_nil]
    · rw [if_neg (by omega), if_neg hne, if_neg (by omega), List.map_cons, if_neg hne,
        List.append_nil, ih hlabels hmem]

end AddRow

theorem distinct_append_of_mem {labels : List ℕ} {last : ℕ} (h : last ∈ labels) :
    distinct (labels ++ [last]) = distinct labels := by
  refine (pairwise_distinct _).eq_of_mem_iff (pairwise_distinct _) fun label => ?_
  rw [mem_distinct, mem_distinct, List.mem_append, List.mem_singleton, or_iff_left_of_imp]
  rintro rfl
  exact h

theorem distinct_append_of_not_mem {labels : List ℕ} {last : ℕ} (h : last ∉ labels) :
    distinct (labels ++ [last]) = (distinct labels).orderedInsert (· ≤ ·) last := by
  -- The insertion keeps the order `≤`, which is strict as nothing is there twice.
  have hperm := List.perm_orderedInsert (· ≤ ·) last (distinct labels)
  have hnodup : ((distinct labels).orderedInsert (· ≤ ·) last).Nodup :=
    hperm.nodup_iff.2 (List.nodup_cons.2
      ⟨mt mem_distinct.1 h, (pairwise_distinct labels).imp Nat.ne_of_lt⟩)
  have hordered := ((pairwise_distinct labels).imp Nat.le_of_lt).orderedInsert last
  have hascending := (hordered.and hnodup).imp fun h => lt_of_le_of_ne h.1 h.2
  refine (pairwise_distinct _).eq_of_mem_iff hascending fun label => ?_
  rw [mem_distinct, hperm.mem_iff, List.mem_cons, mem_distinct, List.mem_append,
    List.mem_singleton, or_comm]

theorem subjects_append_singleton (values : List α) (labels : List ℕ) (last : ℕ) :
    subjects (⟨values, labels ++ [last]⟩ : Outcomes α) =
      addRow last labels.length (subjects ⟨values, labels⟩) := by
  rw [subjects, subjects]
  dsimp only
  by_cases h : last ∈ labels
  · rw [addRow_of_mem _ (pairwise_distinct labels) (mem_distinct.2 h), distinct_append_of_mem h]
    simp only [rowsOf_append_singleton]
  · have hnone : rowsOf labels last = [] := by
      rw [← List.length_eq_zero_iff, length_rowsOf, List.count_eq_zero]
      exact h
    rw [addRow_of_not_mem _ (pairwise_distinct labels) (mt mem_distinct.1 h) hnone,
      distinct_append_of_not_mem h]
    simp only [rowsOf_append_singleton]

/-- To gather the rows one after another gives the subjects. -/
theorem gather_eq (o : Outcomes α) : gather o.labels = o.subjects := by
  obtain ⟨values, labels⟩ := o
  induction labels using List.reverseRecOn with
  | nil =>
    rw [subjects, distinct, List.mergeSort_nil]
    rfl
  | append_singleton labels last ih =>
    rw [subjects_append_singleton, ← ih, gather, List.zipIdx_append, List.foldl_append]
    simp [gather]

/-! ## Rows that change places -/

/-- The labels after the rows have changed places: row `i` has the label that row `σ i` had. -/
def permuted (labels : List ℕ) (σ : Equiv.Perm (Fin labels.length)) : List ℕ :=
  List.ofFn fun i => labels[σ i]

section Permuted

variable (labels : List ℕ) (σ : Equiv.Perm (Fin labels.length))

theorem permuted_perm : (permuted labels σ).Perm labels := by
  have hsame : (List.ofFn fun i : Fin labels.length => labels[i]) = labels := List.ofFn_getElem
  have hperm := σ.ofFn_comp_perm fun i => labels[i]
  rwa [hsame] at hperm

theorem mem_rowsOf_permuted (label : ℕ) (i : Fin labels.length) :
    (i : ℕ) ∈ rowsOf (permuted labels σ) label ↔ (σ i : ℕ) ∈ rowsOf labels label := by
  have hlabel : (permuted labels σ)[(i : ℕ)]? = labels[(σ i : ℕ)]? := by
    rw [permuted, List.getElem?_ofFn, dif_pos i.isLt, List.getElem?_eq_getElem (σ i).isLt]
    rfl
  rw [mem_rowsOf, mem_rowsOf, hlabel]

end Permuted

/-! ## The subjects -/

/-- Whether subjects are the parts into which labels divide their positions. -/
structure IsPartition (labels : List ℕ) (subjects : List Subject) : Prop where
  ascending : (subjects.map Subject.label).Pairwise (· < ·)
  mem_labels_iff (label : ℕ) : label ∈ subjects.map Subject.label ↔ label ∈ labels
  rows_ne_nil : ∀ s ∈ subjects, s.rows ≠ []
  rows_ascending : ∀ s ∈ subjects, s.rows.Pairwise (· < ·)
  mem_rows_iff : ∀ s ∈ subjects, ∀ row, row ∈ s.rows ↔ labels[row]? = some s.label
  rows_perm : (subjects.flatMap Subject.rows).Perm (List.range labels.length)

theorem isPartition_subjects (o : Outcomes α) : IsPartition o.labels o.subjects where
  ascending := by
    rw [labels_subjects]
    exact pairwise_distinct o.labels
  mem_labels_iff label := by rw [labels_subjects, mem_distinct]
  rows_ne_nil s hs := (rows_of_mem_subjects hs).2
  rows_ascending s hs := by
    rw [(rows_of_mem_subjects hs).1]
    exact pairwise_rowsOf o.labels s.label
  mem_rows_iff s hs row := by rw [(rows_of_mem_subjects hs).1, mem_rowsOf]
  rows_perm := by
    rw [subjects, List.flatMap_map]
    exact flatMap_rowsOf_perm o.labels

/-- Whether a subject is what another one has become after its rows have changed places. -/
structure IsMoved {n : ℕ} (σ : Equiv.Perm (Fin n)) (before after : Subject) : Prop where
  label_eq : after.label = before.label
  size_eq : after.rows.length = before.rows.length
  mem_rows_iff (i : Fin n) : (i : ℕ) ∈ after.rows ↔ (σ i : ℕ) ∈ before.rows

/-- The subjects are the same ones in the same order after the rows have changed places. -/
theorem isMoved_subjects (o : Outcomes α) (σ : Equiv.Perm (Fin o.labels.length)) (values : List α) :
    List.Forall₂ (IsMoved σ) o.subjects (subjects ⟨values, permuted o.labels σ⟩) := by
  have hperm := permuted_perm o.labels σ
  rw [subjects, subjects, distinct_of_perm hperm, List.forall₂_map_left_iff,
    List.forall₂_map_right_iff, List.forall₂_same]
  intro label _
  refine ⟨rfl, ?_, mem_rowsOf_permuted o.labels σ label⟩
  dsimp only
  rw [length_rowsOf, length_rowsOf, hperm.count_eq]

theorem rowsOf_range {n row : ℕ} (h : row < n) : rowsOf (List.range n) row = [row] := by
  refine (pairwise_rowsOf _ _).eq_of_mem_iff (List.pairwise_singleton _ _) fun other => ?_
  rw [mem_rowsOf, List.mem_singleton, List.getElem?_eq_some_iff]
  simp only [List.length_range, List.getElem_range]
  constructor
  · rintro ⟨-, rfl⟩
    rfl
  · rintro rfl
    exact ⟨h, rfl⟩

theorem subjects_independent (values : List α) :
    (independent values).subjects = (List.range values.length).map fun row => ⟨row, [row]⟩ := by
  have hdistinct : distinct (List.range values.length) = List.range values.length :=
    (pairwise_distinct _).eq_of_mem_iff List.pairwise_lt_range fun _ => mem_distinct
  rw [subjects, independent, hdistinct]
  refine List.map_congr_left fun row hrow => ?_
  rw [rowsOf_range (List.mem_range.1 hrow)]

/-- The subjects, which are those that one finds by reading the labels one after another, divide the
rows among them by their labels. If the rows change places, then the same subjects hold the same
rows at their new places, and outcomes of which each is a subject of its own are divided into single
rows. -/
theorem subjects_partition (o : Outcomes α) :
    gather o.labels = o.subjects ∧ IsPartition o.labels o.subjects ∧
      (∀ (σ : Equiv.Perm (Fin o.labels.length)) (values : List α),
        List.Forall₂ (IsMoved σ) o.subjects (subjects ⟨values, permuted o.labels σ⟩)) ∧
      ∀ values : List α,
        (independent values).subjects = (List.range values.length).map fun row => ⟨row, [row]⟩ :=
  ⟨gather_eq o, isPartition_subjects o, isMoved_subjects o, subjects_independent⟩

end Metropolis.Outcomes
