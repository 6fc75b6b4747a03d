import Metropolis.Proofs.Arrivals
import Metropolis.Proofs.Partition
import Metropolis.Proofs.SufficientCounts
import Metropolis.Scalar.Special

/-!
# Simulated counts

The counts of all rows come one after another from one tape. The row that comes after given counts
is drawn behind the intercepts of the subjects so far and the uniforms that those counts used, at
the rate of its own subject, so that the counts of the first rows are determined by the tape. The
rows of a subject are consecutive, and their labels group them as the model does.
-/

namespace Metropolis

theorem forall_getElem?_append {β : Type} {xs ys : List β} {P : ℕ → β → Prop} :
    (∀ i x, (xs ++ ys)[i]? = some x → P i x) ↔
      (∀ i x, xs[i]? = some x → P i x) ∧ ∀ i y, ys[i]? = some y → P (xs.length + i) y := by
  constructor
  · intro h
    refine ⟨fun i x hx => h i x ?_, fun i y hy => h _ y ?_⟩
    · rw [List.getElem?_append_left (List.getElem?_eq_some_iff.1 hx).1, hx]
    · rw [List.getElem?_append_right (Nat.le_add_right _ _), Nat.add_sub_cancel_left, hy]
  · rintro ⟨hxs, hys⟩ i x hx
    rcases Nat.lt_or_ge i xs.length with hlt | hle
    · exact hxs i x (by rwa [List.getElem?_append_left hlt] at hx)
    · rw [List.getElem?_append_right hle] at hx
      have hy := hys _ x hx
      rwa [Nat.add_sub_cancel' hle] at hy

namespace Counts

/-! ## The uniforms of counts -/

/-- How many uniforms counts use: one for every arrival, and one for that past the rate. -/
def used (counts : List ℕ) : ℕ := counts.sum + counts.length

theorem used_append (counts counts' : List ℕ) :
    used (counts ++ counts') = used counts + used counts' := by
  rw [used, used, used, List.sum_append, List.length_append]
  omega

variable {α : Type} [Scalar α]

section Row

variable {tape : Tape α} {rate : α} {counts : List ℕ}

/-- Whether counts come one after another from a tape, all at the same rate. -/
def AreCounts (tape : Tape α) (rate : α) (counts : List ℕ) : Prop :=
  ∀ r k, counts[r]? = some k → IsCount (tape.skip (used (counts.take r))) rate k

theorem areCounts_nil (tape : Tape α) (rate : α) : AreCounts tape rate [] :=
  fun _ _ h => by cases h

theorem areCounts_cons {k : ℕ} : AreCounts tape rate (k :: counts) ↔
    IsCount tape rate k ∧ AreCounts (tape.skip (k + 1)) rate counts := by
  have hused (r : ℕ) : used ((k :: counts).take (r + 1)) = k + 1 + used (counts.take r) := by
    rw [List.take_succ_cons, ← List.singleton_append, used_append]
    rfl
  constructor
  · intro h
    refine ⟨h 0 k rfl, fun r k' hr => ?_⟩
    rw [Tape.skip_skip, ← hused]
    exact h (r + 1) k' hr
  · rintro ⟨hk, hcounts⟩ r k' hr
    cases r with
    | zero =>
      cases hr
      exact hk
    | succ r =>
      rw [hused, ← Tape.skip_skip]
      exact hcounts r k' hr

theorem poissons_eq_some_iff {n : ℕ} {result : List α × Tape α} :
    poissons rate n tape = some result ↔
      ∃ counts, counts.length = n ∧ AreCounts tape rate counts ∧
        result = (counts.map counted, tape.skip (used counts)) := by
  induction n generalizing tape result with
  | zero =>
    constructor
    · intro h
      cases h
      exact ⟨[], rfl, areCounts_nil tape rate, rfl⟩
    · rintro ⟨counts, hlength, -, rfl⟩
      rw [List.length_eq_zero_iff.1 hlength]
      rfl
  | succ n ih =>
    have hstep : poissons rate (n + 1) tape = (poisson rate tape).bind fun first =>
        (poissons rate n first.2).bind fun rest => some (first.1 :: rest.1, rest.2) := rfl
    have hused (k : ℕ) (counts : List ℕ) :
        (tape.skip (k + 1)).skip (used counts) = tape.skip (used (k :: counts)) := by
      rw [Tape.skip_skip, ← List.singleton_append, used_append]
      rfl
    rw [hstep, Option.bind_eq_some_iff]
    constructor
    · rintro ⟨first, hfirst, h⟩
      obtain ⟨k, hk, rfl⟩ := poisson_eq_some_iff.1 hfirst
      obtain ⟨rest, hrest, h⟩ := Option.bind_eq_some_iff.1 h
      obtain ⟨counts, hlength, hcounts, rfl⟩ := ih.1 hrest
      cases h
      refine ⟨k :: counts, ?_, areCounts_cons.2 ⟨hk, hcounts⟩, ?_⟩
      · rw [List.length_cons, hlength]
      · rw [← hused]
        rfl
    · rintro ⟨counts, hlength, hcounts, rfl⟩
      obtain ⟨k, counts, rfl⟩ := List.exists_cons_of_length_eq_add_one hlength
      obtain ⟨hk, hrest⟩ := areCounts_cons.1 hcounts
      refine ⟨_, poisson_of_isCount hk, Option.bind_eq_some_iff.2
        ⟨_, ih.2 ⟨counts, Nat.succ.inj hlength, hrest, rfl⟩, ?_⟩⟩
      rw [← hused]
      rfl

end Row

/-! ## The rows of all subjects -/

section Rows

variable (tape : Tape α) (logMean deviation : α) (perSubject : ℕ) (counts : List ℕ)

/-- The tape from which the intercept of a subject is drawn. -/
def subjectTape (subject : ℕ) : Tape α :=
  tape.skip (2 * subject + used (counts.take (subject * perSubject)))

/-- The tape from which the count of a row is drawn, after the intercepts of the subjects so far. -/
def rowTape (row : ℕ) : Tape α :=
  tape.skip (2 * (row / perSubject + 1) + used (counts.take row))

/-- The rate of a subject. -/
def rateOf (subject : ℕ) : α :=
  Scalar.exp (logMean + deviation * (standardNormal (subjectTape tape perSubject counts subject)).1)

/-- Whether counts are those of the first rows, each at the rate of its subject. -/
def AreSimulated : Prop :=
  ∀ r k, counts[r]? = some k → IsCount (rowTape tape perSubject counts r)
    (rateOf tape logMean deviation perSubject counts (r / perSubject)) k

end Rows

section Simulation

variable {tape : Tape α} {logMean deviation : α} {perSubject : ℕ} {counts counts' : List ℕ}

omit [Scalar α] in
/-- What a row is drawn from depends on the rows before it only. -/
theorem rowTape_append {row : ℕ} (h : row ≤ counts.length) :
    rowTape tape perSubject (counts ++ counts') row = rowTape tape perSubject counts row := by
  rw [rowTape, rowTape, List.take_append_of_le_length h]

theorem rateOf_append {row : ℕ} (h : row ≤ counts.length) :
    rateOf tape logMean deviation perSubject (counts ++ counts') (row / perSubject) =
      rateOf tape logMean deviation perSubject counts (row / perSubject) := by
  have hle : row / perSubject * perSubject ≤ counts.length :=
    (Nat.div_mul_le_self row perSubject).trans h
  rw [rateOf, rateOf, subjectTape, subjectTape, List.take_append_of_le_length hle]

theorem areSimulated_append : AreSimulated tape logMean deviation perSubject (counts ++ counts') ↔
    AreSimulated tape logMean deviation perSubject counts ∧
      ∀ r k, counts'[r]? = some k →
        IsCount (rowTape tape perSubject (counts ++ counts') (counts.length + r))
          (rateOf tape logMean deviation perSubject (counts ++ counts')
            ((counts.length + r) / perSubject)) k := by
  rw [AreSimulated, forall_getElem?_append]
  refine and_congr_left' (forall₂_congr fun r k => imp_congr_right fun hr => ?_)
  have hle := (List.getElem?_eq_some_iff.1 hr).1.le
  rw [rowTape_append hle, rateOf_append hle]

theorem areSimulated_nil : AreSimulated tape logMean deviation perSubject [] :=
  fun _ _ h => by cases h

/-- One more row. -/
theorem areSimulated_concat {k : ℕ} :
    AreSimulated tape logMean deviation perSubject (counts ++ [k]) ↔
      AreSimulated tape logMean deviation perSubject counts ∧
        IsCount (rowTape tape perSubject counts counts.length)
          (rateOf tape logMean deviation perSubject counts (counts.length / perSubject)) k := by
  rw [areSimulated_append]
  refine and_congr_right fun _ => ⟨fun h => ?_, fun h r k' hr => ?_⟩
  · have hk := h 0 k rfl
    rwa [Nat.add_zero, rowTape_append le_rfl, rateOf_append le_rfl] at hk
  · obtain ⟨rfl, rfl⟩ : r = 0 ∧ k = k' := by
      cases r with
      | zero => exact ⟨rfl, Option.some.inj hr⟩
      | succ r => cases hr
    rwa [Nat.add_zero, rowTape_append le_rfl, rateOf_append le_rfl]

/-- The count of the row after the first ones. -/
theorem AreSimulated.next {k : ℕ}
    (h : AreSimulated tape logMean deviation perSubject (counts ++ k :: counts')) :
    IsCount (rowTape tape perSubject counts counts.length)
      (rateOf tape logMean deviation perSubject counts (counts.length / perSubject)) k := by
  rw [List.append_cons, areSimulated_append] at h
  exact (areSimulated_concat.1 h.1).2

/-- The counts of the first rows are determined. -/
theorem AreSimulated.isPrefix (h : AreSimulated tape logMean deviation perSubject counts)
    (h' : AreSimulated tape logMean deviation perSubject counts')
    (hle : counts.length ≤ counts'.length) : counts <+: counts' := by
  induction counts using List.reverseRecOn with
  | nil => exact List.nil_prefix
  | append_singleton counts k ih =>
    obtain ⟨hcounts, hk⟩ := areSimulated_concat.1 h
    rw [List.length_append, List.length_singleton] at hle
    obtain ⟨rest, rfl⟩ := ih hcounts (Nat.le_of_succ_le hle)
    cases rest with
    | nil =>
      rw [List.append_nil] at hle
      exact absurd hle (Nat.not_succ_le_self _)
    | cons k' rest =>
      rw [hk.unique h'.next]
      exact ⟨rest, (List.append_cons _ _ _).symm⟩

/-- One more subject, before the others. -/
theorem areSimulated_block {here rest : List ℕ} {subjects : ℕ} (hhere : here.length = perSubject)
    (hrest : rest.length = subjects * perSubject) :
    AreSimulated tape logMean deviation perSubject (here ++ rest) ↔
      AreCounts (tape.skip 2)
          (Scalar.exp (logMean + deviation * (standardNormal tape).1)) here ∧
        AreSimulated (tape.skip (2 + used here)) logMean deviation perSubject rest := by
  rw [AreSimulated, forall_getElem?_append]
  refine and_congr (forall₂_congr fun r k => imp_congr_right fun hr => ?_)
    (forall₂_congr fun r k => imp_congr_right fun hr => ?_)
  · have hlt := (List.getElem?_eq_some_iff.1 hr).1
    rw [rowTape_append hlt.le, rateOf_append hlt.le, Nat.div_eq_of_lt (hhere ▸ hlt), rateOf,
      subjectTape, rowTape, Nat.div_eq_of_lt (hhere ▸ hlt), Nat.zero_mul, List.take_zero,
      Tape.skip_skip]
    rfl
  · have hpos : 0 < perSubject := by
      have hlt := (List.getElem?_eq_some_iff.1 hr).1
      exact Nat.pos_of_mul_pos_left (Nat.zero_lt_of_lt (hrest ▸ hlt))
    have hrow : (here.length + r) / perSubject = r / perSubject + 1 := by
      rw [hhere, Nat.add_div_left r hpos]
    have htake (n : ℕ) : used ((here ++ rest).take (here.length + n)) =
        used here + used (rest.take n) := by
      rw [List.take_length_add_append, used_append]
    have hsubject : (r / perSubject + 1) * perSubject =
        here.length + r / perSubject * perSubject := by
      rw [Nat.add_one_mul, hhere, Nat.add_comm]
    have hshift (s m : ℕ) : 2 * (s + 1) + (used here + m) = 2 + used here + (2 * s + m) := by omega
    rw [rowTape, rowTape, rateOf, rateOf, subjectTape, subjectTape, hrow, hsubject, htake, htake,
      Tape.skip_skip, Tape.skip_skip, hshift, hshift]

/-- The number of the subject of a row, in the order of the rows. -/
def labelsFrom (first subjects perSubject : ℕ) : List ℕ :=
  (List.range (subjects * perSubject)).map fun row => first + row / perSubject

theorem labelsFrom_succ (first subjects perSubject : ℕ) :
    labelsFrom first (subjects + 1) perSubject =
      List.replicate perSubject first ++ labelsFrom (first + 1) subjects perSubject := by
  have hfirst : (List.range perSubject).map (fun row => first + row / perSubject) =
      List.replicate perSubject first := by
    refine List.eq_replicate_iff.2 ⟨?_, fun label hlabel => ?_⟩
    · rw [List.length_map, List.length_range]
    · obtain ⟨row, hrow, rfl⟩ := List.mem_map.1 hlabel
      rw [Nat.div_eq_of_lt (List.mem_range.1 hrow), Nat.add_zero]
  rw [labelsFrom, labelsFrom, Nat.add_one_mul, Nat.add_comm, List.range_add, List.map_append,
    hfirst, List.map_map, List.append_cancel_left_eq]
  refine List.map_congr_left fun row hrow => ?_
  have hpos : 0 < perSubject :=
    Nat.pos_of_mul_pos_left (Nat.zero_lt_of_lt (List.mem_range.1 hrow))
  rw [Function.comp_apply, Nat.add_div_left row hpos]
  omega

/-- The outcomes of counts. -/
def outcomesOf (counts labels : List ℕ) : Outcomes α := ⟨counts.map counted, labels⟩

theorem outcomesOf_block (here rest : List ℕ) (first subjects perSubject : ℕ) :
    (outcomesOf (here ++ rest) (labelsFrom first (subjects + 1) perSubject) : Outcomes α) =
      ⟨here.map counted ++ rest.map counted,
        List.replicate perSubject first ++ labelsFrom (first + 1) subjects perSubject⟩ := by
  rw [outcomesOf, labelsFrom_succ, List.map_append]

theorem simulateFrom_eq_some_iff {subjects first : ℕ} {result : Outcomes α × Tape α} :
    simulateFrom logMean deviation perSubject subjects first tape = some result ↔
      ∃ counts, counts.length = subjects * perSubject ∧
        AreSimulated tape logMean deviation perSubject counts ∧
        result = (outcomesOf counts (labelsFrom first subjects perSubject),
          tape.skip (2 * subjects + used counts)) := by
  -- The induction is on the subjects that are left, whose rows follow those of the first.
  induction subjects generalizing tape first result with
  | zero =>
    have hnone : outcomesOf [] (labelsFrom first 0 perSubject) = (⟨[], []⟩ : Outcomes α) := by
      rw [outcomesOf, labelsFrom, Nat.zero_mul]
      rfl
    constructor
    · intro h
      cases h
      exact ⟨[], (Nat.zero_mul _).symm, areSimulated_nil, by rw [hnone]; rfl⟩
    · rintro ⟨counts, hlength, -, rfl⟩
      rw [Nat.zero_mul, List.length_eq_zero_iff] at hlength
      rw [hlength, hnone]
      rfl
  | succ subjects ih =>
    have hstep : simulateFrom logMean deviation perSubject (subjects + 1) first tape =
        (poissons (Scalar.exp (logMean + deviation * (standardNormal tape).1)) perSubject
          (tape.skip 2)).bind fun here =>
            (simulateFrom logMean deviation perSubject subjects (first + 1) here.2).bind fun rest =>
              some (⟨here.1 ++ rest.1.values, List.replicate perSubject first ++ rest.1.labels⟩,
                rest.2) := rfl
    have hused (here rest : List ℕ) :
        ((tape.skip 2).skip (used here)).skip (2 * subjects + used rest) =
          tape.skip (2 * (subjects + 1) + used (here ++ rest)) := by
      rw [Tape.skip_skip, Tape.skip_skip, used_append]
      congr 1
      omega
    rw [hstep, Option.bind_eq_some_iff]
    constructor
    · rintro ⟨block, hblock, h⟩
      obtain ⟨here, hhere, hcounts, rfl⟩ := poissons_eq_some_iff.1 hblock
      obtain ⟨others, hothers, h⟩ := Option.bind_eq_some_iff.1 h
      obtain ⟨rest, hrest, hsimulated, rfl⟩ := ih.1 hothers
      rw [Tape.skip_skip] at hsimulated
      refine ⟨here ++ rest, ?_, (areSimulated_block hhere hrest).2 ⟨hcounts, hsimulated⟩, ?_⟩
      · rw [List.length_append, hhere, hrest, Nat.add_one_mul, Nat.add_comm]
      · rw [← hused, outcomesOf_block]
        exact (Option.some.inj h).symm
    · rintro ⟨counts, hlength, hsimulated, rfl⟩
      rw [Nat.add_one_mul, Nat.add_comm] at hlength
      obtain ⟨here, rest, rfl, hhere, hrest⟩ : ∃ here rest, counts = here ++ rest ∧
          here.length = perSubject ∧ rest.length = subjects * perSubject :=
        ⟨counts.take perSubject, counts.drop perSubject, (List.take_append_drop _ _).symm,
          by rw [List.length_take]; omega, by rw [List.length_drop]; omega⟩
      obtain ⟨hcounts, hsimulated⟩ := (areSimulated_block hhere hrest).1 hsimulated
      rw [← Tape.skip_skip] at hsimulated
      refine ⟨_, poissons_eq_some_iff.2 ⟨here, hhere, hcounts, rfl⟩, Option.bind_eq_some_iff.2
        ⟨_, ih.2 ⟨rest, hrest, hsimulated, rfl⟩, ?_⟩⟩
      rw [← hused, outcomesOf_block]
      rfl

/-! ## When the loops end -/

theorem exists_simulate_iff {subjects : ℕ} :
    (∃ result, simulate logMean deviation subjects perSubject tape = some result) ↔
      ∀ counts, AreSimulated tape logMean deviation perSubject counts →
        counts.length < subjects * perSubject →
          ∃ k, IsCount (rowTape tape perSubject counts counts.length)
            (rateOf tape logMean deviation perSubject counts (counts.length / perSubject)) k := by
  constructor
  · rintro ⟨result, hresult⟩ counts hcounts hlt
    obtain ⟨all, hlength, hall, -⟩ := simulateFrom_eq_some_iff.1 hresult
    rw [← hlength] at hlt
    obtain ⟨rest, rfl⟩ := hcounts.isPrefix hall hlt.le
    cases rest with
    | nil =>
      rw [List.append_nil] at hlt
      exact absurd hlt (Nat.lt_irrefl _)
    | cons k rest => exact ⟨k, hall.next⟩
  · intro ends
    have hrows (n : ℕ) (hn : n ≤ subjects * perSubject) : ∃ counts, counts.length = n ∧
        AreSimulated tape logMean deviation perSubject counts := by
      induction n with
      | zero => exact ⟨[], rfl, areSimulated_nil⟩
      | succ n ih =>
        obtain ⟨counts, rfl, hcounts⟩ := ih (Nat.le_of_succ_le hn)
        obtain ⟨k, hk⟩ := ends counts hcounts hn
        refine ⟨counts ++ [k], ?_, areSimulated_concat.2 ⟨hcounts, hk⟩⟩
        rw [List.length_append, List.length_singleton]
    obtain ⟨counts, hlength, hcounts⟩ := hrows _ le_rfl
    exact ⟨_, simulateFrom_eq_some_iff.2 ⟨counts, hlength, hcounts, rfl⟩⟩

end Simulation

/-! ## The subjects -/

section Subjects

variable {subjects perSubject : ℕ}

theorem getElem?_labelsFrom {row label : ℕ} :
    (labelsFrom 0 subjects perSubject)[row]? = some label ↔
      row < subjects * perSubject ∧ row / perSubject = label := by
  rw [labelsFrom, List.getElem?_map, Option.map_eq_some_iff]
  constructor
  · rintro ⟨row', hrow, rfl⟩
    obtain ⟨hlt, rfl⟩ := List.getElem?_eq_some_iff.1 hrow
    rw [List.length_range] at hlt
    rw [List.getElem_range, Nat.zero_add]
    exact ⟨hlt, rfl⟩
  · rintro ⟨hlt, rfl⟩
    exact ⟨row, List.getElem?_range hlt, Nat.zero_add _⟩

theorem distinct_labelsFrom (hpos : 0 < perSubject) :
    Outcomes.distinct (labelsFrom 0 subjects perSubject) = List.range subjects := by
  refine (Outcomes.pairwise_distinct _).eq_of_mem_iff List.pairwise_lt_range fun label => ?_
  rw [Outcomes.mem_distinct, List.mem_iff_getElem?, List.mem_range]
  simp only [getElem?_labelsFrom]
  constructor
  · rintro ⟨row, hrow, rfl⟩
    exact Nat.div_lt_of_lt_mul (Nat.mul_comm _ _ ▸ hrow)
  · intro hlabel
    exact ⟨label * perSubject, Nat.mul_lt_mul_of_pos_right hlabel hpos,
      Nat.mul_div_cancel label hpos⟩

theorem rowsOf_labelsFrom (hpos : 0 < perSubject) {label : ℕ} (hlabel : label < subjects) :
    Outcomes.rowsOf (labelsFrom 0 subjects perSubject) label =
      List.range' (label * perSubject) perSubject := by
  refine (Outcomes.pairwise_rowsOf _ _).eq_of_mem_iff List.pairwise_lt_range' fun row => ?_
  have hend : (label + 1) * perSubject ≤ subjects * perSubject :=
    Nat.mul_le_mul_right perSubject hlabel
  rw [Nat.add_one_mul] at hend
  rw [Outcomes.mem_rowsOf, getElem?_labelsFrom, List.mem_range'_1, Nat.div_eq_iff hpos]
  omega

theorem subjects_outcomesOf (counts : List ℕ) (hpos : 0 < perSubject) :
    (outcomesOf counts (labelsFrom 0 subjects perSubject) : Outcomes α).subjects =
      (List.range subjects).map fun label =>
        ⟨label, List.range' (label * perSubject) perSubject⟩ := by
  rw [Outcomes.subjects, outcomesOf, distinct_labelsFrom hpos]
  exact List.map_congr_left fun label hlabel =>
    congrArg _ (rowsOf_labelsFrom hpos (List.mem_range.1 hlabel))

end Subjects

/-! ## Simulated counts as data -/

variable {tape : Tape Exact} {logMean deviation : Exact} {subjects perSubject : ℕ}
  {counts : List ℕ}

theorem outcomesOf_eq_ofCounts {labels : List ℕ} (h : counts.length = labels.length) :
    outcomesOf counts labels = Outcomes.ofCounts (counts.zip labels) := by
  have hvalues : (counts.zip labels).map (fun row => Exact.real row.1) =
      (counts.map counted : List Exact) := by
    rw [List.map_congr_left fun k _ => counted_real k, ← List.map_fst_zip h.le, List.map_map,
      List.map_fst_zip h.le]
    rfl
  rw [Outcomes.ofCounts, hvalues, List.map_snd_zip h.ge]
  rfl

theorem rate_nonneg {logRate : Exact} (h : Scalar.isUndefined (Scalar.exp logRate) = false) :
    0 ≤ Scalar.exp logRate := by
  apply Scalar.LawfulExpLog.exp_nonneg
  rw [← Bool.not_eq_true] at h ⊢
  exact mt Scalar.LawfulExpLog.undefined_exp h

/-- The model of outcomes with equally many rows for every subject. -/
theorem exists_ofOutcomes_outcomesOf (hlength : counts.length = subjects * perSubject)
    (hsubjects : 0 < subjects) (hpos : 0 < perSubject) :
    (outcomesOf counts (labelsFrom 0 subjects perSubject) : Outcomes Exact).checkCounts = .ok () ∧
      ∀ intercepts, ∃ c : Counts Exact,
        ofOutcomes (outcomesOf counts (labelsFrom 0 subjects perSubject)) intercepts = .ok c ∧
          c.intercepts = intercepts ∧ c.observations = subjects * perSubject ∧
          c.tallies.map (fun t => (t.label, t.observations)) =
            (List.range subjects).map fun s => (s, perSubject) := by
  have hlabels : counts.length = (labelsFrom 0 subjects perSubject).length := by
    rw [labelsFrom, List.length_map, List.length_range, hlength]
  have hne : counts ≠ [] := by
    rw [← List.length_pos_iff, hlength]
    exact Nat.mul_pos hsubjects hpos
  have hzip : counts.zip (labelsFrom 0 subjects perSubject) ≠ [] := fun hnil => hne <| by
    rw [← List.map_fst_zip hlabels.le, hnil, List.map_nil]
  have heq := outcomesOf_eq_ofCounts hlabels
  constructor
  · rw [heq]
    exact Outcomes.checkCounts_ofCounts hzip
  · intro intercepts
    obtain ⟨c, hc⟩ := exists_ofOutcomes hzip intercepts
    rw [← heq] at hc
    obtain ⟨-, htallies, hobservations, hintercepts⟩ := ofOutcomes_eq_ok hc
    refine ⟨c, hc, hintercepts, ?_, ?_⟩
    · rw [hobservations, Outcomes.size, outcomesOf, List.length_map, hlength]
    · rw [htallies, subjects_outcomesOf counts hpos, List.map_map, List.map_map]
      refine List.map_congr_left fun label _ => ?_
      show (label, ((List.range' _ _).map _).length) = (label, perSubject)
      rw [List.length_map, List.length_range']

/-- Simulation gives counts exactly if for every row, after the counts of the rows before it, some
arrival is past the rate. Row `r` then has the label `r / perSubject`, and its count is the number
of arrivals in the rate of its subject, which is the same for all rows of the subject; the arrivals
are the sums of unit exponential times from the uniforms after those of the rows before, one more of
which is used than there are arrivals, and a rate that is a number is between the last of them and
the next. If there are rows, the counts pass the check of the data, and the model of the data has
every subject with all its observations. -/
theorem simulate_counts (logMean deviation : Exact) (subjects perSubject : ℕ) (tape : Tape Exact)
    (unit : tape.IsUnit) :
    ((∃ result, simulate logMean deviation subjects perSubject tape = some result) ↔
      ∀ counts, AreSimulated tape logMean deviation perSubject counts →
        counts.length < subjects * perSubject →
          ∃ j, ¬ .real (arrivalSum (rowTape tape perSubject counts counts.length) (j + 1)) ≤
            rateOf tape logMean deviation perSubject counts (counts.length / perSubject)) ∧
    ∀ o tape', simulate logMean deviation subjects perSubject tape = some (o, tape') →
      ∃ (counts : List ℕ) (z : ℕ → ℝ),
        o.values = counts.map (fun k : ℕ => .real k) ∧
        o.labels = (List.range (subjects * perSubject)).map (· / perSubject) ∧
        counts.length = subjects * perSubject ∧
        tape' = tape.skip (2 * subjects + (counts.sum + counts.length)) ∧
        (∀ s, (standardNormal (subjectTape tape perSubject counts s)).1 = .real (z s)) ∧
        (∀ r k, counts[r]? = some k →
          let rate := Scalar.exp (logMean + deviation * .real (z (r / perSubject)))
          let here := rowTape tape perSubject counts r
          poisson rate here = some (.real k, here.skip (k + 1)) ∧
          (∀ j, 0 < j → (.real (arrivalSum here j) ≤ rate ↔ j ≤ k)) ∧
          (Scalar.isUndefined rate = false →
            .real (arrivalSum here k) ≤ rate ∧ rate < .real (arrivalSum here (k + 1)))) ∧
        (0 < subjects → 0 < perSubject →
          o.checkCounts = .ok () ∧
          o.subjects = (List.range subjects).map
            (fun s => ⟨s, List.range' (s * perSubject) perSubject⟩) ∧
          ∀ intercepts, ∃ c, ofOutcomes o intercepts = .ok c ∧ c.intercepts = intercepts ∧
            c.observations = subjects * perSubject ∧
            c.tallies.map (fun t => (t.label, t.observations)) =
              (List.range subjects).map fun s => (s, perSubject)) := by
  have hrow (counts : List ℕ) (r : ℕ) : (rowTape tape perSubject counts r).IsUnit := unit
  have hsubject (counts : List ℕ) (s : ℕ) : (subjectTape tape perSubject counts s).IsUnit := unit
  constructor
  · rw [exists_simulate_iff]
    refine forall₃_congr fun counts _ _ => ?_
    rw [exists_isCount_iff]
    exact exists_congr fun j => not_congr (by rw [arrivalTime_real (hrow _ _)])
  · intro o tape' h
    obtain ⟨counts, hlength, hcounts, hresult⟩ := simulateFrom_eq_some_iff.1 h
    obtain ⟨rfl, rfl⟩ := Prod.mk.inj hresult
    choose z hz using fun s => (standardNormal_real (hsubject counts s)).1
    refine ⟨counts, z, ?_, ?_, hlength, rfl, hz, fun r k hr => ?_, fun hsubjects hpos => ?_⟩
    · exact List.map_congr_left fun k _ => counted_real k
    · exact List.map_congr_left fun r _ => Nat.zero_add _
    · have hk := hcounts r k hr
      rw [rateOf, hz] at hk
      refine ⟨?_, (isCount_iff (hrow _ _)).1 hk, fun hdefined =>
        (isCount_iff_between (hrow _ _) (rate_nonneg hdefined)).1 hk⟩
      rw [poisson_of_isCount hk, counted_real]
    · obtain ⟨hcheck, hmodel⟩ := exists_ofOutcomes_outcomesOf hlength hsubjects hpos
      exact ⟨hcheck, subjects_outcomesOf counts hpos, hmodel⟩

/-- A tape from which given exponential times are drawn. -/
noncomputable def tapeOfTimes (times : List ℝ) : Tape Exact where
  cell i := .real (1 - Real.exp (-times.getD i 0))
  position := 0

theorem isUnit_tapeOfTimes {times : List ℝ} (h : ∀ x ∈ times, 0 ≤ x) :
    (tapeOfTimes times).IsUnit := by
  intro i
  have hnonneg : 0 ≤ times.getD i 0 := by
    rw [List.getD_eq_getElem?_getD]
    cases htime : times[i]? with
    | none => exact le_rfl
    | some x => exact h x (List.mem_of_getElem? htime)
  refine ⟨_, ?_, ?_, rfl⟩
  · exact sub_nonneg.2 (Real.exp_le_one_iff.2 (neg_nonpos.2 hnonneg))
  · exact sub_lt_self 1 (Real.exp_pos _)

theorem arrivalSum_tapeOfTimes (times : List ℝ) (n j : ℕ) :
    arrivalSum ((tapeOfTimes times).skip n) j = ∑ i ∈ Finset.range j, times.getD (n + i) 0 := by
  rw [arrivalSum, ← Finset.sum_neg_distrib]
  refine Finset.sum_congr rfl fun i _ => ?_
  show -Real.log (1 - (1 - Real.exp (-times.getD (0 + n + i) 0))) = _
  rw [sub_sub_cancel, Real.log_exp, neg_neg, Nat.zero_add]

/-- Exponential times of four counts, each pair after those that stand for the uniforms of a normal
draw. -/
noncomputable def sampleTimes : List ℝ :=
  [0.5, 0, 1, 1, 1, 3.0, 0.5, -Real.log 0.5, 0.25, 0.25, 0.25, 1]

theorem isUnit_sampleTimes : (tapeOfTimes sampleTimes).IsUnit := by
  refine isUnit_tapeOfTimes fun x hx => ?_
  have hlog : Real.log (1 / 2) ≤ 0 := Real.log_nonpos (by norm_num) (by norm_num)
  simp only [sampleTimes, List.mem_cons, List.not_mem_nil, or_false] at hx
  rcases hx with rfl | rfl | rfl | rfl | rfl | rfl | rfl | rfl | rfl | rfl | rfl | rfl
  all_goals norm_num [hlog]

theorem normalRadius_half :
    normalRadius (Exact.real (1 - Real.exp (-0.5))) = Exact.real 1 := by
  obtain ⟨t, ⟨-, hle⟩, htiny⟩ := tiny_real
  have hlarge : t ≤ Real.exp (-0.5) :=
    calc t ≤ 1 / (10 ^ 17 : ℕ) := hle
      _ ≤ -0.5 + 1 := by norm_num
      _ ≤ Real.exp (-0.5) := Real.add_one_le_exp _
  have htwo : -((2 : ℕ) : ℝ) * -0.5 = 1 := by norm_num
  rw [normalRadius, Exact.one_eq, Exact.real_sub, sub_sub_cancel, htiny, Exact.larger_real,
    max_eq_left hlarge, Exact.log_real (Real.exp_pos _), Real.log_exp, Exact.ofNat_eq,
    Exact.real_neg, Exact.real_mul, htwo, Exact.sqrt_real zero_le_one, Real.sqrt_one]

theorem rateOf_sampleTimes {s : ℕ} (hs : s < 2) :
    rateOf (tapeOfTimes sampleTimes) 0 (.real (Real.log 2)) 2 [2, 0, 2, 0] s =
      .real (if s = 0 then 2 else 0.5) := by
  have hnormal (v z : ℝ) (hz : Real.cos ((2 : ℕ) * Real.pi * (1 - Real.exp (-v))) = z) :
      normalOfUniforms (.real (1 - Real.exp (-0.5))) (.real (1 - Real.exp (-v))) =
        Exact.real z := by
    rw [normalOfUniforms, normalRadius_half, ← hz, ← one_mul (Real.cos _)]
    rfl
  have hrate (z x : ℝ) (hx : Real.exp (Real.log 2 * z) = x) :
      Scalar.exp ((0 : Exact) + .real (Real.log 2) * .real z) = .real x := by
    rw [Exact.zero_eq, Exact.real_mul, Exact.real_add, zero_add, ← hx]
    rfl
  have hhalf : (2 : ℝ)⁻¹ = 0.5 := by norm_num
  interval_cases s
  · show Scalar.exp ((0 : Exact) + _ * normalOfUniforms (.real (1 - Real.exp (-0.5)))
      (.real (1 - Real.exp (-0)))) = .real 2
    rw [hnormal 0 1 (by simp)]
    exact hrate 1 2 (by rw [mul_one, Real.exp_log two_pos])
  · have hangle : (2 : ℕ) * Real.pi * (1 - Real.exp (- -Real.log 0.5)) = Real.pi := by
      rw [neg_neg, Real.exp_log (by norm_num), Nat.cast_two]
      ring
    show Scalar.exp ((0 : Exact) + _ * normalOfUniforms (.real (1 - Real.exp (-0.5)))
      (.real (1 - Real.exp (- -Real.log 0.5)))) = .real 0.5
    rw [hnormal (-Real.log 0.5) (-1) (by rw [hangle, Real.cos_pi])]
    exact hrate (-1) 0.5 (by rw [mul_neg_one, Real.exp_neg, Real.exp_log two_pos, hhalf])

theorem areSimulated_sampleTimes :
    AreSimulated (tapeOfTimes sampleTimes) 0 (.real (Real.log 2)) 2 [2, 0, 2, 0] := by
  have hcount (n : ℕ) (x : ℝ) (k : ℕ) (hx : 0 ≤ x)
      (hle : ∑ i ∈ Finset.range k, sampleTimes.getD (n + i) 0 ≤ x)
      (hlt : x < ∑ i ∈ Finset.range (k + 1), sampleTimes.getD (n + i) 0) :
      IsCount ((tapeOfTimes sampleTimes).skip n) (.real x) k := by
    have hunit : ((tapeOfTimes sampleTimes).skip n).IsUnit := isUnit_sampleTimes
    refine (isCount_iff_between hunit ?_).2 ?_
    · rw [Exact.zero_eq]
      exact hx
    · rw [arrivalSum_tapeOfTimes, arrivalSum_tapeOfTimes]
      exact ⟨hle, hlt⟩
  have hhalf : (0 : ℝ) ≤ 0.5 := by norm_num
  intro r k hr
  have hlt : r < 4 := (List.getElem?_eq_some_iff.1 hr).1
  rw [rateOf_sampleTimes (Nat.div_lt_of_lt_mul hlt)]
  interval_cases r
  all_goals obtain rfl := Option.some.inj hr
  · refine hcount 2 2 2 two_pos.le ?_ ?_ <;> norm_num [Finset.sum_range_succ, sampleTimes]
  · refine hcount 5 2 0 two_pos.le ?_ ?_ <;> norm_num [Finset.sum_range_succ, sampleTimes]
  · refine hcount 8 0.5 2 hhalf ?_ ?_ <;> norm_num [Finset.sum_range_succ, sampleTimes]
  · refine hcount 11 0.5 0 hhalf ?_ ?_ <;> norm_num [Finset.sum_range_succ, sampleTimes]

/-- Two subjects with the rates `2` and `0.5`, each of which is the time of the second arrival of
the subject's first count. -/
theorem simulate_counts_twoSubjects :
    let o : Outcomes Exact := ⟨[2, 0, 2, 0].map fun k : ℕ => .real k, [0, 0, 1, 1]⟩
    (tapeOfTimes sampleTimes).IsUnit ∧
      simulate 0 (.real (Real.log 2)) 2 2 (tapeOfTimes sampleTimes) =
        some (o, (tapeOfTimes sampleTimes).skip 12) ∧
      o.checkCounts = .ok () ∧ ∃ c, ofOutcomes o .perSubject = .ok c ∧
        c.tallies.map (fun t => (t.label, t.observations)) = [(0, 2), (1, 2)] := by
  intro o
  have ho : o = outcomesOf [2, 0, 2, 0] (labelsFrom 0 2 2) := by
    rw [outcomesOf, List.map_congr_left fun k _ => counted_real k]
    rfl
  have hresult : simulate 0 (.real (Real.log 2)) 2 2 (tapeOfTimes sampleTimes) =
      some (o, (tapeOfTimes sampleTimes).skip 12) :=
    simulateFrom_eq_some_iff.2 ⟨[2, 0, 2, 0], rfl, areSimulated_sampleTimes, by rw [ho]; rfl⟩
  obtain ⟨-, -, -, -, -, -, -, -, hmodel⟩ :=
    (simulate_counts 0 (.real (Real.log 2)) 2 2 _ isUnit_sampleTimes).2 _ _ hresult
  obtain ⟨hcheck, -, haccept⟩ := hmodel two_pos two_pos
  obtain ⟨c, hc, -, -, htallies⟩ := haccept .perSubject
  exact ⟨isUnit_sampleTimes, hresult, hcheck, c, hc, htallies⟩

end Counts

end Metropolis
