import Mathlib.Algebra.BigOperators.Group.List.Basic
import Metropolis.Proofs.Coverage
import Metropolis.Proofs.Links
import Metropolis.Proofs.Normalization
import Metropolis.Scalar.Comparison

/-!
# The joint prior by standard deviations

The joint density is added up in the order of the parameters. Grouped instead, it is the density of
the parameters that have priors of their own, times, for every standard deviation, its density and
those of its realizations. The groups partition the parameters because a realization and its
standard deviation are linked both ways.
-/

namespace Metropolis

variable {α : Type}

namespace Registry

/-- The parameters with priors of their own. -/
def fixedPriors (r : Registry α) : List (Nat × Prior α) :=
  r.entries.filterMap fun
    | (i, .fixed prior) => some (i, prior)
    | _ => none

/-- The standard deviations, with their hyper-priors and their realizations. -/
def hyperPriors (r : Registry α) : List (Nat × Prior α × List Nat) :=
  r.entries.filterMap fun
    | (s, .hyper prior governed) => some (s, prior, governed)
    | _ => none

/-- The distribution of a realization. -/
def effectOf (r : Registry α) (i : Nat) : Effect :=
  match r.get? i with
  | some (.realization effect _) => effect
  | _ => default

/-- The parameters in groups: those with priors of their own, then every standard deviation with
its realizations. -/
def grouped (r : Registry α) : List Nat :=
  r.fixedPriors.map Prod.fst ++ r.hyperPriors.flatMap fun (s, _, governed) => s :: governed

/-! ## The groups partition the parameters -/

section Groups

variable {r : Registry α} {log : List (Registration α)} {i s : Nat} {prior : Prior α}
  {governed : List Nat}

theorem mem_fixedPriors : (i, prior) ∈ r.fixedPriors ↔ (i, .fixed prior) ∈ r.entries := by
  unfold fixedPriors
  rw [List.mem_filterMap]
  constructor
  · rintro ⟨⟨j, entry⟩, hmem, h⟩
    cases entry <;> cases h
    exact hmem
  · intro hmem
    exact ⟨_, hmem, rfl⟩

theorem mem_hyperPriors :
    (s, prior, governed) ∈ r.hyperPriors ↔ (s, .hyper prior governed) ∈ r.entries := by
  unfold hyperPriors
  rw [List.mem_filterMap]
  constructor
  · rintro ⟨⟨j, entry⟩, hmem, h⟩
    cases entry <;> cases h
    exact hmem
  · intro hmem
    exact ⟨_, hmem, rfl⟩

theorem pairwise_filterMap {β : Type} {f : Nat × Entry α → Option (Nat × β)}
    (keeps : ∀ p q, f p = some q → q.1 = p.1) (ordered : r.indices.Pairwise (· < ·)) :
    (r.entries.filterMap f).Pairwise fun a b => a.1 < b.1 := by
  apply List.Pairwise.filterMap _ _ (List.pairwise_map.1 ordered)
  intro p p' hlt q hq q' hq'
  rw [keeps p q hq, keeps p' q' hq']
  exact hlt

theorem pairwise_fixedPriors (ordered : r.indices.Pairwise (· < ·)) :
    r.fixedPriors.Pairwise fun a b => a.1 < b.1 := by
  apply pairwise_filterMap _ ordered
  rintro ⟨i, entry⟩ q h
  cases entry <;> cases h
  rfl

theorem pairwise_hyperPriors (ordered : r.indices.Pairwise (· < ·)) :
    r.hyperPriors.Pairwise fun a b => a.1 < b.1 := by
  apply pairwise_filterMap _ ordered
  rintro ⟨i, entry⟩ q h
  cases entry <;> cases h
  rfl

variable [Scalar α]

namespace Holds

theorem mem_fixedPriors_iff (h : r.Holds log) :
    (i, prior) ∈ r.fixedPriors ↔ r.get? i = some (.fixed prior) := by
  rw [mem_fixedPriors, get?_eq_some_iff h.ordered]

theorem mem_hyperPriors_iff (h : r.Holds log) :
    (s, prior, governed) ∈ r.hyperPriors ↔ r.get? s = some (.hyper prior governed) := by
  rw [mem_hyperPriors, get?_eq_some_iff h.ordered]

theorem mem_indices_iff (h : r.Holds log) : i ∈ r.indices ↔ ∃ entry, r.get? i = some entry := by
  simp only [get?_eq_some_iff h.ordered]
  constructor
  · intro hi
    obtain ⟨⟨j, entry⟩, hmem, rfl⟩ := List.mem_map.1 hi
    exact ⟨entry, hmem⟩
  · rintro ⟨entry, hmem⟩
    exact List.mem_map_of_mem (f := Prod.fst) hmem

/-- What a group of a standard deviation consists of. -/
theorem get?_of_mem_group (h : r.Holds log) (hs : r.get? s = some (.hyper prior governed))
    (hi : i ∈ s :: governed) :
    (i = s ∧ r.get? i = some (.hyper prior governed)) ∨
      ∃ effect, r.get? i = some (.realization effect s) := by
  rcases List.mem_cons.1 hi with rfl | hi
  · exact .inl ⟨rfl, hs⟩
  · exact .inr (h.governed hs hi)

theorem get?_of_mem_governed (h : r.Holds log) (hs : r.get? s = some (.hyper prior governed))
    (hi : i ∈ governed) : r.get? i = some (.realization (r.effectOf i) s) := by
  obtain ⟨effect, hentry⟩ := h.governed hs hi
  rw [effectOf, hentry]

theorem nodup_group (h : r.Holds log) (hs : r.get? s = some (.hyper prior governed)) :
    (s :: governed).Nodup := by
  rw [List.nodup_cons]
  refine ⟨fun hmem => ?_, (h.linked.hyper s prior governed hs).2.1⟩
  -- A standard deviation is not a realization.
  obtain ⟨effect, hrealization⟩ := h.governed hs hmem
  rw [hs] at hrealization
  cases hrealization

theorem disjoint_groups (h : r.Holds log) {s' : Nat} {prior' : Prior α} {governed' : List Nat}
    (hs : r.get? s = some (.hyper prior governed))
    (hs' : r.get? s' = some (.hyper prior' governed')) (hne : s ≠ s') :
    (s :: governed).Disjoint (s' :: governed') := by
  intro i hi hi'
  rcases h.get?_of_mem_group hs hi with ⟨rfl, hentry⟩ | ⟨effect, hentry⟩
  · rcases h.get?_of_mem_group hs' hi' with ⟨heq, -⟩ | ⟨effect', hentry'⟩
    · exact hne heq
    · rw [hentry] at hentry'
      cases hentry'
  · rcases h.get?_of_mem_group hs' hi' with ⟨-, hentry'⟩ | ⟨effect', hentry'⟩
    · rw [hentry] at hentry'
      cases hentry'
    · -- The entry of a realization names one standard deviation only.
      rw [hentry] at hentry'
      cases hentry'
      exact hne rfl

theorem nodup_groups (h : r.Holds log) :
    (r.hyperPriors.flatMap fun (s, _, governed) => s :: governed).Nodup := by
  rw [List.nodup_flatMap]
  constructor
  · rintro ⟨s, prior, governed⟩ hmem
    exact h.nodup_group (h.mem_hyperPriors_iff.1 hmem)
  · apply (pairwise_hyperPriors h.ordered).imp_of_mem
    rintro ⟨s, prior, governed⟩ ⟨s', prior', governed'⟩ hmem hmem' hlt
    exact h.disjoint_groups (h.mem_hyperPriors_iff.1 hmem) (h.mem_hyperPriors_iff.1 hmem')
      (Nat.ne_of_lt hlt)

theorem nodup_grouped (h : r.Holds log) : r.grouped.Nodup := by
  unfold grouped
  rw [List.nodup_append]
  refine ⟨?_, h.nodup_groups, ?_⟩
  · have hpairwise : (r.fixedPriors.map Prod.fst).Pairwise (· < ·) :=
      List.pairwise_map.2 (pairwise_fixedPriors h.ordered)
    exact hpairwise.imp Nat.ne_of_lt
  · intro i hi j hj heq
    subst heq
    obtain ⟨⟨i, prior⟩, hmem, rfl⟩ := List.mem_map.1 hi
    obtain ⟨⟨s, prior', governed⟩, hmem', hi'⟩ := List.mem_flatMap.1 hj
    -- A parameter with a prior of its own belongs to no standard deviation.
    have hfixed := h.mem_fixedPriors_iff.1 hmem
    rcases h.get?_of_mem_group (h.mem_hyperPriors_iff.1 hmem') hi' with ⟨-, hentry⟩ | ⟨_, hentry⟩
    · cases hfixed.symm.trans hentry
    · cases hfixed.symm.trans hentry

theorem mem_grouped_iff (h : r.Holds log) (i : Nat) : i ∈ r.grouped ↔ i ∈ r.indices := by
  unfold grouped
  rw [h.mem_indices_iff, List.mem_append]
  constructor
  · rintro (hi | hi)
    · obtain ⟨⟨i, prior⟩, hmem, rfl⟩ := List.mem_map.1 hi
      exact ⟨_, h.mem_fixedPriors_iff.1 hmem⟩
    · obtain ⟨⟨s, prior, governed⟩, hmem, hi⟩ := List.mem_flatMap.1 hi
      rcases h.get?_of_mem_group (h.mem_hyperPriors_iff.1 hmem) hi with ⟨-, hentry⟩ | ⟨_, hentry⟩
      · exact ⟨_, hentry⟩
      · exact ⟨_, hentry⟩
  · rintro ⟨entry, hentry⟩
    cases entry with
    | fixed prior =>
      exact .inl (List.mem_map_of_mem (f := Prod.fst) (h.mem_fixedPriors_iff.2 hentry))
    | realization effect s =>
      obtain ⟨-, prior, governed, hs, hcount, -⟩ := h.linked.realization i effect s hentry
      have hi : i ∈ governed := List.count_pos_iff.1 (by omega)
      exact .inr (List.mem_flatMap.2
        ⟨(s, prior, governed), h.mem_hyperPriors_iff.2 hs, List.mem_cons_of_mem _ hi⟩)
    | hyper prior governed =>
      exact .inr (List.mem_flatMap.2
        ⟨(i, prior, governed), h.mem_hyperPriors_iff.2 hentry, List.mem_cons_self⟩)

theorem nodup_indices (h : r.Holds log) : r.indices.Nodup :=
  h.ordered.imp Nat.ne_of_lt

/-- Every parameter is in one group, once. -/
theorem grouped_perm (h : r.Holds log) : r.grouped.Perm r.indices :=
  (List.perm_ext_iff_of_nodup h.nodup_grouped h.nodup_indices).2 h.mem_grouped_iff

end Holds

end Groups

/-! ## The sum over the entries -/

section Terms

variable [Scalar α] {r : Registry α} {θ : List α} {entries : List (Nat × Entry α)}

/-- The sum ends at a term that is not finite, whatever was added before. -/
theorem addTerms_of_not_finite {total : α} {p : Nat × Entry α}
    (hterms : ∀ p ∈ entries, logTerm θ p.1 p.2 = .ok (p.2.logDensity θ p.1)) (hp : p ∈ entries)
    (hinfinite : Scalar.isFinite (p.2.logDensity θ p.1) = false) :
    addTerms θ entries total = .ok (-Scalar.infinity) := by
  induction entries generalizing total with
  | nil => cases hp
  | cons head rest ih =>
    unfold addTerms
    rw [hterms head List.mem_cons_self]
    show (if Scalar.isFinite (head.2.logDensity θ head.1) then _ else _) = _
    by_cases hhead : Scalar.isFinite (head.2.logDensity θ head.1) = true
    · rw [if_pos hhead]
      have hrest : p ∈ rest := by
        rcases List.mem_cons.1 hp with rfl | hrest
        · rw [hinfinite] at hhead
          cases hhead
        · exact hrest
      exact ih (fun q hq => hterms q (List.mem_cons_of_mem _ hq)) hrest
    · rw [if_neg hhead]
      rfl

/-- The density of a covered vector is zero, or no term of it is infinite or undefined. -/
theorem logPrior_cases {x : α} (closed : r.IsClosed) (covered : ∀ i ∈ r.indices, i < θ.length)
    (h : r.logPrior θ = .ok x) :
    x = -Scalar.infinity ∨ ∀ p ∈ r.entries, Scalar.isFinite (p.2.logDensity θ p.1) = true := by
  by_contra hcases
  push Not at hcases
  obtain ⟨hne, p, hp, hterm⟩ := hcases
  have hinfinite : addTerms θ r.entries 0 = .ok (-Scalar.infinity) :=
    addTerms_of_not_finite (logTerms_eq_ok closed covered) hp (Bool.eq_false_iff.2 hterm)
  exact hne (Except.ok.inj (h.symm.trans hinfinite))

theorem addTerms_finite (noOverflow : Scalar.NoOverflow α) {total : α}
    (htotal : Scalar.isFinite total = true)
    (hterms : ∀ p ∈ entries, logTerm θ p.1 p.2 = .ok (p.2.logDensity θ p.1))
    (hfinite : ∀ p ∈ entries, Scalar.isFinite (p.2.logDensity θ p.1) = true) :
    ∃ x, addTerms θ entries total = .ok x ∧ Scalar.isFinite x = true := by
  induction entries generalizing total with
  | nil => exact ⟨total, rfl, htotal⟩
  | cons p rest ih =>
    have hp := hfinite p List.mem_cons_self
    unfold addTerms
    rw [hterms p List.mem_cons_self]
    show ∃ x, (if Scalar.isFinite (p.2.logDensity θ p.1) then _ else _) = _ ∧ _
    rw [if_pos hp]
    exact ih (noOverflow _ _ htotal hp) (fun q hq => hterms q (List.mem_cons_of_mem _ hq))
      fun q hq => hfinite q (List.mem_cons_of_mem _ hq)

/-- Where nothing overflows, a prior is finite if all its terms are. -/
theorem logPrior_finite [Scalar.LawfulInfinity α] (noOverflow : Scalar.NoOverflow α)
    (closed : r.IsClosed) (covered : ∀ i ∈ r.indices, i < θ.length)
    (h : ∀ p ∈ r.entries, Scalar.isFinite (p.2.logDensity θ p.1) = true) :
    ∃ x, r.logPrior θ = .ok x ∧ Scalar.isFinite x = true :=
  addTerms_finite noOverflow Scalar.LawfulInfinity.isFinite_zero (logTerms_eq_ok closed covered) h

theorem addTerms_of_finite {θ : List Exact} {entries : List (Nat × Entry Exact)} (total : ℝ)
    (hterms : ∀ p ∈ entries, logTerm θ p.1 p.2 = .ok (p.2.logDensity θ p.1))
    (hfinite : ∀ p ∈ entries, Scalar.isFinite (p.2.logDensity θ p.1) = true) :
    addTerms θ entries (.real total) =
      .ok (.real (total + (entries.map fun p => (p.2.logDensity θ p.1).toReal).sum)) := by
  induction entries generalizing total with
  | nil =>
    rw [List.map_nil, List.sum_nil, add_zero]
    rfl
  | cons head rest ih =>
    have hhead := hfinite head List.mem_cons_self
    unfold addTerms
    rw [hterms head List.mem_cons_self]
    show (if Scalar.isFinite (head.2.logDensity θ head.1) then _ else _) = _
    rw [if_pos hhead, Exact.eq_real_of_isFinite hhead, Exact.real_add,
      ih _ (fun q hq => hterms q (List.mem_cons_of_mem _ hq))
        (fun q hq => hfinite q (List.mem_cons_of_mem _ hq)),
      List.map_cons, List.sum_cons, add_assoc]

end Terms

/-! ## The sum over the groups -/

section Exact

variable {r : Registry Exact} {log : List (Registration Exact)} {θ : List Exact}

/-- The term of a parameter as a real number. -/
noncomputable def realTerm (r : Registry Exact) (θ : List Exact) (i : Nat) : ℝ :=
  (r.get? i).elim 0 fun entry => (entry.logDensity θ i).toReal

/-- The logarithm of the joint density in groups. -/
noncomputable def groupedLogPrior (r : Registry Exact) (θ : List Exact) : ℝ :=
  (r.fixedPriors.map fun (i, prior) => (prior.logDensity (coordinate θ i)).toReal).sum +
    (r.hyperPriors.map fun (s, prior, governed) =>
      (prior.logDensity (coordinate θ s)).toReal +
        (governed.map fun i =>
          ((r.effectOf i).logDensity (coordinate θ i) (coordinate θ s)).toReal).sum).sum

theorem realTerm_of_get? {i : Nat} {entry : Entry Exact} (h : r.get? i = some entry) :
    r.realTerm θ i = (entry.logDensity θ i).toReal := by
  rw [realTerm, h, Option.elim_some]

theorem sum_entries (ordered : r.indices.Pairwise (· < ·)) :
    r.entries.map (fun p => (p.2.logDensity θ p.1).toReal) = r.indices.map (r.realTerm θ) := by
  rw [indices, List.map_map]
  apply List.map_congr_left
  rintro ⟨i, entry⟩ hmem
  exact (realTerm_of_get? ((get?_eq_some_iff ordered).2 hmem)).symm

theorem Holds.sum_grouped (h : r.Holds log) :
    (r.grouped.map (r.realTerm θ)).sum = r.groupedLogPrior θ := by
  have hfixed : r.fixedPriors.map (fun p => r.realTerm θ p.1) =
      r.fixedPriors.map fun (i, prior) => (prior.logDensity (coordinate θ i)).toReal := by
    apply List.map_congr_left
    rintro ⟨i, prior⟩ hmem
    exact realTerm_of_get? (h.mem_fixedPriors_iff.1 hmem)
  have hhyper : (r.hyperPriors.map fun (s, _, governed) =>
        ((s :: governed).map (r.realTerm θ)).sum) =
      r.hyperPriors.map fun (s, prior, governed) =>
        (prior.logDensity (coordinate θ s)).toReal +
          (governed.map fun i =>
            ((r.effectOf i).logDensity (coordinate θ i) (coordinate θ s)).toReal).sum := by
    apply List.map_congr_left
    rintro ⟨s, prior, governed⟩ hmem
    have hs := h.mem_hyperPriors_iff.1 hmem
    have hgoverned : governed.map (r.realTerm θ) = governed.map fun i =>
        ((r.effectOf i).logDensity (coordinate θ i) (coordinate θ s)).toReal := by
      apply List.map_congr_left
      intro i hi
      exact realTerm_of_get? (h.get?_of_mem_governed hs hi)
    show (r.realTerm θ s :: governed.map (r.realTerm θ)).sum = _
    rw [List.sum_cons, realTerm_of_get? hs, hgoverned]
    rfl
  unfold grouped groupedLogPrior
  rw [← hfixed, ← hhyper, List.map_append, List.sum_append, List.map_map, List.map_flatMap,
    List.flatMap, List.sum_flatten, List.map_map]
  rfl

end Exact

end Registry

/-! ## Supports -/

namespace Prior

/-- Where the density of a distribution with valid hyperparameters is positive. -/
def Supports : Prior Exact → Exact → Prop
  | .flat, _ => True
  | .normal _ _, x => Scalar.isFinite x = true
  | .uniform lower upper, x => lower ≤ x ∧ x ≤ upper
  | .gamma _ _, x => 0 < x
  | .inverseGamma _ _, x => 0 < x
  | .halfNormal _, x => 0 ≤ x
  | .logNormal _ _, x => 0 < x

theorem isFinite_of_logNormalDensity {x mean variance : Exact}
    (h : Scalar.isFinite (logNormalDensity x mean variance) = true) :
    Scalar.isFinite x = true := by
  unfold logNormalDensity at h
  split at h
  · cases h
  · have hsum := (Exact.isFinite_of_mul h).2
    have hsquares := Exact.isFinite_of_div (Exact.isFinite_of_add hsum).2
    exact (Exact.isFinite_of_sub (Exact.isFinite_of_mul hsquares).1).1

/-- Outside of the support no density is finite on the scale of logarithms. -/
theorem supports_of_isFinite {prior : Prior Exact} {x : Exact}
    (h : Scalar.isFinite (prior.logDensity x) = true) : prior.Supports x := by
  cases prior with
  | flat => trivial
  | normal mean variance => exact isFinite_of_logNormalDensity h
  | uniform lower upper =>
    simp only [logDensity, logUniformDensity] at h
    split at h
    · split at h
      next hwithin => exact hwithin
      next => cases h
    · cases h
  | gamma shape rate =>
    simp only [logDensity, logGammaDensity] at h
    split at h
    next hpos => exact hpos.1
    next => cases h
  | inverseGamma shape scale =>
    simp only [logDensity, logInverseGammaDensity] at h
    split at h
    next hpos => exact hpos.1
    next => cases h
  | halfNormal scale =>
    simp only [logDensity, logHalfNormalDensity] at h
    split at h
    · cases h
    next hnegative =>
      -- A number that is not undefined, and not negative.
      have hx := isFinite_of_logNormalDensity (Exact.isFinite_of_add h).2
      rw [Exact.eq_real_of_isFinite hx] at hnegative ⊢
      rw [Exact.ofNat_eq, Exact.real_lt, not_lt] at hnegative
      exact hnegative
  | logNormal mu sigma =>
    simp only [logDensity, logLogNormalDensity] at h
    split at h
    next hpos => exact hpos
    next => cases h

/-- For real hyperparameters it is the support of the distribution. -/
theorem IsProper.supports_iff {p : Prior Exact} (h : p.IsProper) (x : ℝ) :
    p.Supports (.real x) ↔ x ∈ p.support := by
  cases h with
  | normal => exact iff_of_true rfl (Set.mem_univ x)
  | uniform => exact Iff.rfl
  | gamma | inverseGamma | logNormal => exact Exact.zero_lt_real_iff x
  | halfNormal =>
    show 0 ≤ Exact.real x ↔ 0 ≤ x
    rw [Exact.zero_eq, Exact.real_le]

end Prior

namespace Effect

/-- A realization has a positive density everywhere if the standard deviation is positive. -/
theorem isFinite_logDensity (e : Effect) (x : ℝ) {deviation : ℝ} (h : 0 < deviation) :
    Scalar.isFinite (e.logDensity (Exact.real x) (Exact.real deviation)) = true := by
  rw [(e.isLogOf_logDensity h).inside x (Set.mem_univ x)]
  rfl

end Effect

/-- Whether an entry can give parameter `i` of a vector a positive density: the number is in the
support, and for a realization the standard deviation is positive and finite. -/
def Entry.Supports (θ : List Exact) (i : Nat) : Entry Exact → Prop
  | .fixed prior => prior.Supports (coordinate θ i)
  | .realization _ spread => 0 < coordinate θ spread ∧ Scalar.isFinite (coordinate θ spread) = true
  | .hyper prior _ => prior.Supports (coordinate θ i)

theorem Entry.supports_of_isFinite {θ : List Exact} {i : Nat} {entry : Entry Exact}
    (h : Scalar.isFinite (entry.logDensity θ i) = true) : entry.Supports θ i := by
  cases entry with
  | fixed prior => exact Prior.supports_of_isFinite h
  | hyper prior governed => exact Prior.supports_of_isFinite h
  | realization effect spread =>
    simp only [logDensity, Effect.logDensity] at h
    split at h
    next hspread => exact hspread
    next => cases h

namespace Registry

/-- The prior of a vector that covers a registry is the sum over the groups if every term is finite,
and `-infinity` if any is not, as all are outside of their supports. The groups partition the
parameters. -/
theorem logPrior_factorizes (regs : List (Registration Exact)) (θ : List Exact)
    (covers : ∀ i ∈ (after regs).indices, i < θ.length) :
    let r := after regs
    r.grouped.Perm r.indices ∧ r.indices.Nodup ∧
      (∀ s prior governed, (s, prior, governed) ∈ r.hyperPriors → ∀ i ∈ governed,
        r.get? i = some (.realization (r.effectOf i) s)) ∧
      ((∀ i entry, r.get? i = some entry → Scalar.isFinite (entry.logDensity θ i) = true) →
        r.logPrior θ = .ok (.real (r.groupedLogPrior θ))) ∧
      (∀ i entry, r.get? i = some entry → Scalar.isFinite (entry.logDensity θ i) = false →
        r.logPrior θ = .ok .negInf) ∧
      ∀ i entry, r.get? i = some entry → ¬ entry.Supports θ i → r.logPrior θ = .ok .negInf := by
  intro r
  have h : r.Holds (accepted empty regs) := holds_after regs
  have hget : ∀ i entry, r.get? i = some entry ↔ (i, entry) ∈ r.entries :=
    fun i entry => get?_eq_some_iff h.ordered
  have hterms := logTerms_eq_ok h.isClosed covers
  have hinfinite : ∀ i entry, r.get? i = some entry →
      Scalar.isFinite (entry.logDensity θ i) = false → r.logPrior θ = .ok .negInf := by
    intro i entry hentry hterm
    exact addTerms_of_not_finite (p := (i, entry)) hterms ((hget i entry).1 hentry) hterm
  refine ⟨h.grouped_perm, h.nodup_indices, ?_, fun hfinite => ?_, hinfinite, ?_⟩
  · intro s prior governed hmem i hi
    exact h.get?_of_mem_governed (h.mem_hyperPriors_iff.1 hmem) hi
  · have hsum := addTerms_of_finite 0 hterms fun p hp => hfinite p.1 p.2 ((hget p.1 p.2).2 hp)
    rw [zero_add, sum_entries h.ordered, ← (h.grouped_perm.map (r.realTerm θ)).sum_eq,
      h.sum_grouped] at hsum
    rw [logPrior, Exact.ofNat_eq, Nat.cast_zero]
    exact hsum
  · intro i entry hentry houtside
    apply hinfinite i entry hentry
    rw [← Bool.not_eq_true]
    intro hfinite
    exact houtside (Entry.supports_of_isFinite hfinite)

/-- Two realizations of one standard deviation between which another parameter is registered. -/
def sharedSpread : List (Registration Exact) :=
  [.realization 1 .normal 0 .flat, .fixed 3 .flat, .realization 2 .laplace 0 .flat]

theorem after_sharedSpread :
    after sharedSpread =
      ⟨[(0, .hyper .flat [1, 2]), (1, .realization .normal 0), (2, .realization .laplace 0),
        (3, .fixed .flat)]⟩ := rfl

/-- At the standard deviation two every term is finite, at zero those of the realizations are
not. -/
theorem logPrior_factorizes_sharedSpread :
    let r := after sharedSpread
    let θ := fun s : ℝ => [Exact.real s, .real 1, .real (-1), .real 5]
    (∀ s : ℝ, ∀ i ∈ r.indices, i < (θ s).length) ∧
      (∀ i entry, r.get? i = some entry → Scalar.isFinite (entry.logDensity (θ 2) i) = true) ∧
      r.get? 1 = some (.realization .normal 0) ∧
      ¬ Entry.Supports (θ 0) 1 (.realization .normal 0) ∧
      r.logPrior (θ 2) = .ok (.real (r.groupedLogPrior (θ 2))) ∧
      r.logPrior (θ 0) = .ok .negInf := by
  intro r θ
  have covers : ∀ s : ℝ, ∀ i ∈ r.indices, i < (θ s).length := by
    intro s i hi
    have hcases : i = 0 ∨ i = 1 ∨ i = 2 ∨ i = 3 := by
      simpa [r, after_sharedSpread, indices] using hi
    show i < 4
    omega
  have hfinite : ∀ i entry, r.get? i = some entry →
      Scalar.isFinite (entry.logDensity (θ 2) i) = true := by
    intro i entry hentry
    have hmem := (get?_eq_some_iff (holds_after sharedSpread).ordered).1 hentry
    simp only [after_sharedSpread, List.mem_cons, Prod.mk.injEq, List.not_mem_nil,
      or_false] at hmem
    rcases hmem with ⟨rfl, rfl⟩ | ⟨rfl, rfl⟩ | ⟨rfl, rfl⟩ | ⟨rfl, rfl⟩
    · rfl
    · exact Effect.isFinite_logDensity .normal 1 two_pos
    · exact Effect.isFinite_logDensity .laplace (-1) two_pos
    · rfl
  have houtside : ¬ Entry.Supports (θ 0) 1 (.realization .normal 0) := by
    intro hsupports
    have hpos : (0 : Exact) < Exact.real 0 := hsupports.1
    rw [Exact.ofNat_eq, Nat.cast_zero, Exact.real_lt] at hpos
    exact lt_irrefl 0 hpos
  exact ⟨covers, hfinite, rfl, houtside,
    (logPrior_factorizes sharedSpread (θ 2) (covers 2)).2.2.2.1 hfinite,
    (logPrior_factorizes sharedSpread (θ 0) (covers 0)).2.2.2.2.2 1 _ rfl houtside⟩

end Registry

end Metropolis
