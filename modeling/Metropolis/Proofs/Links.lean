import Metropolis.Proofs.Registration

/-!
# Links between the entries of a registry

A realization and its standard deviation point at each other, whatever was registered in whatever
order and however often a registration was refused. A registration changes nothing if it is
refused, and of the entries that are there no more than one list of realizations if it is accepted.
-/

namespace Metropolis

variable {α : Type}

namespace Entry

/-- The prior that is stored with an entry. -/
def prior? : Entry α → Option (Prior α)
  | .fixed prior => some prior
  | .realization _ _ => none
  | .hyper prior _ => some prior

end Entry

namespace Registry

variable [Scalar α] {r r' : Registry α} {log : List (Registration α)}

/-! ## Links between entries -/

/-- How the entries of a registry belong together after registrations that were accepted. -/
structure Linked (r : Registry α) (log : List (Registration α)) : Prop where
  valid : ∀ i entry prior, r.get? i = some entry → entry.prior? = some prior →
    prior.isValid = true
  realization : ∀ i effect s, r.get? i = some (.realization effect s) →
    s ≠ i ∧ ∃ prior governed, r.get? s = some (.hyper prior governed) ∧ governed.count i = 1 ∧
      ∀ s' prior' governed', r.get? s' = some (.hyper prior' governed') → i ∈ governed' → s' = s
  hyper : ∀ s prior governed, r.get? s = some (.hyper prior governed) →
    governed ≠ [] ∧ governed.Nodup ∧ governed = governedBy s log ∧
      ∀ i ∈ governed, ∃ effect, r.get? i = some (.realization effect s)

namespace Holds

variable {i spread : Nat} {effect : Effect} {prior : Prior α} {among : List Nat}

/-- What is governed is a realization. -/
theorem governed (h : r.Holds log) (hs : r.get? spread = some (.hyper prior among))
    (hi : i ∈ among) : ∃ effect, r.get? i = some (.realization effect spread) := by
  rw [(h.hyper hs).1] at hi
  obtain ⟨effect, prior', hmem⟩ := mem_governedBy.1 hi
  exact ⟨effect, h.own _ hmem⟩

theorem linked (h : r.Holds log) : r.Linked log where
  valid i entry prior hi hprior := by
    rcases h.only _ _ hi with ⟨reg, hmem, -, rfl⟩ | ⟨j, effect, prior', hmem, rfl⟩
    · cases reg <;> cases hprior
      exact h.proper _ hmem
    · cases hprior
      exact (h.proper _ hmem).1
  realization i effect s hi := by
    obtain ⟨prior, hmem⟩ := h.realization hi
    obtain ⟨stored, hs, -⟩ := h.spread _ _ _ _ hmem
    refine ⟨(h.proper _ hmem).2.symm, stored, _, hs, ?_, fun s' prior' governed' hs' hi' => ?_⟩
    · rw [List.Nodup.count (nodup_governedBy h.distinct),
        if_pos (mem_governedBy.2 ⟨effect, prior, hmem⟩)]
    · -- The entry of a realization names one standard deviation only.
      obtain ⟨effect', hi'⟩ := h.governed hs' hi'
      rw [hi] at hi'
      cases hi'
      rfl
  hyper s prior governed hs := by
    obtain ⟨rfl, j, effect, hmem⟩ := h.hyper hs
    refine ⟨?_, nodup_governedBy h.distinct, rfl, fun i hi => h.governed hs hi⟩
    exact List.ne_nil_of_mem (mem_governedBy.2 ⟨effect, prior, hmem⟩)

end Holds

/-! ## Refusals -/

/-- What makes a registry refuse a registration. -/
def Refuses (r : Registry α) : Registration α → Prop
  | .fixed index prior => prior.isValid = false ∨ (r.get? index).isSome = true
  | .realization index _ spread hyperPrior =>
    hyperPrior.isValid = false ∨ (r.get? index).isSome = true ∨ index = spread ∨
      ∃ entry, r.get? spread = some entry ∧
        ∀ stored governed, entry = .hyper stored governed → (stored == hyperPrior) = false

/-- What a registration that is accepted changes. -/
structure Extends (r : Registry α) (reg : Registration α) (r' : Registry α) : Prop where
  own : r'.get? reg.index = some reg.entry
  kept : ∀ i entry, r.get? i = some entry → r'.get? i = some entry ∨
    ∃ index effect prior stored governed, reg = .realization index effect i prior ∧
      entry = .hyper stored governed ∧ r'.get? i = some (.hyper stored (governed ++ [index]))
  others : ∀ i, ¬ reg.Mentions i → r'.get? i = r.get? i

theorem not_admits_iff {spread : Nat} {prior : Prior α} :
    (¬ ∃ stored governed, r.Admits spread prior stored governed) ↔
      ∃ entry, r.get? spread = some entry ∧
        ∀ stored governed, entry = .hyper stored governed → (stored == prior) = false := by
  constructor
  · intro h
    cases hs : r.get? spread with
    | none => exact absurd ⟨prior, [], .new hs⟩ h
    | some entry =>
      refine ⟨entry, rfl, fun stored governed heq => ?_⟩
      rw [← Bool.not_eq_true]
      rintro equal
      exact h ⟨stored, governed, .shared (by rw [hs, heq]) equal⟩
  · rintro ⟨entry, hs, hentry⟩ ⟨stored, governed, hadmits⟩
    cases hadmits with
    | new free => rw [hs] at free; cases free
    | shared same equal =>
      rw [hs] at same
      rw [hentry _ _ (Option.some.inj same)] at equal
      cases equal

theorem add_eq_error_iff {reg : Registration α} :
    (∃ cause, r.add reg = .error cause) ↔ r.Refuses reg := by
  have hnot : (∃ cause, r.add reg = .error cause) ↔ ¬ ∃ r', r.add reg = .ok r' := by
    cases r.add reg <;> simp
  rw [hnot]
  cases reg with
  | fixed index prior =>
    have haccepted : (∃ r', r.add (.fixed index prior) = .ok r') ↔
        prior.isValid = true ∧ r.get? index = none := by
      simp only [add, addFixed_eq_ok_iff, exists_and_left, exists_eq, and_true]
    rw [haccepted, Refuses, not_and_or, Bool.not_eq_true, ← Option.ne_none_iff_isSome]
  | realization index effect spread hyperPrior =>
    have haccepted : (∃ r', r.add (.realization index effect spread hyperPrior) = .ok r') ↔
        hyperPrior.isValid = true ∧ r.get? index = none ∧ index ≠ spread ∧
          ∃ stored governed, r.Admits spread hyperPrior stored governed := by
      constructor
      · rintro ⟨r', h⟩
        obtain ⟨hvalid, hne, hfree, stored, governed, hadmits, -⟩ := addRealization_eq_ok_iff.1 h
        exact ⟨hvalid, hfree, hne, stored, governed, hadmits⟩
      · rintro ⟨hvalid, hfree, hne, stored, governed, hadmits⟩
        exact ⟨_, addRealization_eq_ok_iff.2
          ⟨hvalid, hne, hfree, stored, governed, hadmits, rfl⟩⟩
    rw [haccepted, Refuses, ← not_admits_iff, ← Option.ne_none_iff_isSome, not_and_or, not_and_or,
      not_and_or, Bool.not_eq_true, not_not]

theorem extends_of_add {reg : Registration α} (h : r.add reg = .ok r') : r.Extends reg r' := by
  cases reg with
  | fixed index prior =>
    obtain ⟨-, hfree, rfl⟩ := addFixed_eq_ok_iff.1 h
    refine ⟨?_, fun i entry hi => .inl ?_, fun i hi => ?_⟩
    · rw [get?_insert]
      exact if_pos rfl
    · have hne : i ≠ index := by
        rintro rfl
        rw [hfree] at hi
        cases hi
      rw [get?_insert, if_neg hne, hi]
    · rw [get?_insert, if_neg (Ne.symm hi)]
  | realization index effect spread hyperPrior =>
    obtain ⟨-, -, hfree, stored, governed, hadmits, rfl⟩ := addRealization_eq_ok_iff.1 h
    refine ⟨?_, fun i entry hi => ?_, fun i hi => ?_⟩
    · rw [get?_withRealization]
      exact if_pos rfl
    · have hne : i ≠ index := by
        rintro rfl
        rw [hfree] at hi
        cases hi
      rw [get?_withRealization, if_neg hne]
      by_cases heq : i = spread
      · -- The standard deviation had an entry, so that the realization is one more.
        subst heq
        cases hadmits with
        | new free => rw [free] at hi; cases hi
        | shared same equal =>
          rw [same] at hi
          cases hi
          exact .inr ⟨index, effect, hyperPrior, stored, governed, rfl, rfl, if_pos rfl⟩
      · rw [if_neg heq]
        exact .inl hi
    · obtain ⟨hindex, hspread⟩ := not_or.1 hi
      rw [get?_withRealization, if_neg (Ne.symm hindex), if_neg (Ne.symm hspread)]

/-- The entries of a registry are linked after any registrations, also where some were refused. A
registration that is refused changes nothing, one that is accepted adds its own entry and at most
one realization to one standard deviation, and which of them are refused can be told from the
entries. -/
theorem linked_after (regs : List (Registration α)) :
    (after regs).Linked (accepted empty regs) ∧
      ∀ (r : Registry α) (reg : Registration α),
        (∀ cause r', register reg r = .error cause r' → r' = r) ∧
          (∀ r', register reg r = .ok () r' → r.Extends reg r') ∧
          ((∃ cause r', register reg r = .error cause r') ↔ r.Refuses reg) := by
  refine ⟨(holds_after regs).linked, fun r reg => ?_⟩
  rw [← add_eq_error_iff, register_eq]
  cases hadd : r.add reg with
  | ok r' =>
    refine ⟨nofun, fun r'' h => ?_, by simp⟩
    cases h
    exact extends_of_add hadd
  | error cause =>
    refine ⟨fun cause' r' h => ?_, nofun, by simp⟩
    cases h
    rfl

end Registry

end Metropolis
