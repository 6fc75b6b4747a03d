import Metropolis.Prior.Registry
import Metropolis.Proofs.Result

/-!
# What registrations make of a registry

A registry holds what the registrations that were accepted say, and nothing else: `Holds` is
preserved by every registration that succeeds. From it come the links between a realization and its
standard deviation. Registration in place either succeeds as a whole or changes nothing.
-/

namespace Metropolis

variable {α : Type}

namespace Registration

/-- The parameter that a registration is for. -/
def index : Registration α → Nat
  | .fixed index _ => index
  | .realization index _ _ _ => index

/-- The role that it gives the parameter. -/
def entry : Registration α → Entry α
  | .fixed _ prior => .fixed prior
  | .realization _ effect spread _ => .realization effect spread

/-- The parameters that get a role by it: its own and, for a realization, the standard deviation. -/
def Mentions (i : Nat) : Registration α → Prop
  | .fixed index _ => index = i
  | .realization index _ spread _ => index = i ∨ spread = i

/-- The realization that it adds to those of a standard deviation. -/
def governedBy? (spread : Nat) : Registration α → Option Nat
  | .fixed _ _ => none
  | .realization index _ s _ => if s = spread then some index else none

theorem entry_ne_hyper (reg : Registration α) (prior : Prior α) (governed : List Nat) :
    reg.entry ≠ .hyper prior governed := by
  cases reg <;> exact fun h => Entry.noConfusion rfl (heq_of_eq h)

theorem mentions_index (reg : Registration α) : reg.Mentions reg.index := by
  cases reg with
  | fixed => rfl
  | realization => exact .inl rfl

/-- What a registration needs whatever else is registered. -/
def IsProper [Scalar α] : Registration α → Prop
  | .fixed _ prior => prior.isValid = true
  | .realization index _ spread hyperPrior => hyperPrior.isValid = true ∧ index ≠ spread

end Registration

namespace Registry

variable {r r' : Registry α} {index : Nat} {log : List (Registration α)}

/-! ## Entries of an ordered list -/

/-- The parameters that have an entry. -/
def indices (r : Registry α) : List Nat := r.entries.map Prod.fst

theorem mem_indices_insertEntry (entry : Entry α) (entries : List (Nat × Entry α)) (i : Nat) :
    i ∈ (insertEntry index entry entries).map Prod.fst ↔ i = index ∨ i ∈ entries.map Prod.fst := by
  induction entries with
  | nil => simp [insertEntry]
  | cons head rest ih =>
    unfold insertEntry
    split
    · simp
    · split
      next heq => simp [heq]
      next => simp only [List.map_cons, List.mem_cons, ih]; tauto

theorem pairwise_insertEntry (entry : Entry α) {entries : List (Nat × Entry α)}
    (h : (entries.map Prod.fst).Pairwise (· < ·)) :
    ((insertEntry index entry entries).map Prod.fst).Pairwise (· < ·) := by
  induction entries with
  | nil => simp [insertEntry]
  | cons head rest ih =>
    obtain ⟨hhead, hrest⟩ := List.pairwise_cons.1 h
    unfold insertEntry
    split
    next hlt =>
      refine List.pairwise_cons.2 ⟨fun i hi => ?_, h⟩
      rcases List.mem_cons.1 hi with rfl | hi
      · exact hlt
      · exact Nat.lt_trans hlt (hhead i hi)
    next hnlt =>
      split
      next heq =>
        rw [List.map_cons, heq]
        exact h
      next hne =>
        -- The new entry comes after the head, and so does all that was there.
        refine List.pairwise_cons.2 ⟨fun i hi => ?_, ih hrest⟩
        rcases (mem_indices_insertEntry entry rest i).1 hi with rfl | hi
        · show head.1 < i
          omega
        · exact hhead i hi

theorem lookup_cons (i : Nat) (head : Nat × Entry α) (rest : List (Nat × Entry α)) :
    (head :: rest).lookup i = if i = head.1 then some head.2 else rest.lookup i := by
  by_cases h : i = head.1
  · rw [if_pos h, List.lookup_cons, beq_iff_eq.2 h]
  · rw [if_neg h, List.lookup_cons, beq_eq_false_iff_ne.2 h]

theorem lookup_insertEntry (entry : Entry α) (entries : List (Nat × Entry α)) (i : Nat) :
    (insertEntry index entry entries).lookup i =
      if i = index then some entry else entries.lookup i := by
  induction entries with
  | nil => rw [insertEntry, lookup_cons]
  | cons head rest ih =>
    unfold insertEntry
    split
    · rw [lookup_cons]
    · split
      next heq =>
        rw [lookup_cons, lookup_cons, heq]
        split <;> rfl
      next hne =>
        rw [lookup_cons, lookup_cons, ih]
        -- The head is not what was put in.
        by_cases h : i = head.1
        · rw [if_pos h, if_neg (by omega), if_pos h]
        · rw [if_neg h, if_neg h]

theorem get?_insert (r : Registry α) (entry : Entry α) (i : Nat) :
    (r.insert index entry).get? i = if i = index then some entry else r.get? i :=
  lookup_insertEntry entry r.entries i

/-- In an ordered list an entry is found by its index. -/
theorem lookup_eq_some_iff {entries : List (Nat × Entry α)}
    (ordered : (entries.map Prod.fst).Pairwise (· < ·)) {entry : Entry α} :
    entries.lookup index = some entry ↔ (index, entry) ∈ entries := by
  induction entries with
  | nil => simp
  | cons head rest ih =>
    obtain ⟨hhead, hrest⟩ := List.pairwise_cons.1 ordered
    rw [lookup_cons, List.mem_cons]
    by_cases h : index = head.1
    · have hnot : (index, entry) ∉ rest := fun hmem => by
        have := hhead index (List.mem_map_of_mem (f := Prod.fst) hmem)
        omega
      rw [if_pos h, Option.some.injEq]
      constructor
      · rintro rfl
        exact .inl (by rw [h])
      · rintro (rfl | hmem)
        · rfl
        · exact absurd hmem hnot
    · rw [if_neg h, ih hrest]
      constructor
      · exact .inr
      · rintro (rfl | hmem)
        · exact absurd rfl h
        · exact hmem

theorem get?_eq_some_iff (ordered : r.indices.Pairwise (· < ·)) {entry : Entry α} :
    r.get? index = some entry ↔ (index, entry) ∈ r.entries :=
  lookup_eq_some_iff ordered

/-! ## What a registration does -/

section Steps

variable [Scalar α] {reg : Registration α} {effect : Effect} {spread : Nat}
  {prior stored : Prior α} {governed : List Nat}

/-- Whether a parameter may be a standard deviation with a hyper-prior. The hyper-prior that is
stored for it is then `stored`, and `governed` are its realizations so far. -/
inductive Admits (r : Registry α) (spread : Nat) (prior : Prior α) :
    Prior α → List Nat → Prop where
  | new (free : r.get? spread = none) : Admits r spread prior prior []
  | shared {stored : Prior α} {governed : List Nat}
      (same : r.get? spread = some (.hyper stored governed)) (equal : (stored == prior) = true) :
      Admits r spread prior stored governed

theorem Admits.equal (h : r.Admits spread prior stored governed) :
    stored = prior ∨ (stored == prior) = true := by
  cases h with
  | new => exact .inl rfl
  | shared _ equal => exact .inr equal

theorem stored_of_admits {old : Prior α} {among : List Nat}
    (hs : r.get? spread = some (.hyper old among))
    (h : r.Admits spread prior stored governed) : stored = old := by
  cases h with
  | new free => rw [hs] at free; cases free
  | shared same _ => rw [hs] at same; cases same; rfl

/-- The registry with one more realization of a standard deviation. -/
def withRealization (r : Registry α) (index : Nat) (effect : Effect) (spread : Nat)
    (stored : Prior α) (governed : List Nat) : Registry α :=
  (r.insert spread (.hyper stored (governed ++ [index]))).insert index (.realization effect spread)

omit [Scalar α] in
theorem get?_withRealization (i : Nat) :
    (r.withRealization index effect spread stored governed).get? i =
      if i = index then some (.realization effect spread)
      else if i = spread then some (.hyper stored (governed ++ [index])) else r.get? i := by
  rw [withRealization, get?_insert, get?_insert]

theorem addFixed_eq_ok_iff :
    r.addFixed index prior = .ok r' ↔
      prior.isValid = true ∧ r.get? index = none ∧ r' = r.insert index (.fixed prior) := by
  unfold addFixed
  by_cases hvalid : prior.isValid = true
  · rw [hvalid]
    cases hindex : r.get? index with
    | none => simp [eq_comm]
    | some entry => simp
  · simp [hvalid]

theorem addRealization_eq_ok_iff :
    r.addRealization index effect spread prior = .ok r' ↔
      prior.isValid = true ∧ index ≠ spread ∧ r.get? index = none ∧
        ∃ stored governed, r.Admits spread prior stored governed ∧
          r' = r.withRealization index effect spread stored governed := by
  constructor
  · intro h
    unfold addRealization at h
    split at h
    · cases h
    next hvalid =>
      split at h
      · cases h
      next hfree =>
        simp only [Bool.not_eq_true', Bool.not_eq_false, not_or, Option.isSome_eq_false_iff,
          Option.isNone_iff_eq_none, Bool.not_eq_true] at hvalid hfree
        refine ⟨hvalid, hfree.1, hfree.2, ?_⟩
        dsimp only at h
        split at h
        next free => cases h; exact ⟨prior, [], .new free, rfl⟩
        next stored governed same =>
          split at h
          next equal => cases h; exact ⟨stored, governed, .shared same equal, rfl⟩
          next => cases h
        next => cases h
  · rintro ⟨hvalid, hne, hindex, stored, governed, hadmits, rfl⟩
    unfold addRealization
    rw [hvalid, hindex]
    -- The standard deviation is free or has an equal hyper-prior.
    cases hadmits with
    | new free => simp [hne, free, withRealization]
    | shared same equal => simp [hne, same, equal, withRealization]

/-- In place or not, a registration that is refused changes nothing. -/
theorem register_eq (reg : Registration α) (r : Registry α) :
    register reg r =
      match r.add reg with
      | .ok r' => .ok () r'
      | .error cause => .error cause r := by
  cases reg with
  | fixed index prior =>
    rw [register, bind_get, add, addFixed]
    split
    · rfl
    · split <;> rfl
  | realization index effect spread hyperPrior =>
    rw [register, bind_get, add, addRealization]
    split
    · rfl
    · split
      · rfl
      · dsimp only
        -- All that can fail is what is decided before the first entry is put in.
        cases r.get? spread with
        | none => rfl
        | some entry =>
          cases entry with
          | fixed => rfl
          | realization => rfl
          | hyper stored governed =>
            dsimp only
            cases stored == hyperPrior <;> rfl

end Steps

/-! ## What a registry holds -/

/-- The realizations of a standard deviation among registrations, in their order. -/
def governedBy (spread : Nat) (log : List (Registration α)) : List Nat :=
  log.filterMap (Registration.governedBy? spread)

section Governed

variable {spread i : Nat}

theorem mem_governedBy :
    i ∈ governedBy spread log ↔
      ∃ effect prior, Registration.realization i effect spread prior ∈ log := by
  rw [governedBy, List.mem_filterMap]
  constructor
  · rintro ⟨reg, hmem, hi⟩
    cases reg with
    | fixed => cases hi
    | realization j effect s prior =>
      simp only [Registration.governedBy?, Option.ite_none_right_eq_some, Option.some.injEq] at hi
      obtain ⟨rfl, rfl⟩ := hi
      exact ⟨effect, prior, hmem⟩
  · rintro ⟨effect, prior, hmem⟩
    exact ⟨_, hmem, if_pos rfl⟩

theorem governedBy_append_fixed (prior : Prior α) :
    governedBy spread (log ++ [.fixed index prior]) = governedBy spread log := by
  rw [governedBy, List.filterMap_append]
  exact List.append_nil _

theorem governedBy_append_realization (effect : Effect) (prior : Prior α) :
    governedBy spread (log ++ [.realization index effect spread prior]) =
      governedBy spread log ++ [index] := by
  rw [governedBy, List.filterMap_append]
  simp [governedBy, Registration.governedBy?]

theorem governedBy_append_of_ne {s : Nat} (effect : Effect) (prior : Prior α) (h : s ≠ spread) :
    governedBy spread (log ++ [.realization index effect s prior]) = governedBy spread log := by
  rw [governedBy, List.filterMap_append]
  simp [governedBy, Registration.governedBy?, h]

/-- A realization is governed once if no parameter is registered twice. -/
theorem nodup_governedBy (distinct : (log.map Registration.index).Nodup) :
    (governedBy spread log).Nodup := by
  have hsub : (governedBy spread log).Sublist (log.map Registration.index) := by
    induction log with
    | nil => exact List.Sublist.refl _
    | cons reg log ih =>
      have hlog := ih (List.nodup_cons.1 distinct).2
      cases hreg : reg.governedBy? spread with
      | none =>
        rw [governedBy, List.filterMap_cons_none hreg]
        exact hlog.cons _
      | some j =>
        have hj : j = reg.index := by
          cases reg with
          | fixed => cases hreg
          | realization =>
            simp only [Registration.governedBy?, Option.ite_none_right_eq_some,
              Option.some.injEq] at hreg
            exact hreg.2.symm
        rw [governedBy, List.filterMap_cons_some hreg, List.map_cons, hj]
        exact hlog.cons_cons _
  exact distinct.sublist hsub

end Governed

section Holds

variable [Scalar α]

/-- Whether a registry holds what registrations say: their roles, the standard deviations of the
realizations among them with an equal hyper-prior, and nothing else. -/
structure Holds (r : Registry α) (log : List (Registration α)) : Prop where
  ordered : r.indices.Pairwise (· < ·)
  proper : ∀ reg ∈ log, reg.IsProper
  distinct : (log.map Registration.index).Nodup
  own : ∀ reg ∈ log, r.get? reg.index = some reg.entry
  spread : ∀ i effect s prior, .realization i effect s prior ∈ log →
    ∃ stored, r.get? s = some (.hyper stored (governedBy s log)) ∧
      (stored = prior ∨ (stored == prior) = true)
  only : ∀ i entry, r.get? i = some entry →
    (∃ reg ∈ log, reg.index = i ∧ reg.entry = entry) ∨
      ∃ j effect prior, .realization j effect i prior ∈ log ∧
        entry = .hyper prior (governedBy i log)

namespace Holds

variable {spread : Nat} {prior stored : Prior α} {governed : List Nat}

/-- A hyper-prior that is stored was registered, with the realizations that are listed. -/
theorem hyper (h : r.Holds log) (hs : r.get? spread = some (.hyper stored governed)) :
    governed = governedBy spread log ∧
      ∃ j effect, .realization j effect spread stored ∈ log := by
  rcases h.only _ _ hs with ⟨reg, -, -, hentry⟩ | ⟨j, effect, prior, hmem, hentry⟩
  · exact absurd hentry (reg.entry_ne_hyper _ _)
  · cases hentry
    exact ⟨rfl, j, effect, hmem⟩

theorem realization (h : r.Holds log) {i : Nat} {effect : Effect}
    (hi : r.get? i = some (.realization effect spread)) :
    ∃ prior, .realization i effect spread prior ∈ log := by
  rcases h.only _ _ hi with ⟨reg, hmem, rfl, hentry⟩ | ⟨j, effect', prior, -, hentry⟩
  · cases reg <;> cases hentry
    exact ⟨_, hmem⟩
  · cases hentry

/-- A parameter is free if no registration mentions it. -/
theorem get?_eq_none_iff (h : r.Holds log) (i : Nat) :
    r.get? i = none ↔ ∀ reg ∈ log, ¬ reg.Mentions i := by
  constructor
  · intro hnone reg hmem hmentions
    cases reg with
    | fixed j prior =>
      cases hmentions
      exact absurd (h.own _ hmem) (by rw [Registration.index, hnone]; exact nofun)
    | realization j effect s prior =>
      rcases hmentions with rfl | rfl
      · exact absurd (h.own _ hmem) (by rw [Registration.index, hnone]; exact nofun)
      · obtain ⟨stored, hs, -⟩ := h.spread _ _ _ _ hmem
        exact absurd hs (by rw [hnone]; exact nofun)
  · intro hfree
    cases hentry : r.get? i with
    | none => rfl
    | some entry =>
      rcases h.only _ _ hentry with ⟨reg, hmem, rfl, -⟩ | ⟨j, effect, prior, hmem, -⟩
      · exact absurd reg.mentions_index (hfree reg hmem)
      · exact absurd (.inr rfl) (hfree _ hmem)

theorem empty : (Registry.empty : Registry α).Holds [] where
  ordered := .nil
  proper := nofun
  distinct := .nil
  own := nofun
  spread := nofun
  only := nofun

theorem index_ne (h : r.Holds log) (hfree : r.get? index = none) {reg : Registration α}
    (hmem : reg ∈ log) : reg.index ≠ index := by
  rintro rfl
  exact (h.get?_eq_none_iff _).1 hfree reg hmem reg.mentions_index

theorem distinct_append (h : r.Holds log) {reg : Registration α}
    (hfree : r.get? reg.index = none) : ((log ++ [reg]).map Registration.index).Nodup := by
  rw [List.map_append, List.nodup_append]
  refine ⟨h.distinct, List.nodup_cons.2 ⟨nofun, .nil⟩, fun i hi j hj => ?_⟩
  obtain ⟨old, hmem, rfl⟩ := List.mem_map.1 hi
  rw [List.mem_singleton.1 hj]
  exact h.index_ne hfree hmem

theorem insert_fixed (h : r.Holds log) (hvalid : prior.isValid = true)
    (hfree : r.get? index = none) :
    (r.insert index (.fixed prior)).Holds (log ++ [.fixed index prior]) where
  ordered := pairwise_insertEntry _ h.ordered
  proper reg hmem := by
    rcases List.mem_append.1 hmem with hmem | hmem
    · exact h.proper reg hmem
    · rw [List.mem_singleton.1 hmem]
      exact hvalid
  distinct := h.distinct_append hfree
  own reg hmem := by
    rw [get?_insert]
    rcases List.mem_append.1 hmem with hmem | hmem
    · rw [if_neg (h.index_ne hfree hmem)]
      exact h.own reg hmem
    · rw [List.mem_singleton.1 hmem]
      exact if_pos rfl
  spread i effect s prior' hmem := by
    rcases List.mem_append.1 hmem with hmem | hmem
    · obtain ⟨stored, hs, hequal⟩ := h.spread _ _ _ _ hmem
      have hne : s ≠ index := by
        rintro rfl
        rw [hfree] at hs
        cases hs
      rw [get?_insert, if_neg hne, governedBy_append_fixed]
      exact ⟨stored, hs, hequal⟩
    · cases List.mem_singleton.1 hmem
  only i entry hi := by
    rw [get?_insert] at hi
    split at hi
    next heq =>
      cases hi
      exact .inl ⟨.fixed index prior, by simp, heq.symm, rfl⟩
    next =>
      rw [governedBy_append_fixed]
      rcases h.only _ _ hi with ⟨reg, hmem, hreg⟩ | ⟨j, effect, prior', hmem, hentry⟩
      · exact .inl ⟨reg, List.mem_append_left _ hmem, hreg⟩
      · exact .inr ⟨j, effect, prior', List.mem_append_left _ hmem, hentry⟩

theorem governed_of_admits (h : r.Holds log) (hadmits : r.Admits spread prior stored governed) :
    governed = governedBy spread log := by
  cases hadmits with
  | new free =>
    -- No realization of a parameter that nobody mentions.
    symm
    rw [List.eq_nil_iff_forall_not_mem]
    intro i hi
    obtain ⟨effect, prior', hmem⟩ := mem_governedBy.1 hi
    exact (h.get?_eq_none_iff _).1 free _ hmem (.inr rfl)
  | shared same equal => exact (h.hyper same).1

theorem index_ne_of_admits (h : r.Holds log) (hadmits : r.Admits spread prior stored governed)
    {reg : Registration α} (hmem : reg ∈ log) : reg.index ≠ spread := by
  cases hadmits with
  | new free => exact h.index_ne free hmem
  | shared same equal =>
    rintro rfl
    exact reg.entry_ne_hyper _ _ (Option.some.inj ((h.own reg hmem).symm.trans same))

theorem insert_realization {effect : Effect} (h : r.Holds log) (hvalid : prior.isValid = true)
    (hne : index ≠ spread) (hfree : r.get? index = none)
    (hadmits : r.Admits spread prior stored governed) :
    (r.withRealization index effect spread stored governed).Holds
      (log ++ [.realization index effect spread prior]) where
  ordered := pairwise_insertEntry _ (pairwise_insertEntry _ h.ordered)
  proper reg hmem := by
    rcases List.mem_append.1 hmem with hmem | hmem
    · exact h.proper reg hmem
    · rw [List.mem_singleton.1 hmem]
      exact ⟨hvalid, hne⟩
  distinct := h.distinct_append hfree
  own reg hmem := by
    rw [get?_withRealization]
    rcases List.mem_append.1 hmem with hmem | hmem
    · rw [if_neg (h.index_ne hfree hmem), if_neg (h.index_ne_of_admits hadmits hmem)]
      exact h.own reg hmem
    · rw [List.mem_singleton.1 hmem]
      exact if_pos rfl
  spread i effect' s prior' hmem := by
    have hgoverned := h.governed_of_admits hadmits
    rw [get?_withRealization]
    rcases List.mem_append.1 hmem with hmem | hmem
    · obtain ⟨old, hs, hequal⟩ := h.spread _ _ _ _ hmem
      have hne' : s ≠ index := by
        rintro rfl
        rw [hfree] at hs
        cases hs
      rw [if_neg hne']
      by_cases heq : s = spread
      · -- The hyper-prior that was stored for the standard deviation stays.
        subst heq
        rw [if_pos rfl, governedBy_append_realization, hgoverned, stored_of_admits hs hadmits]
        exact ⟨old, rfl, hequal⟩
      · rw [if_neg heq, governedBy_append_of_ne _ _ (Ne.symm heq)]
        exact ⟨old, hs, hequal⟩
    · cases List.mem_singleton.1 hmem
      rw [if_neg hne.symm, if_pos rfl, governedBy_append_realization, hgoverned]
      exact ⟨stored, rfl, hadmits.equal⟩
  only i entry hi := by
    have hgoverned := h.governed_of_admits hadmits
    rw [get?_withRealization] at hi
    split at hi
    next heq =>
      cases hi
      exact .inl ⟨.realization index effect spread prior, by simp, heq.symm, rfl⟩
    next =>
      split at hi
      next heq =>
        cases hi
        rw [heq, governedBy_append_realization, ← hgoverned]
        refine .inr ?_
        cases hadmits with
        | new free => exact ⟨index, effect, prior, by simp, rfl⟩
        | shared same equal =>
          obtain ⟨-, j, effect', hmem⟩ := h.hyper same
          exact ⟨j, effect', stored, List.mem_append_left _ hmem, rfl⟩
      next hne' =>
        rw [governedBy_append_of_ne _ _ (Ne.symm hne')]
        rcases h.only _ _ hi with ⟨reg, hmem, hreg⟩ | ⟨j, effect', prior', hmem, hentry⟩
        · exact .inl ⟨reg, List.mem_append_left _ hmem, hreg⟩
        · exact .inr ⟨j, effect', prior', List.mem_append_left _ hmem, hentry⟩

theorem add {reg : Registration α} (h : r.Holds log) (hadd : r.add reg = .ok r') :
    r'.Holds (log ++ [reg]) := by
  cases reg with
  | fixed index prior =>
    obtain ⟨hvalid, hfree, rfl⟩ := addFixed_eq_ok_iff.1 hadd
    exact h.insert_fixed hvalid hfree
  | realization index effect spread hyperPrior =>
    obtain ⟨hvalid, hne, hfree, stored, governed, hadmits, rfl⟩ := addRealization_eq_ok_iff.1 hadd
    exact h.insert_realization hvalid hne hfree hadmits

end Holds

/-! ## Sequences of registrations -/

/-- The registry after registrations in place, the refused ones among them. -/
def after (regs : List (Registration α)) : Registry α :=
  regs.foldl (fun r reg => leaves (register reg r)) empty

/-- Those of a sequence of registrations that a registry accepts one after another. -/
def accepted (r : Registry α) : List (Registration α) → List (Registration α)
  | [] => []
  | reg :: regs =>
    match register reg r with
    | .ok _ r' => reg :: accepted r' regs
    | .error _ r' => accepted r' regs

theorem foldlM_accepted (r : Registry α) (regs : List (Registration α)) :
    (accepted r regs).foldlM add r = .ok (regs.foldl (fun r reg => leaves (register reg r)) r) := by
  induction regs generalizing r with
  | nil => rfl
  | cons reg regs ih =>
    rw [accepted, List.foldl_cons, register_eq]
    cases hadd : r.add reg with
    | ok r' =>
      dsimp only
      rw [List.foldlM_cons, hadd]
      exact ih r'
    | error cause => exact ih r

/-- Registrations that are refused leave no trace. -/
theorem ofRegistrations_accepted (regs : List (Registration α)) :
    ofRegistrations (accepted empty regs) = .ok (after regs) :=
  foldlM_accepted empty regs

example :
    (after [.realization 1 .normal 0 .flat, .fixed 0 .flat, .realization 2 .laplace 0 .flat] :
      Registry α) =
      ⟨[(0, .hyper .flat [1, 2]), (1, .realization .normal 0), (2, .realization .laplace 0)]⟩ :=
  rfl

theorem Holds.foldlM {regs : List (Registration α)} (h : r.Holds log)
    (hregs : regs.foldlM Registry.add r = .ok r') : r'.Holds (log ++ regs) := by
  induction regs generalizing r log with
  | nil =>
    cases hregs
    rw [List.append_nil]
    exact h
  | cons reg regs ih =>
    rw [List.foldlM_cons] at hregs
    cases hadd : r.add reg with
    | error cause => rw [hadd] at hregs; cases hregs
    | ok next =>
      rw [hadd] at hregs
      have hnext := ih (h.add hadd) hregs
      rw [List.append_assoc] at hnext
      exact hnext

theorem holds_ofRegistrations {regs : List (Registration α)} (h : ofRegistrations regs = .ok r) :
    r.Holds regs :=
  Holds.empty.foldlM h

theorem holds_after (regs : List (Registration α)) :
    (after regs).Holds (accepted empty regs) :=
  holds_ofRegistrations (ofRegistrations_accepted regs)

end Holds

end Registry

end Metropolis
