import Mathlib.Data.List.Forall2
import Mathlib.Data.List.Induction
import Mathlib.Tactic.NormNum
import Metropolis.Proofs.Registration
import Metropolis.Scalar.Exact

/-!
# The order of registrations

Whether registrations succeed one after another depends on each of them and on each pair, and on
the pairs symmetrically. What they make of a registry is then the same in every order, except for
the order in which the realizations of a standard deviation are listed, which no question asked of
a registry depends on.
-/

namespace Metropolis

variable {α : Type}

namespace Entry

/-- Whether two entries give a parameter the same role, whatever the order of what they govern. -/
inductive Similar : Entry α → Entry α → Prop where
  | fixed (prior : Prior α) : Similar (.fixed prior) (.fixed prior)
  | realization (effect : Effect) (spread : Nat) :
      Similar (.realization effect spread) (.realization effect spread)
  | hyper (prior : Prior α) {governed governed' : List Nat} (h : governed.Perm governed') :
      Similar (.hyper prior governed) (.hyper prior governed')

end Entry

namespace Registration

variable [Scalar α]

/-- Whether two registrations can both be accepted: neither is for a parameter that the other
mentions, and they agree on the hyper-prior of a standard deviation that they share. -/
structure Compatible (a b : Registration α) : Prop where
  left : ¬ b.Mentions a.index
  right : ¬ a.Mentions b.index
  hyper : ∀ i effect spread prior j effect' prior', a = .realization i effect spread prior →
    b = .realization j effect' spread prior' → prior = prior' ∧ (prior == prior') = true

theorem Compatible.symm {a b : Registration α} (h : a.Compatible b) : b.Compatible a where
  left := h.right
  right := h.left
  hyper i effect spread prior j effect' prior' hb ha := by
    obtain ⟨rfl, hequal⟩ := h.hyper _ _ _ _ _ _ _ ha hb
    exact ⟨rfl, hequal⟩

end Registration

namespace Registry

section Similar

variable {r r' : Registry α}

/-- Whether two registries have the same parameters with the same roles, in one order. -/
def Similar (r r' : Registry α) : Prop :=
  List.Forall₂ (fun a b => a.1 = b.1 ∧ a.2.Similar b.2) r.entries r'.entries

theorem lookup_eq_none {entries : List (Nat × Entry α)} {i : Nat}
    (h : ∀ j ∈ entries.map Prod.fst, i < j) : entries.lookup i = none := by
  induction entries with
  | nil => rfl
  | cons head rest ih =>
    have hhead : i < head.1 := h head.1 List.mem_cons_self
    rw [lookup_cons, if_neg (by omega)]
    exact ih fun j hj => h j (List.mem_cons_of_mem _ hj)

theorem head_le_of_lookup {head : Nat × Entry α} {rest : List (Nat × Entry α)} {i : Nat}
    (ordered : ((head :: rest).map Prod.fst).Pairwise (· < ·))
    (h : (head :: rest).lookup i ≠ none) : head.1 ≤ i := by
  by_contra hlt
  refine h (lookup_eq_none fun j hj => ?_)
  rcases List.mem_cons.1 hj with rfl | hj
  · omega
  · have := (List.pairwise_cons.1 ordered).1 j hj
    omega

/-- Ordered entries are similar if every parameter has similar ones. -/
theorem forall₂_of_lookup {entries entries' : List (Nat × Entry α)}
    (ordered : (entries.map Prod.fst).Pairwise (· < ·))
    (ordered' : (entries'.map Prod.fst).Pairwise (· < ·))
    (h : ∀ i, Option.Rel Entry.Similar (entries.lookup i) (entries'.lookup i)) :
    List.Forall₂ (fun a b => a.1 = b.1 ∧ a.2.Similar b.2) entries entries' := by
  induction entries generalizing entries' with
  | nil =>
    cases entries' with
    | nil => exact .nil
    | cons head' rest' =>
      have hhead := h head'.1
      rw [lookup_cons, if_pos rfl] at hhead
      cases hhead
  | cons head rest ih =>
    obtain ⟨hhead, hrest⟩ := List.pairwise_cons.1 ordered
    have hfirst := h head.1
    rw [lookup_cons, if_pos rfl] at hfirst
    cases entries' with
    | nil => cases hfirst
    | cons head' rest' =>
      obtain ⟨hhead', hrest'⟩ := List.pairwise_cons.1 ordered'
      have hfirst' := h head'.1
      rw [lookup_cons head'.1 head' rest', if_pos rfl] at hfirst'
      -- Each of the first parameters has an entry on the other side.
      have heq : head.1 = head'.1 := by
        apply Nat.le_antisymm
        · refine head_le_of_lookup ordered fun hnone => ?_
          rw [hnone] at hfirst'
          cases hfirst'
        · refine head_le_of_lookup ordered' fun hnone => ?_
          rw [hnone] at hfirst
          cases hfirst
      rw [lookup_cons, if_pos heq, Option.rel_some_some] at hfirst
      refine .cons ⟨heq, hfirst⟩ (ih hrest hrest' fun i => ?_)
      by_cases hi : i = head.1
      · rw [hi, lookup_eq_none hhead, heq, lookup_eq_none hhead']
        exact .none
      · have hrel := h i
        rw [lookup_cons, if_neg hi, lookup_cons, if_neg (by rw [← heq]; exact hi)] at hrel
        exact hrel

/-! ## What similar registries have in common -/

theorem Similar.indices_eq (h : r.Similar r') : r.indices = r'.indices := by
  have hmap : List.Forall₂ (· = ·) (r.entries.map Prod.fst) (r'.entries.map Prod.fst) := by
    rw [List.forall₂_map_left_iff, List.forall₂_map_right_iff]
    exact h.imp fun _ _ hab => hab.1
  exact List.forall₂_eq_eq_eq ▸ hmap

theorem Similar.realizations_eq (h : r.Similar r') : r.realizations = r'.realizations := by
  rcases r with ⟨entries⟩
  rcases r' with ⟨entries'⟩
  change List.Forall₂ _ entries entries' at h
  unfold realizations
  dsimp only
  induction h with
  | nil => rfl
  | @cons a b entries entries' hhead _ ih =>
    rcases a with ⟨i, entry⟩
    rcases b with ⟨j, entry'⟩
    obtain ⟨rfl, hentry⟩ := hhead
    cases hentry <;> simp [ih]

theorem firstGap_congr {entries entries' : List (Nat × Entry α)} {start : Nat}
    (h : entries.map Prod.fst = entries'.map Prod.fst) :
    firstGap start entries = firstGap start entries' := by
  induction entries generalizing entries' start with
  | nil =>
    cases entries' with
    | nil => rfl
    | cons => cases h
  | cons head rest ih =>
    cases entries' with
    | nil => cases h
    | cons head' rest' =>
      obtain ⟨hhead, hrest⟩ := List.cons.inj h
      unfold firstGap
      rw [hhead, ih hrest]

theorem checkCoverage_eq (r : Registry α) (dimension : Nat) :
    r.checkCoverage dimension =
      match r.indices.find? fun i => decide (dimension ≤ i) with
      | some index => .error (.outOfRange index dimension)
      | none =>
        if firstGap 0 r.entries < dimension then .error (.unregistered (firstGap 0 r.entries))
        else .ok () := by
  rw [checkCoverage, indices, List.find?_map]
  change _ = match Option.map Prod.fst (r.entries.find? fun p => decide (dimension ≤ p.1)) with
    | some index => _
    | none => _
  cases r.entries.find? fun p => decide (dimension ≤ p.1) <;> rfl

/-- Coverage is a matter of the indices. -/
theorem checkCoverage_congr (h : r.indices = r'.indices) (dimension : Nat) :
    r.checkCoverage dimension = r'.checkCoverage dimension := by
  rw [checkCoverage_eq, checkCoverage_eq, h, firstGap_congr h]

variable [Scalar α] {θ : List α}

theorem logTerm_congr {index : Nat} {entry entry' : Entry α} (h : entry.Similar entry') :
    logTerm θ index entry = logTerm θ index entry' := by
  cases h <;> rfl

theorem addTerms_congr {entries entries' : List (Nat × Entry α)} {total : α}
    (h : List.Forall₂ (fun a b => a.1 = b.1 ∧ a.2.Similar b.2) entries entries') :
    addTerms θ entries total = addTerms θ entries' total := by
  induction h generalizing total with
  | nil => rfl
  | @cons a b entries entries' hhead _ ih =>
    rcases a with ⟨i, entry⟩
    rcases b with ⟨j, entry'⟩
    obtain ⟨rfl, hentry⟩ := hhead
    unfold addTerms
    simp only [logTerm_congr hentry, ih]

theorem Similar.logPrior_eq (h : r.Similar r') (θ : List α) : r.logPrior θ = r'.logPrior θ :=
  addTerms_congr h

end Similar

/-! ## Which registrations are accepted -/

section Acceptance

variable [Scalar α] {r r' : Registry α} {log regs regs' : List (Registration α)}
  {reg : Registration α}

/-- Whether hyper-priors of one standard deviation that compare equal are identical. -/
def IdenticalHyperPriors (regs : List (Registration α)) : Prop :=
  ∀ i effect spread prior j effect' prior', .realization i effect spread prior ∈ regs →
    .realization j effect' spread prior' ∈ regs → (prior == prior') = true → prior = prior'

theorem IdenticalHyperPriors.mono (h : IdenticalHyperPriors regs')
    (hsub : ∀ reg ∈ regs, reg ∈ regs') : IdenticalHyperPriors regs :=
  fun _ _ _ _ _ _ _ hmem hmem' => h _ _ _ _ _ _ _ (hsub _ hmem) (hsub _ hmem')

/-- The hyper-prior that is stored is that of every realization, not only of the first. -/
theorem Holds.stored_eq (h : r.Holds log) (identical : IdenticalHyperPriors log) {i spread : Nat}
    {effect : Effect} {prior stored : Prior α} {governed : List Nat}
    (hs : r.get? spread = some (.hyper stored governed))
    (hmem : .realization i effect spread prior ∈ log) : stored = prior := by
  obtain ⟨-, j, effect', hstored⟩ := h.hyper hs
  obtain ⟨stored', hs', hequal⟩ := h.spread _ _ _ _ hmem
  rw [hs] at hs'
  cases hs'
  rcases hequal with heq | hequal
  · exact heq
  · exact identical _ _ _ _ _ _ _ hstored hmem hequal

theorem Holds.compatible_of_add (h : r.Holds log) (identical : IdenticalHyperPriors (log ++ [reg]))
    (hadd : r.add reg = .ok r') : reg.IsProper ∧ ∀ old ∈ log, old.Compatible reg := by
  have identical' : IdenticalHyperPriors log :=
    identical.mono fun _ hmem => List.mem_append_left _ hmem
  cases reg with
  | fixed index prior =>
    obtain ⟨hvalid, hfree, -⟩ := addFixed_eq_ok_iff.1 hadd
    refine ⟨hvalid, fun old hold => ⟨?_, (h.get?_eq_none_iff _).1 hfree old hold, nofun⟩⟩
    exact (h.index_ne hfree hold).symm
  | realization index effect spread hyperPrior =>
    obtain ⟨hvalid, hne, hfree, stored, governed, hadmits, -⟩ := addRealization_eq_ok_iff.1 hadd
    refine ⟨⟨hvalid, hne⟩, fun old hold =>
      ⟨?_, (h.get?_eq_none_iff _).1 hfree old hold, ?_⟩⟩
    · rintro (heq | heq)
      · exact h.index_ne hfree hold heq.symm
      · exact h.index_ne_of_admits hadmits hold heq.symm
    · rintro i effect' s prior j effect'' prior' rfl hreg
      cases hreg
      cases hadmits with
      | new free => exact absurd (.inr rfl) ((h.get?_eq_none_iff _).1 free _ hold)
      | shared same equal =>
        -- Equal to the hyper-prior that is stored, which is that of the older registration.
        cases h.stored_eq identical' same hold
        have hreg := List.mem_append_right log
          (List.mem_singleton_self (Registration.realization index effect spread hyperPrior))
        exact ⟨identical _ _ _ _ _ _ _ (List.mem_append_left _ hold) hreg equal, equal⟩

theorem Holds.add_of_compatible (h : r.Holds log) (proper : reg.IsProper)
    (compatible : ∀ old ∈ log, old.Compatible reg) : ∃ r', r.add reg = .ok r' := by
  have hfree : r.get? reg.index = none :=
    (h.get?_eq_none_iff _).2 fun old hold => (compatible old hold).right
  cases reg with
  | fixed index prior => exact ⟨_, addFixed_eq_ok_iff.2 ⟨proper, hfree, rfl⟩⟩
  | realization index effect spread hyperPrior =>
    have hadmits : ∃ stored governed, r.Admits spread hyperPrior stored governed := by
      cases hs : r.get? spread with
      | none => exact ⟨_, _, .new hs⟩
      | some entry =>
        rcases h.only _ _ hs with ⟨old, hold, rfl, -⟩ | ⟨j, effect', stored, hold, rfl⟩
        · exact absurd (.inr rfl) (compatible old hold).left
        · obtain ⟨-, equal⟩ := (compatible _ hold).hyper _ _ _ _ _ _ _ rfl rfl
          exact ⟨stored, _, .shared hs equal⟩
    obtain ⟨stored, governed, hadmits⟩ := hadmits
    exact ⟨_, addRealization_eq_ok_iff.2
      ⟨proper.1, proper.2, hfree, stored, governed, hadmits, rfl⟩⟩

theorem ofRegistrations_append_singleton (regs : List (Registration α)) (reg : Registration α) :
    ofRegistrations (regs ++ [reg]) = (ofRegistrations regs >>= fun r => r.add reg) := by
  rw [ofRegistrations, List.foldlM_append]
  refine congrArg _ (funext fun r => ?_)
  rw [List.foldlM_cons]
  exact bind_pure (r.add reg)

/-- Registrations succeed one after another exactly if each of them is proper and any two of them
are compatible. -/
theorem exists_ofRegistrations_iff (identical : IdenticalHyperPriors regs) :
    (∃ r, ofRegistrations regs = .ok r) ↔
      (∀ reg ∈ regs, reg.IsProper) ∧ regs.Pairwise Registration.Compatible := by
  induction regs using List.reverseRecOn with
  | nil => exact ⟨fun _ => ⟨nofun, .nil⟩, fun _ => ⟨_, rfl⟩⟩
  | append_singleton regs reg ih =>
    have ih := ih (identical.mono fun _ hmem => List.mem_append_left _ hmem)
    have hproper : (∀ old ∈ regs ++ [reg], old.IsProper) ↔
        (∀ old ∈ regs, old.IsProper) ∧ reg.IsProper := by
      simp [or_imp, forall_and]
    have hpairwise : (regs ++ [reg]).Pairwise Registration.Compatible ↔
        regs.Pairwise Registration.Compatible ∧ ∀ old ∈ regs, old.Compatible reg := by
      simp [List.pairwise_append]
    rw [ofRegistrations_append_singleton, hproper, hpairwise]
    constructor
    · rintro ⟨r', h⟩
      cases hregs : ofRegistrations regs with
      | error cause => rw [hregs] at h; cases h
      | ok r =>
        rw [hregs] at h
        obtain ⟨hall, hpairs⟩ := ih.1 ⟨r, hregs⟩
        obtain ⟨proper, compatible⟩ :=
          (holds_ofRegistrations hregs).compatible_of_add identical h
        exact ⟨⟨hall, proper⟩, hpairs, compatible⟩
    · rintro ⟨⟨hall, proper⟩, hpairs, compatible⟩
      obtain ⟨r, hregs⟩ := ih.2 ⟨hall, hpairs⟩
      rw [hregs]
      exact (holds_ofRegistrations hregs).add_of_compatible proper compatible

/-- Registries that hold the same registrations in different orders are similar. -/
theorem Holds.similar_of_perm (h : r.Holds regs) (h' : r'.Holds regs') (perm : regs.Perm regs')
    (identical : IdenticalHyperPriors regs) : r.Similar r' := by
  refine forall₂_of_lookup h.ordered h'.ordered fun i => ?_
  change Option.Rel _ (r.get? i) (r'.get? i)
  cases hi : r.get? i with
  | none =>
    have hi' : r'.get? i = none := (h'.get?_eq_none_iff i).2 fun reg hmem =>
      (h.get?_eq_none_iff i).1 hi reg (perm.mem_iff.2 hmem)
    rw [hi']
    exact .none
  | some entry =>
    rcases h.only _ _ hi with ⟨reg, hmem, rfl, rfl⟩ | ⟨j, effect, prior, hmem, rfl⟩
    · rw [h'.own reg (perm.mem_iff.1 hmem)]
      cases reg
      · exact .some (.fixed _)
      · exact .some (.realization _ _)
    · obtain ⟨stored, hs, -⟩ := h'.spread _ _ _ _ (perm.mem_iff.1 hmem)
      have hstored : stored = prior :=
        h'.stored_eq (identical.mono fun _ hmem => perm.mem_iff.2 hmem) hs (perm.mem_iff.1 hmem)
      rw [hs, hstored]
      exact .some (.hyper prior (perm.filterMap _))

/-- Registrations succeed in any order or in none, and every order gives the same parameters the
same roles: the same indices of realizations, coverage and prior densities. -/
theorem ofRegistrations_perm (perm : regs.Perm regs') (identical : IdenticalHyperPriors regs) :
    ((∃ r, ofRegistrations regs = .ok r) ↔ ∃ r', ofRegistrations regs' = .ok r') ∧
      ∀ r r', ofRegistrations regs = .ok r → ofRegistrations regs' = .ok r' →
        r.Similar r' ∧ r.realizations = r'.realizations ∧
          (∀ dimension, r.checkCoverage dimension = r'.checkCoverage dimension) ∧
          ∀ θ, r.logPrior θ = r'.logPrior θ := by
  have identical' : IdenticalHyperPriors regs' :=
    identical.mono fun _ hmem => perm.mem_iff.2 hmem
  refine ⟨?_, fun r r' h h' => ?_⟩
  · rw [exists_ofRegistrations_iff identical, exists_ofRegistrations_iff identical',
      perm.pairwise_iff fun h => h.symm]
    simp only [perm.mem_iff]
  · have hsimilar := (holds_ofRegistrations h).similar_of_perm (holds_ofRegistrations h') perm
      identical
    exact ⟨hsimilar, hsimilar.realizations_eq, checkCoverage_congr hsimilar.indices_eq,
      hsimilar.logPrior_eq⟩

end Acceptance

/-! ## A shared standard deviation -/

/-- Two realizations that share a standard deviation, and a parameter with a prior of its own. -/
noncomputable def sharedEffect : List (Registration Exact) :=
  [.realization 1 .normal 0 (.halfNormal 2), .fixed 3 .flat,
    .realization 2 .laplace 0 (.halfNormal 2)]

theorem identicalHyperPriors_sharedEffect : IdenticalHyperPriors sharedEffect := by
  intro i effect spread prior j effect' prior' h h' _
  simp only [sharedEffect, List.mem_cons, Registration.realization.injEq, reduceCtorEq,
    List.not_mem_nil, or_false, false_or] at h h'
  rcases h with ⟨-, -, -, rfl⟩ | ⟨-, -, -, rfl⟩ <;>
    rcases h' with ⟨-, -, -, rfl⟩ | ⟨-, -, -, rfl⟩ <;> rfl

theorem exists_sharedEffect : ∃ r, ofRegistrations sharedEffect = .ok r := by
  have hvalid : (Prior.halfNormal (2 : Exact)).isValid = true := by
    simp only [Prior.isValid, Exact.ofNat_eq, Exact.real_lt, Exact.isFinite_real, Bool.and_true,
      decide_eq_true_eq]
    norm_num
  have hequal : (Prior.halfNormal (2 : Exact) == .halfNormal 2) = true := decide_eq_true rfl
  rw [exists_ofRegistrations_iff identicalHyperPriors_sharedEffect]
  constructor
  · intro reg hmem
    simp only [sharedEffect, List.mem_cons, List.not_mem_nil, or_false] at hmem
    rcases hmem with rfl | rfl | rfl
    · exact ⟨hvalid, by decide⟩
    · rfl
    · exact ⟨hvalid, by decide⟩
  · -- The parameters differ in all three pairs, and only one pair shares a standard deviation.
    have hfirst : (Registration.realization 1 .normal 0 (.halfNormal (2 : Exact))).Compatible
        (.fixed 3 .flat) :=
      ⟨by simp [Registration.Mentions, Registration.index],
        by simp [Registration.Mentions, Registration.index], by rintro _ _ _ _ _ _ _ - ⟨⟩⟩
    have hsecond : (Registration.realization 1 .normal 0 (.halfNormal (2 : Exact))).Compatible
        (.realization 2 .laplace 0 (.halfNormal 2)) :=
      ⟨by simp [Registration.Mentions, Registration.index],
        by simp [Registration.Mentions, Registration.index], by
          rintro _ _ _ _ _ _ _ ⟨⟩ ⟨⟩
          exact ⟨rfl, hequal⟩⟩
    have hlast : (Registration.fixed 3 (.flat : Prior Exact)).Compatible
        (.realization 2 .laplace 0 (.halfNormal 2)) :=
      ⟨by simp [Registration.Mentions, Registration.index],
        by simp [Registration.Mentions, Registration.index], by rintro _ _ _ _ _ _ _ ⟨⟩⟩
    simp [sharedEffect, hfirst, hsecond, hlast]

/-- The realizations are listed in the order of their registrations, and nothing else differs. -/
theorem ofRegistrations_perm_sharedEffect : ∃ r r',
    sharedEffect.Perm sharedEffect.reverse ∧ IdenticalHyperPriors sharedEffect ∧
      ofRegistrations sharedEffect = .ok r ∧ ofRegistrations sharedEffect.reverse = .ok r' ∧
      r.get? 0 = some (.hyper (.halfNormal 2) [1, 2]) ∧
      r'.get? 0 = some (.hyper (.halfNormal 2) [2, 1]) ∧ r.Similar r' := by
  have perm := (List.reverse_perm sharedEffect).symm
  obtain ⟨hiff, hsimilar⟩ := ofRegistrations_perm perm identicalHyperPriors_sharedEffect
  obtain ⟨r, h⟩ := exists_sharedEffect
  obtain ⟨r', h'⟩ := hiff.1 ⟨r, h⟩
  have hholds := holds_ofRegistrations h
  have hholds' := holds_ofRegistrations h'
  have hmem : .realization 1 .normal 0 (.halfNormal 2) ∈ sharedEffect := List.mem_cons_self
  have hmem' := perm.mem_iff.1 hmem
  obtain ⟨stored, hs, -⟩ := hholds.spread _ _ _ _ hmem
  obtain ⟨stored', hs', -⟩ := hholds'.spread _ _ _ _ hmem'
  have hstored := hholds.stored_eq identicalHyperPriors_sharedEffect hs hmem
  have hstored' := hholds'.stored_eq
    (identicalHyperPriors_sharedEffect.mono fun _ h => perm.mem_iff.2 h) hs' hmem'
  rw [hstored] at hs
  rw [hstored'] at hs'
  exact ⟨r, r', perm, identicalHyperPriors_sharedEffect, h, h', hs, hs', (hsimilar r r' h h').1⟩

end Registry

end Metropolis
