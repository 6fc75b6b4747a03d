import Metropolis.Ranking
import Metropolis.Scalar.Double.SortOrder

/-!
# Ranks of models

Models are in the order for sorting, downward, and each is compared with the first of them. An
undefined score comes before all numbers, or after them if its sign is set, and one that comes first
leaves all comparisons undefined. The comparison of the first score with itself is zero if it is
finite, and undefined otherwise.
-/

namespace Metropolis

namespace Ranked

open Double (Bits)

variable {models : List (String × Bits)} {first m : Ranked Bits}

/-- The name and the score that a model had before it was ranked. -/
def entry (m : Ranked Bits) : String × Bits := (m.name, m.score)

/-- What a ranking has of the models that it ranks. -/
structure IsRankingOf (models : List (String × Bits)) (ranking : List (Ranked Bits)) : Prop where
  perm : (ranking.map entry).Perm models
  stable (x : Bits) :
    (ranking.map entry).filter (fun a => a.2 = x) = models.filter fun a => a.2 = x
  /-- Undefined scores come first, then numbers, and last undefined scores whose sign is set. -/
  levels : ranking.Pairwise fun a b => b.score.level ≤ a.score.level
  /-- No score is below a later one. -/
  ordered : ranking.Pairwise fun a b => ¬ a.score.toFloat < b.score.toFloat
  /-- The first score is finite if one is and there is nothing above all finite scores. -/
  finite_first : ∀ first ∈ ranking.head?, (Scalar.isFinite first.score.toFloat = true ↔
    (∃ a ∈ models, Scalar.isFinite a.2.toFloat = true) ∧
      ∀ a ∈ models, a.2.toFloat ≠ Scalar.infinity ∧
        (Scalar.isUndefined a.2.toFloat = true → a.2.isNegative = true))
  /-- Beside a first score that is finite all undefined ones are last. -/
  undefined_last : ∀ first ∈ ranking.head?, Scalar.isFinite first.score.toFloat = true →
    ranking.Pairwise fun a b => Scalar.isUndefined a.score.toFloat = true →
      Scalar.isUndefined b.score.toFloat = true
  /-- The comparison of the first score with itself. -/
  versus_self : ∀ first ∈ ranking.head?,
    (first.versusBest = 0 ↔ Scalar.isFinite first.score.toFloat = true)
  /-- No number is above a first score that is finite. -/
  versus_finite : ∀ first ∈ ranking.head?, Scalar.isFinite first.score.toFloat = true →
    ∀ m ∈ ranking, Scalar.isUndefined m.score.toFloat = false →
      Scalar.isUndefined m.versusBest = false ∧ m.versusBest ≤ 0
  /-- The first score is undefined if there is an undefined one without a sign, or no other. -/
  undefined_first : ∀ first ∈ ranking.head?,
    (Scalar.isUndefined first.score.toFloat = true ↔
      (∃ a ∈ models, Scalar.isUndefined a.2.toFloat = true ∧ a.2.isNegative = false) ∨
        ∀ a ∈ models, Scalar.isUndefined a.2.toFloat = true)
  /-- An undefined score compares to nothing. -/
  versus_undefined : ∀ m ∈ ranking, Scalar.isUndefined m.score.toFloat = true →
    Scalar.isUndefined m.versusBest = true
  /-- To a first score that is undefined or the least nothing compares. -/
  versus_least : ∀ first ∈ ranking.head?, Scalar.isUndefined first.score.toFloat = true ∨
    first.score.toFloat = -Scalar.infinity → ∀ m ∈ ranking, Scalar.isUndefined m.versusBest = true
  /-- All numbers but infinity are infinitely far from it. -/
  versus_infinity : ∀ first ∈ ranking.head?, first.score.toFloat = Scalar.infinity →
    ∀ m ∈ ranking, (m.score.toFloat = Scalar.infinity → Scalar.isUndefined m.versusBest = true) ∧
      (Scalar.isUndefined m.score.toFloat = false → m.score.toFloat ≠ Scalar.infinity →
        m.versusBest = -Scalar.infinity)

theorem map_entry_rankStored (models : List (String × Bits)) :
    (rankStored models).map entry = byScore models := by
  unfold rankStored
  rw [List.map_map]
  exact List.map_id _

theorem perm_rankStored (models : List (String × Bits)) :
    ((rankStored models).map entry).Perm models :=
  map_entry_rankStored models ▸ List.mergeSort_perm models _

theorem entry_mem (hm : m ∈ rankStored models) : entry m ∈ models :=
  (perm_rankStored models).mem_iff.1 (List.mem_map_of_mem hm)

theorem exists_first {ranking : List (Ranked Bits)} (hm : m ∈ ranking) :
    ∃ first, first ∈ ranking.head? :=
  Option.ne_none_iff_exists'.1 (mt List.head?_eq_none_iff.1 (List.ne_nil_of_mem hm))

theorem versusBest_of_mem (hfirst : first ∈ (rankStored models).head?)
    (hm : m ∈ rankStored models) : m.versusBest = m.score.toFloat - first.score.toFloat := by
  obtain ⟨ranked, -, rfl⟩ := List.mem_map.1 hm
  rw [rankStored, List.head?_map, Option.mem_map] at hfirst
  obtain ⟨best, hbest, rfl⟩ := hfirst
  rw [Option.mem_def] at hbest
  show ranked.2.toFloat - _ = ranked.2.toFloat - best.2.toFloat
  rw [hbest]
  rfl

/-- A ranked model with its score as it is stored. -/
def stored (m : Ranked Float) : Ranked Bits := ⟨m.name, .ofFloat m.score, m.versusBest⟩

/-- Numbers are ranked as they are stored. -/
theorem map_stored_rank (models : List (String × Float)) :
    (rank models).map stored = rankStored (models.map fun a => (a.1, .ofFloat a.2)) := by
  unfold rank
  rw [List.map_map]
  refine (List.map_congr_left fun m hm => ?_).trans (List.map_id _)
  obtain ⟨a, -, ha⟩ := List.mem_map.1 (entry_mem hm)
  have hscore : Bits.ofFloat a.2 = m.score := congrArg Prod.snd ha
  show (⟨m.name, Bits.ofFloat m.score.toFloat, m.versusBest⟩ : Ranked Bits) = m
  rw [← hscore, Double.toFloat_ofFloat, hscore]

/-! ## The order -/

theorem byScore_trans (a b c : String × Bits) (h : b.2.totalLe a.2 = true)
    (h' : c.2.totalLe b.2 = true) : c.2.totalLe a.2 = true :=
  Bits.totalLe_iff.2 ((Bits.totalLe_iff.1 h').trans (Bits.totalLe_iff.1 h))

theorem byScore_total (a b : String × Bits) : (b.2.totalLe a.2 || a.2.totalLe b.2) = true := by
  rw [Bool.or_eq_true, Bits.totalLe_iff, Bits.totalLe_iff]
  exact le_total _ _

theorem pairwise_sortKey (models : List (String × Bits)) :
    (rankStored models).Pairwise fun a b => b.score.sortKey ≤ a.score.sortKey := by
  have hsorted : (byScore models).Pairwise fun a b => b.2.totalLe a.2 = true :=
    List.pairwise_mergeSort byScore_trans byScore_total models
  rw [← map_entry_rankStored, List.pairwise_map] at hsorted
  exact hsorted.imp Bits.totalLe_iff.1

/-- Models of one score keep the order in which they were given. -/
theorem filter_byScore (models : List (String × Bits)) (x : Bits) :
    (byScore models).filter (fun a => a.2 = x) = models.filter fun a => a.2 = x := by
  have hlevel : (models.filter fun a => a.2 = x).Pairwise fun a b => b.2.totalLe a.2 = true := by
    refine List.pairwise_filter.2 (List.pairwise_of_forall fun a b ha hb => ?_)
    rw [of_decide_eq_true ha, of_decide_eq_true hb]
    exact Bits.totalLe_iff.2 le_rfl
  have hkept : (models.filter fun a => a.2 = x).Sublist (byScore models) :=
    List.sublist_mergeSort byScore_trans byScore_total hlevel List.filter_sublist
  have hfilter := hkept.filter fun a => a.2 = x
  rw [List.filter_filter] at hfilter
  simp only [Bool.and_self] at hfilter
  refine (hfilter.eq_of_length ?_).symm
  exact ((List.mergeSort_perm models _).filter _).length_eq.symm

theorem sortKey_le_of_first (hfirst : first ∈ (rankStored models).head?)
    (hm : m ∈ rankStored models) : m.score.sortKey ≤ first.score.sortKey := by
  have hpairwise := pairwise_sortKey models
  obtain ⟨rest, hrank⟩ := List.head?_eq_some_iff.1 hfirst
  rw [hrank, List.pairwise_cons] at hpairwise
  rw [hrank, List.mem_cons] at hm
  rcases hm with rfl | hm
  · exact le_rfl
  · exact hpairwise.1 m hm

theorem sortKey_le_of_mem (hfirst : first ∈ (rankStored models).head?) {a : String × Bits}
    (ha : a ∈ models) : a.2.sortKey ≤ first.score.sortKey := by
  obtain ⟨m, hm, rfl⟩ := List.mem_map.1 ((perm_rankStored models).mem_iff.2 ha)
  exact sortKey_le_of_first hfirst hm

theorem not_lt_of_sortKey_le {a b : Bits} (h : b.sortKey ≤ a.sortKey) :
    ¬ a.toFloat < b.toFloat := fun hlt => (Double.sortKey_lt_of_lt hlt).not_ge h

theorem undefined_first_iff (hfirst : first ∈ (rankStored models).head?) :
    Scalar.isUndefined first.score.toFloat = true ↔
      (∃ a ∈ models, Scalar.isUndefined a.2.toFloat = true ∧ a.2.isNegative = false) ∨
        ∀ a ∈ models, Scalar.isUndefined a.2.toFloat = true := by
  have hmem := entry_mem (List.mem_of_mem_head? hfirst)
  have hlevel (a : String × Bits) (ha : a ∈ models) : a.2.level ≤ first.score.level :=
    Bits.level_mono (sortKey_le_of_mem hfirst ha)
  constructor
  · intro hundefined
    cases hsign : first.score.isNegative with
    | false => exact .inl ⟨entry first, hmem, hundefined, hsign⟩
    | true =>
      -- Below all numbers, where nothing is but undefined scores of that kind.
      have hlast : first.score.level = 0 := by
        rw [Bits.level, if_pos hundefined, if_pos hsign]
      refine .inr fun a ha => ?_
      have hle := hlevel a ha
      rw [hlast] at hle
      exact Bits.undefined_of_level_ne_one (by omega)
  · rintro (⟨a, ha, hundefined, hsign⟩ | hall)
    · have hle := hlevel a ha
      have hfirst : a.2.level = 2 := by
        rw [Bits.level, if_pos hundefined, if_neg (Bool.eq_false_iff.1 hsign)]
      exact Bits.undefined_of_level_ne_one (by omega)
    · exact hall (entry first) hmem

theorem finite_first_iff (hfirst : first ∈ (rankStored models).head?) :
    Scalar.isFinite first.score.toFloat = true ↔
      (∃ a ∈ models, Scalar.isFinite a.2.toFloat = true) ∧
        ∀ a ∈ models, a.2.toFloat ≠ Scalar.infinity ∧
          (Scalar.isUndefined a.2.toFloat = true → a.2.isNegative = true) := by
  have hmem := entry_mem (List.mem_of_mem_head? hfirst)
  have hplace (a : String × Bits) (ha : a ∈ models) : ¬ first.score.toFloat < a.2.toFloat :=
    not_lt_of_sortKey_le (sortKey_le_of_mem hfirst ha)
  constructor
  · intro hfinite
    refine ⟨⟨entry first, hmem, hfinite⟩, fun a ha => ⟨fun hinfinite => ?_, fun hundefined => ?_⟩⟩
    · exact hplace a ha (hinfinite ▸ Double.lt_infinity hfinite)
    · by_contra hsign
      have hfirst' := (undefined_first_iff hfirst).2
        (.inl ⟨a, ha, hundefined, Bool.eq_false_iff.2 hsign⟩)
      rw [Scalar.LawfulSpecial.defined_of_isFinite hfinite] at hfirst'
      cases hfirst'
  · rintro ⟨⟨a, ha, hfinite⟩, habove⟩
    have hdefined : Scalar.isUndefined first.score.toFloat = false := by
      rw [← Bool.not_eq_true, undefined_first_iff hfirst]
      rintro (⟨b, hb, hundefined, hsign⟩ | hall)
      · rw [(habove b hb).2 hundefined] at hsign
        cases hsign
      · have hundefined := hall a ha
        rw [Scalar.LawfulSpecial.defined_of_isFinite hfinite] at hundefined
        cases hundefined
    refine Scalar.LawfulSpecial.isFinite_of_defined hdefined (habove (entry first) hmem).1 ?_
    -- A finite score is above `-infinity`.
    intro hlowest
    refine hplace a ha (hlowest ▸ Scalar.LawfulSpecial.neg_infinity_lt
      (Scalar.LawfulSpecial.defined_of_isFinite hfinite) fun hsame => ?_)
    rw [hsame, Scalar.LawfulSpecial.isFinite_neg, Scalar.LawfulSpecial.not_isFinite_infinity]
      at hfinite
    cases hfinite

theorem pairwise_undefined (hfirst : first ∈ (rankStored models).head?)
    (hfinite : Scalar.isFinite first.score.toFloat = true) :
    (rankStored models).Pairwise fun a b => Scalar.isUndefined a.score.toFloat = true →
      Scalar.isUndefined b.score.toFloat = true := by
  have habove := ((finite_first_iff hfirst).1 hfinite).2
  refine (pairwise_sortKey models).imp_of_mem fun {a b} ha _ hle hundefined => ?_
  have hsign : a.score.isNegative = true := (habove (entry a) (entry_mem ha)).2 hundefined
  have hlast : a.score.level = 0 := by
    rw [Bits.level, if_pos hundefined, if_pos hsign]
  have hlevel := Bits.level_mono hle
  exact Bits.undefined_of_level_ne_one (by omega)

/-! ## Comparisons with the first -/

theorem versusBest_self_iff (hfirst : first ∈ (rankStored models).head?) :
    first.versusBest = 0 ↔ Scalar.isFinite first.score.toFloat = true := by
  rw [versusBest_of_mem hfirst (List.mem_of_mem_head? hfirst)]
  refine ⟨fun hzero => ?_, Scalar.LawfulSpecial.sub_self⟩
  by_contra hinfinite
  have hundefined :=
    Scalar.LawfulSpecial.undefined_sub_self (Bool.eq_false_iff.2 hinfinite)
  rw [hzero] at hundefined
  exact absurd hundefined (by decide +kernel)

theorem versusBest_of_finite (hfirst : first ∈ (rankStored models).head?)
    (hm : m ∈ rankStored models) (hfinite : Scalar.isFinite first.score.toFloat = true)
    (hdefined : Scalar.isUndefined m.score.toFloat = false) :
    Scalar.isUndefined m.versusBest = false ∧ m.versusBest ≤ 0 := by
  rw [versusBest_of_mem hfirst hm]
  exact ⟨Scalar.LawfulSpecial.defined_sub hdefined hfinite,
    (Scalar.LawfulSpecial.sub_nonpos_iff hdefined hfinite).2
      (not_lt_of_sortKey_le (sortKey_le_of_first hfirst hm))⟩

theorem versusBest_of_undefined (hfirst : first ∈ (rankStored models).head?)
    (hm : m ∈ rankStored models) (h : Scalar.isUndefined m.score.toFloat = true ∨
      Scalar.isUndefined first.score.toFloat = true) : Scalar.isUndefined m.versusBest = true := by
  rw [versusBest_of_mem hfirst hm]
  exact Scalar.LawfulSpecial.undefined_sub h

theorem versusBest_of_neg_infinity (hfirst : first ∈ (rankStored models).head?)
    (hm : m ∈ rankStored models) (hlowest : first.score.toFloat = -Scalar.infinity) :
    Scalar.isUndefined m.versusBest = true := by
  cases hdefined : Scalar.isUndefined m.score.toFloat with
  | true => exact versusBest_of_undefined hfirst hm (.inl hdefined)
  | false =>
    have hle := not_lt_of_sortKey_le (sortKey_le_of_first hfirst hm)
    rw [hlowest] at hle
    -- Only `-infinity` is not above `-infinity`.
    have hsame : m.score.toFloat = -Scalar.infinity := by
      by_contra hother
      exact hle (Scalar.LawfulSpecial.neg_infinity_lt hdefined hother)
    rw [versusBest_of_mem hfirst hm, hsame, hlowest]
    apply Scalar.LawfulSpecial.undefined_sub_self
    rw [Scalar.LawfulSpecial.isFinite_neg, Scalar.LawfulSpecial.not_isFinite_infinity]

theorem isRankingOf_rankStored (models : List (String × Bits)) :
    IsRankingOf models (rankStored models) where
  perm := perm_rankStored models
  stable x := map_entry_rankStored models ▸ filter_byScore models x
  levels := (pairwise_sortKey models).imp Bits.level_mono
  ordered := (pairwise_sortKey models).imp not_lt_of_sortKey_le
  finite_first first hfirst := finite_first_iff hfirst
  undefined_last first hfirst hfinite := pairwise_undefined hfirst hfinite
  versus_self first hfirst := versusBest_self_iff hfirst
  versus_finite first hfirst hfinite m hm := versusBest_of_finite hfirst hm hfinite
  undefined_first first hfirst := undefined_first_iff hfirst
  versus_undefined m hm hundefined := by
    obtain ⟨first, hfirst⟩ := exists_first hm
    exact versusBest_of_undefined hfirst hm (.inl hundefined)
  versus_least first hfirst h m hm := by
    rcases h with hundefined | hlowest
    · exact versusBest_of_undefined hfirst hm (.inr hundefined)
    · exact versusBest_of_neg_infinity hfirst hm hlowest
  versus_infinity first hfirst hhighest m hm := by
    rw [versusBest_of_mem hfirst hm, hhighest]
    refine ⟨fun hsame => ?_, Scalar.LawfulSpecial.sub_infinity⟩
    rw [hsame]
    exact Scalar.LawfulSpecial.undefined_sub_self Scalar.LawfulSpecial.not_isFinite_infinity

/-- A ranking is a permutation in descending order, that of the input for equal scores, but with
undefined scores before all numbers, or after them if their sign is set. The best model is compared
with itself by zero just if its score is finite, that is, if some score is finite and none is
infinity or undefined with a sign that is not set. Numbers are ranked as they are stored. -/
theorem rank_isRankingOf (models : List (String × Bits)) (numbers : List (String × Float)) :
    IsRankingOf models (rankStored models) ∧
      IsRankingOf (numbers.map fun a => (a.1, .ofFloat a.2)) ((rank numbers).map stored) := by
  refine ⟨isRankingOf_rankStored models, ?_⟩
  rw [map_stored_rank]
  exact isRankingOf_rankStored _

/-- Scores of three models, one of them undefined with its sign set. -/
def signedScores : List (String × Bits) :=
  [("minus none", ⟨0xfff8000000000000⟩), ("low", .ofFloat (-1)), ("level", .ofFloat 0)]

/-- Scores of three models, one of them undefined without a sign. -/
def unevenScores : List (String × Float) :=
  [("low", -Scalar.infinity), ("level", 0), ("none", Scalar.undefined)]

theorem rank_isRankingOf_uneven :
    (∃ first ∈ (rankStored signedScores).head?, first.versusBest = 0 ∧
      ∃ last ∈ rankStored signedScores, last.name = "minus none" ∧
        Scalar.isUndefined last.versusBest = true) ∧
      ∀ m ∈ rank unevenScores, Scalar.isUndefined m.versusBest = true := by
  obtain ⟨hsigned, huneven⟩ := rank_isRankingOf signedScores unevenScores
  constructor
  · obtain ⟨last, hlast, hentry⟩ := List.mem_map.1 (hsigned.perm.mem_iff.2 List.mem_cons_self)
    obtain ⟨first, hfirst⟩ := exists_first hlast
    have hfinite := (hsigned.finite_first first hfirst).2 (by decide +kernel)
    have hscore : last.score = ⟨0xfff8000000000000⟩ := congrArg Prod.snd hentry
    refine ⟨first, hfirst, (hsigned.versus_self first hfirst).2 hfinite, last, hlast,
      congrArg Prod.fst hentry, hsigned.versus_undefined last hlast ?_⟩
    rw [hscore]
    decide +kernel
  · intro m hm
    have hstored := List.mem_map_of_mem (f := stored) hm
    obtain ⟨first, hfirst⟩ := exists_first hstored
    have hundefined := (huneven.undefined_first first hfirst).2 (.inl (by decide +kernel))
    exact huneven.versus_least first hfirst (.inl hundefined) (stored m) hstored

/-- A score that is not undefined is the best, and what it has over itself is not zero. -/
theorem versusBest_neg_infinity : ∃ first ∈ (rank [("low", (-Scalar.infinity : Float))]).head?,
    Scalar.isUndefined first.score = false ∧ first.versusBest ≠ 0 := by
  have hrank : rankStored [("low", .ofFloat (-Scalar.infinity))] =
      [⟨"low", .ofFloat (-Scalar.infinity), (Bits.ofFloat (-Scalar.infinity)).toFloat -
        (Bits.ofFloat (-Scalar.infinity)).toFloat⟩] := by
    rw [rankStored, byScore, List.mergeSort_singleton]
    rfl
  rw [rank, List.map_singleton, hrank]
  exact ⟨_, rfl, by decide +kernel, by decide +kernel⟩

end Ranked

end Metropolis
