import Mathlib.Algebra.Group.Nat.Even
import Mathlib.Order.Bounds.Basic
import Metropolis.Proofs.Invariance
import Metropolis.Scalar.Special

/-!
# Which chains can be compared, and by what of them

Chains are compared by as many of their leading draws as all of them have, an even number, whatever
stands behind these. They are rejected for being too few, for a chain that is too short, or for one
that differs in its parameters, which is looked for in all draws. No other chains are, and all that
is read of those compared is there.
-/

namespace Metropolis

variable {α : Type}

theorem map_modify_of_eq {β γ : Type} {f : β → β} {g : β → γ} {xs : List β} {k : ℕ}
    (h : ∀ x ∈ xs, g (f x) = g x) : (xs.modify k f).map g = xs.map g := by
  ext1 i
  rw [List.getElem?_map, List.getElem?_modify, List.getElem?_map]
  split
  · cases hx : xs[i]? with
    | none => rfl
    | some x => exact congrArg some (h x (List.mem_of_getElem? hx))
  · rw [Option.map_eq_map, Option.map_id_fun', id]

/-! ## Values of draws -/

namespace Draws

/-- The value of a parameter in a draw, if there is such a draw and it has such a parameter. -/
def value? (d : Draws α) (index draw : ℕ) : Option α :=
  d.points[draw]?.bind fun p => p.parameters[index]?

/-- Whether values are those of a parameter in `length` draws from `start` on, all of which there
are. -/
def IsRun (d : Draws α) (index start length : ℕ) (values : List α) : Prop :=
  values.map some = (List.range' start length).map (d.value? index)

/-- Draws with others behind them. -/
def extend (extra : List (Point α)) (d : Draws α) : Draws α :=
  { d with points := d.points ++ extra }

variable [Scalar α] {d : Draws α} {names : List String} {index start length : ℕ}

/-- A column of draws that agree on the names is read without a miss. -/
theorem map_some_column (hagrees : Convergence.agrees names d = true)
    (hindex : index < names.length) :
    (d.column index).map some = d.points.map fun p => p.parameters[index]? := by
  obtain ⟨rfl, hlength⟩ := Convergence.agrees_iff.1 hagrees
  rw [column, if_neg (by omega), List.map_map]
  apply List.map_congr_left
  intro p hp
  have hvalue : index < p.parameters.length := by rwa [hlength p hp]
  rw [Function.comp_apply, List.getD_eq_getElem _ _ hvalue, List.getElem?_eq_getElem hvalue]

theorem isRun_column (hagrees : Convergence.agrees names d = true) (hindex : index < names.length)
    (hlong : start + length ≤ d.size) :
    d.IsRun index start length (((d.column index).drop start).take length) := by
  unfold IsRun
  ext1 i
  rw [List.getElem?_map, List.getElem?_take, List.getElem?_drop, List.getElem?_map]
  by_cases hi : i < length
  · have hdraw : start + i < d.points.length := by
      rw [← size]
      omega
    have hread : (d.column index)[start + i]?.map some =
        d.points[start + i]?.map fun p => p.parameters[index]? := by
      rw [← List.getElem?_map, map_some_column hagrees hindex, List.getElem?_map]
    rw [if_pos hi, hread, List.getElem?_range' hi, Nat.one_mul, Option.map_some, value?,
      List.getElem?_eq_getElem hdraw]
    rfl
  · rw [if_neg hi, List.getElem?_eq_none (by rw [List.length_range']; omega)]
    rfl

omit [Scalar α] in
theorem agrees_extend {extra : List (Point α)}
    (hextra : ∀ p ∈ extra, p.parameters.length = d.names.length) (names : List String) :
    Convergence.agrees names (d.extend extra) = Convergence.agrees names d := by
  rw [Bool.eq_iff_iff, Convergence.agrees_iff, Convergence.agrees_iff]
  refine and_congr_right fun hnames => ?_
  have hnames : d.names = names := hnames
  subst hnames
  show (∀ p ∈ d.points ++ extra, _) ↔ _
  rw [List.forall_mem_append]
  exact and_iff_left hextra

/-- The leading values of a parameter are those of the leading draws. -/
theorem take_column_extend {used : ℕ} (hused : used ≤ d.size) (extra : List (Point α))
    (index : ℕ) : ((d.extend extra).column index).take used = (d.column index).take used := by
  have hnames : (d.extend extra).names = d.names := rfl
  unfold column
  rw [hnames]
  split
  · rfl
  · unfold extend
    rw [List.map_append, List.take_append_of_le_length]
    rwa [List.length_map]

end Draws

namespace Convergence

variable {chains : List (Draws α)} {names : List String} {used : ℕ}

/-! ## The draws looked at -/

/-- Whether a number is the largest even one of draws that every chain has. -/
def IsUsable (chains : List (Draws α)) (used : ℕ) : Prop :=
  IsGreatest {n | Even n ∧ ∀ c ∈ chains, n ≤ c.size} used

theorem isUsable_usableDraws (hne : chains ≠ []) : IsUsable chains (usableDraws chains) := by
  refine ⟨⟨Nat.even_iff.2 (usableDraws_even chains), fun c hc => usableDraws_le hc⟩, ?_⟩
  intro n hn
  obtain ⟨heven, hle⟩ := hn
  have hparity := Nat.even_iff.1 heven
  unfold usableDraws
  cases hmin : (chains.map Draws.size).min? with
  | none => exact absurd (List.map_eq_nil_iff.1 (List.min?_eq_none_iff.1 hmin)) hne
  | some fewest =>
    obtain ⟨c, hc, hsize⟩ := List.mem_map.1 (List.min?_eq_some_iff.1 hmin).1
    have hfewest := hle c hc
    dsimp only [Option.getD_some]
    omega

theorem isUsable_iff (hne : chains ≠ []) : IsUsable chains used ↔ used = usableDraws chains :=
  ⟨fun h => h.unique (isUsable_usableDraws hne), fun h => h ▸ isUsable_usableDraws hne⟩

theorem four_le_usableDraws_iff (hne : chains ≠ []) :
    4 ≤ usableDraws chains ↔ ∀ c ∈ chains, 4 ≤ c.size := by
  constructor
  · exact fun h c hc => h.trans (usableDraws_le hc)
  · exact fun h => (isUsable_usableDraws hne).2 ⟨by decide, h⟩

theorem halves_eq (heven : used % 2 = 0) (columns : List (List α)) :
    halves used columns = columns.flatMap fun values =>
      [(values.drop 0).take (used / 2), (values.drop (used / 2)).take (used / 2)] := by
  have hrest : used - used / 2 = used / 2 := by omega
  unfold halves
  simp only [List.drop_zero, List.drop_take, hrest]

/-- Halves are those of the leading values. -/
theorem halves_map_take (used : ℕ) (columns : List (List α)) :
    halves used (columns.map (List.take used)) = halves used columns := by
  have hhalf : min (used / 2) used = used / 2 := by omega
  rw [halves, List.flatMap_map, halves]
  simp only [List.take_take, Nat.min_self, hhalf]

/-! ## Chains rejected -/

/-- Why chains are not compared: there are too few of them, one has too few draws, or one differs
from the first in its names, or from these in the number of values of a draw. -/
inductive Rejected (chains : List (Draws α)) : EnsembleError → Prop
  | few (h : chains.length < 2) : Rejected chains (.tooFewChains 2 chains.length)
  | short (h : 2 ≤ chains.length) {c : Draws α} (hc : c ∈ chains) (hshort : c.size < 4) {used : ℕ}
      (hused : IsUsable chains used) : Rejected chains (.tooFewDraws 4 used)
  | differing (h : 2 ≤ chains.length) (hlong : ∀ c ∈ chains, 4 ≤ c.size) {first c : Draws α}
      (hfirst : chains.head? = some first) (hc : c ∈ chains)
      (hdiffers : c.names ≠ first.names ∨
        ∃ p ∈ c.points, p.parameters.length ≠ first.names.length) : Rejected chains .mismatched

/-- At least two chains of at least four draws with the same names. -/
structure Comparable (names : List String) (chains : List (Draws α)) : Prop where
  count : 2 ≤ chains.length
  long : ∀ c ∈ chains, 4 ≤ c.size
  agrees : ∀ c ∈ chains, agrees names c = true

theorem Comparable.ne_nil (h : Comparable names chains) : chains ≠ [] :=
  List.ne_nil_of_length_pos (by have := h.count; omega)

theorem not_agrees_iff {c : Draws α} : ¬ agrees names c = true ↔
    c.names ≠ names ∨ ∃ p ∈ c.points, p.parameters.length ≠ names.length := by
  rw [agrees_iff, not_and_or]
  push Not
  rfl

theorem rejected_or_comparable (chains : List (Draws α)) :
    (∃ cause, Rejected chains cause) ∨ ∃ names, Comparable names chains := by
  by_cases hfew : chains.length < 2
  · exact .inl ⟨_, .few hfew⟩
  · have hcount : 2 ≤ chains.length := not_lt.1 hfew
    have hne : chains ≠ [] := List.ne_nil_of_length_pos (by omega)
    obtain ⟨first, hfirst⟩ := Option.ne_none_iff_exists'.1 (mt List.head?_eq_none_iff.1 hne)
    by_cases hlong : ∀ c ∈ chains, 4 ≤ c.size
    · by_cases hagrees : ∀ c ∈ chains, agrees first.names c = true
      · exact .inr ⟨_, hcount, hlong, hagrees⟩
      · push Not at hagrees
        obtain ⟨c, hc, hnot⟩ := hagrees
        exact .inl ⟨_, .differing hcount hlong hfirst hc (not_agrees_iff.1 hnot)⟩
    · push Not at hlong
      obtain ⟨c, hc, hshort⟩ := hlong
      exact .inl ⟨_, .short hcount hc hshort (isUsable_usableDraws hne)⟩

variable [Scalar α]

theorem ofChains_of_rejected {cause : EnsembleError} (h : Rejected chains cause) :
    ofChains chains = .error cause := by
  unfold ofChains
  dsimp only
  cases h with
  | few h => rw [if_pos h]
  | short h hc hshort hused =>
    have hne := List.ne_nil_of_mem hc
    have hle := usableDraws_le hc
    rw [if_neg (by omega), if_pos (by omega), (isUsable_iff hne).1 hused]
  | differing h hlong hfirst hc hdiffers =>
    have henough := (four_le_usableDraws_iff (List.ne_nil_of_mem hc)).2 hlong
    have hnot : (!chains.all (agrees _)) = true :=
      Bool.not_eq_true' _ ▸ List.all_eq_false.2 ⟨_, hc, not_agrees_iff.2 hdiffers⟩
    rw [if_neg (by omega), if_neg (by omega), hfirst, Option.map_some, Option.getD_some,
      if_pos hnot]

/-! ## Chains compared -/

theorem largest?_eq_some [Scalar.LawfulSort α] {xs : List α} {best : α}
    (h : largest? xs = some best) :
    best ∈ xs ∧ ∀ y ∈ xs, Scalar.totalLe y best = true := by
  cases xs with
  | nil => cases h
  | cons x xs =>
    induction xs generalizing x with
    | nil =>
      cases h
      have hself := or_self_iff.1 (Scalar.LawfulSort.totalLe_total x x)
      simp [hself]
    | cons z xs ih =>
      -- The larger of the first two numbers goes on in the place of both.
      have hrest : largest? ((if Scalar.totalLe x z then z else x) :: xs) = some best := h
      split at hrest
      next hle =>
        obtain ⟨hmem, hbest⟩ := ih z hrest
        refine ⟨List.mem_cons_of_mem x hmem, List.forall_mem_cons.2 ⟨?_, hbest⟩⟩
        exact Scalar.LawfulSort.totalLe_trans hle (hbest z List.mem_cons_self)
      next hnot =>
        obtain ⟨hmem, hbest⟩ := ih x hrest
        have hle := (Scalar.LawfulSort.totalLe_total x z).resolve_left hnot
        rw [List.forall_mem_cons] at hbest
        refine ⟨?_, List.forall_mem_cons.2 ⟨hbest.1, List.forall_mem_cons.2 ⟨?_, hbest.2⟩⟩⟩
        · exact List.mem_cons.2 ((List.mem_cons.1 hmem).imp_right (List.mem_cons_of_mem z))
        · exact Scalar.LawfulSort.totalLe_trans hle hbest.1

/-- What a comparison says of the chains compared. -/
structure IsComparison (chains : List (Draws α)) (r : Convergence α) : Prop where
  count : r.chains = chains.length
  used : IsUsable chains r.drawsUsed
  names : ∀ c ∈ chains, c.names = r.names
  /-- All that is read of a chain is there. -/
  reads : ∀ c ∈ chains, ∀ index < r.names.length,
    (c.column index).map some = c.points.map fun p => p.parameters[index]?
  length_splitRhat : r.splitRhat.length = r.names.length
  /-- The scale reduction of a parameter is that of the halves of all chains. -/
  splitRhat : ∀ index < r.names.length, ∃ (rhat : α) (first second : Draws α → List α),
    r.splitRhat[index]? = some rhat ∧
      (∀ c ∈ chains, c.IsRun index 0 (r.drawsUsed / 2) (first c) ∧
        c.IsRun index (r.drawsUsed / 2) (r.drawsUsed / 2) (second c)) ∧
      Series.splitRhat (chains.flatMap fun c => [first c, second c]) = .ok rhat
  largest_none : r.largest = none ↔ r.names = []
  largest_some : ∀ best, r.largest = some best →
    best ∈ r.splitRhat ∧ ∀ rhat ∈ r.splitRhat, Scalar.totalLe rhat best = true

/-- The scale reduction of a parameter, from the halves of its columns. -/
def rhatOf (chains : List (Draws α)) (index : ℕ) : Except EnsembleError α :=
  Series.splitRhat (halves (usableDraws chains) (chains.map fun c => c.column index))

namespace Comparable

variable {index : ℕ}

theorem exists_rhatOf (h : Comparable names chains) (hindex : index < names.length) :
    ∃ rhat, rhatOf chains index = .ok rhat := by
  have hcount := h.count
  have henough := (four_le_usableDraws_iff h.ne_nil).2 h.long
  have hcolumns : ∀ values ∈ chains.map fun c => c.column index,
      usableDraws chains ≤ values.length := by
    rw [List.forall_mem_map]
    intro c hc
    rw [length_column ((agrees_iff.1 (h.agrees c hc)).1 ▸ hindex)]
    exact usableDraws_le hc
  obtain ⟨hlength, hlengths⟩ := halves_spec (usableDraws_even chains) hcolumns
  rw [List.length_map] at hlength
  exact ⟨_, splitRhat_of_length (by omega) hlengths (by omega)⟩

theorem ofChains_eq (h : Comparable names chains) :
    ∃ rhats, (List.range names.length).map (rhatOf chains) = rhats.map .ok ∧
      ofChains chains =
        .ok ⟨chains.length, usableDraws chains, names, rhats, largest? rhats⟩ := by
  have hcount := h.count
  have henough := (four_le_usableDraws_iff h.ne_nil).2 h.long
  have hagrees : ¬ (!chains.all (Convergence.agrees names)) = true := by
    simpa using h.agrees
  obtain ⟨rhats, hrhats, hmap⟩ := exists_mapM_eq_ok fun index hindex =>
    h.exists_rhatOf (List.mem_range.1 hindex)
  refine ⟨rhats, hmap, ?_⟩
  unfold ofChains
  dsimp only
  rw [if_neg (by omega), if_neg (by omega), names_head h.ne_nil h.agrees, if_neg hagrees]
  change (List.range names.length).mapM (rhatOf chains) >>= _ = _
  rw [hrhats]
  rfl

theorem isComparison [Scalar.LawfulSort α] (h : Comparable names chains) {rhats : List α}
    (hmap : (List.range names.length).map (rhatOf chains) = rhats.map .ok) :
    IsComparison chains ⟨chains.length, usableDraws chains, names, rhats, largest? rhats⟩ := by
  have heven := usableDraws_even chains
  have hlength : rhats.length = names.length := by
    rw [← List.length_map (f := Except.ok), ← hmap, List.length_map, List.length_range]
  constructor
  case count => rfl
  case used => exact isUsable_usableDraws h.ne_nil
  case names => exact fun c hc => (agrees_iff.1 (h.agrees c hc)).1
  case reads => exact fun c hc index hindex => Draws.map_some_column (h.agrees c hc) hindex
  case length_splitRhat => exact hlength
  case splitRhat =>
    intro index hindex
    have hrhat : index < rhats.length := hlength ▸ hindex
    have hread := congrArg (fun l => l[index]?) hmap
    simp only [List.getElem?_map, List.getElem?_range hindex, List.getElem?_eq_getElem hrhat,
      Option.map_some, Option.some.injEq] at hread
    refine ⟨rhats[index], fun c => ((c.column index).drop 0).take (usableDraws chains / 2),
      fun c => ((c.column index).drop (usableDraws chains / 2)).take (usableDraws chains / 2),
      List.getElem?_eq_getElem hrhat, fun c hc => ?_, ?_⟩
    · have hused := usableDraws_le hc
      exact ⟨Draws.isRun_column (h.agrees c hc) hindex (by dsimp only; omega),
        Draws.isRun_column (h.agrees c hc) hindex (by dsimp only; omega)⟩
    · rw [← hread, rhatOf, halves_eq heven, List.flatMap_map]
  case largest_none =>
    show largest? rhats = none ↔ names = []
    rw [← List.length_eq_zero_iff, ← hlength, List.length_eq_zero_iff]
    cases rhats <;> simp [largest?]
  case largest_some => exact fun best hbest => largest?_eq_some hbest

/-- More draws behind those looked at leave a comparison as it is. -/
theorem ofChains_extend (h : Comparable names chains) {extra : List (Point α)}
    (hextra : ∀ p ∈ extra, p.parameters.length = names.length) {k : ℕ}
    (hused : usableDraws (chains.modify k (Draws.extend extra)) = usableDraws chains) :
    ofChains (chains.modify k (Draws.extend extra)) = ofChains chains := by
  refine ofChains_congr (List.length_modify _ _ _) hused (fun names' => ?_) ?_
  · have hagrees : (chains.modify k (Draws.extend extra)).map (Convergence.agrees names') =
        chains.map (Convergence.agrees names') := by
      refine map_modify_of_eq fun c hc => Draws.agrees_extend ?_ names'
      rwa [(agrees_iff.1 (h.agrees c hc)).1]
    have hall (cs : List (Draws α)) : cs.all (Convergence.agrees names') =
        (cs.map (Convergence.agrees names')).all id := by
      rw [List.all_map]
      rfl
    rw [hall, hagrees, ← hall]
  · intro names' _ _ _ index _
    have hleading : (chains.modify k (Draws.extend extra)).map
          (fun c => (c.column index).take (usableDraws chains)) =
        chains.map fun c => (c.column index).take (usableDraws chains) :=
      map_modify_of_eq fun c hc => Draws.take_column_extend (usableDraws_le hc) extra index
    rw [← halves_map_take, List.map_map, ← halves_map_take _ (chains.map _), List.map_map]
    exact congrArg (fun columns => Series.splitRhat (halves _ columns)) hleading

theorem not_rejected (h : Comparable names chains) {cause : EnsembleError} :
    ¬ Rejected chains cause := by
  intro hrejected
  obtain ⟨rhats, -, hok⟩ := h.ofChains_eq
  rw [ofChains_of_rejected hrejected] at hok
  cases hok

end Comparable

theorem ofChains_eq_error_iff {cause : EnsembleError} :
    ofChains chains = .error cause ↔ Rejected chains cause := by
  constructor
  · intro herror
    rcases rejected_or_comparable chains with ⟨cause', h⟩ | ⟨names, h⟩
    · rw [ofChains_of_rejected h] at herror
      cases herror
      exact h
    · obtain ⟨rhats, -, hok⟩ := h.ofChains_eq
      rw [hok] at herror
      cases herror
  · exact ofChains_of_rejected

/-- Chains are rejected for one of three reasons, in this order, and all others are compared. The
comparison reads nothing that is not there, and more draws behind those that it looks at leave it
as it is. -/
theorem ofChains_exact [Scalar.LawfulSort α] (chains : List (Draws α)) :
    (∀ cause, ofChains chains = .error cause ↔ Rejected chains cause) ∧
    ((∀ cause, ¬ Rejected chains cause) → ∃ r, ofChains chains = .ok r ∧ IsComparison chains r ∧
      ∀ (k : ℕ) (extra : List (Point α)), (∀ p ∈ extra, p.parameters.length = r.names.length) →
        IsUsable (chains.modify k (Draws.extend extra)) r.drawsUsed →
        ofChains (chains.modify k (Draws.extend extra)) = .ok r) := by
  refine ⟨fun cause => ofChains_eq_error_iff, fun hnot => ?_⟩
  obtain ⟨names, h⟩ := (rejected_or_comparable chains).resolve_left fun ⟨cause, h⟩ => hnot cause h
  obtain ⟨rhats, hmap, hok⟩ := h.ofChains_eq
  refine ⟨_, hok, h.isComparison hmap, fun k extra hextra hused => ?_⟩
  have hne : chains.modify k (Draws.extend extra) ≠ [] := by
    rw [← List.length_pos_iff, List.length_modify, List.length_pos_iff]
    exact h.ne_nil
  rw [h.ofChains_extend hextra ((isUsable_iff hne).1 hused).symm, hok]

/-- Two chains of five and four draws. A sixth draw of the first is not looked at, but one without
a value is found. -/
theorem ofChains_exact_series :
    let chains := [Draws.ofSeries [0, 1, 2, 4, 9], Draws.ofSeries [3, 0, 3, 2]]
    let another : Point Exact := ⟨[.real 7], 0, 0⟩
    let malformed : Point Exact := ⟨[], 0, 0⟩
    (∃ r, ofChains chains = .ok r ∧ IsComparison chains r ∧ r.drawsUsed = 4 ∧
      ofChains (chains.modify 0 (Draws.extend [another])) = .ok r) ∧
    ofChains (chains.modify 0 (Draws.extend [malformed])) = .error .mismatched := by
  intro chains another malformed
  have hcomparable : Comparable ["x"] chains := by
    constructor
    case count => exact le_rfl
    case long => simp [chains, Draws.ofSeries, Draws.size]
    case agrees => simp [chains, Draws.ofSeries, agrees]
  constructor
  · obtain ⟨r, hok, hr, hextend⟩ := (ofChains_exact chains).2 fun cause => hcomparable.not_rejected
    have hused : r.drawsUsed = 4 := by
      rw [(isUsable_iff hcomparable.ne_nil).1 hr.used]
      simp [chains, usableDraws, Draws.ofSeries, Draws.size]
    have hnames : r.names = ["x"] := (hr.names _ List.mem_cons_self).symm
    refine ⟨r, hok, hr, hused, hextend 0 [another] (by simp [another, hnames]) ?_⟩
    refine (isUsable_iff (List.cons_ne_nil _ _)).2 ?_
    rw [hused]
    simp [usableDraws, Draws.extend, Draws.ofSeries, Draws.size]
  · refine ((ofChains_exact _).1 .mismatched).2 (.differing le_rfl ?_ rfl List.mem_cons_self ?_)
    · simp [chains, Draws.extend, Draws.ofSeries, Draws.size]
    · refine .inr ⟨malformed, by simp [Draws.extend], ?_⟩
      simp [malformed, Draws.extend, Draws.ofSeries]

end Convergence

end Metropolis
