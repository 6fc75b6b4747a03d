import Metropolis.Draws.Summary
import Metropolis.Proofs.EffectiveSize
import Metropolis.Proofs.Ensemble
import Metropolis.Proofs.Quantiles
import Metropolis.Proofs.ScaleReduction

/-!
# Draws in other units and in other orders

A summary of draws of real numbers follows a parameter into other units, and depends on the order of
the draws in the effective sizes only, which are those of the draws turned round as well. The scale
reductions of several chains depend neither on the units nor on the order of the chains.
-/

namespace Metropolis

variable {a b : ℝ}

/-- A number in other units, `a x + b` for `x`. -/
noncomputable def Exact.affine (a b : ℝ) (x : Exact) : Exact := .real a * x + .real b

/-! ## The summary of one parameter -/

namespace ParameterSummary

variable {name : String} {xs ys : List ℝ}

/-- The summary of a parameter in other units. A negative factor exchanges the outer quantiles. -/
noncomputable def inUnits (a b : ℝ) (s : ParameterSummary Exact) : ParameterSummary Exact :=
  { s with
    mean := .affine a b s.mean
    variance := .real (a ^ 2) * s.variance
    deviation := .real |a| * s.deviation
    q025 := .affine a b (if 0 < a then s.q025 else s.q975)
    q50 := .affine a b s.q50
    q975 := .affine a b (if 0 < a then s.q975 else s.q025) }

theorem ofValues_real (hne : xs ≠ []) : ofValues name (xs.map Exact.real) =
    { name
      mean := .real (Series.average xs)
      variance := .real (Series.dispersion xs)
      deviation := .real √(Series.dispersion xs)
      q025 := .real (Series.quantileOf xs 0.025)
      q50 := .real (Series.quantileOf xs 0.5)
      q975 := .real (Series.quantileOf xs 0.975)
      effectiveSize := Series.effectiveSize (xs.map Exact.real) } := by
  have hsome : ¬ (xs.map Exact.real).isEmpty = true := by
    rwa [List.isEmpty_iff, List.map_eq_nil_iff]
  have hquantile {p : ℝ} (hp : 0 ≤ p) (hp' : p ≤ 1) :=
    Series.quantile_sorted_real hne hp hp'
  unfold ofValues
  rw [if_neg hsome]
  dsimp only
  rw [Series.mean_real hne, Series.populationVariance_real hne,
    Exact.sqrt_real (Series.dispersion_nonneg xs), Exact.ofScientific_eq, Exact.ofScientific_eq,
    Exact.ofScientific_eq, hquantile (by norm_num) (by norm_num),
    hquantile (by norm_num) (by norm_num), hquantile (by norm_num) (by norm_num)]

theorem ofValues_map_affine (ha : a ≠ 0) (b : ℝ) (hne : xs ≠ [])
    (hlength : xs.length ≤ Scalar.countLimit) :
    ofValues name ((xs.map fun x => a * x + b).map Exact.real) =
      (ofValues name (xs.map Exact.real)).inUnits a b := by
  have hdeviation : √(a ^ 2 * Series.dispersion xs) = |a| * √(Series.dispersion xs) := by
    rw [Real.sqrt_mul (sq_nonneg a), Real.sqrt_sq_eq_abs]
  rw [ofValues_real (mt List.map_eq_nil_iff.1 hne), ofValues_real hne,
    Series.effectiveSize_map_affine ha b hne hlength, Series.average_map_affine a b hne hlength,
    Series.dispersion_map_affine a b hne hlength, hdeviation]
  unfold inUnits
  rcases lt_or_gt_of_ne ha with hneg | hpos
  · -- The quantiles at `1 - p` and `p` change places.
    have hquantile {p q : ℝ} (hp : 0 ≤ p) (hp' : p ≤ 1) (hq : q = 1 - p) :
        Series.quantileOf (xs.map fun x => a * x + b) q = a * Series.quantileOf xs p + b := by
      rw [hq]
      exact Series.quantileOf_map_of_neg hne hlength hp hp' hneg b
    rw [hquantile (p := 0.975) (by norm_num) (by norm_num) (by norm_num),
      hquantile (p := 0.5) (by norm_num) (by norm_num) (by norm_num),
      hquantile (p := 0.025) (by norm_num) (by norm_num) (by norm_num),
      if_neg hneg.not_gt, if_neg hneg.not_gt]
    rfl
  · have hquantile {p : ℝ} (hp : p ≤ 1) := Series.quantileOf_map_of_pos hne hp hpos b
    rw [hquantile (by norm_num), hquantile (by norm_num), hquantile (by norm_num), if_pos hpos,
      if_pos hpos]
    rfl

/-- A summary but for the effective size, the only part that depends on the order of the values. -/
def orderFree {α : Type} [Scalar α] (s : ParameterSummary α) : ParameterSummary α :=
  { s with effectiveSize := 0 }

theorem orderFree_ofValues_perm (hne : xs ≠ []) (h : ys.Perm xs) :
    (ofValues name (ys.map Exact.real)).orderFree =
      (ofValues name (xs.map Exact.real)).orderFree := by
  have hne' : ys ≠ [] := by
    rintro rfl
    exact hne h.symm.eq_nil
  rw [ofValues_real hne', ofValues_real hne, Series.average_perm h, Series.dispersion_perm h,
    Series.quantileOf_perm h, Series.quantileOf_perm h, Series.quantileOf_perm h]
  rfl

theorem ofValues_reverse (hne : xs ≠ []) :
    ofValues name (xs.reverse.map Exact.real) = ofValues name (xs.map Exact.real) := by
  have hperm := List.reverse_perm xs
  rw [ofValues_real (mt List.reverse_eq_nil_iff.1 hne), ofValues_real hne,
    Series.average_perm hperm, Series.dispersion_perm hperm, Series.quantileOf_perm hperm,
    Series.quantileOf_perm hperm, Series.quantileOf_perm hperm, List.map_reverse,
    Series.effectiveSize_reverse]

end ParameterSummary

/-- A summary but for the effective sizes. -/
def Summary.orderFree {α : Type} [Scalar α] (s : Summary α) : Summary α :=
  { s with parameters := s.parameters.map .orderFree }

/-! ## The summary of draws -/

namespace Draws

variable {α : Type} [Scalar α]

omit [Scalar α] in
/-- Draws with a function applied to one parameter. -/
def mapColumn (f : α → α) (index : Nat) (d : Draws α) : Draws α :=
  { d with points := d.points.map fun p => { p with parameters := p.parameters.modify index f } }

/-- Whether every draw has a real number for every named parameter. -/
def IsReal (d : Draws Exact) : Prop :=
  ∀ p ∈ d.points, ∀ i < d.names.length, ∃ x : ℝ, p.parameters[i]? = some (.real x)

/-- The real numbers of a parameter. -/
noncomputable def reals (d : Draws Exact) (index : Nat) : List ℝ :=
  (d.column index).map Exact.toReal

section Columns

variable {d : Draws Exact} {index i : Nat}

omit [Scalar α] in
theorem size_mapColumn (f : α → α) (index : Nat) (d : Draws α) :
    (d.mapColumn f index).size = d.size :=
  List.length_map _

theorem IsReal.map_reals (h : d.IsReal) (index : Nat) :
    (d.reals index).map Exact.real = d.column index := by
  apply Exact.map_real_toReal
  intro x hx
  unfold column at hx
  split at hx
  · cases hx
  next hindex =>
    obtain ⟨p, hp, rfl⟩ := List.mem_map.1 hx
    obtain ⟨x, hx⟩ := h p hp index (by omega)
    rw [List.getD_eq_getElem?_getD, hx]
    rfl

theorem length_reals (h : index < d.names.length) : (d.reals index).length = d.size := by
  rw [reals, List.length_map, Convergence.length_column h]

theorem isReal_mapColumn (h : d.IsReal) (a b : ℝ) (index : Nat) :
    (d.mapColumn (.affine a b) index).IsReal := by
  intro p hp i hi
  obtain ⟨q, hq, rfl⟩ := List.mem_map.1 hp
  obtain ⟨x, hx⟩ := h q hq i hi
  rw [List.getElem?_modify, hx]
  by_cases hindex : index = i
  · exact ⟨a * x + b, congrArg some (if_pos hindex)⟩
  · exact ⟨x, congrArg some (if_neg hindex)⟩

theorem column_mapColumn_of_ne (f : α → α) (d : Draws α) (h : index ≠ i) :
    (d.mapColumn f index).column i = d.column i := by
  have hvalue (p : Point α) : (p.parameters.modify index f).getD i Scalar.undefined =
      p.parameters.getD i Scalar.undefined := by
    simp only [List.getD_eq_getElem?_getD, List.getElem?_modify, if_neg h]
    rw [id_map']
  unfold column mapColumn
  rw [List.map_map]
  simp only [Function.comp_def, hvalue]

theorem reals_mapColumn (h : d.IsReal) (a b : ℝ) (index : Nat) :
    (d.mapColumn (.affine a b) index).reals index =
      (d.reals index).map fun x => a * x + b := by
  have hnames : (d.mapColumn (.affine a b) index).names = d.names := rfl
  unfold reals column
  rw [hnames]
  split
  · rfl
  next hindex =>
    unfold mapColumn
    rw [List.map_map, List.map_map, List.map_map, List.map_map]
    apply List.map_congr_left
    intro p hp
    obtain ⟨x, hx⟩ := h p hp index (not_le.1 hindex)
    simp only [Function.comp_apply, List.getD_eq_getElem?_getD, List.getElem?_modify, hx, if_true]
    rfl

end Columns

section Summaries

variable {d : Draws Exact} {points : List (Point Exact)}

/-- One summary for every name, in their order, unless there are no draws. -/
theorem getElem?_summary (d : Draws α) (i : Nat) : d.summary.parameters[i]? =
    if d.isEmpty then none else d.names[i]?.map fun name => .ofValues name (d.column i) := by
  unfold summary
  split
  next hempty => rfl
  next =>
    rw [List.getElem?_map]
    cases hname : d.names[i]? with
    | none =>
      rw [List.getElem?_eq_none_iff] at hname
      rw [List.getElem?_eq_none (by rw [List.length_zip, List.length_range]; omega)]
      rfl
    | some name =>
      have hlt := (List.getElem?_eq_some_iff.1 hname).1
      have hentry : (d.names.zip (List.range d.names.length))[i]? = some (name, i) :=
        List.getElem?_zip_eq_some.2 ⟨hname, List.getElem?_range hlt⟩
      rw [hentry]
      rfl

/-- Summaries of as many draws are equal if those of all parameters are. -/
theorem summary_eq {s : Summary α} {d : Draws α} (hdraws : d.size = s.draws)
    (h : ∀ i : Nat, d.summary.parameters[i]? = s.parameters[i]?) : d.summary = s := by
  have hparameters := List.ext_getElem? h
  have hsize := (draws_summary d).trans hdraws
  cases hs : d.summary
  rw [hs] at hparameters hsize
  cases s
  cases hparameters
  cases hsize
  rfl

theorem reals_ne_nil {i : Nat} (hsome : ¬ d.isEmpty = true) (h : i < d.names.length) :
    d.reals i ≠ [] := by
  rw [← List.length_pos_iff, length_reals h, size, List.length_pos_iff]
  exact mt List.isEmpty_iff.2 hsome

/-- The summaries of a parameter in two sets of draws agree as those of its real numbers do. -/
theorem map_getElem?_summary {β : Type} {f g : ParameterSummary Exact → β} {d' : Draws Exact}
    (hreal' : d'.IsReal) (hreal : d.IsReal) (hnames : d'.names = d.names)
    (hempty : d'.isEmpty = d.isEmpty) {i : Nat}
    (h : ∀ name, i < d.names.length → d.reals i ≠ [] →
      f (.ofValues name ((d'.reals i).map Exact.real)) =
        g (.ofValues name ((d.reals i).map Exact.real))) :
    d'.summary.parameters[i]?.map f = d.summary.parameters[i]?.map g := by
  rw [getElem?_summary, getElem?_summary, hempty, hnames]
  split
  · rfl
  next hsome =>
    cases hname : d.names[i]? with
    | none => rfl
    | some name =>
      have hlt := (List.getElem?_eq_some_iff.1 hname).1
      have hvalues := h name hlt (reals_ne_nil hsome hlt)
      rw [hreal'.map_reals, hreal.map_reals] at hvalues
      exact congrArg some hvalues

/-- The summary of a parameter in other units, and those of the other parameters as they were. -/
theorem summary_mapColumn (h : d.IsReal) (hsize : d.size ≤ Scalar.countLimit) (ha : a ≠ 0) (b : ℝ)
    (index : Nat) : (d.mapColumn (.affine a b) index).summary =
      { d.summary with
        parameters := d.summary.parameters.modify index (.inUnits a b) } := by
  apply summary_eq
  · rw [size_mapColumn, draws_summary]
  · intro i
    rw [List.getElem?_modify, Option.map_eq_map,
      ← Option.map_id_apply (x := (summary _).parameters[i]?)]
    refine map_getElem?_summary (isReal_mapColumn h a b index) h rfl List.isEmpty_map ?_
    intro name hi hne
    by_cases hindex : index = i
    · subst hindex
      rw [if_pos rfl, reals_mapColumn h]
      exact ParameterSummary.ofValues_map_affine ha b hne (by rwa [length_reals hi])
    · rw [if_neg hindex, reals, column_mapColumn_of_ne _ _ hindex, reals]
      rfl

/-! The same draws in another order. -/

theorem isReal_perm (h : d.IsReal) (hperm : points.Perm d.points) :
    ({ d with points } : Draws Exact).IsReal :=
  fun p hp => h p (hperm.subset hp)

theorem reals_perm (hperm : points.Perm d.points) (i : Nat) :
    (({ d with points } : Draws Exact).reals i).Perm (d.reals i) := by
  unfold reals column
  split
  · exact List.Perm.refl _
  · exact (hperm.map _).map _

theorem reals_reverse (d : Draws Exact) (i : Nat) :
    ({ d with points := d.points.reverse } : Draws Exact).reals i = (d.reals i).reverse := by
  unfold reals column
  split
  · rfl
  · rw [List.map_reverse, List.map_reverse]

/-- Summaries of the same draws in two orders are the same but for the effective sizes. -/
theorem summary_perm (h : d.IsReal) (hperm : points.Perm d.points) :
    ({ d with points } : Draws Exact).summary.orderFree = d.summary.orderFree := by
  have hparameters :
      ({ d with points } : Draws Exact).summary.parameters.map ParameterSummary.orderFree =
        d.summary.parameters.map ParameterSummary.orderFree := by
    apply List.ext_getElem?
    intro i
    rw [List.getElem?_map, List.getElem?_map]
    refine map_getElem?_summary (isReal_perm h hperm) h rfl hperm.isEmpty_eq ?_
    exact fun name _ hne => ParameterSummary.orderFree_ofValues_perm hne (reals_perm hperm i)
  unfold Summary.orderFree
  rw [hparameters, draws_summary, draws_summary]
  exact congrArg _ hperm.length_eq

theorem summary_reverse (h : d.IsReal) :
    ({ d with points := d.points.reverse } : Draws Exact).summary = d.summary := by
  have hperm := List.reverse_perm d.points
  apply summary_eq
  · rw [draws_summary]
    exact List.length_reverse
  · intro i
    rw [← Option.map_id_apply (x := (summary _).parameters[i]?),
      ← Option.map_id_apply (x := d.summary.parameters[i]?)]
    refine map_getElem?_summary (isReal_perm h hperm) h rfl hperm.isEmpty_eq ?_
    intro name _ hne
    rw [reals_reverse]
    exact ParameterSummary.ofValues_reverse hne

end Summaries

end Draws

/-! ## The comparison of chains -/

namespace Convergence

theorem mapM_congr {ε β γ : Type} {f g : β → Except ε γ} {xs : List β}
    (h : ∀ x ∈ xs, f x = g x) : xs.mapM f = xs.mapM g := by
  induction xs with
  | nil => rfl
  | cons x xs ih =>
    rw [List.mapM_cons, List.mapM_cons, h x List.mem_cons_self,
      ih fun y hy => h y (List.mem_cons_of_mem x hy)]

variable {α : Type} {chains others : List (Draws α)} {c : Draws α} {used : Nat}

/-! What is looked at. -/

theorem usableDraws_even (chains : List (Draws α)) : usableDraws chains % 2 = 0 := by
  unfold usableDraws
  dsimp only
  omega

theorem usableDraws_le (h : c ∈ chains) : usableDraws chains ≤ c.size := by
  have hmem : c.size ∈ chains.map Draws.size := List.mem_map_of_mem h
  unfold usableDraws
  cases hmin : (chains.map Draws.size).min? with
  | none => exact Nat.zero_le _
  | some fewest =>
    have hle := (List.min?_eq_some_iff.1 hmin).2 c.size hmem
    dsimp only [Option.getD_some]
    omega

theorem min?_perm {ms ns : List Nat} (h : ms.Perm ns) : ms.min? = ns.min? := by
  cases hmin : ns.min? with
  | none =>
    rw [List.min?_eq_none_iff] at hmin ⊢
    exact (hmin ▸ h).eq_nil
  | some m =>
    rw [List.min?_eq_some_iff] at hmin ⊢
    exact ⟨h.symm.subset hmin.1, fun n hn => hmin.2 n (h.subset hn)⟩

theorem usableDraws_perm (h : others.Perm chains) : usableDraws others = usableDraws chains := by
  rw [usableDraws, usableDraws, min?_perm (h.map Draws.size)]

theorem usableDraws_mapColumn (f : α → α) (index : Nat) (chains : List (Draws α)) :
    usableDraws (chains.map (Draws.mapColumn f index)) = usableDraws chains := by
  have hsizes : (chains.map (Draws.mapColumn f index)).map Draws.size = chains.map Draws.size := by
    rw [List.map_map]
    exact List.map_congr_left fun c _ => Draws.size_mapColumn f index c
  rw [usableDraws, hsizes, usableDraws]

theorem agrees_mapColumn (f : α → α) (index : Nat) (names : List String) (c : Draws α) :
    agrees names (c.mapColumn f index) = agrees names c := by
  unfold agrees Draws.mapColumn
  rw [List.all_map]
  simp only [Function.comp_def, List.length_modify]

theorem halves_map {β γ : Type} (f : β → γ) (used : Nat) (columns : List (List β)) :
    halves used (columns.map (List.map f)) = (halves used columns).map (List.map f) := by
  rw [halves, halves, List.flatMap_map, List.map_flatMap]
  simp only [List.map_cons, List.map_nil, List.map_take, List.map_drop]

/-! What a comparison comes to. -/

/-- A comparison depends on the number of chains, on the draws that are looked at, on the names that
the chains agree on and on the scale reductions. -/
theorem ofChains_congr [Scalar α] (hlength : others.length = chains.length)
    (hused : usableDraws others = usableDraws chains)
    (hagrees : ∀ names, others.all (agrees names) = chains.all (agrees names))
    (h : ∀ names, (∀ c ∈ chains, agrees names c = true) → 2 ≤ chains.length →
      4 ≤ usableDraws chains → ∀ index < names.length,
        Series.splitRhat (halves (usableDraws chains) (others.map fun c => c.column index)) =
          Series.splitRhat (halves (usableDraws chains) (chains.map fun c => c.column index))) :
    ofChains others = ofChains chains := by
  unfold ofChains
  dsimp only
  rw [hlength, hused]
  by_cases hfew : chains.length < 2
  · rw [if_pos hfew, if_pos hfew]
  · rw [if_neg hfew, if_neg hfew]
    by_cases hshort : usableDraws chains < 4
    · rw [if_pos hshort, if_pos hshort]
    · rw [if_neg hshort, if_neg hshort]
      have hne : chains ≠ [] := List.ne_nil_of_length_pos (by omega)
      have hne' : others ≠ [] := List.ne_nil_of_length_pos (by omega)
      -- Either both agree on the names of the first, or neither agrees on any names.
      by_cases hall : ∃ names, chains.all (agrees names) = true
      · obtain ⟨names, hnames⟩ := hall
        have hnames' := (hagrees names).trans hnames
        rw [names_head hne (List.all_eq_true.1 hnames),
          names_head hne' (List.all_eq_true.1 hnames'), hnames, hnames']
        have hrhats := mapM_congr fun index hindex =>
          h names (List.all_eq_true.1 hnames) (by omega) (by omega) index (List.mem_range.1 hindex)
        rw [hrhats]
      · have hnone (names : List String) : chains.all (agrees names) = false :=
          Bool.eq_false_iff.2 fun hnames => hall ⟨names, hnames⟩
        rw [hagrees, hnone, hnone]
        rfl

section Real

variable {chains others : List (Draws Exact)} {names : List String} {index : Nat}

theorem halves_reals (hreal : ∀ c ∈ chains, c.IsReal) (used index : Nat) :
    halves used (chains.map fun c => c.column index) =
      (halves used (chains.map fun c => c.reals index)).map (List.map Exact.real) := by
  rw [← halves_map, List.map_map]
  congr 1
  exact List.map_congr_left fun c hc => ((hreal c hc).map_reals index).symm

/-- The halves of the real numbers that chains agree to have. -/
theorem halves_reals_spec (hagrees : ∀ c ∈ chains, agrees names c = true)
    (hindex : index < names.length) :
    (halves (usableDraws chains) (chains.map fun c => c.reals index)).length = 2 * chains.length ∧
      ∀ xs ∈ halves (usableDraws chains) (chains.map fun c => c.reals index),
        xs.length = usableDraws chains / 2 := by
  have hlong : ∀ xs ∈ chains.map fun c => c.reals index, usableDraws chains ≤ xs.length := by
    intro xs hxs
    obtain ⟨c, hc, rfl⟩ := List.mem_map.1 hxs
    rw [Draws.length_reals ((agrees_iff.1 (hagrees c hc)).1 ▸ hindex)]
    exact usableDraws_le hc
  have hspec := halves_spec (usableDraws_even chains) hlong
  rwa [List.length_map] at hspec

/-- The scale reduction of real numbers that the chains agree to have. -/
theorem splitRhat_real (hreal : ∀ c ∈ chains, c.IsReal)
    (hagrees : ∀ c ∈ chains, agrees names c = true) (hchains : 2 ≤ chains.length)
    (hused : 4 ≤ usableDraws chains) (hindex : index < names.length) :
    Series.splitRhat (halves (usableDraws chains) (chains.map fun c => c.column index)) =
      .ok (.real (Series.reduction (usableDraws chains / 2)
        (halves (usableDraws chains) (chains.map fun c => c.reals index)))) := by
  obtain ⟨hcount, hlength⟩ := halves_reals_spec hagrees hindex
  have hne : ∀ xs ∈ halves (usableDraws chains) (chains.map fun c => c.reals index), xs ≠ [] :=
    fun xs hxs => List.ne_nil_of_length_pos (by rw [hlength xs hxs]; omega)
  have hcolumns : ∀ c ∈ (halves (usableDraws chains) (chains.map fun c => c.reals index)).map
      (List.map Exact.real), c.length = usableDraws chains / 2 := by
    intro column hcolumn
    obtain ⟨xs, hxs, rfl⟩ := List.mem_map.1 hcolumn
    rw [List.length_map, hlength xs hxs]
  rw [halves_reals hreal, splitRhat_of_length (by rw [List.length_map]; omega) hcolumns (by omega),
    Series.scaleReduction_real (by omega) (by omega) hne]

/-- Chains in another order compare alike, however long each of them is. -/
theorem ofChains_perm (hreal : ∀ c ∈ chains, c.IsReal) (h : others.Perm chains) :
    ofChains others = ofChains chains := by
  have hused := usableDraws_perm h
  refine ofChains_congr h.length_eq hused (fun names => h.all_eq) ?_
  intro names hagrees hchains henough index hindex
  have hreal' : ∀ c ∈ others, c.IsReal := fun c hc => hreal c (h.subset hc)
  have hagrees' : ∀ c ∈ others, agrees names c = true := fun c hc => hagrees c (h.subset hc)
  have hhalves : (halves (usableDraws chains) (others.map fun c => c.reals index)).Perm
      (halves (usableDraws chains) (chains.map fun c => c.reals index)) :=
    (h.map _).flatMap_right _
  have hothers := splitRhat_real hreal' hagrees' (h.length_eq ▸ hchains) (hused ▸ henough) hindex
  rw [hused] at hothers
  rw [hothers, splitRhat_real hreal hagrees hchains henough hindex, Series.reduction_perm hhalves]

/-- Chains with a parameter in other units compare alike, as long as their halves and the draws of
each half can be counted. -/
theorem ofChains_mapColumn (hreal : ∀ c ∈ chains, c.IsReal)
    (hcount : 4 ≤ usableDraws chains → 2 * chains.length ≤ Scalar.countLimit ∧
      usableDraws chains / 2 ≤ Scalar.countLimit) (ha : a ≠ 0) (b : ℝ) (column : Nat) :
    ofChains (chains.map (Draws.mapColumn (.affine a b) column)) = ofChains chains := by
  have hused := usableDraws_mapColumn (.affine a b) column chains
  refine ofChains_congr (List.length_map _) hused (fun names => ?_) ?_
  · rw [List.all_map]
    simp only [Function.comp_def, agrees_mapColumn]
  · intro names hagrees hchains henough index hindex
    by_cases hcolumn : column = index
    · subst hcolumn
      have hreal' : ∀ c ∈ chains.map (Draws.mapColumn (.affine a b) column), c.IsReal :=
        List.forall_mem_map.2 fun c hc => Draws.isReal_mapColumn (hreal c hc) a b column
      have hagrees' : ∀ c ∈ chains.map (Draws.mapColumn (.affine a b) column),
          agrees names c = true :=
        List.forall_mem_map.2 fun c hc => (agrees_mapColumn _ _ _ c).trans (hagrees c hc)
      have hreals : (chains.map (Draws.mapColumn (.affine a b) column)).map
          (fun c => c.reals column) =
          (chains.map fun c => c.reals column).map (List.map fun x => a * x + b) := by
        rw [List.map_map, List.map_map]
        exact List.map_congr_left fun c hc => Draws.reals_mapColumn (hreal c hc) a b column
      have hmapped := splitRhat_real hreal' hagrees' (by rwa [List.length_map])
        (by rwa [hused]) hindex
      obtain ⟨hlength, hlengths⟩ := halves_reals_spec hagrees hindex
      obtain ⟨hchainslimit, hdrawslimit⟩ := hcount henough
      rw [hused, hreals, halves_map, Series.reduction_map_affine b ha
        (List.ne_nil_of_length_pos (by omega)) (by rwa [hlength])] at hmapped
      · rw [hmapped, splitRhat_real hreal hagrees hchains henough hindex]
      · intro xs hxs
        rw [hlengths xs hxs]
        exact ⟨List.ne_nil_of_length_pos (by rw [hlengths xs hxs]; omega), hdrawslimit⟩
    · have hcolumns : (chains.map (Draws.mapColumn (.affine a b) column)).map
          (fun c => c.column index) = chains.map fun c => c.column index := by
        rw [List.map_map]
        exact List.map_congr_left fun c _ => Draws.column_mapColumn_of_ne _ c hcolumn
      rw [hcolumns]

end Real

end Convergence

namespace Draws

/-- Summaries of real numbers and comparisons of chains of them in other units and orders. A
parameter in other units has its summary in those units, with the effective size as it was, and
draws in another order have the summary they had but for the effective sizes, in reverse order
altogether. Chains compare alike with a parameter of all of them in other units, and in any order,
whatever their lengths. -/
theorem summary_ofChains_invariant (chains : List (Draws Exact))
    (hreal : ∀ d ∈ chains, d.IsReal) :
    (∀ d ∈ chains,
      (d.size ≤ Scalar.countLimit → ∀ a b : ℝ, a ≠ 0 → ∀ index,
        (d.mapColumn (.affine a b) index).summary =
          { d.summary with
            parameters := d.summary.parameters.modify index (.inUnits a b) }) ∧
      (∀ points : List (Point Exact), points.Perm d.points →
        ({ d with points } : Draws Exact).summary.orderFree = d.summary.orderFree) ∧
      ({ d with points := d.points.reverse } : Draws Exact).summary = d.summary ∧
      (∀ index lag, Series.autocorrelation (d.column index).reverse lag =
        Series.autocorrelation (d.column index) lag)) ∧
    ((4 ≤ Convergence.usableDraws chains → 2 * chains.length ≤ Scalar.countLimit ∧
        Convergence.usableDraws chains / 2 ≤ Scalar.countLimit) →
      ∀ a b : ℝ, a ≠ 0 → ∀ index,
        Convergence.ofChains (chains.map (mapColumn (.affine a b) index)) =
          Convergence.ofChains chains) ∧
    ∀ others : List (Draws Exact), others.Perm chains →
      Convergence.ofChains others = Convergence.ofChains chains := by
  refine ⟨fun d hd => ⟨?_, ?_, ?_, ?_⟩, ?_, ?_⟩
  · exact fun hsize a b ha index => summary_mapColumn (hreal d hd) hsize ha b index
  · exact fun points hperm => summary_perm (hreal d hd) hperm
  · exact summary_reverse (hreal d hd)
  · intro index lag
    rw [← (hreal d hd).map_reals, Series.autocorrelation_reverse]
  · exact fun hcount a b ha index => Convergence.ofChains_mapColumn hreal hcount ha b index
  · exact fun others h => Convergence.ofChains_perm hreal h

/-- Draws of one parameter. -/
noncomputable def ofSeries (xs : List ℝ) : Draws Exact :=
  ⟨["x"], xs.map fun x => ⟨[.real x], 0, 0⟩⟩

theorem isReal_ofSeries (xs : List ℝ) : (ofSeries xs).IsReal := by
  intro p hp i hi
  obtain ⟨x, -, rfl⟩ := List.mem_map.1 hp
  have hzero : i = 0 := Nat.lt_one_iff.1 hi
  exact ⟨x, by rw [hzero]; rfl⟩

/-- Two chains of four and five draws, turned upside down and exchanged. -/
theorem summary_ofChains_invariant_series :
    let chains := [ofSeries [0, 1, 2, 4], ofSeries [3, 0, 3, 2, 5]]
    (∀ d ∈ chains, d.IsReal) ∧ Convergence.usableDraws chains = 4 ∧
      (∀ d ∈ chains, (d.mapColumn (.affine (-2) 1) 0).summary =
        { d.summary with parameters := d.summary.parameters.modify 0 (.inUnits (-2) 1) }) ∧
      Convergence.ofChains (chains.map (mapColumn (.affine (-2) 1) 0)) =
        Convergence.ofChains chains ∧
      Convergence.ofChains chains.reverse = Convergence.ofChains chains := by
  intro chains
  have hreal : ∀ d ∈ chains, d.IsReal := by
    intro d hd
    rcases List.mem_pair.1 hd with rfl | rfl <;> exact isReal_ofSeries _
  have hsize : ∀ d ∈ chains, d.size ≤ Scalar.countLimit := by
    intro d hd
    rcases List.mem_pair.1 hd with rfl | rfl <;> decide
  have hused : Convergence.usableDraws chains = 4 := by
    simp [chains, Convergence.usableDraws, size, ofSeries]
  have hcount : 2 * chains.length ≤ Scalar.countLimit ∧
      Convergence.usableDraws chains / 2 ≤ Scalar.countLimit := by
    rw [hused]
    decide
  obtain ⟨hsummaries, hunits, horders⟩ := summary_ofChains_invariant chains hreal
  have hfactor : (-2 : ℝ) ≠ 0 := by norm_num
  exact ⟨hreal, hused, fun d hd => (hsummaries d hd).1 (hsize d hd) (-2) 1 hfactor 0,
    hunits (fun _ => hcount) (-2) 1 hfactor 0, horders _ (List.reverse_perm chains)⟩

end Draws

end Metropolis
