import Mathlib.Data.List.Basic
import Metropolis.Decimal.Shortest
import Metropolis.Draws.Report

/-!
# Reading a report back

A report is its lines with a line break after each, and a line its cells with tabs between them. If
no cell holds a tab or a line break, splitting takes the report apart again: at line breaks into the
lines and an empty rest, and a line at tabs into its cells. A reader of numbers then recovers the
names and the numbers, so that the report loses nothing of them.
-/

namespace Metropolis

/-! ## Cells and lines -/

/-- The pieces of a text between the occurrences of a character. -/
def pieces (c : Char) (text : String) : List String :=
  (text.split c).toList.map String.Slice.copy

theorem pieces_intercalate {c : Char} {texts : List String} (hne : texts ≠ [])
    (h : ∀ text ∈ texts, c ∉ text.toList) :
    pieces c ((String.singleton c).intercalate texts) = texts := by
  rw [pieces, String.toList_split_intercalate h, if_neg hne]

/-- Texts each with a line break after it are texts with line breaks between them, the last of them
empty. -/
theorem join_lines (texts : List String) :
    String.join (texts.map (· ++ "\n")) = (String.singleton '\n').intercalate (texts ++ [""]) := by
  induction texts with
  | nil => rw [List.map_nil, String.join_nil, List.nil_append, String.intercalate_singleton]
  | cons text texts ih =>
    have hne : texts ++ [""] ≠ [] := List.append_ne_nil_of_right_ne_nil _ (List.cons_ne_nil _ _)
    rw [List.map_cons, String.join_cons, ih, List.cons_append,
      String.intercalate_cons_of_ne_nil hne]
    rfl

/-- A text that can stand in a cell of a report. -/
structure IsCell (text : String) : Prop where
  tab : '\t' ∉ text.toList
  lineBreak : '\n' ∉ text.toList

instance (text : String) : Decidable (IsCell text) :=
  decidable_of_iff ('\t' ∉ text.toList ∧ '\n' ∉ text.toList)
    ⟨fun h => ⟨h.1, h.2⟩, fun h => ⟨h.tab, h.lineBreak⟩⟩

/-! ## The text of a double -/

namespace Decimal

/-- The characters of a decimal that is written out. -/
def IsNumeralChar (c : Char) : Prop := c.isDigit = true ∨ c = '.' ∨ c = '-'

theorem isNumeralChar_digits {n : ℕ} {c : Char} (h : c ∈ digits n) : IsNumeralChar c :=
  .inl (Nat.isDigit_of_mem_toDigits (by decide) (Nat.le_refl 10) h)

theorem isNumeralChar_replicate {n : ℕ} {c : Char} (h : c ∈ List.replicate n '0') :
    IsNumeralChar c := by
  rw [List.eq_of_mem_replicate h]
  exact .inl rfl

theorem isNumeralChar_positional {number : Numeral} {c : Char} (h : c ∈ positional number) :
    IsNumeralChar c := by
  unfold positional at h
  dsimp only at h
  generalize hpadded : List.replicate _ '0' ++ digits number.significand = padded at h
  have hpad : ∀ c ∈ padded, IsNumeralChar c := by
    rw [← hpadded, List.forall_mem_append]
    exact ⟨fun c => isNumeralChar_replicate, fun c => isNumeralChar_digits⟩
  split at h
  · exact (List.mem_append.1 h).elim isNumeralChar_digits isNumeralChar_replicate
  · split at h
    · exact hpad c (List.mem_of_mem_take h)
    · rcases List.mem_append.1 h with h | h
      · exact hpad c (List.mem_of_mem_take h)
      · rcases List.mem_cons.1 h with rfl | h
        · exact .inr (.inl rfl)
        · have hkept := (List.dropWhile_sublist _).mem (List.mem_reverse.1 h)
          exact hpad c (List.mem_of_mem_drop (List.mem_reverse.1 hkept))

theorem isCell_of_isNumeralChar {text : String} (h : ∀ c ∈ text.toList, IsNumeralChar c) :
    IsCell text := by
  constructor <;> intro hmem <;> rcases h _ hmem with h | h | h <;> revert h <;> decide

/-- The text of a double holds no tab and no line break. -/
theorem isCell_shortestText (x : Float) : IsCell (shortestText x) := by
  unfold shortestText
  dsimp only
  split
  · decide
  · split
    · split <;> decide
    · apply isCell_of_isNumeralChar
      have hsign : ∀ c ∈ (if (Binary.ofFloat x).negative then "-" else "").toList,
          IsNumeralChar c := by
        split
        · exact fun c hc => .inr (.inr (List.mem_singleton.1 hc))
        · exact fun c hc => absurd hc List.not_mem_nil
      split <;> rw [String.toList_append, List.forall_mem_append] <;> refine ⟨hsign, ?_⟩
      · exact fun c hc => .inl (List.mem_singleton.1 hc ▸ rfl)
      · rw [String.toList_ofList]
        exact fun c => isNumeralChar_positional

/-- The double nearest to digits with or without a point among them. -/
def magnitude? (cs : List Char) : Option Float :=
  let whole := cs.takeWhile (· != '.')
  let fraction := (cs.dropWhile (· != '.')).drop 1
  if (whole ++ fraction).all Char.isDigit && !whole.isEmpty then
    some (Float.ofScientific (Nat.ofDigitChars 10 (whole ++ fraction) 0) true fraction.length)
  else none

/-- The double nearest to a decimal that is written out, or the one that is named. -/
def double? (text : String) : Option Float :=
  match text.toList with
  | ['N', 'a', 'N'] => some (0 / 0)
  | ['i', 'n', 'f'] => some (1 / 0)
  | ['-', 'i', 'n', 'f'] => some (-1 / 0)
  | '-' :: cs => (magnitude? cs).map (-·)
  | cs => magnitude? cs

end Decimal

/-! ## Reports -/

namespace Draws

theorem joinCells_eq_intercalate (cells : List String) :
    joinCells cells = (String.singleton '\t').intercalate cells := by
  fun_induction joinCells cells with
  | case1 => exact String.intercalate_nil.symm
  | case2 cell => exact String.intercalate_singleton.symm
  | case3 cell rest hne ih =>
    rw [ih, String.intercalate_cons_of_ne_nil hne]
    rfl

theorem lineBreak_not_mem_joinCells {cells : List String} (h : ∀ cell ∈ cells, IsCell cell) :
    '\n' ∉ (joinCells cells).toList := by
  fun_induction joinCells cells with
  | case1 => simp
  | case2 cell => exact (h cell List.mem_cons_self).lineBreak
  | case3 cell rest hne ih =>
    obtain ⟨hcell, hrest⟩ := List.forall_mem_cons.1 h
    simp [hcell.lineBreak, ih hrest]

theorem pieces_joinCells {cells : List String} (hne : cells ≠ [])
    (h : ∀ cell ∈ cells, IsCell cell) :
    pieces '\t' (joinCells cells) = cells := by
  rw [joinCells_eq_intercalate, pieces_intercalate hne fun cell hcell => (h cell hcell).tab]

/-- Lines of cells, each ended by a line break, split into the lines and an empty rest. -/
theorem pieces_lines {lines : List (List String)}
    (h : ∀ cells ∈ lines, ∀ cell ∈ cells, IsCell cell) :
    pieces '\n' (String.join (lines.map fun cells => joinCells cells ++ "\n")) =
      lines.map joinCells ++ [""] := by
  have hmap : (lines.map fun cells => joinCells cells ++ "\n") =
      (lines.map joinCells).map (· ++ "\n") := by
    rw [List.map_map]
    rfl
  -- No line holds a line break, and the rest after the last one is empty.
  rw [hmap, join_lines,
    pieces_intercalate (List.append_ne_nil_of_right_ne_nil _ (List.cons_ne_nil _ _))]
  intro line hline
  rcases List.mem_append.1 hline with hline | hline
  · obtain ⟨cells, hcells, rfl⟩ := List.mem_map.1 hline
    exact lineBreak_not_mem_joinCells (h cells hcells)
  · rw [List.mem_singleton.1 hline]
    exact List.not_mem_nil

/-! ## Reading -/

variable {α : Type}

/-- The names in the cells of a header. -/
def names? : List String → Option (List String)
  | "log_likelihood" :: names => some names
  | _ => none

/-- The log likelihood and the parameters in the cells of a line. -/
def row? (read : String → Option α) (cells : List String) : Option (α × List α) := do
  match ← cells.mapM read with
  | [] => none
  | logLikelihood :: parameters => return (logLikelihood, parameters)

/-- The names and the rows of a report. Each line must end with a line break and be as wide as the
header. -/
def read? (read : String → Option α) (text : String) :
    Option (List String × List (α × List α)) :=
  match pieces '\n' text with
  | [] => none
  | header :: rest =>
    if rest.getLast? = some "" then do
      let names ← names? (pieces '\t' header)
      let rows ← rest.dropLast.mapM fun line => row? read (pieces '\t' line)
      if ∀ row ∈ rows, row.2.length = names.length then return (names, rows) else none
    else none

/-- Draws with a column for every parameter, whose names and numbers have texts that can stand in
cells, those of the numbers such that they can be read. -/
structure IsReadable (number : α → String) (read : String → Option α) (d : Draws α) : Prop where
  names : ∀ name ∈ d.names, IsCell name
  width : ∀ p ∈ d.points, p.parameters.length = d.names.length
  numbers : ∀ p ∈ d.points, ∀ x ∈ p.logLikelihood :: p.parameters, IsCell (number x)
  read : ∀ p ∈ d.points, ∀ x ∈ p.logLikelihood :: p.parameters, read (number x) = some x

/-- What a report tells of a draw. -/
def shown (p : Point α) : α × List α := (p.logLikelihood, p.parameters)

theorem mapM_eq_some {β γ : Type} {f : β → Option γ} {g : β → γ} {xs : List β}
    (h : ∀ x ∈ xs, f x = some (g x)) : xs.mapM f = some (xs.map g) := by
  induction xs with
  | nil => rfl
  | cons x xs ih =>
    obtain ⟨hx, hxs⟩ := List.forall_mem_cons.1 h
    rw [List.mapM_cons, hx, ih hxs]
    rfl

variable {number : α → String} {read : String → Option α} {d : Draws α}

theorem pointCells_eq (number : α → String) (p : Point α) :
    pointCells number p = (p.logLikelihood :: p.parameters).map number := rfl

theorem length_headerCells (d : Draws α) : d.headerCells.length = 1 + d.names.length :=
  Nat.add_comm ..

namespace IsReadable

theorem isCell_header (h : IsReadable number read d) : ∀ cell ∈ d.headerCells, IsCell cell :=
  List.forall_mem_cons.2 ⟨by decide, h.names⟩

theorem isCell_point (h : IsReadable number read d) {p : Point α} (hp : p ∈ d.points) :
    ∀ cell ∈ pointCells number p, IsCell cell := by
  rw [pointCells_eq, List.forall_mem_map]
  exact h.numbers p hp

theorem length_pointCells (h : IsReadable number read d) {p : Point α} (hp : p ∈ d.points) :
    (pointCells number p).length = 1 + d.names.length := by
  rw [pointCells_eq, List.length_map, List.length_cons, h.width p hp, Nat.add_comm]

theorem pieces_report (h : IsReadable number read d) :
    pieces '\n' (d.report number) =
      joinCells d.headerCells :: d.points.map (joinCells ∘ pointCells number) ++ [""] := by
  rw [report, pieces_lines, List.map_cons, List.map_map]
  rw [List.forall_mem_cons, List.forall_mem_map]
  exact ⟨h.isCell_header, fun p hp => h.isCell_point hp⟩

theorem pieces_header (h : IsReadable number read d) :
    pieces '\t' (joinCells d.headerCells) = d.headerCells :=
  pieces_joinCells (List.cons_ne_nil _ _) h.isCell_header

theorem pieces_point (h : IsReadable number read d) {p : Point α} (hp : p ∈ d.points) :
    pieces '\t' (joinCells (pointCells number p)) = pointCells number p :=
  pieces_joinCells (List.cons_ne_nil _ _) (h.isCell_point hp)

theorem row?_point (h : IsReadable number read d) {p : Point α} (hp : p ∈ d.points) :
    row? read (pointCells number p) = some (shown p) := by
  have hcells : (pointCells number p).mapM read = some (p.logLikelihood :: p.parameters) := by
    have hread := mapM_eq_some (f := read ∘ number) (g := id) (h.read p hp)
    rw [pointCells_eq, List.mapM_map, hread, List.map_id]
  rw [row?, hcells]
  rfl

/-- Each line is read from its own cells, whatever the other lines are. -/
theorem read?_report (h : IsReadable number read d) :
    read? read (d.report number) = some (d.names, d.points.map shown) := by
  have hrows : (d.points.map (joinCells ∘ pointCells number)).mapM
      (fun line => row? read (pieces '\t' line)) = some (d.points.map shown) := by
    rw [List.mapM_map]
    refine mapM_eq_some fun p hp => ?_
    show row? read (pieces '\t' (joinCells (pointCells number p))) = _
    rw [h.pieces_point hp, h.row?_point hp]
  have hwidth : ∀ row ∈ d.points.map shown, row.2.length = d.names.length :=
    List.forall_mem_map.2 h.width
  -- The header is the first piece and the empty rest the last one.
  rw [read?, h.pieces_report, List.cons_append]
  dsimp only
  rw [List.getLast?_concat, if_pos rfl, List.dropLast_concat, h.pieces_header, hrows]
  exact if_pos hwidth

end IsReadable

/-- A report is read back. At line breaks it splits into the header, a line for every draw and an
empty rest, and each line at tabs into its cells, which are one more than the names. The reader then
finds the names and, draw by draw, the log likelihood and the parameters. Draws with the same report
therefore have the same names, log likelihoods and parameters. -/
theorem report_read (readable : IsReadable number read d) :
    (pieces '\n' (d.report number) =
      joinCells d.headerCells :: d.points.map (joinCells ∘ pointCells number) ++ [""]) ∧
      (∀ line ∈ (pieces '\n' (d.report number)).dropLast,
        (pieces '\t' line).length = 1 + d.names.length) ∧
      pieces '\t' (joinCells d.headerCells) = "log_likelihood" :: d.names ∧
      (∀ p ∈ d.points, pieces '\t' (joinCells (pointCells number p)) =
        number p.logLikelihood :: p.parameters.map number) ∧
      read? read (d.report number) =
        some (d.names, d.points.map fun p => (p.logLikelihood, p.parameters)) ∧
      ∀ e : Draws α, IsReadable number read e → e.report number = d.report number →
        e.names = d.names ∧ e.points.map Point.logLikelihood = d.points.map Point.logLikelihood ∧
          e.points.map Point.parameters = d.points.map Point.parameters := by
  refine ⟨readable.pieces_report, ?_, readable.pieces_header, fun p hp => readable.pieces_point hp,
    readable.read?_report, fun e he heq => ?_⟩
  · rw [readable.pieces_report, List.dropLast_concat, List.forall_mem_cons, List.forall_mem_map]
    refine ⟨?_, fun p hp => ?_⟩
    · rw [readable.pieces_header, length_headerCells]
    · show (pieces '\t' (joinCells (pointCells number p))).length = _
      rw [readable.pieces_point hp, readable.length_pointCells hp]
  · have hread := he.read?_report
    rw [heq, readable.read?_report, Option.some.injEq, Prod.mk.injEq] at hread
    obtain ⟨hnames, hpoints⟩ := hread
    -- The parts of what is read of a draw are its log likelihood and its parameters.
    have hfst := congrArg (List.map Prod.fst) hpoints.symm
    have hsnd := congrArg (List.map Prod.snd) hpoints.symm
    rw [List.map_map, List.map_map] at hfst hsnd
    exact ⟨hnames.symm, hfst, hsnd⟩

/-- Two draws of two parameters, of which one has no name. -/
def twoDraws : Draws Float where
  names := ["mean", ""]
  points := [⟨[0, 1], -3.5, -4⟩, ⟨[2, 0.1], -2.25, -3⟩]

/-- A report of doubles, with the shortest texts that read back. -/
theorem report_read_twoDraws :
    IsReadable Decimal.shortestText Decimal.double? twoDraws ∧
      read? Decimal.double? (twoDraws.report Decimal.shortestText) =
        some (["mean", ""], [(-3.5, [0, 1]), (-2.25, [2, 0.1])]) := by
  have hreadable : IsReadable Decimal.shortestText Decimal.double? twoDraws :=
    { names := by decide
      width := by decide
      numbers := fun _ _ x _ => Decimal.isCell_shortestText x
      read := by decide +kernel }
  obtain ⟨-, -, -, -, hread, -⟩ := report_read hreadable
  exact ⟨hreadable, hread⟩

example : twoDraws.report Decimal.shortestText =
    "log_likelihood\tmean\t\n-3.5\t0\t1\n-2.25\t2\t0.1\n" := by
  decide +kernel

end Draws

end Metropolis
