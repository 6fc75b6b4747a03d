import Metropolis.Text.Width

/-!
Tables with a header, drawn with box characters.

Every column is as wide as the widest line in it, and at least one character. Cells stand at the
left with a blank on either side. A cell of several lines makes its row as high as it needs.
-/

namespace Metropolis.Text.Table

/-- The lines of a cell. -/
def cellLines (cell : String) : List String := cell.splitOn "\n"

/-- The width of column `j`. -/
def columnWidth (rows : List (List String)) (j : Nat) : Nat :=
  ((rows.flatMap fun row => (cellLines (row.getD j "")).map width).foldl max 1)

/-- A line of a cell with its padding. -/
def padded (w : Nat) (line : String) : String :=
  " " ++ line ++ String.ofList (List.replicate (w - width line) ' ') ++ " "

/-- A horizontal rule: the two ends, the stroke and the crossing. -/
def rule (left stroke cross right : String) (widths : List Nat) : String :=
  left ++ cross.intercalate (widths.map fun w => String.join (List.replicate (w + 2) stroke)) ++
    right

/-- The drawn lines of a row. -/
def rowLines (widths : List Nat) (row : List String) : List String :=
  let cells := (List.range widths.length).map fun j => cellLines (row.getD j "")
  let height := (cells.map List.length).foldl max 0
  (List.range height).map fun i =>
    "│" ++ "┆".intercalate ((widths.zip cells).map fun p => padded p.1 (p.2.getD i "")) ++ "│"

/-- The drawn table, its lines separated by line breaks. -/
def render (header : List String) (rows : List (List String)) : String :=
  let widths := (List.range header.length).map (columnWidth (header :: rows))
  "\n".intercalate <|
    [rule "┌" "─" "┬" "┐" widths] ++ rowLines widths header ++
      [rule "╞" "═" "╪" "╡" widths] ++ rows.flatMap (rowLines widths) ++
      [rule "└" "─" "┴" "┘" widths]

end Metropolis.Text.Table
