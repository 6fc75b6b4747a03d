import Metropolis.Draws

/-!
The text of retained draws: a header and a line for every draw, in columns divided by tabs. The
first column is the logarithm of the likelihood, the others are the parameters.
-/

namespace Metropolis.Draws

variable {α : Type}

/-- The cells of the header. -/
def headerCells (d : Draws α) : List String := "log_likelihood" :: d.names

/-- The cells of a draw, with a text for numbers. -/
def pointCells (number : α → String) (p : Point α) : List String :=
  number p.logLikelihood :: p.parameters.map number

/-- Cells divided by tabs. -/
def joinCells : List String → String
  | [] => ""
  | [cell] => cell
  | cell :: rest => cell ++ "\t" ++ joinCells rest

/-- The report. Every line ends with a line break. -/
def report (number : α → String) (d : Draws α) : String :=
  String.join <|
    (d.headerCells :: d.points.map (pointCells number)).map fun cells => joinCells cells ++ "\n"

end Metropolis.Draws
