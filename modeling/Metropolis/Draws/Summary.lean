import Metropolis.Draws
import Metropolis.Series.Quantile
import Metropolis.Series.Autocorrelation
import Metropolis.Decimal.Fixed
import Metropolis.Text.Table

/-!
Summaries of retained draws, parameter by parameter.
-/

namespace Metropolis

structure ParameterSummary (α : Type) where
  name : String
  mean : α
  variance : α
  deviation : α
  q025 : α
  q50 : α
  q975 : α
  effectiveSize : α

structure Summary (α : Type) where
  parameters : List (ParameterSummary α)
  draws : Nat

namespace ParameterSummary

variable {α : Type} [Scalar α]

/-- The summary of a parameter from its values, all zeros if there are none. -/
def ofValues (name : String) (values : List α) : ParameterSummary α :=
  if values.isEmpty then ⟨name, 0, 0, 0, 0, 0, 0, 0⟩
  else
    let ordered := Series.sorted values
    let variance := Series.populationVariance values
    { name := name
      mean := Series.mean values
      variance := variance
      deviation := Scalar.sqrt variance
      q025 := Series.quantile ordered 0.025
      q50 := Series.quantile ordered 0.5
      q975 := Series.quantile ordered 0.975
      effectiveSize := Series.effectiveSize values }

end ParameterSummary

/-- The summary of every named parameter, of none if there are no draws. -/
def Draws.summary {α : Type} [Scalar α] (d : Draws α) : Summary α :=
  if d.isEmpty then ⟨[], 0⟩
  else
    { parameters := (d.names.zip (List.range d.names.length)).map fun p =>
        .ofValues p.1 (d.column p.2)
      draws := d.size }

namespace Summary

/-- The summary of the first parameter of a name. -/
def find? {α : Type} (s : Summary α) (name : String) : Option (ParameterSummary α) :=
  s.parameters.find? fun p => p.name == name

def tableHeader : List String := ["parameter", "mean", "sd", "2.5%", "50%", "97.5%", "ess"]

/-- The summary as a table with four decimal places. -/
def table (s : Summary Float) : String :=
  Text.Table.render tableHeader <| s.parameters.map fun p =>
    [p.name, Decimal.fixed 4 p.mean, Decimal.fixed 4 p.deviation, Decimal.fixed 4 p.q025,
      Decimal.fixed 4 p.q50, Decimal.fixed 4 p.q975, Decimal.fixed 0 p.effectiveSize]

end Summary

end Metropolis
