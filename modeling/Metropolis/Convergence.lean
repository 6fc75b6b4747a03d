import Metropolis.Draws
import Metropolis.Series.SplitRhat

/-!
Convergence of several chains: the potential scale reduction of the halves of all chains, for
every parameter.
-/

namespace Metropolis

structure Convergence (α : Type) where
  chains : Nat
  /-- The draws of every chain that were looked at, an even number. -/
  drawsUsed : Nat
  names : List String
  splitRhat : List α
  largest : Option α

namespace Convergence

variable {α : Type} [Scalar α]

/-- The largest even number of draws that every chain has. -/
def usableDraws (chains : List (Draws α)) : Nat :=
  let fewest := (chains.map Draws.size).min?.getD 0
  fewest - fewest % 2

/-- The first and the second half of the leading `used` values of every chain. -/
def halves (used : Nat) (columns : List (List α)) : List (List α) :=
  columns.flatMap fun values => [values.take (used / 2), (values.take used).drop (used / 2)]

/-- The largest number in the order for sorting. -/
def largest? (xs : List α) : Option α :=
  match xs with
  | [] => none
  | x :: rest => some (rest.foldl (fun best y => if Scalar.totalLe best y then y else best) x)

omit [Scalar α] in
/-- Whether a chain has the given names, and a value for each of them in every draw. -/
def agrees (names : List String) (chain : Draws α) : Bool :=
  chain.names == names && chain.points.all fun p => p.parameters.length == names.length

/-- Compares at least two chains of at least four draws. -/
def ofChains (chains : List (Draws α)) : Except EnsembleError (Convergence α) :=
  let used := usableDraws chains
  let names := (chains.head?.map Draws.names).getD []
  if chains.length < 2 then .error (.tooFewChains 2 chains.length)
  else if used < 4 then .error (.tooFewDraws 4 used)
  else if !chains.all (agrees names) then .error .mismatched
  else do
    let rhats ← (List.range names.length).mapM fun index =>
      Series.splitRhat (halves used (chains.map fun c => c.column index))
    return {
      chains := chains.length
      drawsUsed := used
      names := names
      splitRhat := rhats
      largest := largest? rhats }

end Convergence

end Metropolis
