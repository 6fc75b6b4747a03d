/-!
The schedule of a chain: how long it runs, and which of its iterations are kept.
-/

namespace Metropolis

structure Schedule where
  /-- All iterations, the burn-in included. -/
  iterations : Nat := 4000
  /-- The leading iterations of which no draw is kept. -/
  burnIn : Nat := 1000
  /-- One in `thin` of the later draws is kept. -/
  thin : Nat := 1
  /-- The leading iterations in which the proposal adapts. -/
  warmUp : Nat := 1000
  /-- The random candidates for the start, besides the centre of the starting distribution. -/
  gridSize : Nat := 0
  seed : UInt64 := 42

inductive ScheduleError where
  | noIterations
  | burnInTooLong (burnIn iterations : Nat)
  | noThinning
  | warmUpTooLong (warmUp burnIn : Nat)
deriving Repr, DecidableEq

def ScheduleError.message : ScheduleError → String
  | .noIterations => "iterations must be positive"
  | .burnInTooLong burnIn iterations =>
    s!"burn-in ({burnIn}) must be smaller than iterations ({iterations})"
  | .noThinning => "thinning interval must be positive"
  | .warmUpTooLong warmUp burnIn => s!"warm-up ({warmUp}) must not exceed burn-in ({burnIn})"

namespace Schedule

/-- A schedule by which a chain can run: draws are kept, and none while the proposal adapts. -/
structure Valid (s : Schedule) : Prop where
  iterations_pos : 0 < s.iterations
  burnIn_lt : s.burnIn < s.iterations
  thin_pos : 0 < s.thin
  warmUp_le : s.warmUp ≤ s.burnIn

/-- The first fault of a schedule. -/
def check (s : Schedule) : Except ScheduleError Unit :=
  if s.iterations = 0 then .error .noIterations
  else if s.iterations ≤ s.burnIn then .error (.burnInTooLong s.burnIn s.iterations)
  else if s.thin = 0 then .error .noThinning
  else if s.burnIn < s.warmUp then .error (.warmUpTooLong s.warmUp s.burnIn)
  else .ok ()

theorem check_eq_ok_iff (s : Schedule) : s.check = .ok () ↔ s.Valid := by
  grind [check, Valid]

/-- The number of draws kept: iterations `burnIn`, `burnIn + thin` and so on, the last stride
counting also where it is cut short. -/
def retained (s : Schedule) : Nat := (s.iterations - s.burnIn + s.thin - 1) / s.thin

end Schedule

end Metropolis
