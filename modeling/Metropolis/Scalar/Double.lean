import Metropolis.Scalar
import Metropolis.Decimal.Binary

/-!
Doubles as scalars.

The order for sorting is the one of the signed bit patterns, so `-0` stands before `0`. Undefined
values stand after infinity, or before `-infinity` if their sign is set. A `Float` does not tell
them apart: its undefined value has no sign, and one that was stored with a sign is read as it. The
logarithm of the gamma function is the eleven-term Lanczos sum, reflected at one half.
-/

namespace Metropolis.Double

/-- The coefficients of the Lanczos sum after the constant one. -/
def lanczosCoefficients : List Float :=
  [1.05142378581721974210, -3.45687097222016235469, 4.51227709466894823700,
    -2.98285225323576655721, 1.05639711577126713077, -1.95428773191645869583e-1,
    1.70970543404441224307e-2, -5.71926117404305781283e-4, 4.63399473359905636708e-6,
    -2.71994908488607703910e-9]

/-- The Lanczos sum with the denominators `divisor 1`, `divisor 2`, and so on. -/
def lanczosSum (divisor : Float → Float) : Float :=
  (lanczosCoefficients.foldl (fun (sum, k) d => (sum + d / divisor k, k + 1.0))
    ((2.48574089138753565546e-5 : Float), (1.0 : Float))).1

/-- Half the logarithm of `4 e / π`. -/
def lanczosConstant : Float := 0.6207822376352452223455184

def lanczosShift : Float := 10.900511

def pi : Float := 3.141592653589793238462643383279

def euler : Float := 2.718281828459045235360287471352

def logGamma (x : Float) : Float :=
  if x < 0.5 then
    Float.log pi - Float.log (Float.sin (pi * x)) - Float.log (lanczosSum (fun k => k - x)) -
      lanczosConstant - (0.5 - x) * Float.log ((0.5 - x + lanczosShift) / euler)
  else
    Float.log (lanczosSum (fun k => x + k - 1.0)) + lanczosConstant +
      (x - 0.5) * Float.log ((x - 0.5 + lanczosShift) / euler)

/-- A double as it is stored, where an undefined value has a sign too. -/
structure Bits where
  word : UInt64
deriving Repr, DecidableEq

namespace Bits

def ofFloat (x : Float) : Bits := ⟨x.toBits⟩

def toFloat (b : Bits) : Float := .ofBits b.word

/-- Whether the sign is set. -/
def isNegative (b : Bits) : Bool := decide (Nat.pow 2 63 ≤ b.word.toNat)

/-- The place in the order for sorting. -/
def sortKey (b : Bits) : Int :=
  if b.isNegative then Int.ofNat (Nat.pow 2 63) - 1 - Int.ofNat b.word.toNat
  else Int.ofNat b.word.toNat

def totalLe (a b : Bits) : Bool := decide (a.sortKey ≤ b.sortKey)

end Bits

instance : Scalar Float where
  add := inferInstance
  sub := inferInstance
  mul := inferInstance
  div := inferInstance
  neg := inferInstance
  lt := inferInstance
  le := inferInstance
  beq := inferInstance
  decidableLT := fun x y => Float.decLt x y
  decidableLE := fun x y => Float.decLe x y
  decimal := inferInstance
  ofNat := Float.ofNat
  floor := fun x => (Decimal.Binary.ofFloat x).floor
  abs := Float.abs
  sqrt := Float.sqrt
  exp := Float.exp
  log := Float.log
  cos := Float.cos
  logGamma := logGamma
  pi := pi
  infinity := 1.0 / 0.0
  undefined := 0.0 / 0.0
  isUndefined := Float.isNaN
  isFinite := Float.isFinite
  totalLe := fun x y => (Bits.ofFloat x).totalLe (Bits.ofFloat y)

end Metropolis.Double
