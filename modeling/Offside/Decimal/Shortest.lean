import Offside.Decimal.Double

/-!
# The shortest decimal of a double

Every real number between the two midpoints around a double rounds to that double. Among the
decimals there, the shortest are those on the coarsest grid of powers of ten, and of these the one
nearest to the double is its decimal.
-/

set_option autoImplicit false

namespace Offside

/-- The number `digits · 10 ^ exponent`. -/
structure Decimal where
  /-- The digits, read as a whole number. -/
  digits : Nat
  /-- The power of ten they are multiplied by. -/
  exponent : Int
  deriving DecidableEq, Repr, Inhabited

namespace Decimal

/-- The exponent of the first digit. -/
def leadingExponent (d : Decimal) : Int :=
  d.exponent + (Nat.toDigits 10 d.digits).length - 1

/-- Both sides of the comparison of `x · 2 ^ e` with `y · 10 ^ q`, made whole. -/
def crossed (x : Nat) (e : Int) (y : Nat) (q : Int) : Nat × Nat :=
  (x * Nat.pow 2 e.toNat * Nat.pow 10 (-q).toNat, y * Nat.pow 10 q.toNat * Nat.pow 2 (-e).toNat)

/-- The reals that round to a double, as whole multiples of `2 ^ exponent`: the double itself, the
midpoints below and above it, and whether the midpoints belong to it. -/
structure Rounding where
  /-- The double. -/
  value : Nat
  /-- The midpoint below. -/
  low : Nat
  /-- The midpoint above. -/
  high : Nat
  /-- The power of two that all three are multiplied by. -/
  exponent : Int
  /-- Whether the midpoints round to the double. -/
  inclusive : Bool

/-- The reals that round to `mantissa · 2 ^ exponent`. Below a power of two the doubles are twice
as dense, so there the lower midpoint is nearer. -/
def Rounding.ofDouble (mantissa : Nat) (exponent : Int) : Rounding :=
  let dense := mantissa = Nat.pow 2 Double.fractionBits ∧ Double.leastExponent < exponent
  { value := 4 * mantissa
    low := if dense then 4 * mantissa - 1 else 4 * mantissa - 2
    high := 4 * mantissa + 2
    exponent := exponent - 2
    inclusive := mantissa % 2 = 0 }

/-- Whether the decimal `digits · 10 ^ q` rounds to the double. -/
def Rounding.contains (r : Rounding) (digits : Nat) (q : Int) : Bool :=
  let (low, d) := crossed r.low r.exponent digits q
  let (high, _) := crossed r.high r.exponent digits q
  if r.inclusive then low ≤ d && d ≤ high else low < d && d < high

/-- The decimal on the grid of multiples of `10 ^ q` that rounds to the double and is nearest to
it, if one does. A tie goes to the even neighbour. -/
def Rounding.nearest? (r : Rounding) (q : Int) : Option Nat :=
  let (value, unit) := crossed r.value r.exponent 1 q
  let below := value / unit
  let above := below + 1
  match r.contains below q, r.contains above q with
  | false, false => none
  | true, false => some below
  | false, true => some above
  | true, true => some (Double.roundDiv value unit)

/-- Tries ever finer grids, at most `tries` of them. -/
def Rounding.search (r : Rounding) : (tries : Nat) → (q : Int) → Decimal
  | 0, q => ⟨0, q⟩
  | tries + 1, q =>
      match r.nearest? q with
      | some digits => ⟨digits, q⟩
      | none => r.search tries (q - 1)

/-- The shortest decimal that rounds to `mantissa · 2 ^ exponent`. -/
def shortest (mantissa : Nat) (exponent : Int) : Decimal :=
  if mantissa = 0 then ⟨0, 0⟩
  else
    let binaryDigits : Int := mantissa.log2 + exponent + 1
    let coarsest := binaryDigits * 30103 / 100000 + 2
    (Rounding.ofDouble mantissa exponent).search 40 coarsest

end Decimal

end Offside
