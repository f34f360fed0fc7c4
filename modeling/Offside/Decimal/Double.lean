/-!
# Doubles as exact numbers

A double is not a number, an infinity, or a whole number times a power of two. In the other
direction, a quotient of two whole numbers has one nearest double; of two that are equally near,
the one with the even last bit is taken.
-/

set_option autoImplicit false

namespace Offside

/-- What a double stands for. -/
inductive Double where
  /-- No number. -/
  | nan
  /-- An infinity with its sign. -/
  | infinite (negative : Bool)
  /-- The number `mantissa · 2 ^ exponent` with its sign. -/
  | finite (negative : Bool) (mantissa : Nat) (exponent : Int)
  deriving DecidableEq, Repr, Inhabited

namespace Double

/-- The exponent of the smallest doubles. -/
def leastExponent : Int := -1074

/-- The number of bits behind the leading one. -/
def fractionBits : Nat := 52

/-- Takes a double apart. -/
def ofFloat (x : Float) : Double :=
  let bits := x.toBits.toNat
  let negative := decide (Nat.pow 2 63 ≤ bits)
  let exponent : Nat := bits / Nat.pow 2 fractionBits % Nat.pow 2 11
  let fraction : Nat := bits % Nat.pow 2 fractionBits
  if exponent = 2047 then
    if fraction = 0 then infinite negative else nan
  else if exponent = 0 then finite negative fraction leastExponent
  else finite negative (fraction + Nat.pow 2 fractionBits) (exponent - 1 + leastExponent)

/-- The double with the given sign whose other bits are `bits`, at most those of infinity. -/
def assemble (negative : Bool) (bits : Nat) : Float :=
  let magnitude := min bits (2047 * Nat.pow 2 fractionBits)
  .ofBits (UInt64.ofNat (if negative then magnitude + Nat.pow 2 63 else magnitude))

/-- The infinity with the given sign. -/
def infinity (negative : Bool) : Float := assemble negative (2047 * Nat.pow 2 fractionBits)

/-- A double that is no number. -/
def notANumber : Float := .ofBits (UInt64.ofNat (2047 * Nat.pow 2 fractionBits + Nat.pow 2 51))

/-- The whole number nearest to `num / den`; of two equally near ones the even one. -/
def roundDiv (num den : Nat) : Nat :=
  let q := num / den
  let twice := 2 * (num % den)
  if twice < den then q
  else if den < twice then q + 1
  else q + q % 2

/-- The numerator and the denominator of `num / (den · 2 ^ e)`. -/
def scaled (num den : Nat) (e : Int) : Nat × Nat :=
  (num * Nat.pow 2 (-e).toNat, den * Nat.pow 2 e.toNat)

/-- The double nearest to `num / den`, or an infinity if that is too large. -/
def ofRatio (negative : Bool) (num den : Nat) : Float :=
  if num = 0 then assemble negative 0
  else
    let guess : Int := (num.log2 : Int) - (den.log2 : Int) - 53
    let (a, b) := scaled num den guess
    let exponent := max leastExponent (if a / b < Nat.pow 2 53 then guess else guess + 1)
    let (a, b) := scaled num den exponent
    let mantissa := roundDiv a b
    let step := (exponent - leastExponent).toNat
    assemble negative (step * Nat.pow 2 fractionBits + mantissa)

/-- The double nearest to `mantissa · 2 ^ exponent`. -/
def ofBinary (negative : Bool) (mantissa : Nat) (exponent : Int) : Float :=
  ofRatio negative (mantissa * Nat.pow 2 exponent.toNat) (Nat.pow 2 (-exponent).toNat)

end Double

end Offside
