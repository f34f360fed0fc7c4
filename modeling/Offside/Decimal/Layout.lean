import Offside.Decimal.Shortest

/-!
# The text of a double

A double is written with its shortest decimal, positionally or with an exponent. A `Layout` holds
what a format decides: which exponents are written out positionally and whether a whole number
keeps a point.
-/

set_option autoImplicit false

namespace Offside

namespace Decimal

/-- A decimal without an exponent. -/
def positional (d : Decimal) : List Char :=
  let ds := Nat.toDigits 10 d.digits
  if 0 ≤ d.exponent then ds ++ List.replicate d.exponent.toNat '0'
  else
    let places := (-d.exponent).toNat
    let padded := List.replicate (places + 1 - ds.length) '0' ++ ds
    let whole := padded.length - places
    padded.take whole ++ '.' :: padded.drop whole

/-- A decimal with one digit before the point and an exponent of at least two digits. -/
def scientific (d : Decimal) : List Char :=
  let e := d.leadingExponent
  let fraction := match Nat.toDigits 10 d.digits with
    | [] => []
    | [lead] => [lead]
    | lead :: more => lead :: '.' :: more
  let power := Nat.toDigits 10 e.natAbs
  fraction ++ 'e' :: (if e < 0 then '-' else '+') ::
    List.replicate (2 - power.length) '0' ++ power

end Decimal

/-- What a format decides about the text of doubles. -/
structure Layout where
  /-- Whether a number with this leading exponent is written without an exponent. -/
  isPositional : Int → Bool
  /-- Whether a whole number is written with a point and a zero. -/
  keepsPoint : Bool

namespace Layout

/-- The text of a double without its sign. -/
def magnitude (style : Layout) (d : Decimal) : List Char :=
  if d.digits = 0 ∨ style.isPositional d.leadingExponent then
    let cs := d.positional
    if style.keepsPoint && !cs.contains '.' then cs ++ ['.', '0'] else cs
  else d.scientific

/-- The text of a double. -/
def render (style : Layout) (x : Float) : String :=
  match Double.ofFloat x with
  | .nan => "NaN"
  | .infinite negative => if negative then "-Inf" else "+Inf"
  | .finite negative mantissa exponent =>
      let cs := style.magnitude (Decimal.shortest mantissa exponent)
      String.ofList (if negative then '-' :: cs else cs)

/-- Always positional, and a whole number has no point. -/
def plain : Layout := ⟨fun _ => true, false⟩

/-- Always positional, and a whole number ends in a point and a zero. -/
def pointed : Layout := ⟨fun _ => true, true⟩

/-- Positional from four zeros around the point up to six digits before it. -/
def compact : Layout := ⟨fun e => -4 ≤ e && e < 6, false⟩

end Layout

end Offside
