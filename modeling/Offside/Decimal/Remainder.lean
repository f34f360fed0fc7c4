import Offside.Decimal.Double

/-!
# Remainders of doubles

The truncated remainder of two doubles is exact: both are whole multiples of one power of two, and
so is the remainder. It has the sign of the dividend. The floored remainder moves it to the side
of the divisor.
-/

set_option autoImplicit false

namespace Offside.Double

/-- The remainder of a division that rounds toward zero, with the sign of the dividend. There is
none of an infinity, by zero, or of what is no number. -/
def truncatedRemainder (x y : Float) : Float :=
  match ofFloat x, ofFloat y with
  | .finite negative m e, .finite _ n f =>
      if n = 0 then notANumber
      else
        let common := min e f
        let a := m * Nat.pow 2 (e - common).toNat
        let b := n * Nat.pow 2 (f - common).toNat
        ofBinary negative (a % b) common
  | .finite .., .infinite _ => x
  | _, _ => notANumber

/-- The remainder of a division that rounds down: it is zero or lies on the divisor's side. -/
def flooredRemainder (x y : Float) : Float :=
  let r := truncatedRemainder x y
  if r != 0 && (r < 0) != (y < 0) then r + y else r

end Offside.Double
