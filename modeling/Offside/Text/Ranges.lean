/-!
# Classes of characters as ranges

A class of characters is given by the ascending list of the ranges of its code points.
-/

set_option autoImplicit false

namespace Offside.Text

/-- Whether a number lies in one of the given ranges, which ascend and include their ends. -/
def inRanges : List (Nat × Nat) → Nat → Bool
  | [], _ => false
  | (low, high) :: rest, n =>
      if n < low then false
      else if n ≤ high then true
      else inRanges rest n

end Offside.Text
