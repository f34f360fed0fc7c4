import Offside.Decimal.Shortest

/-!
# Reading numerals

A numeral is read as a decimal, and a decimal as the double nearest to it.
-/

set_option autoImplicit false

namespace Offside

namespace Decimal

/-- The double nearest to a decimal. What lies far outside the range of doubles is recognised by
the exponent of its first digit. -/
def toFloat (negative : Bool) (d : Decimal) : Float :=
  if d.digits = 0 ∨ d.leadingExponent < -400 then Double.assemble negative 0
  else if 400 < d.leadingExponent then Double.infinity negative
  else Double.ofRatio negative (d.digits * Nat.pow 10 d.exponent.toNat)
    (Nat.pow 10 (-d.exponent).toNat)

end Decimal

namespace Numeral

/-- Whether a character is an ASCII digit. -/
def isDigit (c : Char) : Bool := '0' ≤ c && c ≤ '9'

/-- The whole number that ASCII digits spell. -/
def ofDigits (ds : List Char) : Nat := ds.foldl (fun n c => 10 * n + (c.toNat - 0x30)) 0

/-- Whether the characters are ASCII digits, at least one. -/
def isWhole (cs : List Char) : Bool := !cs.isEmpty && cs.all isDigit

/-- Splits characters at the first one that is marked, which is dropped. -/
def splitAtFirst (marked : Char → Bool) (cs : List Char) : List Char × Option (List Char) :=
  let front := cs.takeWhile fun c => !marked c
  match cs.dropWhile fun c => !marked c with
  | [] => (front, none)
  | _ :: rest => (front, some rest)

/-- Digits with at most one point among them, as a decimal. -/
def decimal? (cs : List Char) : Option Decimal :=
  let (whole, fraction?) := splitAtFirst (· == '.') cs
  let fraction := fraction?.getD []
  if isWhole (whole ++ fraction) then
    some ⟨ofDigits (whole ++ fraction), -(fraction.length : Int)⟩
  else none

/-- The finite double that digits with at most one point spell. -/
def finite? (cs : List Char) : Option Float := do
  let x := (← decimal? cs).toFloat false
  if x.isFinite then some x else none

/-- Takes a sign off the front: whether it is a minus, and the rest. -/
def splitSign : List Char → Bool × List Char
  | '-' :: rest => (true, rest)
  | '+' :: rest => (false, rest)
  | cs => (false, cs)

/-- A whole number with an optional sign. -/
def int? (cs : List Char) : Option Int :=
  let (negative, ds) := splitSign cs
  if isWhole ds then some (if negative then -(ofDigits ds : Int) else ofDigits ds) else none

/-- The double spelled by a decimal with an optional sign and exponent, or by the name of a
special double. -/
def float? (s : String) : Option Float :=
  let (negative, cs) := splitSign s.toList
  if cs = ['N', 'a', 'N'] then some Double.notANumber
  else if cs = ['I', 'n', 'f'] then some (Double.infinity negative)
  else do
    let (digits, power?) := splitAtFirst (fun c => c == 'e' || c == 'E') cs
    let d ← decimal? digits
    let power ← match power? with
      | none => some 0
      | some ps => int? ps
    some (Decimal.toFloat negative { d with exponent := d.exponent + power })

end Numeral

end Offside
