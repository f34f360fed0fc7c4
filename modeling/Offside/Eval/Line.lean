import Offside.Decimal.Numeral
import Offside.Value

/-!
# Lines of input

A line is read up to and including its line feed. What it stands for is decided by its text
without the line end: digits alone are a number, digits with one point are a double, and
everything else is text.
-/

set_option autoImplicit false

namespace Offside

/-- The byte that ends a line. -/
def lineFeed : UInt8 := 10

/-- The byte that may stand before a line feed. -/
def carriageReturn : UInt8 := 13

namespace Text

/-- The first line of a text with its line feed, if it has one, and the rest. -/
def splitLine : Text → Text × Text
  | [] => ([], [])
  | b :: rest =>
      if b = lineFeed then ([b], rest)
      else
        let (line, left) := splitLine rest
        (b :: line, left)

/-- Whether a line has its line feed. -/
def endsLine (line : Text) : Bool := line.getLast? == some lineFeed

/-- A line without the line feeds and carriage returns at its end. -/
def trimLineEnd (line : Text) : Text :=
  (line.reverse.dropWhile fun b => b == lineFeed || b == carriageReturn).reverse

end Text

namespace Value

/-- Whether a byte is an ASCII digit. -/
def isDigitByte (b : UInt8) : Bool := 0x30 ≤ b && b ≤ 0x39

/-- The byte of a decimal point. -/
def pointByte : UInt8 := 0x2E

/-- Whether a text is digits, at least one. -/
def isDigits (t : Text) : Bool := !t.isEmpty && t.all isDigitByte

/-- ASCII bytes as characters. -/
def asciiChars (t : Text) : List Char := t.map fun b => Char.ofNat b.toNat

/-- What a line stands for: a whole number below two to the sixty-third, a finite double, or
text. -/
def ofLine (line : Text) : Value :=
  let wholeNumber := isDigits line
  let n := Numeral.ofDigits (asciiChars line)
  if wholeNumber && n < Nat.pow 2 63 then .int (.ofNat n)
  else if wholeNumber || (line.count pointByte == 1 && isDigits (line.erase pointByte)) then
    match Numeral.finite? (asciiChars line) with
    | some x => .float x
    | none => .string line
  else .string line

end Value

end Offside
