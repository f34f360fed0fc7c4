import Offside.Text.Rune

/-!
# White space

The white space of scripts is Unicode's: the control characters from tab to carriage return, the
space, and the further spaces and separators listed here.
-/

set_option autoImplicit false

namespace Offside.Text

/-- The code points of white space. -/
def blankPoints : List Nat :=
  [0x09, 0x0A, 0x0B, 0x0C, 0x0D, 0x20, 0x85, 0xA0, 0x1680, 0x2000, 0x2001, 0x2002, 0x2003, 0x2004,
    0x2005, 0x2006, 0x2007, 0x2008, 0x2009, 0x200A, 0x2028, 0x2029, 0x202F, 0x205F, 0x3000]

/-- Whether a character is white space. -/
def isBlank (c : Char) : Bool := blankPoints.contains c.toNat

/-- Whether a text consists of white space only; the empty text does. -/
def isBlankLine (t : Text) : Bool := t.chars.all isBlank

end Offside.Text
