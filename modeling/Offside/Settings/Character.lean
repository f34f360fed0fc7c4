/-!
# Characters of a settings file

Which characters break a line, which are blank, and which can be written as they are. Besides the
line feed there are two characters that break a line and are kept where they stand.
-/

set_option autoImplicit false

namespace Offside.Settings

/-- The single quote. -/
def singleQuote : Char := Char.ofNat 0x27

/-- The character that separates lines. -/
def lineSeparator : Char := Char.ofNat 0x2028

/-- The character that separates paragraphs. -/
def paragraphSeparator : Char := Char.ofNat 0x2029

/-- The character that tells how a file is encoded. -/
def byteOrderMark : Char := Char.ofNat 0xFEFF

/-- Whether a character breaks a line. -/
def isBreak (c : Char) : Bool := c == '\n' || c == lineSeparator || c == paragraphSeparator

/-- Whether a character is blank within a line. -/
def isBlank (c : Char) : Bool := c == ' ' || c == '\t'

/-- Whether nothing, a blank or a line break follows. -/
def blankFollows : List Char → Bool
  | [] => true
  | c :: _ => isBlank c || isBreak c

/-- Whether a character can be written as it is. -/
def isWritable (c : Char) : Bool :=
  let n := c.toNat
  n == 0x0A || (0x20 ≤ n && n ≤ 0x7E) || (0xA0 ≤ n && n ≤ 0xFFFD && c != byteOrderMark)

/-- Whether characters start with a document mark. -/
def startsWithMark : List Char → Bool
  | '-' :: '-' :: '-' :: rest | '.' :: '.' :: '.' :: rest => blankFollows rest
  | _ => false

/-- Whether a character may stand in a name that is given to an item. -/
def isNameCharacter (c : Char) : Bool := c.isAlphanum || c == '_' || c == '-'

/-- The characters with a short escape in double quotes, by code. -/
def shortEscapes : List (Nat × Char) :=
  [(0x00, '0'), (0x07, 'a'), (0x08, 'b'), (0x09, 't'), (0x0A, 'n'), (0x0B, 'v'), (0x0C, 'f'),
    (0x0D, 'r'), (0x1B, 'e'), (0x22, '"'), (0x5C, '\\'), (0x85, 'N'), (0xA0, '_'), (0x2028, 'L'),
    (0x2029, 'P')]

end Offside.Settings
