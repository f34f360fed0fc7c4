/-!
# Positions in a source

A position is a line and a column, both counted from zero; messages count both from one.
-/

set_option autoImplicit false

namespace Offside

/-- A place in a source: line and column, counted from zero. -/
structure Position where
  /-- The number of line breaks before the place. -/
  line : Int
  /-- The number of runes since the last of them. -/
  column : Int
  deriving DecidableEq, Repr, Inhabited

namespace Position

/-- The place where a source starts. -/
def start : Position := ⟨0, 0⟩

/-- The place after a character that stands here. -/
def advance (p : Position) (c : Char) : Position :=
  if c = '\n' then ⟨p.line + 1, 0⟩ else ⟨p.line, p.column + 1⟩

/-- A position as messages show it. -/
def render (p : Position) : String := s!"(l{p.line + 1}:c{p.column + 1})"

end Position

end Offside
