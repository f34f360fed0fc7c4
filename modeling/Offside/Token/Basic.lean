import Offside.Position
import Offside.Text.Quoted
import Offside.Token.Kind

/-!
# Tokens

A token is a kind, the characters it stands for, and the place of its first rune. The value of a
string token is the text between the quotes with its escapes undone; line breaks and the end of
the source have an empty value.
-/

set_option autoImplicit false

namespace Offside

/-- A word of the source. -/
structure Token where
  /-- What the token is. -/
  kind : Kind
  /-- The characters it stands for. -/
  value : String
  /-- The place of its first rune. -/
  pos : Position
  deriving DecidableEq, Repr, Inhabited

namespace Token

/-- The token that stands before the first token of every source. -/
def origin : Token := ⟨.endOfInput, "", .start⟩

/-- Whether the token is of one of the given kinds. -/
def isOneOf (t : Token) (kinds : List Kind) : Bool := kinds.contains t.kind

/-- A token as listings show it. -/
def render (t : Token) : String :=
  if t.value.isEmpty then s!"{t.kind.name} {t.pos.render}"
  else s!"{t.kind.name}({Quoted.string t.value}) {t.pos.render}"

end Token

end Offside
