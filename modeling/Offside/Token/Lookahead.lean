import Offside.Token.Scan

/-!
# A source with one token of lookahead

A token that was looked at is kept until it is taken. A failed look keeps nothing: the next
request goes on where the source stands.
-/

set_option autoImplicit false

namespace Offside

/-- A source with at most one token read ahead of it. -/
structure Lookahead where
  /-- The source behind the token read ahead. -/
  source : Source
  /-- The token read ahead, if there is one. -/
  ahead : Option Token
  deriving DecidableEq, Repr, Inhabited

namespace Lookahead

/-- A text, read from its start, with nothing read ahead. -/
def ofText (t : Text) (broken : Bool) : Lookahead := ⟨.ofText t broken, none⟩

/-- Takes the next token. -/
def take (l : Lookahead) : Except Halt Token × Lookahead :=
  match l.ahead with
  | some t => (.ok t, { l with ahead := none })
  | none =>
      let (outcome, left) := l.source.scan
      (outcome, ⟨left, none⟩)

/-- Shows the next token and keeps it. -/
def peek (l : Lookahead) : Except Halt Token × Lookahead :=
  match l.ahead with
  | some t => (.ok t, l)
  | none =>
      let (outcome, left) := l.source.scan
      (outcome, ⟨left, outcome.toOption⟩)

/-- Whether the next token is of one of the given kinds; the token is kept. -/
def peekIs (l : Lookahead) (kinds : List Kind) : Except Halt Bool × Lookahead :=
  let (outcome, left) := l.peek
  (outcome.map fun t => t.isOneOf kinds, left)

/-- Takes the next token, which has to be of one of the given kinds. -/
def expect (l : Lookahead) (kinds : List Kind) : Except Halt Token × Lookahead :=
  let (outcome, left) := l.take
  let checked : Except Halt Token := do
    let t ← outcome
    if t.isOneOf kinds then pure t
    else throw (.fault (.unexpected t.kind kinds "" t.pos))
  (checked, left)

end Lookahead

end Offside
