import Offside.Token.Stream

/-!
# Reading a token stream

The grammar reads a token stream from its front and remembers one thing about the past: whether
the last token it took was a line break. It also notes every block it completes, and these notes
outlive a stop.
-/

set_option autoImplicit false

namespace Offside

/-- A note about a completed block. -/
structure BlockNote where
  /-- The place of its first token. -/
  pos : Position
  /-- The number of its statements. -/
  count : Nat
  deriving DecidableEq, Repr, Inhabited

/-- A token stream that is being read. -/
structure Reading where
  /-- The tokens to come before the end. -/
  front : List Token
  /-- What every look beyond them gives. -/
  final : Except Halt Token
  /-- Whether the last token taken was a line break. -/
  afterBreak : Bool
  /-- The blocks completed so far, the latest first. -/
  notes : List BlockNote

/-- A token stream read from its start. -/
def Reading.ofStream (s : TokenStream) : Reading := ⟨s.front, s.final, false, []⟩

/-- A piece of the grammar: it reads tokens and gives a result, or stops. -/
abbrev Grammar (α : Type) := EStateM Halt Reading α

/-- Whether a token is a line break. -/
def Token.isBreak (t : Token) : Bool := t.kind == .newline

namespace Grammar

/-- Stops because of a fault. -/
def fail {α : Type} (f : Fault) : Grammar α := throw (.fault f)

/-- The next token, which is not taken. -/
def peek : Grammar Token := fun s =>
  match s.front, s.final with
  | t :: _, _ => .ok t s
  | [], .ok t => .ok t s
  | [], .error h => .error h s

/-- Takes the next token. The end of the stream can be taken again and again. -/
def next : Grammar Token := fun s =>
  match s.front, s.final with
  | t :: rest, _ => .ok t { s with front := rest, afterBreak := t.isBreak }
  | [], .ok t => .ok t { s with afterBreak := t.isBreak }
  | [], .error h => .error h s

/-- Whether the next token is of one of the given kinds. -/
def peekIs (kinds : List Kind) : Grammar Bool := do
  let t ← peek
  pure (t.isOneOf kinds)

/-- Takes the next token, which has to be of one of the given kinds. -/
def expect (kinds : List Kind) : Grammar Token := do
  let t ← next
  if t.isOneOf kinds then pure t
  else fail (.unexpected t.kind kinds "" t.pos)

/-- Takes all line breaks up to the next other token. -/
def skipBreaks : Grammar Unit := do
  modify fun s =>
    { s with
      front := s.front.dropWhile Token.isBreak
      afterBreak := s.afterBreak || s.front.head?.any Token.isBreak }
  let _ ← peek
  pure ()

/-- Whether the next token continues the current line as one of the given kinds. Where a line
break was just taken, the line is over. -/
def continuesWith (kinds : List Kind) : Grammar Bool := do
  let s ← get
  if s.afterBreak then pure false else peekIs kinds

/-- Ends a statement that takes one line: a line break was just taken, or the source ends, or a
line break has to follow. -/
def endLine : Grammar Unit := do
  let s ← get
  if s.afterBreak then pure ()
  else if ← peekIs [.endOfInput] then pure ()
  else
    let _ ← expect [.newline]
    pure ()

/-- Notes a completed block. -/
def note (pos : Position) (count : Nat) : Grammar Unit :=
  modify fun s => { s with notes := ⟨pos, count⟩ :: s.notes }

end Grammar

end Offside
