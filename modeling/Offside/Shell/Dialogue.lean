import Offside.Entry
import Offside.Session

/-!
# Dialogues

A dialogue runs the entries of its input one after the other in one session. The programs read
from the same input, so a line that a program reads is no part of an entry. Values are shown as
output, and a fault is a line of complaints and ends nothing but its entry.
-/

set_option autoImplicit false

namespace Offside

/-- What a dialogue said. -/
structure Dialogue where
  /-- What was written and shown. -/
  output : Text
  /-- The complaints. -/
  complaints : Text
  deriving DecidableEq, Repr, Inhabited

namespace Dialogue

/-- A value on a line of its own; nil is not shown. -/
def shown : Value → Text
  | .nil => []
  | v => v.text ++ [lineFeed]

/-- A text without its first lines. -/
def dropLines (count : Nat) (t : Text) : Text := ((Entry.linesOf t).drop count).flatten

/-- Runs an entry: what it says, and the session after it. -/
def runEntry (s : Session) (entry : Text) : Dialogue × Session :=
  let (outcome, s) := s.runText Session.ampleFuel none entry
  let (written, _, s) := s.flush
  match outcome with
  | .ok v => (⟨written ++ shown v, []⟩, s)
  | .error h => (⟨written, Text.ofString h.message ++ [lineFeed]⟩, s)

/-- Runs at most `count` entries of a session's input. At the end of the input the line is
ended. -/
def runEntries : (count : Nat) → Session → Dialogue
  | 0, _ => ⟨[lineFeed], []⟩
  | count + 1, s =>
      let answers := Entry.answersOf false s.machine.input
      let reading := Entry.read false [] answers
      match reading.entry with
      | none => ⟨[lineFeed], []⟩
      | some entry =>
          let used := answers.length - reading.rest.length
          let left := dropLines used s.machine.input
          let (said, s) := runEntry { s with machine.input := left } entry
          let more := runEntries count s
          ⟨said.output ++ more.output, said.complaints ++ more.complaints⟩

/-- The dialogue over an input. Every entry takes a byte of it at least. -/
def ofInput (echo : Bool) (input : Text) : Dialogue :=
  runEntries input.length (Session.start ⟨echo, Options.defaultMaxDepth⟩ input false none)

end Dialogue

end Offside
