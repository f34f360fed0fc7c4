import Offside.Position
import Offside.Value

/-!
# The journal of a run

While programs are read and run, a journal is kept of what happens. Its lines have a level and
name the part that wrote them.
-/

set_option autoImplicit false

namespace Offside

/-- A line of the journal. -/
inductive JournalEntry where
  /-- A block was read. -/
  | block (pos : Position) (count : Nat)
  /-- A whole source was read. -/
  | parsed (count : Nat)
  /-- A run starts. -/
  | started (count : Nat)
  /-- A function is entered; the live frames are counted with its own. -/
  | call (name : String) (args : Nat) (frames : Nat)
  /-- A run came to the end of its statements. -/
  | finished (kind : ValueKind)
  deriving DecidableEq, Repr, Inhabited

/-- A line of the journal as text. -/
def JournalEntry.render : JournalEntry → String
  | block pos count => s!"TRACE parser: block at {pos.render} holds {count} statements"
  | parsed count => s!"DEBUG parser: parsed {count} top-level statements"
  | started count => s!"DEBUG interpreter: interpreting {count} statements"
  | call name args frames =>
      s!"TRACE interpreter: call {name} with {args} arguments at depth {frames}"
  | finished kind => s!"DEBUG interpreter: finished with {kind.name}"

end Offside
