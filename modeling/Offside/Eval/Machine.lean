import Offside.Eval.Journal
import Offside.Scope

/-!
# The machine that runs programs

The state of a run: the live scopes, the number of calls in progress, the input still to be read,
what was written, how many more writes and questions for cancellation will succeed, the next
identity for a function, and the journal. A run keeps its state also when it stops without a
result.
-/

set_option autoImplicit false

namespace Offside

/-- The state of a run. -/
structure Machine where
  /-- The live scopes. -/
  scopes : Scopes
  /-- The number of calls in progress. -/
  depth : Nat
  /-- The input still to be read. -/
  input : Text
  /-- Whether reading beyond the input fails, where otherwise the input ends. -/
  inputBroken : Bool
  /-- The pieces written so far, the latest first. -/
  output : List Text
  /-- How many more writes succeed, if there is a limit. -/
  writesLeft : Option Nat
  /-- How many more questions find the run not cancelled, if it is going to be. -/
  checksLeft : Option Nat
  /-- The identity that the next function gets. -/
  nextId : Nat
  /-- The journal, the latest line first. -/
  journal : List JournalEntry
  deriving Inhabited

/-- A computation on the machine. -/
abbrev Run (α : Type) := EStateM Halt Machine α

namespace Machine

/-- Everything that was written, in order. -/
def written (m : Machine) : Text := m.output.reverse.flatten

end Machine

namespace Run

/-- Stops because of a fault. -/
def fail {α : Type} (f : Fault) : Run α := throw (.fault f)

/-- Asks whether the run is cancelled, and stops if so. -/
def check : Run Unit := fun m =>
  match m.checksLeft with
  | none => .ok () m
  | some 0 => .error .cancelled m
  | some (n + 1) => .ok () { m with checksLeft := some n }

/-- Writes a line into the journal. -/
def log (entry : JournalEntry) : Run Unit := fun m =>
  .ok () { m with journal := entry :: m.journal }

/-- A new identity for a function. -/
def freshId : Run Nat := fun m => .ok m.nextId { m with nextId := m.nextId + 1 }

/-- The value of a name as seen from a slot. -/
def lookup (slot : Nat) (name : String) : Run Value := fun m =>
  match m.scopes.get slot name with
  | .ok v => .ok v m
  | .error h => .error h m

/-- Declares a name in a frame. -/
def declare (slot : Nat) (name : String) (value : Value) : Run Unit := fun m =>
  match m.scopes.declare slot name value with
  | .ok scopes => .ok () { m with scopes := scopes }
  | .error h => .error h m

/-- Declares names in a frame, the first with the argument at the given index and the others with
those after it. -/
def declareAll (slot : Nat) (args : List Value) : (index : Nat) → List String → Run Unit
  | _, [] => pure ()
  | index, name :: names =>
      match args[index]? with
      | none => throw (.defect (.noArgument index args.length))
      | some value => do
          declare slot name value
          declareAll slot args (index + 1) names

/-- Gives a name a new value as seen from a slot. -/
def assign (slot : Nat) (name : String) (value : Value) : Run Unit := fun m =>
  match m.scopes.set slot name value with
  | .ok scopes => .ok () { m with scopes := scopes }
  | .error h => .error h m

/-- Leaves a call: its frame is released and no longer counted. -/
def leave (frame : Nat) : Run Unit := fun m =>
  let left := { m with depth := m.depth - 1 }
  match m.scopes.release frame with
  | .ok scopes => .ok () { left with scopes := scopes }
  | .error h => .error h left

/-- Runs a body in a new frame under the given slot. However the body ends, the frame is left. -/
@[inline] def inNewFrame {α : Type} (slot : Nat) (body : (frame : Nat) → Run α) : Run α := fun m =>
  let (scopes, frame) := m.scopes.child slot
  match body frame { m with scopes := scopes, depth := m.depth + 1 } with
  | .ok v m => (do leave frame; pure v : Run α) m
  | .error h m => (do leave frame; throw h : Run α) m

/-- Writes one piece of output. -/
def write (piece : Text) : Run Unit := fun m =>
  match m.writesLeft with
  | none => .ok () { m with output := piece :: m.output }
  | some 0 => .error .writeFailed m
  | some (n + 1) => .ok () { m with output := piece :: m.output, writesLeft := some n }

end Run

end Offside
